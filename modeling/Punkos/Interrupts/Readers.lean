import Punkos.Foundation.Cancellation
import Punkos.Interrupts.Atomic

/-!
# What the readers get

There are two readers of the keyboard. `read_line` gets what comes up to the first newline and the
echo loop gets the rest, whichever of the characters were typed before `read_line` returned. The
line that `read_line` returns is the normal form of its part of what was typed, for every order of
the steps of `kernel_main` and of the handlers (`Core.readers_share`).
-/

namespace Punkos

open Transition Keyboard
open Cancellation (type typed typed_concat IsNormalForm isNormalForm_iff)

/-! ## Who gets what -/

/-- How far `kernel_main` is with the line. -/
inductive ReaderStage where
  /-- `read_line` has not been called. -/
  | before
  /-- In `read_line`, with a character that has been popped and not yet looked at. -/
  | line (hand : Option Char)
  /-- `read_line` has returned. -/
  | after
  /-- In `hcf`. -/
  | stopped
  deriving DecidableEq, Repr

/-- The stage at a place. -/
def MainPc.stage : MainPc → ReaderStage
  | .lockPics | .initializePics | .unlockPics | .initPit | .enable => .before
  | .testTicks | .hlt .ticks | .setUp => .before
  | .lockBuf .line | .pop .line | .hlt .line => .line none
  | .unlockBuf .line c | .returned .line c => .line c
  | .startRender | .frame | .hlt .frame => .after
  | .lockBuf .echo | .pop .echo | .unlockBuf .echo _ | .returned .echo _ => .after
  | .hlt .hcf => .stopped

theorem stage_wake (pc : MainPc) : pc.wake.stage = pc.stage := by
  rcases pc with _ | _ | _ | _ | _ | _ | _ | _ | _ | _ | _ | _ | _ | z
  case hlt => rcases z with _ | _ | _ | _ <;> rfl
  all_goals rfl

/-- The text is split at its first newline. -/
structure Split (l : List Effect) : Prop where
  /-- What `read_line` gets comes before what the echo loop gets. -/
  text : text l = textOf .line l ++ textOf .echo l
  /-- `read_line` asks for nothing after a newline. -/
  line : '\n' ∉ (textOf .line l).dropLast
  /-- The echo loop asks for nothing before one. -/
  echo : textOf .echo l ≠ [] → (textOf .line l).getLast? = some '\n'

/-- What the readers have got at a stage, with what `read_line` has made of it. -/
def ReaderStage.Got (l : List Effect) (line : List Char) : ReaderStage → Prop
  | .before => given l = []
  | .line hand => ∃ body, '\n' ∉ body ∧ textOf .line l = body ++ hand.toList ∧
      textOf .echo l = [] ∧ text l = textOf .line l ∧ line = typed '\x08' body
  | .after => ∃ body, '\n' ∉ body ∧ textOf .line l = body ++ ['\n'] ∧
      text l = textOf .line l ++ textOf .echo l ∧ line = typed '\x08' body
  | .stopped => Split l

theorem ReaderStage.Got.split {l : List Effect} {line : List Char} {stage : ReaderStage}
    (h : stage.Got l line) : Split l := by
  rcases stage with _ | hand | _ | _
  · have hnone : ∀ r, textOf r l = [] := fun r ↦ by
      rw [textOf, show given l = [] from h]
      rfl
    refine ⟨?_, ?_, fun hne ↦ absurd (hnone .echo) hne⟩
    · rw [hnone, hnone, Punkos.text, show given l = [] from h]
      rfl
    · rw [hnone]
      exact List.not_mem_nil
  · obtain ⟨body, hbody, hline, hecho, htext, -⟩ := h
    refine ⟨?_, ?_, fun hne ↦ absurd hecho hne⟩
    · rw [htext, hecho, List.append_nil]
    · rw [hline]
      rcases hand with _ | c
      · rw [Option.toList_none, List.append_nil]
        exact fun hmem ↦ hbody (List.dropLast_subset body hmem)
      · rw [Option.toList_some, List.dropLast_concat]
        exact hbody
  · obtain ⟨body, hbody, hline, htext, -⟩ := h
    refine ⟨htext, ?_, fun _ ↦ ?_⟩
    · rw [hline, List.dropLast_concat]
      exact hbody
    · rw [hline, List.getLast?_concat]
  · exact h

namespace Core

variable {s t : Core}

/-- Neither a reader nor the line is concerned. -/
theorem got_of_eq {l e : List Effect} (hs : s.mainline.stage.Got l s.line) (he : given e = [])
    (hstage : t.mainline.stage = s.mainline.stage) (hline : t.line = s.line) :
    t.mainline.stage.Got (l ++ e) t.line := by
  have hgiven : given (l ++ e) = given l := by
    rw [given, List.filterMap_append, show e.filterMap Effect.given = [] from he, List.append_nil]
    rfl
  rw [hstage, hline]
  rcases hst : s.mainline.stage with _ | hand | _ | _ <;> rw [hst] at hs
  · exact hgiven.trans hs
  · rw [ReaderStage.Got, textOf, textOf, text, hgiven]
    exact hs
  · rw [ReaderStage.Got, textOf, textOf, text, hgiven]
    exact hs
  · have hsplit : Split l := hs
    constructor
    · rw [textOf, textOf, text, hgiven]
      exact hsplit.text
    · rw [textOf, hgiven]
      exact hsplit.line
    · rw [textOf, textOf, hgiven]
      exact hsplit.echo

theorem stage_acquire {l : Lock} {who : Owner} (h : t.mainline.stage = s.mainline.stage) :
    (s.acquire l who t).mainline.stage = s.mainline.stage := by
  by_cases hfree : s.locks l = none
  · rw [acquire_of_free hfree]
    exact h
  · rw [acquire_of_owned hfree]

/-- `kernel_main` gets further in `setUp`, `pop` and `edit` only. -/
theorem stage_mainStep (hsetUp : s.mainline ≠ .setUp) (hpop : ∀ r, s.mainline ≠ .pop r)
    (hedit : ∀ c, s.mainline ≠ .returned .line (some c)) (hstart : s.mainline ≠ .startRender)
    (h : s.mainStep = some t) : t.mainline.stage = s.mainline.stage ∧ t.line = s.line := by
  rw [mainStep] at h
  split at h
  case h_1 hpc =>
    obtain rfl := Option.some.inj h
    exact ⟨stage_acquire (congrArg MainPc.stage hpc).symm, line_acquire rfl⟩
  case h_6 hpc =>
    obtain rfl := Option.some.inj h
    rw [hpc]
    by_cases hticks : s.ticks < 10
    · rw [if_pos hticks]
      exact ⟨rfl, rfl⟩
    · rw [if_neg hticks]
      exact ⟨rfl, rfl⟩
  case h_7 hpc => exact absurd hpc hsetUp
  case h_8 r hpc =>
    obtain rfl := Option.some.inj h
    refine ⟨stage_acquire ?_, line_acquire rfl⟩
    rw [hpc]
    rcases r with _ | _ <;> rfl
  case h_9 r hpc => exact absurd hpc (hpop r)
  case h_10 r c hpc =>
    obtain rfl := Option.some.inj h
    rw [hpc]
    rcases r with _ | _ <;> exact ⟨rfl, rfl⟩
  case h_12 c hpc => exact absurd hpc (hedit c)
  case h_15 hpc => exact absurd hpc hstart
  case h_17 => cases h
  all_goals
    rename_i hpc
    obtain rfl := Option.some.inj h
    rw [hpc]
    exact ⟨rfl, rfl⟩

/-- `read_line` looks at a character. -/
theorem got_edit {l : List Effect} {c : Char} (hpc : s.mainline = .returned .line (some c))
    (hs : s.mainline.stage.Got l s.line) : (s.edit c).mainline.stage.Got l (s.edit c).line := by
  rw [hpc] at hs
  obtain ⟨body, hbody, hline, hecho, htext, hedited⟩ := hs
  rw [Option.toList_some] at hline
  rw [edit]
  by_cases hnewline : c = '\n'
  · rw [if_pos hnewline]
    refine ⟨body, hbody, ?_, ?_, hedited⟩
    · rw [hline, hnewline]
    · rw [htext, hecho, List.append_nil]
  · rw [if_neg hnewline]
    have hbody' : '\n' ∉ body ++ [c] := by
      rw [List.mem_append, List.mem_singleton]
      rintro (hmem | hmem)
      · exact hbody hmem
      · exact hnewline hmem.symm
    -- the character is taken into the line or, as a backspace, shortens it
    have htyped : typed '\x08' (body ++ [c]) = type '\x08' s.line c := by
      rw [typed_concat, hedited]
    have hgot : (ReaderStage.line none).Got l (type '\x08' s.line c) := by
      -- the popped character is no longer in hand: it belongs to the body now
      refine ⟨body ++ [c], hbody', ?_, hecho, htext, htyped.symm⟩
      rw [hline, Option.toList_none, List.append_nil]
    rw [type] at hgot
    by_cases herase : c = '\x08'
    · rw [if_pos herase] at hgot ⊢
      exact hgot
    · rw [if_neg herase] at hgot ⊢
      exact hgot

theorem given_read (r : Reader) (c : Option Char) :
    given [.read r c] = c.toList.map fun c ↦ (r, c) := by
  rcases c with _ | c <;> rfl

theorem textOf_read (r r' : Reader) (c : Option Char) :
    textOf r [.read r' c] = if r' = r then c.toList else [] := by
  rw [textOf, given_read]
  rcases c with _ | c
  · exact (ite_self _).symm
  · by_cases h : r' = r
    · simp [h]
    · simp [h]

theorem text_read (r : Reader) (c : Option Char) : text [.read r c] = c.toList := by
  rw [text, given_read]
  rcases c with _ | c <;> rfl

/-- A reader gets a character. -/
theorem got_pop {l : List Effect} {r : Reader} (hpc : s.mainline = .pop r) (c : Option Char)
    (hs : s.mainline.stage.Got l s.line) :
    (MainPc.unlockBuf r c).stage.Got (l ++ [.read r c]) s.line := by
  rw [hpc] at hs
  rcases r with _ | _
  · obtain ⟨body, hbody, hline, hecho, htext, hedited⟩ := hs
    rw [Option.toList_none, List.append_nil] at hline
    refine ⟨body, hbody, ?_, ?_, ?_, hedited⟩
    · rw [textOf_append, textOf_read, if_pos rfl, hline]
    · rw [textOf_append, textOf_read, if_neg (by decide), hecho]
      rfl
    · rw [text_append, textOf_append, text_read, textOf_read, if_pos rfl, htext]
  · obtain ⟨body, hbody, hline, htext, hedited⟩ := hs
    refine ⟨body, hbody, ?_, ?_, hedited⟩
    · rw [textOf_append, textOf_read, if_neg (by decide), hline, List.append_nil]
    · rw [text_append, textOf_append, textOf_append, text_read, textOf_read, textOf_read,
        if_neg (by decide), if_pos rfl, htext, List.append_nil, List.append_assoc]

theorem got_mainStep {l : List Effect} (hs : s.mainline.stage.Got l s.line)
    (h : s.mainStep = some t) : t.mainline.stage.Got (l ++ s.effect .main) t.line := by
  by_cases hpop : ∃ r, s.mainline = .pop r
  · obtain ⟨r, hpc⟩ := hpop
    rw [effect_main_of_pop hpc]
    have hgot := got_pop hpc s.buf.pop.1 hs
    rw [mainStep, hpc] at h
    obtain rfl := Option.some.inj h
    exact hgot
  push Not at hpop
  rw [effect_main_of_ne hpop]
  by_cases hedit : ∃ c, s.mainline = .returned .line (some c)
  · obtain ⟨c, hpc⟩ := hedit
    rw [List.append_nil]
    have hgot := got_edit hpc hs
    rw [mainStep, hpc] at h
    obtain rfl := Option.some.inj h
    exact hgot
  push Not at hedit
  by_cases hsetUp : s.mainline = .setUp
  · rw [mainStep, hsetUp] at h
    obtain rfl := Option.some.inj h
    rw [hsetUp] at hs
    -- `read_line` is called, with an empty line
    have hnone : given (l ++ []) = [] := (congrArg given (List.append_nil l)).trans hs
    refine ⟨[], List.not_mem_nil, ?_, ?_, ?_, rfl⟩
    · rw [textOf, hnone]
      rfl
    · rw [textOf, hnone]
      rfl
    · rw [text, textOf, hnone]
      rfl
  by_cases hstart : s.mainline = .startRender
  · rw [mainStep, hstart] at h
    obtain rfl := Option.some.inj h
    rw [List.append_nil]
    -- without a framebuffer `kernel_main` goes to `hcf` and nobody reads on
    by_cases hfb : s.framebuffer = true
    · rw [hstart] at hs
      rw [if_pos hfb]
      exact hs
    · rw [if_neg hfb]
      exact hs.split
  obtain ⟨hstage, hline⟩ := stage_mainStep hsetUp hpop hedit hstart h
  exact got_of_eq hs rfl hstage hline

theorem given_effect_handler (s : Core) : given (s.effect .handler) = [] := by
  rw [effect]
  split <;> rfl

/-- **The readers share the text as they should**, whatever the order of steps and interrupts. -/
theorem Step.got {l : List Effect} {a : Act} (h : s.Step a t)
    (hs : s.mainline.stage.Got l s.line) : t.mainline.stage.Got (l ++ s.effect a) t.line := by
  rcases h with ⟨-, hmain⟩ | ⟨-, hpc⟩ | ⟨-, hpanic⟩ | - | ⟨-, -⟩ | ⟨-, -⟩
  · exact got_mainStep hs hmain
  · rw [effect_main_of_ne fun r hr ↦ MainPc.noConfusion (hpc.symm.trans hr)]
    exact got_of_eq hs rfl rfl rfl
  · rw [effect_main_of_ne (pop_ne_of_mayPanic hpanic), List.append_nil]
    exact hs.split
  · obtain ⟨hmain, hline⟩ := mainline_handlerStep (s := s) _
    exact got_of_eq hs (given_effect_handler s) (congrArg MainPc.stage hmain) hline
  · exact got_of_eq hs rfl (stage_wake s.mainline) rfl
  · exact got_of_eq hs rfl (stage_wake s.mainline) rfl

/-! ## Whole runs -/

/-- The condition on a step: a handler that has a character finds room for it. -/
def Roomy (s : Core) (a : Act) : Prop :=
  a = .handler → ∀ sc, s.handler = some (.scancode sc) → (decode sc s.shift).2 ≠ none →
    s.buf.pending.length < bufSize - 1

/-- The condition on the calls, one call later. -/
theorem neverFull_concat {N : ℕ} {s : State N} {l : List Call} {c : Call} (hl : s.NeverFull l)
    (hc : ∀ b, c = .handleScancode b → (decode b (s.after l).shift).2 ≠ none →
      (s.after l).buf.pending.length < N - 1) : s.NeverFull (l ++ [c]) := by
  intro pre b post heq hne
  rcases List.eq_nil_or_concat' post with rfl | ⟨post, d, rfl⟩
  -- the last call is the new one, the others are those of `l`
  · obtain ⟨rfl, hcall⟩ := List.append_inj' heq rfl
    exact hc b (List.singleton_inj.mp hcall) hne
  · rw [← List.cons_append, ← List.append_assoc] at heq
    obtain ⟨rfl, -⟩ := List.append_inj' heq rfl
    exact hl pre b post rfl hne

/-- What is seen of a step is one call or none. -/
theorem calls_effect (s : Core) (a : Act) :
    calls (s.effect a) = [] ∨ calls (s.effect a) = [.readChar] ∨
      ∃ sc, a = .handler ∧ s.handler = some (.scancode sc) ∧
        calls (s.effect a) = [.handleScancode sc] := by
  rcases a with _ | _ | _ | _
  · rw [effect]
    split
    · exact .inr (.inl rfl)
    · exact .inl rfl
  · rw [effect]
    split
    · exact .inl rfl
    · rename_i sc hh
      exact .inr (.inr ⟨sc, rfl, hh, rfl⟩)
    · exact .inl rfl
  · exact .inl rfl
  · exact .inl rfl

/-- In a roomy run the driver is never full when a character comes. -/
theorem neverFull_of_trace {framebuffer : Bool} {acts : List Act} {l : List Effect} {s : Core}
    (h : Trace (Guarded Step Roomy) effect (.boot framebuffer) acts l s) :
    (State.boot bufSize).NeverFull (calls l) := by
  have hinv : Told l s ∧ (State.boot bufSize).NeverFull (calls l) := by
    apply h.invariant (I := fun _ l s ↦ Told l s ∧ (State.boot bufSize).NeverFull (calls l))
    · rintro - l s a t ⟨htold, hroom⟩ ⟨hstep, hroomy⟩
      refine ⟨htold.step hstep, ?_⟩
      rw [calls_append]
      rcases calls_effect s a with hnone | hread | ⟨sc, ha, hh, hcall⟩
      · rwa [hnone, List.append_nil]
      -- a `read_char` makes no demand on the room
      · rw [hread]
        exact neverFull_concat hroom fun b hb ↦ nomatch hb
      · rw [hcall]
        apply neverFull_concat hroom
        intro b hb hne
        obtain rfl := Call.handleScancode.inj hb
        -- a handler that has not decoded its byte has nothing in hand
        have hdriver : s.driver = ⟨s.buf, s.shift⟩ := by
          rw [driver, hh]
          rfl
        rw [← htold.driver, hdriver] at hne ⊢
        exact hroomy ha sc hh hne
    · refine ⟨Told.boot framebuffer, fun pre b post heq ↦ ?_⟩
      exact absurd heq (List.append_ne_nil_of_right_ne_nil _ (List.cons_ne_nil _ _)).symm
  exact hinv.2

/-- Reads do not change what the keyboard produces. -/
theorem produced_calls (shift : Bool) (l : List Effect) :
    produced shift (calls l) = produced shift (handled (l.filterMap Effect.byte)) := by
  induction l generalizing shift with
  | nil => rfl
  | cons e l ih =>
    rcases e with _ | sc | ⟨r, c⟩
    · exact ih shift
    · exact congrArg ((decode sc shift).2.toList ++ ·) (ih (decode sc shift).1)
    · exact ih shift

/-- What is typed later comes later. -/
theorem produced_handled_isPrefix (shift : Bool) (bs bs' : List (BitVec 8)) :
    produced shift (handled bs) <+: produced shift (handled (bs ++ bs')) := by
  induction bs generalizing shift with
  | nil => exact List.nil_prefix
  | cons b bs ih =>
    exact (List.prefix_append_right_inj _).mpr (ih (decode b shift).1)

/-- The stage a trace leads to. -/
theorem got_of_trace {framebuffer : Bool} {acts : List Act} {l : List Effect} {s : Core}
    (h : Trace Step effect (.boot framebuffer) acts l s) : s.mainline.stage.Got l s.line :=
  h.invariant (I := fun _ l s ↦ s.mainline.stage.Got l s.line)
    (fun _ _ _ _ _ hs hstep ↦ hstep.got hs) rfl

instance (s : Core) (a : Act) : Decidable (s.Roomy a) :=
  match a with
  | .main => .isTrue fun h ↦ nomatch h
  | .timer => .isTrue fun h ↦ nomatch h
  | .keyboard _ => .isTrue fun h ↦ nomatch h
  | .handler =>
    match h : s.handler.bind HandlerPc.atPort with
    | none => .isTrue fun _ sc hsc ↦ by simp [hsc, HandlerPc.atPort] at h
    | some sc =>
      decidable_of_iff ((decode sc s.shift).2 ≠ none → s.buf.pending.length < bufSize - 1)
        ⟨fun hroom _ sc' hsc ↦ by
          rw [hsc] at h
          exact Option.some.inj h ▸ hroom,
        fun hroom ↦ by
          obtain ⟨pc, hpc, hport⟩ := Option.bind_eq_some_iff.mp h
          rcases pc <;> cases hport
          exact hroom rfl sc hpc⟩

/-- The roomy steps as a program. -/
def nextRoomy (s : Core) (a : Act) : Option Core := if s.Roomy a then s.next a else none

theorem guarded_of_nextRoomy {s t : Core} {a : Act} (h : s.nextRoomy a = some t) :
    Guarded Step Roomy s a t := by
  obtain ⟨hroomy, hnext⟩ := Option.ite_none_right_eq_some.mp h
  exact ⟨step_of_next hnext, hroomy⟩

set_option maxRecDepth 8000 in
theorem exists_roomy_trace_typedHi : ∃ l s,
    Trace (Guarded Step Roomy) effect (.boot true) typedHi l s ∧
      textOf .line l = ['h', 'i', '\x08', '\n'] ∧ textOf .echo l = ['x'] ∧ s.line = ['h'] := by
  have hexec : (typedHi.foldlM (fun (p : List Effect × Core) a ↦
      (p.2.nextRoomy a).map fun u ↦ (p.1 ++ p.2.effect a, u)) ([], .boot true)).map
        (fun p ↦ (textOf .line p.1, textOf .echo p.1, p.2.line)) =
      some (['h', 'i', '\x08', '\n'], ['x'], ['h']) := by decide +kernel
  obtain ⟨⟨l, s⟩, hs, hfields⟩ := Option.map_eq_some_iff.mp hexec
  simp only [Prod.mk.injEq] at hfields
  exact ⟨l, s, trace_of_foldlM (fun _ _ _ ↦ guarded_of_nextRoomy) hs, hfields⟩

/-- What has been read and what is buffered, as a queue has it. -/
theorem text_append_pending {framebuffer : Bool} {acts : List Act} {l : List Effect} {s : Core}
    (h : Trace Step effect (.boot framebuffer) acts l s) :
    text l ++ s.driver.buf.pending =
      BoundedQueue.taken (bufSize - 1) [] (queueOps false (calls l)) ++
        BoundedQueue.after (bufSize - 1) [] (queueOps false (calls l)) := by
  obtain ⟨htold, -⟩ := told_of_trace h
  obtain ⟨hpending, hreturned⟩ := (State.boot bufSize).refines (calls l)
  rw [htold.text, htold.driver, hpending, hreturned]
  rfl

/-- What comes before the first newline. -/
theorem takeWhile_newline {body rest : List Char} (hbody : '\n' ∉ body) :
    (body ++ '\n' :: rest).takeWhile (· ≠ '\n') = body := by
  rw [List.takeWhile_append_of_pos, List.takeWhile_cons_of_neg (by decide), List.append_nil]
  intro c hc
  exact decide_eq_true fun h ↦ hbody (h ▸ hc)

theorem produced_isPrefix {framebuffer : Bool} {acts : List Act} {l : List Effect} {s : Core}
    (h : Trace Step effect (.boot framebuffer) acts l s) :
    produced false (handled (l.filterMap Effect.byte)) <+:
      produced false (handled (acts.filterMap Act.byte)) := by
  obtain ⟨-, hcounted⟩ := told_of_trace h
  rw [hcounted.bytes]
  exact produced_handled_isPrefix false _ _

section Roomy

variable {framebuffer : Bool} {acts : List Act} {l : List Effect} {s : Core}

/-- Nothing is lost in a roomy run. -/
theorem text_append_pending_of_roomy
    (h : Trace (Guarded Step Roomy) effect (.boot framebuffer) acts l s) :
    text l ++ s.driver.buf.pending = produced false (handled (l.filterMap Effect.byte)) := by
  rw [text_append_pending (h.mono fun _ _ _ hr ↦ hr.1), ← produced_calls, ← arrivals_queueOps]
  exact BoundedQueue.taken_append_after_eq (neverFull_of_trace h).room

/-- The line at the end of `read_line`. -/
theorem line_of_roomy (h : Trace (Guarded Step Roomy) effect (.boot framebuffer) acts l s)
    (hafter : s.mainline.stage = .after) : s.line =
      typed '\x08' ((produced false (handled (acts.filterMap Act.byte))).takeWhile (· ≠ '\n')) := by
  have hstep := h.mono fun _ _ _ hr ↦ hr.1
  have hgot := got_of_trace hstep
  obtain ⟨rest, hrest⟩ := produced_isPrefix hstep
  rw [hafter] at hgot
  obtain ⟨body, hbody, hline, htext, hedited⟩ := hgot
  have htyped : produced false (handled (acts.filterMap Act.byte)) =
      body ++ '\n' :: (textOf .echo l ++ s.driver.buf.pending ++ rest) := by
    rw [← hrest, ← text_append_pending_of_roomy h, htext, hline]
    simp only [List.append_assoc, List.cons_append, List.nil_append]
  rw [htyped, takeWhile_newline hbody]
  exact hedited

end Roomy

/-- **What the readers get.** However the steps and the interrupts fall, what has been read and what
is still buffered is, in order, part of what has been typed; `read_line` gets what comes up to the
first newline, and the echo loop what comes after it. As long as each character finds room nothing
is missing, and once `read_line` has returned its line is the normal form of what was typed before
the first newline. -/
theorem readers_share (framebuffer : Bool) {acts : List Act} {l : List Effect} {s : Core}
    (h : Trace Step effect (.boot framebuffer) acts l s) :
    let typed := produced false (handled (acts.filterMap Act.byte))
    (text l ++ s.driver.buf.pending).Sublist typed ∧
      Split l ∧
      (Trace (Guarded Step Roomy) effect (.boot framebuffer) acts l s →
        (s.handler.bind HandlerPc.atPort = none → text l ++ s.driver.buf.pending = typed) ∧
        (s.mainline.stage = .after →
          IsNormalForm '\x08' (typed.takeWhile (· ≠ '\n')) s.line)) := by
  intro typed
  obtain ⟨-, hcounted⟩ := told_of_trace h
  refine ⟨?_, (got_of_trace h).split, fun hroom ↦ ⟨fun hport ↦ ?_, fun hafter ↦ ?_⟩⟩
  · refine List.Sublist.trans ?_ (produced_isPrefix h).sublist
    rw [text_append_pending h, ← produced_calls, ← arrivals_queueOps]
    exact BoundedQueue.taken_append_after_sublist [] _
  · rw [text_append_pending_of_roomy hroom]
    change _ = produced false (handled (acts.filterMap Act.byte))
    rw [hcounted.bytes, hport, Option.toList_none, List.append_nil]
  · exact isNormalForm_iff.mpr (line_of_roomy hroom hafter)

/-- `hi`, a backspace, a newline and an `x`, typed while the line is read. -/
theorem readers_share_hi : ∃ l s, Trace Step effect (.boot true) typedHi l s ∧
    textOf .line l = ['h', 'i', '\x08', '\n'] ∧ textOf .echo l = ['x'] ∧ s.line = ['h'] ∧
    let typed := produced false (handled (typedHi.filterMap Act.byte))
    (text l ++ s.driver.buf.pending).Sublist typed ∧
      Split l ∧
      (Trace (Guarded Step Roomy) effect (.boot true) typedHi l s →
        (s.handler.bind HandlerPc.atPort = none → text l ++ s.driver.buf.pending = typed) ∧
        (s.mainline.stage = .after →
          IsNormalForm '\x08' (typed.takeWhile (· ≠ '\n')) s.line)) := by
  obtain ⟨l, s, hroomy, hline, hecho, hedited⟩ := exists_roomy_trace_typedHi
  have h := hroomy.mono fun _ _ _ hr ↦ hr.1
  exact ⟨l, s, h, hline, hecho, hedited, readers_share true h⟩

end Core

end Punkos
