import Punkos.Interrupts.Response
import Punkos.Interrupts.Service

/-!
# Everything typed is read

What has to be assumed of a run without an end, for all that is typed to be read in it: the timer
keeps ticking, and `kernel_main` is not passed over for ever whenever it could go on (`Core.Fair`).
That it does not stay asleep is no assumption. A character that comes between the last look at the
buffer and `hlt` is not lost: the next tick ends the sleep, the handler returns, and `kernel_main`
looks again (`Core.Fair.recurs_main`).

`Core.all_typed_read` puts this together with the pace of `Core.reads_within`. What does have to be
assumed is that IRQ1 keeps away from the locked buffer, since there the machine stands still for
ever.
-/

namespace Punkos

open Transition Keyboard
open Cancellation (IsNormalForm isNormalForm_iff typed)

theorem wake_eq_hlt {pc : MainPc} {z : Sleep} (h : pc.wake = .hlt z) : pc.wake = .hlt .hcf := by
  rcases pc with _ | _ | _ | _ | _ | _ | _ | _ | _ | _ | _ | _ | _ | z'
  case hlt =>
    rcases z' with _ | _ | _ | _
    case hcf => rfl
    all_goals cases h
  all_goals cases h

namespace Core

/-- `kernel_main` could go on. -/
def Ready (s : Core) : Prop := s.handler = none ∧ ∀ z, s.mainline ≠ .hlt z

/-- A run without an end in which the timer keeps ticking and `kernel_main` gets its turn. -/
structure Fair (s : ℕ → Core) (a : ℕ → Act) : Prop where
  /-- IRQ1 does not bring a character while `kernel_main` holds the buffer. -/
  run : Endless (Guarded Step Harmless) s a
  /-- IRQ0 comes again and again. -/
  timer : Recurs fun n ↦ a n = .timer
  /-- If `kernel_main` could go on again and again, then it does so again and again. -/
  main : Recurs (fun n ↦ (s n).Ready) → Recurs fun n ↦ a n = .main
  /-- There is no panic, and there is a framebuffer. -/
  running : ∀ n, (s n).mainline ≠ .hlt .hcf

/-! ## One step -/

section Steps

variable {s t : Core}

theorem Step.of_handler (h : s.Step .handler t) {pc : HandlerPc} (hpc : s.handler = some pc) :
    t = s.handlerStep pc := by
  cases h with
  | handler hh => rw [Option.some.inj (hh.symm.trans hpc)]

/-- Between its own steps `kernel_main` is at most woken. -/
theorem Step.mainline_eq {a : Act} (h : s.Step a t) (ha : a ≠ .main) :
    t.mainline = s.mainline ∨ t.mainline = s.mainline.wake := by
  rcases h with ⟨-, -⟩ | ⟨-, -⟩ | ⟨-, -⟩ | - | ⟨-, -⟩ | ⟨-, -⟩
  · exact absurd rfl ha
  · exact absurd rfl ha
  · exact absurd rfl ha
  · exact Or.inl (mainline_handlerStep _).1
  · exact Or.inr rfl
  · exact Or.inr rfl

theorem Step.mainline_of_timer (h : s.Step .timer t) : t.mainline = s.mainline.wake := by
  cases h
  rfl

/-- The end of `read_line` is two steps away from the newline. -/
theorem Step.of_newline (h : s.Step .main t) (ht : t.mainline ≠ .hlt .hcf) :
    (s.mainline = .unlockBuf .line (some '\n') → t.mainline = .returned .line (some '\n')) ∧
      (s.mainline = .returned .line (some '\n') → t.mainline = .startRender) := by
  rcases h with ⟨-, hmain⟩ | ⟨-, hpc⟩ | ⟨-, -⟩
  · constructor
    · intro hpc
      rw [mainStep, hpc] at hmain
      obtain rfl := Option.some.inj hmain
      rfl
    · intro hpc
      rw [mainStep, hpc] at hmain
      obtain rfl := Option.some.inj hmain
      rfl
  · rw [hpc]
    exact ⟨fun h ↦ MainPc.noConfusion h, fun h ↦ MainPc.noConfusion h⟩
  · exact absurd rfl ht

end Steps

/-! ## `kernel_main` gets on -/

section Main

variable {s : ℕ → Core} {a : ℕ → Act} {framebuffer : Bool}

theorem Fair.safe (h : Fair s a) (h₀ : s 0 = .boot framebuffer) (n : ℕ) : (s n).Safe := by
  have htrace := h.run.trace effect 0 n
  rw [h₀, Nat.zero_add] at htrace
  exact Safe.run htrace.run

/-- A handler returns to where `kernel_main` was. -/
theorem Fair.returns (h : Fair s a) (h₀ : s 0 = .boot framebuffer) (n : ℕ) :
    ∃ m ≥ n, (s m).handler = none ∧ (s m).mainline = (s n).mainline := by
  rcases hpc : (s n).handler with _ | pc
  · exact ⟨n, Nat.le_refl n, hpc, rfl⟩
  -- on the steps the handler has to go; the machine can make no others meanwhile
  induction hleft : pc.left using Nat.strong_induction_on generalizing n pc with
  | _ k ih =>
    subst hleft
    have hs := h.safe h₀ n
    have hstep := (h.run n).1
    rw [hstep.eq_handler (hpc ▸ Option.some_ne_none pc)] at hstep
    have hnext := hstep.of_handler hpc
    have hmain : (s (n + 1)).mainline = (s n).mainline := by
      rw [hnext]
      exact (mainline_handlerStep pc).1
    rcases hs.left_handlerStep hpc with ⟨hnone, -, -⟩ | ⟨pc', hpc', hlt⟩
    · exact ⟨n + 1, Nat.le_succ n, hnext ▸ hnone, hmain⟩
    · obtain ⟨m, hm, hhandler, hsame⟩ := ih _ hlt (n + 1) pc' (hnext ▸ hpc') rfl
      exact ⟨m, Nat.le_of_succ_le hm, hhandler, hsame.trans hmain⟩

/-- **`kernel_main` does not sleep for ever.** -/
theorem Fair.recurs_main (h : Fair s a) (h₀ : s 0 = .boot framebuffer) :
    Recurs fun n ↦ a n = .main := by
  refine h.main fun n ↦ ?_
  obtain ⟨m, hm, hact⟩ := h.timer n
  have hstep := (h.run m).1
  rw [hact] at hstep
  -- the tick ends the sleep, and after its handler `kernel_main` is awake
  obtain ⟨k, hk, hhandler, hsame⟩ := h.returns h₀ (m + 1)
  refine ⟨k, by omega, hhandler, fun z hz ↦ h.running k ?_⟩
  rw [hsame, hstep.mainline_of_timer] at hz ⊢
  exact wake_eq_hlt hz

/-- The newline in hand, `read_line` returns. -/
theorem Fair.line_returns (h : Fair s a) (h₀ : s 0 = .boot framebuffer) {n : ℕ}
    (hhand : (s n).mainline.stage = .line (some '\n')) :
    ∃ m > n, (s m).mainline.stage = .after := by
  -- nothing but a step of `kernel_main` moves it from a place where it is awake
  have hstays : ∀ {pc : MainPc} {m : ℕ}, pc.wake = pc → (s m).mainline = pc → a m ≠ .main →
      (s (m + 1)).mainline = pc := by
    intro pc m hawake hpc ha
    rcases (h.run m).1.mainline_eq ha with hsame | hwake
    · exact hsame.trans hpc
    · rw [hwake, hpc, hawake]
  have hgoes : ∀ m, a m = .main →
      ((s m).mainline = .unlockBuf .line (some '\n') →
        (s (m + 1)).mainline = .returned .line (some '\n')) ∧
      ((s m).mainline = .returned .line (some '\n') → (s (m + 1)).mainline = .startRender) := by
    intro m ha
    have hstep := (h.run m).1
    rw [ha] at hstep
    exact hstep.of_newline (h.running (m + 1))
  have hmain := h.recurs_main h₀
  have hunlock : LeadsTo (fun m ↦ (s m).mainline = .unlockBuf .line (some '\n'))
      (fun m ↦ (s m).mainline = .returned .line (some '\n')) := by
    refine hmain.leadsTo (fun m hm ↦ ?_) fun m hm ha ↦ (hgoes m ha).1 hm
    by_cases ha : a m = .main
    · exact Or.inr ((hgoes m ha).1 hm)
    · exact Or.inl (hstays rfl hm ha)
  have hreturn : LeadsTo (fun m ↦ (s m).mainline = .returned .line (some '\n'))
      (fun m ↦ (s m).mainline = .startRender) := by
    refine hmain.leadsTo (fun m hm ↦ ?_) fun m hm ha ↦ (hgoes m ha).2 hm
    by_cases ha : a m = .main
    · exact Or.inr ((hgoes m ha).2 hm)
    · exact Or.inl (hstays rfl hm ha)
  have hafter : ∃ m > n, (s m).mainline = .startRender := by
    rcases hpc : (s n).mainline with _ | _ | _ | _ | _ | _ | _ | r | r | ⟨r, c⟩ | ⟨r, c⟩ | _ | _ | z
    all_goals rw [hpc] at hhand
    case unlockBuf =>
      rcases r with _ | _
      · obtain rfl := ReaderStage.line.inj hhand
        exact (hunlock.trans hreturn) n hpc
      · cases hhand
    case returned =>
      rcases r with _ | _
      · obtain rfl := ReaderStage.line.inj hhand
        exact hreturn n hpc
      · cases hhand
    case hlt => rcases z with _ | _ | _ | _ <;> cases hhand
    case lockBuf => rcases r with _ | _ <;> cases hhand
    case pop => rcases r with _ | _ <;> cases hhand
    all_goals cases hhand
  obtain ⟨m, hm, hstart⟩ := hafter
  exact ⟨m, hm, by rw [hstart]; rfl⟩

/-! ## Everything is read -/

/-- What has been typed up to a time. -/
def typedBy (a : ℕ → Act) (n : ℕ) : List Char :=
  produced false (handled ((labels a 0 n).filterMap Act.byte))

/-- What has been read up to a time. -/
def readBy (s : ℕ → Core) (a : ℕ → Act) (n : ℕ) : List Char := text (seen effect s a 0 n)

theorem typedBy_isPrefix (a : ℕ → Act) {n m : ℕ} (h : n ≤ m) : typedBy a n <+: typedBy a m := by
  obtain ⟨d, rfl⟩ := Nat.exists_eq_add_of_le h
  rw [typedBy, typedBy, labels_add, List.filterMap_append]
  exact produced_handled_isPrefix false _ _

theorem Fair.trace (h : Fair s a) (h₀ : s 0 = .boot framebuffer) (n : ℕ) :
    Trace Step effect (.boot framebuffer) (labels a 0 n) (seen effect s a 0 n) (s n) := by
  have htrace := h.run.trace effect 0 n
  rw [h₀, Nat.zero_add] at htrace
  exact htrace.mono fun _ _ _ hr ↦ hr.1

/-- What is pending is read. -/
theorem Fair.pending_read (h : Fair s a) (h₀ : s 0 = .boot framebuffer) {n : ℕ}
    (hreading : (s n).mainline.stage ≠ .before) :
    ∃ m ≥ n, readBy s a n ++ (s n).driver.buf.pending <+: readBy s a m := by
  obtain ⟨k, hk⟩ := (h.recurs_main h₀).exists_count n (5 * (s n).driver.buf.pending.length)
  have hlater := (h.run.trace effect n k).mono fun _ _ _ hr ↦ hr.1
  have hprefix := pending_isPrefix hlater
  obtain ⟨-, hpos, hcount⟩ := count_le_of_trace (h.safe h₀ n).toInv
    ((rank_pos_iff _).mpr hreading) hlater
  have hrank := rank_le (s n).mainline
  have hall : (s n).driver.buf.pending <+: text (seen effect s a n k) := by
    refine List.prefix_of_prefix_length_le hprefix (List.prefix_append _ _) ?_
    by_contra hlt
    have hle := hcount (Nat.lt_of_not_le hlt)
    omega
  refine ⟨n + k, Nat.le_add_right n k, ?_⟩
  rw [readBy, readBy, seen_add, text_append, Nat.zero_add]
  exact (List.prefix_append_right_inj _).mpr hall

/-- Once `read_line` has been called it is either still reading or has returned. -/
theorem Fair.stage_ne_before (h : Fair s a) (h₀ : s 0 = .boot framebuffer) {n m : ℕ} (hnm : n ≤ m)
    (hreading : (s n).mainline.stage ≠ .before) : (s m).mainline.stage ≠ .before := by
  obtain ⟨d, rfl⟩ := Nat.exists_eq_add_of_le hnm
  have hlater := (h.run.trace effect n d).mono fun _ _ _ hr ↦ hr.1
  exact (rank_pos_iff _).mp (count_le_of_trace (h.safe h₀ n).toInv
    ((rank_pos_iff _).mpr hreading) hlater).2.1

section Roomy

variable (h : Fair s a) (h₀ : s 0 = .boot framebuffer) (hroomy : ∀ n, (s n).Roomy (a n))
include h h₀ hroomy

theorem Fair.roomyTrace (n : ℕ) :
    Trace (Guarded Step Roomy) effect (.boot framebuffer) (labels a 0 n) (seen effect s a 0 n)
      (s n) := by
  have hrun : Endless (Guarded Step Roomy) s a := fun n ↦ ⟨(h.run n).1, hroomy n⟩
  have htrace := hrun.trace effect 0 n
  rwa [h₀, Nat.zero_add] at htrace

/-- Whatever has been typed is read. -/
theorem Fair.typed_read {n₀ : ℕ} (hreading : (s n₀).mainline.stage ≠ .before) (n : ℕ) :
    ∃ m ≥ n, typedBy a n <+: readBy s a m := by
  -- a time at which no handler has a byte that it has not looked at
  obtain ⟨k, hk, hhandler, -⟩ := h.returns h₀ (max n n₀)
  have hbytes := (told_of_trace (h.trace h₀ k)).2.bytes
  rw [hhandler, Option.bind_none, Option.toList_none, List.append_nil] at hbytes
  have hall := text_append_pending_of_roomy (h.roomyTrace h₀ hroomy k)
  rw [← hbytes] at hall
  obtain ⟨m, hm, hread⟩ := h.pending_read h₀
    (h.stage_ne_before h₀ (Nat.le_trans (Nat.le_max_right n n₀) hk) hreading)
  have hnk := Nat.le_trans (Nat.le_max_left n n₀) hk
  refine ⟨m, Nat.le_trans hnk hm, (typedBy_isPrefix a hnk).trans ?_⟩
  rw [typedBy, ← hall]
  exact hread

/-- A newline that has been typed makes `read_line` return. -/
theorem Fair.line_read {n₀ : ℕ} (hreading : (s n₀).mainline.stage ≠ .before) {n : ℕ}
    (hnewline : '\n' ∈ typedBy a n) : ∃ m ≥ n, (s m).mainline.stage = .after := by
  obtain ⟨m, hm, hread⟩ := h.typed_read h₀ hroomy hreading n
  have hmem : '\n' ∈ readBy s a m := hread.subset hnewline
  have hgot := got_of_trace (h.trace h₀ m)
  rcases hstage : (s m).mainline.stage with _ | hand | _ | _
  · rw [hstage] at hgot
    rw [readBy, text, show given (seen effect s a 0 m) = [] from hgot] at hmem
    exact absurd hmem List.not_mem_nil
  · rw [hstage] at hgot
    obtain ⟨body, hbody, hline, -, htext, -⟩ := hgot
    rw [readBy, htext, hline, List.mem_append] at hmem
    -- the body has no newline, so it is the newline that is in hand
    obtain rfl : hand = some '\n' := Option.mem_toList.mp (hmem.resolve_left hbody)
    obtain ⟨k, hk, hafter⟩ := h.line_returns h₀ hstage
    exact ⟨k, Nat.le_trans hm (Nat.le_of_lt hk), hafter⟩
  · exact ⟨m, hm, hstage⟩
  · refine absurd ?_ (h.running m)
    -- `kernel_main` would have stopped
    rcases hpc : (s m).mainline with _ | _ | _ | _ | _ | _ | _ | r | r | ⟨r, c⟩ | ⟨r, c⟩ | _ | _ | z
    all_goals rw [hpc] at hstage
    case hlt =>
      rcases z with _ | _ | _ | _
      case hcf => rfl
      all_goals cases hstage
    all_goals
      first
      | cases hstage
      | (rcases r with _ | _ <;> cases hstage)

end Roomy

/-- **Everything typed is read.** In every run without an end in which the timer keeps ticking,
`kernel_main` gets its turn, IRQ1 keeps away from the locked buffer and each character finds room,
once `read_line` is called all that is typed is read some time later, in order; and when a newline
has been typed, then `read_line` returns some time later, with the normal form of what was typed
before the newline. -/
theorem all_typed_read (h : Fair s a) (h₀ : s 0 = .boot framebuffer)
    (hroomy : ∀ n, (s n).Roomy (a n)) (hreading : ∃ n, (s n).mainline.stage ≠ .before) (n : ℕ) :
    (∃ m ≥ n, typedBy a n <+: readBy s a m) ∧
      ('\n' ∈ typedBy a n → ∃ m ≥ n, (s m).mainline.stage = .after ∧
        IsNormalForm '\x08' ((typedBy a n).takeWhile (· ≠ '\n')) (s m).line) := by
  obtain ⟨n₀, hn₀⟩ := hreading
  refine ⟨h.typed_read h₀ hroomy hn₀ n, fun hnewline ↦ ?_⟩
  obtain ⟨m, hm, hafter⟩ := h.line_read h₀ hroomy hn₀ hnewline
  refine ⟨m, hm, hafter, isNormalForm_iff.mpr ?_⟩
  rw [line_of_roomy (h.roomyTrace h₀ hroomy m) hafter]
  obtain ⟨body, after, hbody, hfirst⟩ := List.eq_append_cons_of_mem hnewline
  obtain ⟨rest, hrest⟩ := typedBy_isPrefix a hm
  rw [hbody, List.append_assoc, List.cons_append] at hrest
  rw [hbody, takeWhile_newline hfirst]
  change typed '\x08' ((typedBy a m).takeWhile (· ≠ '\n')) = _
  rw [← hrest, takeWhile_newline hfirst]

end Main

/-! ## A typist who stops -/

/-- The steps of a fair run as a program. -/
def nextFair (s : Core) (a : Act) : Option Core :=
  if s.Harmless a ∧ s.Roomy a then (s.next a).filter (·.mainline ≠ .hlt .hcf) else none

theorem of_nextFair {s t : Core} {a : Act} (h : s.nextFair a = some t) :
    (Guarded Step Harmless s a t ∧ s.Roomy a) ∧ t.mainline ≠ .hlt .hcf := by
  obtain ⟨⟨hharmless, hroomy⟩, hnext⟩ := Option.ite_none_right_eq_some.mp h
  obtain ⟨hnext, hrunning⟩ := Option.filter_eq_some_iff.mp hnext
  exact ⟨⟨⟨step_of_next hnext, hharmless⟩, hroomy⟩, of_decide_eq_true hrunning⟩

/-- A round of `render::run` in which nothing is typed. -/
def idling : List Act := .timer :: (List.replicate 5 .handler ++ List.replicate 5 .main)

/-- At the end of a round, with nothing left to read. -/
structure Idle (s : Core) : Prop where
  mainline : s.mainline = .hlt .frame
  handler : s.handler = none
  interruptFlag : s.interruptFlag = true
  locks : s.locks = fun _ ↦ none
  buf : s.buf.head = s.buf.tail

theorem Idle.round {s : Core} (hs : s.Idle) :
    ∃ t, idling.foldlM nextFair s = some t ∧ t.Idle := by
  obtain ⟨m, h, f, l, b, sh, tk, ln, lf, fb⟩ := s
  obtain ⟨hmain, hhandler, hflag, hlocks, hempty⟩ := hs
  dsimp only at hmain hhandler hflag hlocks hempty
  subst hmain hhandler hflag hlocks
  have hpop : b.pop = (none, b) := if_pos hempty
  refine ⟨⟨.hlt .frame, none, true, fun _ ↦ none, b, sh, tk + 1, ln, (tk + 1) / 12, fb⟩, ?_,
    rfl, rfl, rfl, rfl, hempty⟩
  simp [idling, nextFair, Harmless, Roomy, next, interrupt, MainPc.wake, Sleep.next, handlerStep,
    mainStep, acquire, release, hpop, Option.filter]

/-- After `typedHi` nothing more is typed. -/
def typedOnce : List Act := typedHi ++ List.replicate 5 .main

set_option maxRecDepth 8000 in
theorem exists_typedOnce : ∃ t, typedOnce.foldlM nextFair (.boot true) = some t ∧ t.Idle := by
  have hexec : (typedOnce.foldlM nextFair (.boot true)).any (fun t ↦ t.mainline = .hlt .frame ∧
      t.handler = none ∧ t.interruptFlag = true ∧ t.locks .buf = none ∧ t.locks .pics = none ∧
        t.buf.head = t.buf.tail) := by decide +kernel
  obtain ⟨t, ht, hidle⟩ := (Option.any_eq_true _ _).mp hexec
  obtain ⟨hmain, hhandler, hflag, hbuf, hpics, hempty⟩ := of_decide_eq_true hidle
  refine ⟨t, ht, hmain, hhandler, hflag, funext fun l ↦ ?_, hempty⟩
  rcases l with _ | _
  · exact hbuf
  · exact hpics

/-- The steps of `kernel_main` and of the handlers then. -/
def typistActs : ℕ → Act := lasso typedOnce idling (by decide)

theorem exists_fair_typistActs : ∃ s, Fair s typistActs ∧ s 0 = .boot true ∧
    (∀ n, (s n).Roomy (typistActs n)) ∧ ∃ n, (s n).mainline.stage ≠ .before := by
  obtain ⟨t, ht, hidle⟩ := exists_typedOnce
  obtain ⟨s, hs₀, hs⟩ := exists_endless_lasso (by decide) ht hidle fun _ ↦ Idle.round
  have hreached : s typedOnce.length = t := by
    have hpre : labels typistActs 0 (typedOnce.length + 0 * idling.length) =
        typedOnce ++ (List.replicate 0 idling).flatten := labels_lasso _ 0
    rw [Nat.zero_mul, Nat.add_zero, List.replicate_zero, List.flatten_nil, List.append_nil] at hpre
    have hfold : (labels typistActs 0 typedOnce.length).foldlM nextFair (s 0) =
        some (s typedOnce.length) := foldlM_labels hs _
    rw [hpre, hs₀, ht] at hfold
    exact (Option.some.inj hfold).symm
  have hrunning : ∀ n, (s n).mainline ≠ .hlt .hcf := by
    intro n
    rcases n with _ | n
    · rw [hs₀]
      exact MainPc.noConfusion
    · exact (of_nextFair (hs n)).2
  refine ⟨s, ⟨fun n ↦ (of_nextFair (hs n)).1.1, recurs_lasso _ (by decide),
    fun _ ↦ recurs_lasso _ (by decide), hrunning⟩, hs₀, fun n ↦ (of_nextFair (hs n)).1.2,
    typedOnce.length, ?_⟩
  rw [hreached, hidle.mainline]
  exact ReaderStage.noConfusion

theorem all_typed_read_hi : ∃ s, s 0 = .boot true ∧
    (∃ m ≥ typedOnce.length, ['h', 'i', '\x08', '\n', 'x'] <+: readBy s typistActs m) ∧
      ∃ m ≥ typedOnce.length, (s m).mainline.stage = .after ∧
        IsNormalForm '\x08' ['h', 'i', '\x08'] (s m).line := by
  obtain ⟨s, hfair, hs₀, hroomy, hreading⟩ := exists_fair_typistActs
  have htyped : typedBy typistActs typedOnce.length = ['h', 'i', '\x08', '\n', 'x'] := by
    decide +kernel
  have hread := all_typed_read hfair hs₀ hroomy hreading typedOnce.length
  rw [htyped] at hread
  exact ⟨s, hs₀, hread.1, hread.2 (by decide)⟩

end Core

end Punkos
