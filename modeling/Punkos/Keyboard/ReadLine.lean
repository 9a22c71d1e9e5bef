import Mathlib.Tactic.IntervalCases
import Punkos.Foundation.Cancellation
import Punkos.Interrupts.Preemption
import Punkos.Keyboard.Delivery

/-!
# Reading lines

`read_line` takes characters out of the buffer until it gets a newline. A backspace takes back the
last character of the line. Which line comes out should depend on the keys only, and not on when
each of them came in.

The mainline here calls `read_line` again and again, in the steps that `Core.mainStep` has for it:
`read_char` takes the lock, pops and releases the lock, and what it returns is fed to `read_line` or
sends the mainline to sleep. A handler that does not have to wait runs to its end before the
mainline goes on, so it is one event. A key that comes between a `pop` that found nothing and the
`hlt` after it does not end the `hlt`; the next interrupt does, be it the timer's.

`read_line_returns` is about schedules in which keys come at any time, as long as there is room for
them, and in which the mainline and the interrupts go on. If no key comes while `read_char` holds
the lock, the line that each call returns is the normal form of its part of the input under the two
rules for backspaces. A key that does come then is the end: its handler waits for the lock, and no
call returns any more.
-/

namespace Punkos.Keyboard

open Cancellation (type typed IsNormalForm isNormalForm_iff)
open Transition (Recurs LeadsTo)

/-! ## The reader -/

/-- Where the mainline is in `read_line`. -/
inductive Phase where
  /-- `BUF.lock()` in `read_char`. -/
  | locking
  /-- `pop()` on the locked buffer. -/
  | popping
  /-- The end of that statement. -/
  | unlocking (c : Option Char)
  /-- `read_char` has returned. -/
  | returned (c : Option Char)
  /-- `hlt`. -/
  | halted
  deriving DecidableEq, Repr

namespace Phase

/-- The mainline holds the lock. -/
def holds : Phase → Bool
  | .popping => true
  | .unlocking _ => true
  | _ => false

/-- An interrupt ends `hlt`. -/
def wake : Phase → Phase
  | .halted => .locking
  | phase => phase

/-- The character that has been popped and not yet been looked at. -/
def inHand : Phase → List Char
  | .unlocking c => c.toList
  | .returned c => c.toList
  | _ => []

/-- The character that the next step looks at. -/
def gives : Phase → List Char
  | .returned c => c.toList
  | _ => []

end Phase

/-- What becomes of a call of `read_line` with a character. -/
inductive Turn where
  /-- It returns the line. -/
  | returns (line : List Char)
  /-- It goes on with this line. -/
  | continues (line : List Char)
  deriving DecidableEq, Repr

/-- The body of the loop in `read_line`. -/
def readLineBody (line : List Char) (c : Char) : Turn :=
  if c = '\n' then .returns line
  else if c = '\x08' then .continues line.dropLast
  else .continues (line ++ [c])

/-- `kernel_main` edits its line in the same way. -/
theorem edit_eq (s : Core) (c : Char) : s.edit c = match readLineBody s.line c with
    | .returns _ => { s with mainline := .startRender }
    | .continues line => { s with mainline := .lockBuf .line, line } := by
  rw [Core.edit, readLineBody]
  split_ifs <;> rfl

/-- The lines returned so far and the line of the current call, after one more character. A new
call starts with an empty line. -/
def feed (p : List (List Char) × List Char) (c : Char) : List (List Char) × List Char :=
  match readLineBody p.2 c with
  | .returns line => (p.1 ++ [line], [])
  | .continues line => (p.1, line)

/-- The buffer, and a mainline that calls `read_line` again and again. -/
structure Console (N : ℕ) where
  /-- `BUF`. -/
  buf : RingBuffer N
  /-- Where the mainline is. -/
  phase : Phase
  /-- What the calls so far have returned, and the `line` of the current one. -/
  lines : List (List Char) × List Char
  /-- A handler waits for the lock, which the mainline holds. -/
  blocked : Bool

/-- What can happen next. -/
inductive Event where
  /-- IRQ1 brings a character. -/
  | key (c : Char)
  /-- Another interrupt, or IRQ1 without a character. -/
  | interrupt
  /-- The mainline makes a step. -/
  | mainline
  deriving DecidableEq, Repr

namespace Console

variable {N : ℕ}

/-- At boot nothing is in the buffer, and the first call begins. -/
def boot (N : ℕ) [NeZero N] : Console N := ⟨.new N, .locking, ([], []), false⟩

/-- A step of the mainline. -/
def mainline (s : Console N) : Console N :=
  match s.phase with
  -- no handler is running, so the lock is free
  | .locking => { s with phase := .popping }
  | .popping => { s with buf := s.buf.pop.2, phase := .unlocking s.buf.pop.1 }
  | .unlocking c => { s with phase := .returned c }
  | .returned none => { s with phase := .halted }
  | .returned (some c) => { s with phase := .locking, lines := feed s.lines c }
  | .halted => s

/-- One event. While a handler waits, interrupts are masked and the mainline stands still. -/
def next (s : Console N) (e : Event) : Console N :=
  if s.blocked then s
  else match e with
    | .key c =>
      if s.phase.holds then { s with blocked := true }
      else { s with buf := s.buf.push c, phase := s.phase.wake }
    | .interrupt => { s with phase := s.phase.wake }
    | .mainline => s.mainline

/-- The characters that `read_line` looks at in an event. -/
def takes (s : Console N) : Event → List Char
  | .key _ => []
  | .interrupt => []
  | .mainline => s.phase.gives

/-- The characters that `read_line` has not looked at. -/
def unread (s : Console N) : List Char := s.phase.inHand ++ s.buf.pending

end Console

/-- The characters that come in with an event. -/
def Event.brings : Event → List Char
  | .key c => [c]
  | .interrupt => []
  | .mainline => []

/-! ## Schedules -/

section Schedule

variable (N : ℕ) [NeZero N] (sched : ℕ → Event)

/-- The console at a time. -/
def consoleAt : ℕ → Console N
  | 0 => .boot N
  | n + 1 => (consoleAt n).next (sched n)

/-- The keys that have come. -/
def arrived : ℕ → List Char
  | 0 => []
  | n + 1 => arrived n ++ (sched n).brings

/-- The characters that `read_line` has looked at. -/
def taken : ℕ → List Char
  | 0 => []
  | n + 1 => taken n ++ (consoleAt N sched n).takes (sched n)

/-- Fewer than `N - 1` characters are pending whenever a key comes. -/
def HasRoom : Prop := ∀ n c, sched n = .key c → (consoleAt N sched n).buf.pending.length < N - 1

/-- No key comes while the mainline holds the lock. -/
def NoKeyWhileHeld : Prop := ∀ n c, sched n = .key c → (consoleAt N sched n).phase.holds = false

end Schedule

/-- The mainline goes on, and so do the interrupts. -/
structure GoesOn (sched : ℕ → Event) : Prop where
  /-- The mainline has its turn again and again. -/
  mainline : Recurs fun n ↦ sched n = .mainline
  /-- Interrupts come again and again. -/
  interrupt : Recurs fun n ↦ sched n ≠ .mainline

/-- The parts of a text that end in a newline. -/
def segments (cs : List Char) : List (List Char) := (cs.splitOn '\n').dropLast

/-- Segments with their newlines. -/
def terminated (segs : List (List Char)) : List Char := segs.flatMap fun seg ↦ seg ++ ['\n']

/-- Call `k` of `read_line`, counting from 0, returns. The line is the only normal form of segment
`k` of the keys that have come at time `m`; and of all keys that come behind that segment, those
that are there at the return are pending, in order. -/
def Returns (N : ℕ) [NeZero N] (sched : ℕ → Event) (m k : ℕ) : Prop :=
  ∃ seg, (segments (arrived sched m))[k]? = some seg ∧
    ∃ n line, (consoleAt N sched n).lines.1.length = k ∧
      (consoleAt N sched (n + 1)).lines.1 = (consoleAt N sched n).lines.1 ++ [line] ∧
      (∀ l, IsNormalForm '\x08' seg l ↔ l = line) ∧
      arrived sched (n + 1) = terminated ((segments (arrived sched m)).take (k + 1)) ++
        (consoleAt N sched (n + 1)).buf.pending

/-! ## Segments -/

section Segments

variable {segs : List (List Char)} {cur : List Char}

theorem terminated_concat (segs : List (List Char)) (seg : List Char) :
    terminated (segs ++ [seg]) = terminated segs ++ (seg ++ ['\n']) := by
  rw [terminated, List.flatMap_append, List.flatMap_singleton]
  rfl

theorem terminated_take (segs : List (List Char)) (k : ℕ) (cur : List Char) :
    terminated (segs.take k) <+: terminated segs ++ cur := by
  have hsplit : terminated segs = terminated (segs.take k) ++ terminated (segs.drop k) := by
    rw [terminated, terminated, terminated, ← List.flatMap_append, List.take_append_drop]
  rw [hsplit, List.append_assoc]
  exact List.prefix_append _ _

/-- Every text is made of segments and a last part without a newline. -/
theorem exists_segments (cs : List Char) :
    ∃ segs cur, cs = terminated segs ++ cur ∧ (∀ seg ∈ segs, '\n' ∉ seg) ∧ '\n' ∉ cur := by
  induction cs using List.reverseRecOn with
  | nil => exact ⟨[], [], rfl, by simp, by simp⟩
  | append_singleton cs c ih =>
    obtain ⟨segs, cur, rfl, hsegs, hcur⟩ := ih
    by_cases hc : c = '\n'
    · subst hc
      refine ⟨segs ++ [cur], [], ?_, ?_, List.not_mem_nil⟩
      · rw [terminated_concat, List.append_nil, List.append_assoc]
      · intro seg hseg
        rcases List.mem_append.mp hseg with hseg | hseg
        · exact hsegs seg hseg
        · rwa [List.mem_singleton.mp hseg]
    · refine ⟨segs, cur ++ [c], (List.append_assoc ..), hsegs, ?_⟩
      simp [hcur, Ne.symm hc]

theorem splitOn_terminated (hsegs : ∀ seg ∈ segs, '\n' ∉ seg) (cs : List Char) :
    (terminated segs ++ cs).splitOn '\n' = segs ++ cs.splitOn '\n' := by
  induction segs with
  | nil => rfl
  | cons seg segs ih =>
    obtain ⟨hseg, hrest⟩ := List.forall_mem_cons.mp hsegs
    have hcons : terminated (seg :: segs) ++ cs = seg ++ '\n' :: (terminated segs ++ cs) := by
      simp [terminated]
    rw [hcons, List.splitOn_append_cons_self_of_not_mem hseg, ih hrest, List.cons_append]

theorem segments_eq (hsegs : ∀ seg ∈ segs, '\n' ∉ seg) (hcur : '\n' ∉ cur) :
    segments (terminated segs ++ cur) = segs := by
  rw [segments, splitOn_terminated hsegs, List.splitOn_eq_singleton hcur, List.dropLast_concat]

/-- There are as many segments as newlines. -/
theorem count_terminated (hsegs : ∀ seg ∈ segs, '\n' ∉ seg) (hcur : '\n' ∉ cur) :
    (terminated segs ++ cur).count '\n' = segs.length := by
  induction segs with
  | nil => exact List.count_eq_zero.mpr hcur
  | cons seg segs ih =>
    obtain ⟨hseg, hrest⟩ := List.forall_mem_cons.mp hsegs
    have hcons : terminated (seg :: segs) ++ cur = seg ++ '\n' :: (terminated segs ++ cur) := by
      simp [terminated]
    rw [hcons, List.count_append, List.count_cons_self, List.count_eq_zero.mpr hseg, ih hrest,
      Nat.zero_add, List.length_cons]

/-- A newline ends the line. -/
theorem feed_newline (p : List (List Char) × List Char) : feed p '\n' = (p.1 ++ [p.2], []) := rfl

/-- Any other character goes into the line as the rules say. -/
theorem feed_of_ne {c : Char} (hc : c ≠ '\n') (p : List (List Char) × List Char) :
    feed p c = (p.1, type '\x08' p.2 c) := by
  rw [feed, readLineBody, if_neg hc, type]
  split_ifs <;> rfl

theorem foldl_feed (hcur : '\n' ∉ cur) (p : List (List Char) × List Char) :
    cur.foldl feed p = (p.1, cur.foldl (type '\x08') p.2) := by
  induction cur generalizing p with
  | nil => rfl
  | cons c cur ih =>
    rw [List.mem_cons, not_or] at hcur
    rw [List.foldl_cons, List.foldl_cons, feed_of_ne (Ne.symm hcur.1), ih hcur.2]

/-- **The loop over whole segments.** Each is returned in normal form. -/
theorem foldl_feed_terminated (hsegs : ∀ seg ∈ segs, '\n' ∉ seg) :
    (terminated segs).foldl feed ([], []) = (segs.map (typed '\x08'), []) := by
  induction segs using List.reverseRecOn with
  | nil => rfl
  | append_singleton segs seg ih =>
    obtain ⟨hinit, hlast⟩ := List.forall_mem_append.mp hsegs
    rw [terminated_concat, List.foldl_append, ih hinit, List.foldl_append,
      foldl_feed (hlast seg List.mem_cons_self), List.foldl_cons, feed_newline, List.map_append]
    rfl

end Segments

/-! ## One event -/

namespace Console

variable {N : ℕ} {s : Console N} {e : Event}

/-- A handler that waits for the lock waits for ever. -/
theorem next_of_blocked (hb : s.blocked = true) (e : Event) : s.next e = s := by
  rw [next.eq_def, if_pos hb]

/-- A key that comes while the mainline holds the lock. -/
theorem next_key_of_holds {c : Char} (hb : s.blocked = false) (hholds : s.phase.holds = true) :
    s.next (.key c) = { s with blocked := true } := by
  rw [next, hb, hholds]
  rfl

theorem next_key {c : Char} (hb : s.blocked = false) (hfree : s.phase.holds = false) :
    s.next (.key c) = { s with buf := s.buf.push c, phase := s.phase.wake } := by
  rw [next, hb, hfree]
  rfl

theorem next_interrupt (hb : s.blocked = false) :
    s.next .interrupt = { s with phase := s.phase.wake } := by
  rw [next, hb]
  rfl

theorem next_mainline (hb : s.blocked = false) : s.next .mainline = s.mainline := by
  rw [next, hb]
  rfl

theorem inHand_wake (phase : Phase) : phase.wake.inHand = phase.inHand := by
  rcases phase with _ | _ | _ | _ | _ <;> rfl

/-- A step of the mainline takes what it looks at from the unread characters, and feeds it to
`read_line`. -/
theorem mainline_spec (s : Console N) :
    s.unread = s.phase.gives ++ s.mainline.unread ∧
      s.mainline.lines = s.phase.gives.foldl feed s.lines ∧ s.mainline.blocked = s.blocked := by
  rcases hphase : s.phase with _ | _ | c | (_ | c) | _
  all_goals rw [mainline, unread, hphase]
  case popping =>
    refine ⟨?_, rfl, rfl⟩
    change s.buf.pending = s.buf.pop.1.toList ++ s.buf.pop.2.pending
    rw [s.buf.pop_eq.1, s.buf.pop_eq.2, BoundedQueue.head?_toList_append_tail]
  case halted =>
    refine ⟨?_, rfl, rfl⟩
    change s.buf.pending = s.phase.inHand ++ s.buf.pending
    rw [hphase]
    rfl
  all_goals exact ⟨rfl, rfl, rfl⟩

/-- What an event does to the unread characters and the lines, as long as no handler has to wait and
keys find room: the characters it brings go in at the end, those it takes come from the front. -/
theorem next_spec (hb : s.blocked = false)
    (hfree : ∀ c, e = .key c → s.phase.holds = false)
    (hroom : ∀ c, e = .key c → s.buf.pending.length < N - 1) :
    s.unread ++ e.brings = s.takes e ++ (s.next e).unread ∧
      (s.next e).lines = (s.takes e).foldl feed s.lines ∧ (s.next e).blocked = false := by
  rcases e with c | _ | _
  · rw [next_key hb (hfree c rfl)]
    refine ⟨?_, rfl, hb⟩
    have hpush := RingBuffer.pending_push s.buf c
    rw [BoundedQueue.put_of_lt (hroom c rfl)] at hpush
    change s.phase.inHand ++ s.buf.pending ++ [c] = s.phase.wake.inHand ++ (s.buf.push c).pending
    rw [hpush, inHand_wake, List.append_assoc]
  · rw [next_interrupt hb]
    refine ⟨?_, rfl, hb⟩
    change s.phase.inHand ++ s.buf.pending ++ [] = s.phase.wake.inHand ++ s.buf.pending
    rw [inHand_wake, List.append_nil]
  · obtain ⟨hunread, hlines, hblocked⟩ := s.mainline_spec
    rw [next_mainline hb, Event.brings, List.append_nil]
    exact ⟨hunread, hlines, hblocked.trans hb⟩

/-- After a step that looks at a character, what is unread is pending. -/
theorem unread_next (hb : s.blocked = false)
    (htakes : s.takes e ≠ []) : (s.next e).unread = (s.next e).buf.pending := by
  rcases e with c | _ | _
  · exact absurd rfl htakes
  · exact absurd rfl htakes
  · rw [next_mainline hb]
    rw [takes] at htakes
    rcases hphase : s.phase with _ | _ | _ | (_ | c) | _
    case returned.some =>
      rw [mainline, hphase]
      rfl
    all_goals exact absurd (congrArg Phase.gives hphase) htakes

/-- At most one character is looked at in a step. -/
theorem length_takes_le (s : Console N) (e : Event) : (s.takes e).length ≤ 1 := by
  rcases e with c | _ | _
  · exact Nat.zero_le 1
  · exact Nat.zero_le 1
  · rw [takes]
    rcases s.phase with _ | _ | _ | c | _
    case returned => exact Option.length_toList_le
    all_goals exact Nat.zero_le 1

end Console

/-! ## All events so far -/

section Schedule

variable {N : ℕ} [NeZero N] {sched : ℕ → Event}

/-- The schedules in which each key is pushed at once. -/
structure Undisturbed (N : ℕ) [NeZero N] (sched : ℕ → Event) : Prop where
  /-- No key has to wait for the lock. -/
  noKeyWhileHeld : NoKeyWhileHeld N sched
  /-- No key is dropped. -/
  hasRoom : HasRoom N sched

/-- No handler waits; every key has been looked at or is unread; and the lines are made of those
that have been looked at. -/
theorem Undisturbed.invariant (h : Undisturbed N sched) (n : ℕ) :
    (consoleAt N sched n).blocked = false ∧
      arrived sched n = taken N sched n ++ (consoleAt N sched n).unread ∧
      (consoleAt N sched n).lines = (taken N sched n).foldl feed ([], []) := by
  induction n with
  | zero => exact ⟨rfl, rfl, rfl⟩
  | succ n ih =>
    obtain ⟨hblocked, harrived, hlines⟩ := ih
    obtain ⟨hunread, hfeed, hfree⟩ :=
      Console.next_spec hblocked (h.noKeyWhileHeld n) (h.hasRoom n)
    rw [arrived, taken, consoleAt]
    refine ⟨hfree, ?_, ?_⟩
    · rw [harrived, List.append_assoc, List.append_assoc, hunread]
    · rw [List.foldl_append, ← hlines, hfeed]

theorem arrived_mono {m n : ℕ} (h : m ≤ n) : arrived sched m <+: arrived sched n := by
  induction n, h using Nat.le_induction with
  | base => exact List.prefix_refl _
  | succ n _ ih => exact ih.trans (List.prefix_append _ _)

theorem taken_mono {m n : ℕ} (h : m ≤ n) : taken N sched m <+: taken N sched n := by
  induction n, h using Nat.le_induction with
  | base => exact List.prefix_refl _
  | succ n _ ih => exact ih.trans (List.prefix_append _ _)

/-! ## Every key is looked at -/

/-- The mainline is in this phase, a character is unread, and `t` is what has been looked at. -/
structure Waiting (N : ℕ) [NeZero N] (sched : ℕ → Event) (t : List Char) (phase : Phase) (n : ℕ) :
    Prop where
  phase_eq : (consoleAt N sched n).phase = phase
  unread : (consoleAt N sched n).unread ≠ []
  taken_eq : taken N sched n = t

/-- More has been looked at. -/
def TakenMore (N : ℕ) [NeZero N] (sched : ℕ → Event) (t : List Char) (n : ℕ) : Prop :=
  t.length < (taken N sched n).length

section Waiting

variable {t : List Char} {phase : Phase} {n : ℕ}

/-- Nothing is looked at in an event that takes nothing, and nothing unread is lost. -/
theorem Waiting.of_takes_eq_nil (h : Undisturbed N sched) (hw : Waiting N sched t phase n)
    (htakes : (consoleAt N sched n).takes (sched n) = []) :
    Waiting N sched t (consoleAt N sched (n + 1)).phase (n + 1) := by
  obtain ⟨hunread, -, -⟩ :=
    Console.next_spec (h.invariant n).1 (h.noKeyWhileHeld n) (h.hasRoom n)
  rw [htakes, List.nil_append] at hunread
  refine ⟨rfl, ?_, ?_⟩
  · rw [consoleAt, ← hunread]
    exact List.append_ne_nil_of_left_ne_nil hw.unread _
  · rw [taken, htakes, List.append_nil, hw.taken_eq]

/-- An interrupt ends `hlt` and takes nothing. -/
theorem Waiting.wake (h : Undisturbed N sched) (hw : Waiting N sched t phase n)
    (hn : sched n ≠ .mainline) : Waiting N sched t phase.wake (n + 1) := by
  have hfree := (h.invariant n).1
  rcases he : sched n with c | _ | _
  · have hnext := hw.of_takes_eq_nil h (by rw [he]; rfl)
    rwa [consoleAt, he, Console.next_key hfree (h.noKeyWhileHeld n c he), hw.phase_eq] at hnext
  · have hnext := hw.of_takes_eq_nil h (by rw [he]; rfl)
    rwa [consoleAt, he, Console.next_interrupt hfree, hw.phase_eq] at hnext
  · exact absurd he hn

/-- A step of the mainline that looks at nothing. -/
theorem Waiting.mainline (h : Undisturbed N sched) (hw : Waiting N sched t phase n)
    (hn : sched n = .mainline) (hgives : phase.gives = []) :
    Waiting N sched t (consoleAt N sched n).mainline.phase (n + 1) := by
  have htakes : (consoleAt N sched n).takes (sched n) = [] := by
    rw [hn, Console.takes, hw.phase_eq, hgives]
  have hnext := hw.of_takes_eq_nil h htakes
  rwa [consoleAt, hn, Console.next_mainline (h.invariant n).1] at hnext

/-- A step of the mainline that looks at a character. -/
theorem Waiting.takenMore {c : Char} (hw : Waiting N sched t (.returned (some c)) n)
    (hn : sched n = .mainline) : TakenMore N sched t (n + 1) := by
  rw [TakenMore, taken, hn, Console.takes, hw.phase_eq, hw.taken_eq, List.length_append]
  exact Nat.lt_succ_self _

variable (h : Undisturbed N sched) (hgo : GoesOn sched)
include h hgo

/-- A phase in which the mainline does not sleep is left by its next step. -/
theorem leadsTo_of_mainline {Q : ℕ → Prop} (hwake : phase.wake = phase)
    (hstep : ∀ n, Waiting N sched t phase n → sched n = .mainline → Q (n + 1)) :
    LeadsTo (Waiting N sched t phase) Q := by
  apply hgo.mainline.leadsTo
  · intro n hw
    by_cases hmain : sched n = .mainline
    · exact Or.inr (hstep n hw hmain)
    · have hstay := hw.wake h hmain
      rw [hwake] at hstay
      exact Or.inl hstay
  · exact hstep

/-- A phase in which the next step looks at nothing and goes to a fixed phase. -/
theorem leadsTo_phase {phase' : Phase} (hwake : phase.wake = phase) (hgives : phase.gives = [])
    (hnext : ∀ s : Console N, s.phase = phase → s.mainline.phase = phase') :
    LeadsTo (Waiting N sched t phase) (Waiting N sched t phase') := by
  apply leadsTo_of_mainline h hgo hwake
  intro n hw hn
  have hstep := hw.mainline h hn hgives
  rwa [hnext _ hw.phase_eq] at hstep

theorem leadsTo_of_returned_some (c : Char) :
    LeadsTo (Waiting N sched t (.returned (some c))) (TakenMore N sched t) :=
  leadsTo_of_mainline h hgo rfl fun _ hw hn ↦ hw.takenMore hn

theorem leadsTo_of_unlocking_some (c : Char) :
    LeadsTo (Waiting N sched t (.unlocking (some c))) (TakenMore N sched t) := by
  refine LeadsTo.trans ?_ (leadsTo_of_returned_some h hgo c)
  apply leadsTo_phase h hgo rfl rfl
  intro s hs
  rw [Console.mainline, hs]

/-- What is unread while `pop` is next is in the buffer. -/
theorem leadsTo_of_popping : LeadsTo (Waiting N sched t .popping) (TakenMore N sched t) := by
  refine LeadsTo.trans (Q := fun n ↦ ∃ c, Waiting N sched t (.unlocking (some c)) n) ?_
    (LeadsTo.exists (leadsTo_of_unlocking_some h hgo))
  apply leadsTo_of_mainline h hgo rfl
  intro n hw hn
  have hpending : (consoleAt N sched n).buf.pending ≠ [] := by
    have hunread := hw.unread
    rwa [Console.unread, hw.phase_eq] at hunread
  obtain ⟨c, q, hcons⟩ := List.exists_cons_of_ne_nil hpending
  have hstep := hw.mainline h hn rfl
  have hpop : (consoleAt N sched n).buf.pop.1 = some c := by
    rw [RingBuffer.pop_eq _ |>.1, hcons, List.head?_cons]
  have hphase : (consoleAt N sched n).mainline.phase = .unlocking (some c) := by
    rw [Console.mainline, hw.phase_eq, ← hpop]
  rw [hphase] at hstep
  exact ⟨c, hstep⟩

theorem leadsTo_of_locking : LeadsTo (Waiting N sched t .locking) (TakenMore N sched t) := by
  refine LeadsTo.trans ?_ (leadsTo_of_popping h hgo)
  apply leadsTo_phase h hgo rfl rfl
  intro s hs
  rw [Console.mainline, hs]

/-- A sleeping mainline is woken, be it by the timer. -/
theorem leadsTo_of_halted : LeadsTo (Waiting N sched t .halted) (TakenMore N sched t) := by
  refine LeadsTo.trans ?_ (leadsTo_of_locking h hgo)
  apply hgo.interrupt.leadsTo
  · intro n hw
    by_cases hmain : sched n = .mainline
    · have hstay := hw.mainline h hmain rfl
      rw [Console.mainline, hw.phase_eq] at hstay
      change Waiting N sched t (consoleAt N sched n).phase (n + 1) at hstay
      rw [hw.phase_eq] at hstay
      exact Or.inl hstay
    · exact Or.inr (hw.wake h hmain)
  · intro n hw hn
    exact hw.wake h hn

/-- **An unread character is looked at**, whatever the mainline is doing. -/
theorem leadsTo_takenMore (phase : Phase) :
    LeadsTo (Waiting N sched t phase) (TakenMore N sched t) := by
  have hreturned : LeadsTo (Waiting N sched t (.returned none)) (TakenMore N sched t) := by
    refine LeadsTo.trans ?_ (leadsTo_of_halted h hgo)
    apply leadsTo_phase h hgo rfl rfl
    intro s hs
    rw [Console.mainline, hs]
  rcases phase with _ | _ | (_ | c) | (_ | c) | _
  · exact leadsTo_of_locking h hgo
  · exact leadsTo_of_popping h hgo
  · -- `pop` has found nothing; what has come since waits until the mainline has slept
    refine LeadsTo.trans ?_ hreturned
    apply leadsTo_phase h hgo rfl rfl
    intro s hs
    rw [Console.mainline, hs]
  · exact leadsTo_of_unlocking_some h hgo c
  · exact hreturned
  · exact leadsTo_of_returned_some h hgo c
  · exact leadsTo_of_halted h hgo

end Waiting

/-- Everything that has come will be looked at. -/
theorem exists_taken (h : Undisturbed N sched) (hgo : GoesOn sched) (n : ℕ) {p : ℕ}
    (hp : p ≤ (arrived sched n).length) : ∃ m, p ≤ (taken N sched m).length := by
  induction p with
  | zero => exact ⟨0, Nat.zero_le _⟩
  | succ p ih =>
    obtain ⟨m, hm⟩ := ih (Nat.le_of_succ_le hp)
    have hlate : p ≤ (taken N sched (max m n)).length :=
      hm.trans (taken_mono (le_max_left m n)).length_le
    rcases Nat.lt_or_eq_of_le hlate with hlt | heq
    · exact ⟨_, hlt⟩
    · have hunread : (consoleAt N sched (max m n)).unread ≠ [] := by
        intro hnil
        have hall := (h.invariant (max m n)).2.1
        rw [hnil, List.append_nil] at hall
        have hmore : arrived sched n <+: arrived sched (max m n) :=
          arrived_mono (le_max_right m n)
        have hle := hmore.length_le
        rw [hall] at hle
        omega
      obtain ⟨m', -, hlt⟩ := leadsTo_takenMore h hgo _ (max m n) ⟨rfl, hunread, rfl⟩
      exact ⟨m', heq ▸ hlt⟩

/-- Each character is looked at in some step. -/
theorem exists_taken_step {p m : ℕ} (h : p < (taken N sched m).length) :
    ∃ n, (taken N sched n).length = p ∧ (taken N sched (n + 1)).length = p + 1 := by
  induction m with
  | zero => exact absurd h (Nat.not_lt_zero p)
  | succ m ih =>
    by_cases hlt : p < (taken N sched m).length
    · exact ih hlt
    · have hone := (consoleAt N sched m).length_takes_le (sched m)
      have hlen : (taken N sched (m + 1)).length =
          (taken N sched m).length + ((consoleAt N sched m).takes (sched m)).length := by
        rw [taken, List.length_append]
      exact ⟨m, by omega, by omega⟩

/-! ## A key that comes too early -/

theorem consoleAt_of_blocked {m n : ℕ} (hblocked : (consoleAt N sched n).blocked = true)
    (h : n ≤ m) : consoleAt N sched m = consoleAt N sched n := by
  induction m, h using Nat.le_induction with
  | base => rfl
  | succ m _ ih => rw [consoleAt, ih, Console.next_of_blocked hblocked]

/-- After a key that has come while the mainline holds the lock, nothing is read any more. -/
theorem lines_of_key_while_held {n : ℕ} {c : Char} (hn : sched n = .key c)
    (hholds : (consoleAt N sched n).phase.holds = true) {m : ℕ} (h : n ≤ m) :
    (consoleAt N sched m).lines = (consoleAt N sched n).lines := by
  have hnext : (consoleAt N sched (n + 1)).blocked = true ∧
      (consoleAt N sched (n + 1)).lines = (consoleAt N sched n).lines := by
    rw [consoleAt, hn]
    rcases hblocked : (consoleAt N sched n).blocked with _ | _
    · rw [Console.next_key_of_holds hblocked hholds]
      exact ⟨rfl, rfl⟩
    · rw [Console.next_of_blocked hblocked]
      exact ⟨hblocked, rfl⟩
  rcases Nat.eq_or_lt_of_le h with rfl | hlt
  · rfl
  · rw [consoleAt_of_blocked hnext.1 hlt, hnext.2]

/-! ## The result -/

/-- What has been looked at is determined by its length. -/
theorem taken_eq_of_prefix (h : Undisturbed N sched) {m n : ℕ} {front : List Char}
    (hfront : front <+: arrived sched m) (hlen : (taken N sched n).length = front.length) :
    taken N sched n = front := by
  have hall : taken N sched n <+: arrived sched n := ⟨_, (h.invariant n).2.1.symm⟩
  have htaken := hall.trans (arrived_mono (le_max_right m n))
  have hfront' := hfront.trans (arrived_mono (le_max_left m n))
  exact (List.prefix_of_prefix_length_le htaken hfront' hlen.le).eq_of_length hlen

/-- **Each call returns its line**, if no handler has to wait. -/
theorem Undisturbed.returns (h : Undisturbed N sched) (hgo : GoesOn sched) {m k : ℕ}
    (hk : k < (arrived sched m).count '\n') : Returns N sched m k := by
  obtain ⟨segs, cur, hsplit, hsegs, hcur⟩ := exists_segments (arrived sched m)
  rw [hsplit, count_terminated hsegs hcur] at hk
  rw [Returns, hsplit, segments_eq hsegs hcur]
  refine ⟨segs[k], List.getElem?_eq_getElem hk, ?_⟩
  have htake : segs.take (k + 1) = segs.take k ++ [segs[k]] := List.take_succ_eq_append_getElem hk
  have hseg : '\n' ∉ segs[k] := hsegs _ (List.getElem_mem hk)
  have hbefore : ∀ seg ∈ segs.take k, '\n' ∉ seg := fun seg h ↦ hsegs seg (List.mem_of_mem_take h)
  -- the segment up to its newline, and with it
  have hfront : terminated (segs.take (k + 1)) <+: arrived sched m :=
    hsplit ▸ terminated_take segs (k + 1) cur
  have hlast : terminated (segs.take (k + 1)) =
      (terminated (segs.take k) ++ segs[k]) ++ ['\n'] := by
    rw [htake, terminated_concat, List.append_assoc]
  have hinit : terminated (segs.take k) ++ segs[k] <+: arrived sched m :=
    (hlast ▸ List.prefix_append _ _).trans hfront
  have hlength : (terminated (segs.take (k + 1))).length =
      (terminated (segs.take k) ++ segs[k]).length + 1 := by
    rw [hlast]
    exact List.length_append
  -- the step that looks at the newline
  obtain ⟨n', hn'⟩ := exists_taken h hgo m hfront.length_le
  rw [hlength] at hn'
  obtain ⟨n, hn, hnext⟩ := exists_taken_step hn'
  have hbefore' := taken_eq_of_prefix h hinit hn
  have hafter := taken_eq_of_prefix h hfront (hnext.trans hlength.symm)
  obtain ⟨hblocked, -, hlines⟩ := h.invariant n
  obtain ⟨-, harrived', hlines'⟩ := h.invariant (n + 1)
  rw [hbefore', List.foldl_append, foldl_feed_terminated hbefore, foldl_feed hseg] at hlines
  rw [hafter, hlast, List.foldl_concat, List.foldl_append, foldl_feed_terminated hbefore,
    foldl_feed hseg, feed_newline] at hlines'
  have htakes : (consoleAt N sched n).takes (sched n) ≠ [] := by
    intro hnil
    rw [taken, hnil, List.append_nil] at hnext
    omega
  refine ⟨n, typed '\x08' segs[k], ?_, ?_, fun l ↦ isNormalForm_iff, ?_⟩
  · rw [hlines, List.length_map, List.length_take_of_le hk.le]
  · rw [hlines', hlines]
    rfl
  · rw [harrived', hafter, consoleAt, Console.unread_next hblocked htakes]

end Schedule

/-- **Reading lines.** Keys come at any times at which there is room for them, and the mainline and
the interrupts go on. If no key comes while the mainline holds the lock, then each call of
`read_line` for which there is a newline returns, and what it returns is the normal form of its
segment. And a key that does come then is the last thing that happens: no call returns after it. -/
theorem read_line_returns (N : ℕ) [NeZero N] (sched : ℕ → Event) (hroom : HasRoom N sched)
    (hgo : GoesOn sched) :
    (NoKeyWhileHeld N sched →
      ∀ m k, k < (arrived sched m).count '\n' → Returns N sched m k) ∧
    ∀ n c, sched n = .key c → (consoleAt N sched n).phase.holds = true →
      ∀ m ≥ n, (consoleAt N sched m).lines = (consoleAt N sched n).lines := by
  constructor
  · intro hheld m k hk
    exact Undisturbed.returns ⟨hheld, hroom⟩ hgo hk
  · intro n c hn hholds m hm
    exact lines_of_key_while_held hn hholds hm

/-- From some time on, the mainline and the timer take turns. -/
def thenTimer (start : ℕ) (first : ℕ → Event) (n : ℕ) : Event :=
  if n < start then first n else if n % 2 = 0 then .mainline else .interrupt

theorem goesOn_thenTimer (start : ℕ) (first : ℕ → Event) : GoesOn (thenTimer start first) where
  mainline n := by
    refine ⟨2 * (n + start), by omega, ?_⟩
    change thenTimer start first _ = _
    rw [thenTimer, if_neg (by omega), if_pos (by omega)]
  interrupt n := by
    refine ⟨2 * (n + start) + 1, by omega, ?_⟩
    change thenTimer start first _ ≠ _
    rw [thenTimer, if_neg (by omega), if_neg (by omega)]
    exact Event.noConfusion

/-- After the start no keys come. -/
theorem lt_of_thenTimer_eq_key {start n : ℕ} {first : ℕ → Event} {c : Char}
    (h : thenTimer start first n = .key c) : n < start := by
  rw [thenTimer] at h
  split_ifs at h with hlt
  exact hlt

/-- A line with a backspace, and a key behind it. -/
def sampleSched : ℕ → Event :=
  thenTimer 5 fun n ↦ [.key 'a', .key '\x08', .key 'b', .key '\n', .key 'c'].getD n .mainline

theorem hasRoom_sampleSched : HasRoom bufSize sampleSched := by
  intro n c hn
  have hlt := lt_of_thenTimer_eq_key hn
  rw [RingBuffer.length_pending]
  interval_cases n <;> decide

theorem read_line_returns_sample :
    Returns bufSize sampleSched 5 0 := by
  have hnone : NoKeyWhileHeld bufSize sampleSched := by
    intro n c hn
    have hlt := lt_of_thenTimer_eq_key hn
    interval_cases n <;> decide
  exact (read_line_returns bufSize sampleSched hasRoom_sampleSched
    (goesOn_thenTimer _ _)).1 hnone 5 0 (by decide)

/-- A line of no characters, and a key that comes while `read_char` holds the lock. -/
def earlySched : ℕ → Event :=
  thenTimer 3 fun n ↦ [.key '\n', .mainline, .key 'a'].getD n .mainline

/-- The newline is in the buffer, and the call never returns. -/
theorem not_read_line_returns :
    ¬∀ sched, HasRoom bufSize sched → GoesOn sched →
      ∀ m k, k < (arrived sched m).count '\n' → Returns bufSize sched m k := by
  intro h
  have hroom : HasRoom bufSize earlySched := by
    intro n c hn
    have hlt := lt_of_thenTimer_eq_key hn
    rw [RingBuffer.length_pending]
    interval_cases n <;> decide
  obtain ⟨-, -, n, line, -, hreturned, -⟩ :=
    h earlySched hroom (goesOn_thenTimer _ _) 1 0 (by decide)
  have hnever : ∀ n, (consoleAt bufSize earlySched n).lines = ([], []) := by
    intro n
    rcases Nat.lt_or_ge n 2 with hlt | hge
    · interval_cases n <;> rfl
    · have hholds : (consoleAt bufSize earlySched 2).phase.holds = true := by decide
      exact lines_of_key_while_held (c := 'a') rfl hholds hge
  rw [hnever, hnever] at hreturned
  exact List.cons_ne_nil line [] hreturned.symm

end Punkos.Keyboard
