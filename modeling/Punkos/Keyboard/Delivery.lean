import Mathlib.Data.Int.ModEq
import Mathlib.Data.List.Range
import Punkos.Foundation.BoundedQueue
import Punkos.Keyboard.Driver

/-!
# From scancodes to the reader

What becomes of a keystroke. The interrupt handler turns bytes into characters and pushes them, the
mainline pops them, and the two meet in the ring buffer only. The handler keeps its other state,
the SHIFT flag, to itself, and `read_char` is a single access to the buffer, so an interleaving of
the two is a list of whole calls.

The buffer is a bounded queue of `N - 1` characters (`pending_push`, `pop_eq`): the slot in front
of the tail stays free, since a full buffer could not be told from an empty one otherwise. What the
reader sees is then what any bounded queue delivers.
-/

namespace Punkos.Keyboard

/-! ## The ring buffer as a queue -/

namespace RingBuffer

variable {N : ℕ}

/-- How many characters are buffered. -/
def count (b : RingBuffer N) : ℕ := if b.tail ≤ b.head then b.head - b.tail else
    b.head + N - b.tail

/-- The character `i` slots after the tail. -/
def slot (b : RingBuffer N) (i : ℕ) : Char :=
  b.data.get ⟨(b.tail + i) % N, Nat.mod_lt _ (Nat.zero_lt_of_lt b.tail_lt)⟩

/-- The buffered characters, oldest first: from the tail round to the head. -/
def pending (b : RingBuffer N) : List Char := (List.range b.count).map b.slot

@[simp] theorem length_pending (b : RingBuffer N) : b.pending.length = b.count := by
  rw [pending, List.length_map, List.length_range]

theorem count_lt (b : RingBuffer N) : b.count < N := by
  have hh := b.head_lt
  have ht := b.tail_lt
  rw [count]
  split_ifs <;> omega

/-- The head is `count` slots after the tail. -/
theorem add_count_mod (b : RingBuffer N) : (b.tail + b.count) % N = b.head := by
  have hh := b.head_lt
  have ht := b.tail_lt
  rw [count]
  split_ifs with hle
  · rw [Nat.add_sub_cancel' hle, Nat.mod_eq_of_lt hh]
  · rw [Nat.add_sub_cancel' (by omega), Nat.add_mod_right, Nat.mod_eq_of_lt hh]

/-- An index below `N` determines how far it is from the tail. -/
theorem add_mod_inj (b : RingBuffer N) {i j : ℕ} (hi : i < N) (hj : j < N)
    (h : (b.tail + i) % N = (b.tail + j) % N) : i = j := by
  have hmod : i ≡ j [MOD N] := Nat.ModEq.add_left_cancel' b.tail h
  exact Nat.ModEq.eq_of_lt_of_lt hmod hi hj

theorem succ_mod (b : RingBuffer N) : (b.head + 1) % N = (b.tail + (b.count + 1)) % N := by
  rw [← b.add_count_mod, Nat.mod_add_mod, Nat.add_assoc]

/-- The head may not move on exactly when the one slot left is the free one. -/
theorem full_iff (b : RingBuffer N) : (b.head + 1) % N = b.tail ↔ b.count + 1 = N := by
  rw [succ_mod]
  have ht := b.tail_lt
  constructor
  · intro h
    by_contra hne
    have hlt := b.count_lt
    have h0 : (b.tail + (b.count + 1)) % N = (b.tail + 0) % N := by
      rw [h, Nat.add_zero, Nat.mod_eq_of_lt ht]
    have := b.add_mod_inj (by omega) (by omega) h0
    omega
  · intro h
    rw [h, Nat.add_mod_right, Nat.mod_eq_of_lt ht]

theorem count_eq_of_mod (b : RingBuffer N) {k : ℕ} (hk : k < N) (h : (b.tail + k) % N = b.head) :
    b.count = k :=
  b.add_mod_inj b.count_lt hk (b.add_count_mod.trans h.symm)

theorem push_of_full {b : RingBuffer N} (h : b.count + 1 = N) (c : Char) : b.push c = b :=
  if_pos (b.full_iff.mpr h)

section Room

variable {b : RingBuffer N} (h : b.count + 1 < N) (c : Char)
include h

theorem push_of_room : b.push c =
    { b with
      data := b.data.set b.head c b.head_lt
      head := (b.head + 1) % N
      head_lt := Nat.mod_lt _ (Nat.zero_lt_of_lt b.head_lt) } :=
  if_neg fun hfull ↦ absurd (b.full_iff.mp hfull) h.ne

theorem tail_push : (b.push c).tail = b.tail := by
  rw [push_of_room h]

theorem count_push : (b.push c).count = b.count + 1 := by
  apply count_eq_of_mod _ h
  rw [tail_push h, ← succ_mod, push_of_room h]

/-- The new character goes where the head was, which is behind all the old ones. -/
theorem slot_push {i : ℕ} (hi : i < b.count + 1) :
    (b.push c).slot i = if i = b.count then c else b.slot i := by
  have hhead : (b.tail + i) % N = b.head ↔ i = b.count := by
    constructor
    · intro hmod
      exact (b.count_eq_of_mod (hi.trans h) hmod).symm
    · rintro rfl
      exact b.add_count_mod
  have hget : ∀ (data : Vector Char N) (j : Fin N), data.get j = data[j.val] := fun _ _ ↦ rfl
  rw [push_of_room h]
  simp only [slot, hget, Vector.getElem_set, eq_comm (a := b.head), hhead]

theorem pending_push_of_room : (b.push c).pending = b.pending ++ [c] := by
  rw [pending, count_push h, List.range_succ, List.map_append, List.map_singleton,
    slot_push h c (Nat.lt_succ_self _), if_pos rfl]
  congr 1
  apply List.map_congr_left
  intro i hi
  have hlt := List.mem_range.mp hi
  rw [slot_push h c (Nat.lt_succ_of_lt hlt), if_neg hlt.ne]

end Room

/-- **`push` is the arrival of an item** at a queue with one place less than the buffer has
slots. -/
theorem pending_push (b : RingBuffer N) (c : Char) :
    (b.push c).pending = BoundedQueue.put (N - 1) b.pending c := by
  have hlt := b.count_lt
  by_cases hroom : b.count + 1 < N
  · rw [pending_push_of_room hroom, BoundedQueue.put_of_lt]
    rw [length_pending]
    omega
  · rw [push_of_full (by omega), BoundedQueue.put_of_le]
    rw [length_pending]
    omega

theorem count_eq_zero_iff (b : RingBuffer N) : b.count = 0 ↔ b.head = b.tail := by
  have hh := b.head_lt
  have ht := b.tail_lt
  rw [count]
  split_ifs <;> omega

/-- **`pop` takes the oldest item.** -/
theorem pop_eq (b : RingBuffer N) :
    b.pop.1 = b.pending.head? ∧ b.pop.2.pending = b.pending.tail := by
  rcases hcount : b.count with _ | n
  · have hempty := b.count_eq_zero_iff.mp hcount
    rw [pop, if_pos hempty, pending, hcount]
    exact ⟨rfl, rfl⟩
  · have hne : ¬b.head = b.tail := fun heq ↦ by simp [b.count_eq_zero_iff.mpr heq] at hcount
    have hpending : b.pending = b.slot 0 :: (List.range n).map fun i ↦ b.slot (i + 1) := by
      rw [pending, hcount, List.range_succ_eq_map, List.map_cons, List.map_map]
      rfl
    have htail : b.pop.2.tail = (b.tail + 1) % N := by rw [pop, if_neg hne]
    have hhead : b.pop.2.head = b.head := by rw [pop, if_neg hne]
    have hslot : ∀ i, b.pop.2.slot i = b.slot (i + 1) := by
      intro i
      rw [pop, if_neg hne]
      simp only [slot, Nat.mod_add_mod, Nat.add_assoc, Nat.add_comm 1 i]
    have hcount' : b.pop.2.count = n := by
      refine count_eq_of_mod _ (by have := b.count_lt; omega) ?_
      rw [htail, hhead, Nat.mod_add_mod, Nat.add_assoc, Nat.add_comm 1 n, ← hcount,
        b.add_count_mod]
    rw [hpending]
    constructor
    · rw [pop, if_neg hne]
      simp only [slot, Nat.add_zero, Nat.mod_eq_of_lt b.tail_lt, List.head?_cons]
    · rw [pending, hcount', List.tail_cons]
      exact List.map_congr_left fun i _ ↦ hslot i

end RingBuffer

/-! ## The driver -/

/-- What the driver keeps between calls: the buffer and the SHIFT flag. -/
structure State (N : ℕ) where
  /-- `BUF`. -/
  buf : RingBuffer N
  /-- `SHIFT`. -/
  shift : Bool

namespace State

variable {N : ℕ}

/-- The driver at boot. -/
def boot (N : ℕ) [NeZero N] : State N := ⟨.new N, false⟩

/-- `handle_scancode`, with the byte it reads from port 0x60. -/
def handleScancode (s : State N) (scancode : BitVec 8) : State N :=
  match decode scancode s.shift with
  | (shift, none) => ⟨s.buf, shift⟩
  | (shift, some c) => ⟨s.buf.push c, shift⟩

/-- `read_char`. -/
def readChar (s : State N) : Option Char × State N := (s.buf.pop.1, ⟨s.buf.pop.2, s.shift⟩)

end State

/-- A call on the driver. -/
inductive Call where
  /-- The handler of IRQ1 finds this byte. -/
  | handleScancode (scancode : BitVec 8)
  /-- The mainline asks for a character. -/
  | readChar

variable {N : ℕ}

/-- The driver after a list of calls. -/
def State.after : State N → List Call → State N
  | s, [] => s
  | s, .handleScancode b :: calls => (s.handleScancode b).after calls
  | s, .readChar :: calls => s.readChar.2.after calls

/-- The characters `read_char` returns in a list of calls. -/
def State.returned : State N → List Call → List Char
  | _, [] => []
  | s, .handleScancode b :: calls => (s.handleScancode b).returned calls
  | s, .readChar :: calls => s.readChar.1.toList ++ s.readChar.2.returned calls

/-- The characters the scancode and shift state machine produces for a list of calls, which reads
do not influence. -/
def produced : Bool → List Call → List Char
  | _, [] => []
  | shift, .handleScancode b :: calls =>
    (decode b shift).2.toList ++ produced (decode b shift).1 calls
  | shift, .readChar :: calls => produced shift calls

theorem State.after_append (s : State N) (calls calls' : List Call) :
    s.after (calls ++ calls') = (s.after calls).after calls' := by
  induction calls generalizing s with
  | nil => rfl
  | cons call calls ih =>
    rcases call with b | _
    · exact ih (s.handleScancode b)
    · exact ih s.readChar.2

theorem State.returned_append (s : State N) (calls calls' : List Call) :
    s.returned (calls ++ calls') = s.returned calls ++ (s.after calls).returned calls' := by
  induction calls generalizing s with
  | nil => rfl
  | cons call calls ih =>
    rcases call with b | _
    · exact ih (s.handleScancode b)
    · rw [List.cons_append, returned, ih s.readChar.2, ← List.append_assoc]
      rfl

/-! ## Refinement -/

/-- The calls as the queue sees them. -/
def queueOps : Bool → List Call → List (BoundedQueue.Op Char)
  | _, [] => []
  | shift, .handleScancode b :: calls =>
    (decode b shift).2.toList.map .put ++ queueOps (decode b shift).1 calls
  | shift, .readChar :: calls => .take :: queueOps shift calls

theorem State.handleScancode_eq (s : State N) (b : BitVec 8) :
    s.handleScancode b =
      ⟨(decode b s.shift).2.elim s.buf s.buf.push, (decode b s.shift).1⟩ := by
  rw [handleScancode]
  rcases decode b s.shift with ⟨shift, _ | c⟩ <;> rfl

theorem arrivals_queueOps (shift : Bool) (calls : List Call) :
    BoundedQueue.arrivals (queueOps shift calls) = produced shift calls := by
  induction calls generalizing shift with
  | nil => rfl
  | cons call calls ih =>
    rcases call with b | _
    · rw [queueOps, produced, ← ih]
      rcases (decode b shift).2 with _ | c <;> rfl
    · exact ih shift

/-- **The driver refines the queue**: the same contents after every list of calls, and the same
characters handed out. -/
theorem State.refines (s : State N) (calls : List Call) :
    (s.after calls).buf.pending =
        BoundedQueue.after (N - 1) s.buf.pending (queueOps s.shift calls) ∧
      s.returned calls = BoundedQueue.taken (N - 1) s.buf.pending (queueOps s.shift calls) := by
  induction calls generalizing s with
  | nil => exact ⟨rfl, rfl⟩
  | cons call calls ih =>
    rcases call with b | _
    · have hrest := ih (s.handleScancode b)
      rw [after, returned, queueOps, hrest.1, hrest.2, s.handleScancode_eq b]
      rcases (decode b s.shift).2 with _ | c
      · exact ⟨rfl, rfl⟩
      · simp only [Option.elim_some, RingBuffer.pending_push]
        exact ⟨rfl, rfl⟩
    · have hrest := ih s.readChar.2
      obtain ⟨hhead, htail⟩ := s.buf.pop_eq
      rw [after, returned, queueOps, hrest.1, hrest.2, readChar, hhead, htail]
      exact ⟨rfl, rfl⟩

/-- Every character of the list of calls arrives while fewer than `N - 1` are pending. -/
def State.NeverFull (s : State N) (calls : List Call) : Prop :=
  ∀ pre b post, calls = pre ++ .handleScancode b :: post →
    (decode b (s.after pre).shift).2 ≠ none → (s.after pre).buf.pending.length < N - 1

/-- Never full is the queue having room for each arrival. -/
theorem State.NeverFull.room {s : State N} {calls : List Call} (h : s.NeverFull calls) :
    BoundedQueue.Room (N - 1) s.buf.pending (queueOps s.shift calls) := by
  induction calls generalizing s with
  | nil => trivial
  | cons call calls ih =>
    rcases call with b | _
    · have hrest : (s.handleScancode b).NeverFull calls := fun pre b' post heq ↦
        h (.handleScancode b :: pre) b' post (congrArg _ heq)
      have hroom := ih hrest
      have hfirst := h [] b calls rfl
      rw [s.handleScancode_eq b] at hroom
      rw [queueOps]
      rw [State.after] at hfirst
      rcases hc : (decode b s.shift).2 with _ | c
      · rw [hc] at hroom
        exact hroom
      · rw [hc, Option.elim_some, RingBuffer.pending_push] at hroom
        exact ⟨hfirst (hc ▸ Option.some_ne_none c), hroom⟩
    · have hrest : s.readChar.2.NeverFull calls := fun pre b post heq ↦
        h (.readChar :: pre) b post (congrArg _ heq)
      have hroom := ih hrest
      rw [readChar, s.buf.pop_eq.2] at hroom
      exact hroom

theorem RingBuffer.pending_new (N : ℕ) [NeZero N] : (RingBuffer.new N).pending = [] := rfl

/-! ## Delivery -/

/-- **Keyboard delivery.** After every list of calls from boot: the indices are in range and at
most `N - 1` characters are pending; what was read, followed by what is pending, is a subsequence
of what the keyboard produced, and all of it if the buffer was never full when a character came;
and `read_char` has nothing to return exactly when nothing is pending. -/
theorem keyboard_delivers (N : ℕ) [NeZero N] (calls : List Call) :
    let s := (State.boot N).after calls
    (s.buf.head < N ∧ s.buf.tail < N) ∧
      s.buf.pending.length ≤ N - 1 ∧
      ((State.boot N).returned calls ++ s.buf.pending).Sublist (produced false calls) ∧
      ((State.boot N).NeverFull calls →
        (State.boot N).returned calls ++ s.buf.pending = produced false calls) ∧
      (s.readChar.1 = none ↔ s.buf.pending = []) := by
  intro s
  obtain ⟨hpending, hreturned⟩ := (State.boot N).refines calls
  have hempty : (State.boot N).buf.pending = [] := RingBuffer.pending_new N
  have harrivals := arrivals_queueOps false calls
  refine ⟨⟨s.buf.head_lt, s.buf.tail_lt⟩, ?_, ?_, ?_, ?_⟩
  · rw [hpending, hempty]
    exact BoundedQueue.length_after_le (Nat.zero_le _) _
  · rw [hpending, hreturned, hempty, ← harrivals]
    exact BoundedQueue.taken_append_after_sublist [] _
  · intro hroom
    have hroom := hroom.room
    rw [hempty] at hroom
    rw [hpending, hreturned, hempty, ← harrivals]
    exact BoundedQueue.taken_append_after_eq hroom
  · rw [State.readChar, s.buf.pop_eq.1, List.head?_eq_none_iff]

/-- The buffer of the driver after the keys `h` and `i` and one read. -/
theorem keyboard_delivers_hi :
    let calls : List Call := [.handleScancode 0x23, .handleScancode 0x17, .readChar]
    let s := (State.boot bufSize).after calls
    (s.buf.head < bufSize ∧ s.buf.tail < bufSize) ∧
      s.buf.pending.length ≤ bufSize - 1 ∧
      ((State.boot bufSize).returned calls ++ s.buf.pending).Sublist (produced false calls) ∧
      ((State.boot bufSize).NeverFull calls →
        (State.boot bufSize).returned calls ++ s.buf.pending = produced false calls) ∧
      (s.readChar.1 = none ↔ s.buf.pending = []) :=
  keyboard_delivers bufSize [.handleScancode 0x23, .handleScancode 0x17, .readChar]

end Punkos.Keyboard
