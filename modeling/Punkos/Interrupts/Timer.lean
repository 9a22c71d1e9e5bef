import Punkos.Foundation.BitField

/-!
# The timer

`interrupts::init_pit` programs channel 0 of the 8254, whose output raises IRQ0. The chip takes the
count in two bytes through one port, so that what a write means depends on the writes before it; a
control word starts afresh. Its clock runs all the while, and any number of its cycles may pass
between two writes (`Event`).

`timer_rate` says what comes of it: from any state of the chip the output rises once in a fixed
number of cycles, in every window of time. That number is the best one for the frequency asked for
exactly when the frequency is between 19 and 596591 Hz. Below that the quotient does not fit into
the sixteen bits it is cast to, and the timer runs far too fast. From 596592 to 1193182 Hz it is 1,
a count that the square wave of mode 3 does not have: it needs a cycle high and a cycle low. Above,
it is zero, which the chip takes for 65536.
-/

namespace Punkos.Timer

/-- The frequency of the input clock, in Hz. -/
def clockHz : ℕ := 1193182

/-! ## Channel 0 of the chip -/

/-- The state of the channel. -/
structure Pit where
  /-- The control word. -/
  control : BitVec 8
  /-- The low byte of a count has been written, its high byte not yet. -/
  second : Bool
  /-- That low byte. -/
  latch : BitVec 8
  /-- The count, from when it has been written. -/
  count : Option (BitVec 16)
  /-- The cycles left until the output rises, 0 if the channel does not count. -/
  left : ℕ
  deriving DecidableEq, Repr

/-- A write to one of the two ports. -/
inductive PortWrite where
  /-- To 0x43, the control word. -/
  | command (v : BitVec 8)
  /-- To 0x40, a byte of the count. -/
  | channel0 (v : BitVec 8)
  deriving DecidableEq, Repr

/-- The cycles from one rise to the next. A count of zero stands for 65536. -/
def period (n : BitVec 16) : ℕ := if n = 0 then 65536 else n.toNat

namespace Pit

/-- A new count. One that follows a control word is loaded by the next cycle. Another one would take
over in the middle of a period, which is not modelled: the channel stands still. -/
def setCount (p : Pit) (n : BitVec 16) : Pit :=
  { p with
    second := false
    count := some n
    left := if p.count = none then period n + 1 else 0 }

/-- A write. Bits 7 and 6 of a control word choose the channel; with bits 5 and 4 clear it is no
setting but a request to read. Otherwise these two say which bytes of the count will follow. -/
def write (p : Pit) : PortWrite → Pit
  | .command v =>
    if v.extractLsb' 6 2 = 0 ∧ v.extractLsb' 4 2 ≠ 0 then
      { p with control := v, second := false, count := none }
    else p
  -- low byte only, high byte only, or the low byte and then the high byte
  | .channel0 b =>
    match p.control.extractLsb' 4 2 with
    | 1 => p.setCount (0#8 ++ b)
    | 2 => p.setCount (b ++ 0#8)
    | 3 => if p.second then p.setCount (b ++ p.latch) else { p with second := true, latch := b }
    | _ => p

/-- One cycle of the input clock, and whether the output rises with it. In mode 3 that is once a
period of at least two cycles; a count of 1, the other modes and decimal counts are not modelled,
and the channel stands still with them. -/
def clock (p : Pit) : Bool × Pit :=
  match p.count, p.left with
  | some n, left + 1 =>
    if p.control.extractLsb' 1 2 = 3 ∧ p.control.getLsbD 0 = false ∧ n ≠ 1 then
      if left = 0 then (true, { p with left := period n }) else (false, { p with left := left })
    else (false, p)
  | _, _ => (false, p)

end Pit

/-! ## The code -/

/-- The writes of `init_pit`. A frequency of zero is a division by zero. -/
def initPit (hz : BitVec 32) : Option (List PortWrite) :=
  if hz = 0 then none
  else
    -- `as u16` keeps the low half of the quotient
    let divisor := (1193182#32 / hz).setWidth 16
    some [.command 0x36, .channel0 ((divisor &&& 0xFF).setWidth 8),
      .channel0 ((divisor >>> 8).setWidth 8)]

/-! ## Runs -/

/-- What happens to the chip. -/
inductive Event where
  /-- A write of the kernel. -/
  | write (w : PortWrite)
  /-- A cycle of the clock. -/
  | clock

/-- The writes among the events. -/
def writes : List Event → List PortWrite
  | [] => []
  | .write w :: es => w :: writes es
  | .clock :: es => writes es

/-- The chip after some events. -/
def after : List Event → Pit → Pit
  | [], p => p
  | .write w :: es, p => after es (p.write w)
  | .clock :: es, p => after es p.clock.2

/-- How often the output rises in the next `j` cycles. -/
def rises : ℕ → Pit → ℕ
  | 0, _ => 0
  | j + 1, p => (if p.clock.1 then 1 else 0) + rises j p.clock.2

/-! ## The stages of the set-up -/

/-- The control word has been written, and the low byte of the count is awaited. -/
def AwaitsLow (p : Pit) : Prop := p.control = 0x36 ∧ p.second = false ∧ p.count = none

/-- The low byte has been written. -/
def AwaitsHigh (b : BitVec 8) (p : Pit) : Prop :=
  p.control = 0x36 ∧ p.second = true ∧ p.latch = b ∧ p.count = none

/-- The channel counts down from `n`. -/
structure Counting (n : BitVec 16) (p : Pit) : Prop where
  /-- Both bytes of a binary count, mode 3. -/
  control : p.control = 0x36
  /-- The count. -/
  count : p.count = some n
  /-- The rise is ahead. -/
  left_pos : 1 ≤ p.left
  /-- At most one cycle for loading the count and one period. -/
  left_le : p.left ≤ period n + 1

theorem period_pos (n : BitVec 16) : 0 < period n := by
  rw [period]
  split
  · decide
  · next h =>
    apply Nat.pos_of_ne_zero
    intro hz
    exact h (BitVec.eq_of_toNat_eq hz)

theorem clock_of_count_none {p : Pit} (h : p.count = none) : p.clock = (false, p) := by
  rw [Pit.clock, h]

theorem Counting.clock_eq {n : BitVec 16} {p : Pit} (h : Counting n p) (hn : n ≠ 1) :
    p.clock = if p.left = 1 then (true, { p with left := period n })
      else (false, { p with left := p.left - 1 }) := by
  obtain ⟨left, hleft⟩ := Nat.exists_eq_add_of_le' h.left_pos
  rw [Pit.clock, h.count, h.control, hleft]
  simp only [Nat.add_eq_right, Nat.add_sub_cancel]
  exact if_pos ⟨by decide, by decide, hn⟩

/-- With a count of 1 nothing happens. -/
theorem Counting.clock_eq_self {p : Pit} (h : Counting 1 p) : p.clock = (false, p) := by
  obtain ⟨left, hleft⟩ := Nat.exists_eq_add_of_le' h.left_pos
  rw [Pit.clock, h.count, hleft]
  exact if_neg fun hall ↦ hall.2.2 rfl

theorem Counting.clock {n : BitVec 16} {p : Pit} (h : Counting n p) : Counting n p.clock.2 := by
  by_cases hn : n = 1
  · subst hn
    rw [h.clock_eq_self]
    exact h
  have hpos := period_pos n
  have hle := h.left_le
  have hleft := h.left_pos
  rw [h.clock_eq hn]
  split
  · exact ⟨h.control, h.count, hpos, Nat.le_succ _⟩
  · exact ⟨h.control, h.count, by simp only; omega, by simp only; omega⟩

theorem awaitsLow_write (p : Pit) : AwaitsLow (p.write (.command 0x36)) := by
  rw [Pit.write, if_pos (by decide)]
  exact ⟨rfl, rfl, rfl⟩

theorem AwaitsLow.write {p : Pit} (h : AwaitsLow p) (b : BitVec 8) :
    AwaitsHigh b (p.write (.channel0 b)) := by
  obtain ⟨hcontrol, hsecond, hcount⟩ := h
  rw [Pit.write, hcontrol]
  change AwaitsHigh b (if p.second then _ else _)
  rw [hsecond, if_neg Bool.false_ne_true]
  exact ⟨rfl, rfl, rfl, hcount⟩

theorem AwaitsHigh.write {b : BitVec 8} {p : Pit} (h : AwaitsHigh b p) (b' : BitVec 8) :
    Counting (b' ++ b) (p.write (.channel0 b')) := by
  obtain ⟨hcontrol, hsecond, hlatch, hcount⟩ := h
  rw [Pit.write, hcontrol]
  change Counting (b' ++ b) (if p.second then _ else _)
  rw [hsecond, if_pos rfl, hlatch, Pit.setCount, if_pos hcount]
  exact ⟨hcontrol, rfl, Nat.succ_le_succ (Nat.zero_le _), le_rfl⟩

/-- Up to the next write only cycles pass. -/
theorem exists_after_write {P Q : Pit → Prop} {w : PortWrite} {ws : List PortWrite}
    (hclock : ∀ p, P p → P p.clock.2) (hwrite : ∀ p, P p → Q (p.write w)) {es : List Event}
    {p : Pit} (hp : P p) (hes : writes es = w :: ws) :
    ∃ es' q, Q q ∧ writes es' = ws ∧ after es p = after es' q := by
  induction es generalizing p with
  | nil => simp [writes] at hes
  | cons e es ih =>
    cases e with
    | write w' =>
      obtain ⟨rfl, hws⟩ := List.cons.inj hes
      exact ⟨es, _, hwrite p hp, hws, rfl⟩
    | clock => exact ih (hclock p hp) hes

theorem Counting.after {n : BitVec 16} {es : List Event} {p : Pit} (h : Counting n p)
    (hes : writes es = []) : Counting n (after es p) := by
  induction es generalizing p with
  | nil => exact h
  | cons e es ih =>
    cases e with
    | write w => simp [writes] at hes
    | clock => exact ih h.clock hes

/-- However the cycles fall between the writes, the channel ends up counting. -/
theorem counting_of_writes {b b' : BitVec 8} {es : List Event}
    (hes : writes es = [.command 0x36, .channel0 b, .channel0 b']) (p : Pit) :
    Counting (b' ++ b) (after es p) := by
  -- nothing is known of the chip before the control word; after it each stage outlasts the cycles
  obtain ⟨es₁, p₁, h₁, hes₁, heq₁⟩ := exists_after_write (P := fun _ ↦ True)
    (fun _ _ ↦ trivial) (fun p _ ↦ awaitsLow_write p) (p := p) trivial hes
  have hlow : ∀ q, AwaitsLow q → AwaitsLow q.clock.2 := by
    intro q hq
    rwa [clock_of_count_none hq.2.2]
  obtain ⟨es₂, p₂, h₂, hes₂, heq₂⟩ := exists_after_write hlow (fun q hq ↦ hq.write b) h₁ hes₁
  have hhigh : ∀ q, AwaitsHigh b q → AwaitsHigh b q.clock.2 := by
    intro q hq
    rwa [clock_of_count_none hq.2.2.2]
  obtain ⟨es₃, p₃, h₃, hes₃, heq₃⟩ := exists_after_write hhigh (fun q hq ↦ hq.write b') h₂ hes₂
  rw [heq₁, heq₂, heq₃]
  exact h₃.after hes₃

/-! ## The rate -/

theorem Counting.rises_eq {n : BitVec 16} {p : Pit} (h : Counting n p) (hn : n ≠ 1) (j : ℕ) :
    rises j p = (j + period n - p.left) / period n := by
  have hpos := period_pos n
  induction j generalizing p with
  | zero =>
    have := h.left_pos
    exact (Nat.div_eq_of_lt (by omega)).symm
  | succ j ih =>
    rw [rises, ih h.clock, h.clock_eq hn]
    have h₁ := h.left_pos
    have h₂ := h.left_le
    split
    · next hone =>
      rw [if_pos rfl, hone]
      simp only [Nat.add_sub_cancel]
      rw [Nat.add_right_comm, Nat.add_sub_cancel, Nat.add_div_right _ hpos, Nat.add_comm]
    · next hone =>
      rw [if_neg Bool.false_ne_true, Nat.zero_add]
      congr 1
      simp only
      omega

/-- In every window the output rises once a period, up to one. -/
theorem Counting.rises_window {n : BitVec 16} {p : Pit} (h : Counting n p) (hn : n ≠ 1) (j : ℕ) :
    (j - 1) / period n ≤ rises j p ∧ rises j p ≤ (j - 1) / period n + 1 := by
  have hpos := period_pos n
  have h₁ := h.left_pos
  have h₂ := h.left_le
  rw [h.rises_eq hn]
  constructor
  · exact Nat.div_le_div_right (by omega)
  · rw [← Nat.add_div_right _ hpos]
    exact Nat.div_le_div_right (by omega)

/-- The two bytes of the divisor are put together again. -/
theorem divisor_bytes (d : BitVec 16) :
    (d >>> 8).setWidth 8 ++ (d &&& 0xFF).setWidth 8 = d := by
  have hmask : (0xFF : BitVec 16) = BitField.low 16 8 := by decide
  have hhigh : (d >>> 8).setWidth 8 = d.extractLsb' 8 8 := by
    rw [← BitVec.setWidth_ushiftRight_eq_extractLsb]
  have hlow : (d &&& 0xFF).setWidth 8 = d.extractLsb' 0 8 := by
    rw [hmask, ← BitField.setWidth_ushiftRight_and_low, BitVec.ushiftRight_zero]
  rw [hhigh, hlow]
  exact BitField.extractLsb'_append_extractLsb' (n := 8) (k := 8) d

theorem toNat_divisor (hz : BitVec 32) :
    ((1193182#32 / hz).setWidth 16).toNat = clockHz / hz.toNat % 65536 := by
  have hclock : (1193182#32).toNat = clockHz := by decide
  rw [BitVec.toNat_setWidth, BitVec.toNat_udiv, hclock]

/-- The period is the best for the frequency exactly when the divisor is not cut off and not zero.
-/
theorem period_divisor_iff {hz : ℕ} (hpos : 0 < hz) {n : BitVec 16}
    (hn : n.toNat = clockHz / hz % 65536) :
    (period n * hz ≤ clockHz ∧ clockHz < (period n + 1) * hz) ↔ 19 ≤ hz ∧ hz ≤ clockHz := by
  -- the best period is the quotient, so the question is whether the sixteen bits still hold it
  have hquot : period n * hz ≤ clockHz ∧ clockHz < (period n + 1) * hz ↔
      clockHz / hz = period n := by
    rw [Nat.div_eq_iff hpos, Nat.add_mul, Nat.one_mul]
    omega
  have hsmall : clockHz / hz < 65536 ↔ 19 ≤ hz := by
    rw [Nat.div_lt_iff_lt_mul hpos, clockHz]
    omega
  have hone : 1 ≤ clockHz / hz ↔ hz ≤ clockHz := by
    rw [Nat.le_div_iff_mul_le hpos, Nat.one_mul]
  -- no frequency has the quotient 65536
  have hnot : clockHz / hz ≠ 65536 := by
    rw [Ne, Nat.div_eq_iff hpos, clockHz]
    omega
  have hzero : n = 0 ↔ n.toNat = 0 := by
    rw [← BitVec.toNat_inj]
    rfl
  rw [hquot, ← hsmall, ← hone, period]
  split
  · next h =>
    have := hzero.mp h
    omega
  · next h =>
    have := mt hzero.mpr h
    omega

/-- The count is 1 in the upper half of the frequencies of the clock. -/
theorem divisor_eq_one_iff {hz : ℕ} (hpos : 0 < hz) {n : BitVec 16}
    (hn : n.toNat = clockHz / hz % 65536) : n = 1 ↔ 596592 ≤ hz ∧ hz ≤ clockHz := by
  have hone : n = 1 ↔ clockHz / hz % 65536 = 1 := by
    rw [← hn, ← BitVec.toNat_inj]
    rfl
  rw [hone]
  by_cases hsmall : hz < 19
  · -- the quotient is cut off, but never to 1
    have hcut : ∀ h < 19, 0 < h → clockHz / h % 65536 ≠ 1 := by decide
    exact iff_of_false (hcut hz hsmall hpos) (by omega)
  · have hlt : clockHz / hz < 65536 := by
      rw [Nat.div_lt_iff_lt_mul hpos, clockHz]
      omega
    rw [Nat.mod_eq_of_lt hlt, Nat.div_eq_iff hpos, clockHz]
    omega

theorem period_eq_one_iff (n : BitVec 16) : period n = 1 ↔ n = 1 := by
  rw [period]
  split
  · next h =>
    rw [h]
    decide
  · rw [← BitVec.toNat_inj]
    rfl

/-- **The rate of the timer.** Whatever state the chip was in and however its cycles fall between
the writes, `init_pit` gives it a count from 1 to 65536 cycles. The count is 1, which is not one for
mode 3, exactly from 596592 Hz up to the frequency of the clock. With any other the output rises,
in every window of `j` cycles, once in each period of that length, up to one rise. The length is the
longest with at least the frequency asked for exactly when that is between 19 and 596591. -/
theorem timer_rate (hz : BitVec 32) (hne : hz ≠ 0) :
    ∃ ws n, initPit hz = some ws ∧ 0 < n ∧ n ≤ 65536 ∧
      (n = 1 ↔ 596592 ≤ hz.toNat ∧ hz.toNat ≤ clockHz) ∧
      (∀ es p, writes es = ws → (after es p).count.map period = some n ∧
        (n ≠ 1 → ∀ j,
          (j - 1) / n ≤ rises j (after es p) ∧ rises j (after es p) ≤ (j - 1) / n + 1)) ∧
      ((n ≠ 1 ∧ n * hz.toNat ≤ clockHz ∧ clockHz < (n + 1) * hz.toNat) ↔
        19 ≤ hz.toNat ∧ hz.toNat ≤ 596591) := by
  have hpos : 0 < hz.toNat := by
    apply Nat.pos_of_ne_zero
    intro h
    exact hne (BitVec.eq_of_toNat_eq h)
  have hn := toNat_divisor hz
  have hone := (period_eq_one_iff _).trans (divisor_eq_one_iff hpos hn)
  refine ⟨_, _, if_neg hne, period_pos _, ?_, hone, fun es p hes ↦ ?_, ?_⟩
  · rw [period]
    split
    · exact le_rfl
    · exact Nat.le_of_lt (BitVec.isLt _)
  · have hcounting := counting_of_writes hes p
    rw [divisor_bytes] at hcounting
    refine ⟨congrArg (Option.map period) hcounting.count, fun hne j ↦ ?_⟩
    exact hcounting.rises_window (mt (period_eq_one_iff _).mpr hne) j
  · rw [Ne, hone, period_divisor_iff hpos hn, clockHz]
    omega

/-- At the 100 Hz of the kernel, started by a chip that has just got half a count. -/
theorem timer_rate_100 :
    ∃ ws n, initPit 100 = some ws ∧ n = 11931 ∧ ∀ j,
      (j - 1) / n ≤ rises j (after (ws.map .write) ⟨0x34, true, 0xFF, some 3, 2⟩) := by
  obtain ⟨ws, n, hws, -, -, -, hrate, hbest⟩ := timer_rate 100 (by decide)
  obtain ⟨hne, hle, hlt⟩ := hbest.mpr (by decide)
  have hwrites : writes (ws.map .write) = ws := by
    obtain rfl := Option.some.inj hws
    rfl
  obtain ⟨-, hrises⟩ := hrate _ ⟨0x34, true, 0xFF, some 3, 2⟩ hwrites
  refine ⟨ws, n, hws, ?_, fun j ↦ (hrises hne j).1⟩
  simp only [clockHz, BitVec.reduceToNat] at hle hlt
  omega

end Punkos.Timer
