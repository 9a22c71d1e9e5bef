import Mathlib.Algebra.GroupWithZero.Nat
import Mathlib.Data.Nat.Basic

/-!
# Fields of words

A register packs several fields into one word. A specification names them by their positions, as
`extractLsb'` does; a program takes them apart with shifts and masks and puts them together with
shifts and `|||`. Here the two are related, for words of any width: what a mask selects
(`ushiftRight_and_low`, `and_not_low`), how a word falls into a high and a low part
(`extractLsb'_append_extractLsb'`), and what alignment says about the low part.
-/

namespace BitField

variable {w k n i : ℕ}

/-- The mask of the `k` lowest bits. -/
def low (w k : ℕ) : BitVec w := (BitVec.allOnes k).setWidth w

theorem getLsbD_low : (low w k).getLsbD i = (decide (i < w) && decide (i < k)) := by
  rw [low, BitVec.getLsbD_setWidth, BitVec.getLsbD_allOnes]

@[simp] theorem getElem_low (hi : i < w) : (low w k)[i] = decide (i < k) := by
  rw [← BitVec.getLsbD_eq_getElem, getLsbD_low, decide_eq_true hi, Bool.true_and]

theorem setWidth_inj_of_le (h : n ≤ w) {x y : BitVec n} : x.setWidth w = y.setWidth w ↔ x = y := by
  refine ⟨fun heq ↦ ?_, fun heq ↦ heq ▸ rfl⟩
  have hnat := congrArg BitVec.toNat heq
  rw [BitVec.toNat_setWidth_of_le h, BitVec.toNat_setWidth_of_le h] at hnat
  exact BitVec.eq_of_toNat_eq hnat

/-- A mask of one bit tests it. -/
theorem and_twoPow_eq_zero_iff (x : BitVec w) (hi : i < w) :
    x &&& BitVec.twoPow w i = 0 ↔ x.getLsbD i = false := by
  have hne : BitVec.twoPow w i ≠ 0 := by
    intro h
    have hbit := congrArg (BitVec.getLsbD · i) h
    simp [hi] at hbit
  rw [BitVec.and_twoPow]
  rcases x.getLsbD i with _ | _
  · exact iff_of_true rfl rfl
  · exact iff_of_false hne Bool.noConfusion

/-! ## Taking a word apart -/

/-- Shifting down and masking selects a field. -/
theorem ushiftRight_and_low (x : BitVec w) (k n : ℕ) :
    x >>> k &&& low w n = (x.extractLsb' k n).setWidth w := by
  apply BitVec.eq_of_getLsbD_eq
  intro i hi
  simp [hi, Bool.and_comm]

/-- The same, as a word of the field's own width. -/
theorem setWidth_ushiftRight_and_low (x : BitVec w) (k n : ℕ) :
    (x >>> k &&& low w n).setWidth n = x.extractLsb' k n := by
  apply BitVec.eq_of_getLsbD_eq
  intro i hi
  rw [ushiftRight_and_low, BitVec.getLsbD_setWidth, BitVec.getLsbD_setWidth]
  by_cases hw : i < w
  · simp [hi, hw]
  · have hout : x.getLsbD (k + i) = false := BitVec.getLsbD_of_ge x _ (by omega)
    simp [hw, hout]

theorem getLsbD_and_not_low (x : BitVec w) (k i : ℕ) :
    (x &&& ~~~low w k).getLsbD i = (!decide (i < k) && x.getLsbD i) := by
  by_cases hi : i < w
  · simp [hi, Bool.and_comm]
  · have hout : x.getLsbD i = false := BitVec.getLsbD_of_ge x i (not_lt.mp hi)
    simp [hout]

/-- Clearing the low bits keeps the field above them in its place. -/
theorem and_not_low (h : k + n = w) (x : BitVec w) :
    x &&& ~~~low w k = (x.extractLsb' k n).setWidth w <<< k := by
  apply BitVec.eq_of_getLsbD_eq
  intro i hi
  rw [getLsbD_and_not_low, BitVec.getLsbD_shiftLeft]
  by_cases hlow : i < k
  · simp [hlow]
  · have hbit : i - k < n := by omega
    simp [hi, hlow, hbit, Nat.lt_of_le_of_lt (Nat.sub_le i k) hi,
      Nat.add_sub_cancel' (not_lt.mp hlow)]

/-- Clearing the low bits rounds down. -/
theorem toNat_and_not_low (x : BitVec w) (k : ℕ) :
    (x &&& ~~~low w k).toNat = x.toNat / 2 ^ k * 2 ^ k := by
  apply Nat.eq_of_testBit_eq
  intro i
  change (x &&& ~~~low w k).getLsbD i = _
  rw [getLsbD_and_not_low, Nat.testBit_mul_two_pow, Nat.testBit_div_two_pow]
  by_cases hlow : i < k
  · simp [hlow, not_le.mpr hlow]
  · simp [hlow, not_lt.mp hlow, BitVec.getLsbD]

/-! ## Putting a word together -/

/-- A word is its high part and its low part. -/
theorem extractLsb'_append_extractLsb' (x : BitVec (n + k)) :
    x.extractLsb' k n ++ x.extractLsb' 0 k = x := by
  rw [BitVec.extractLsb'_append_extractLsb'_eq_extractLsb' (Nat.zero_add k).symm,
    BitVec.extractLsb'_eq_self]

/-- Words put together are equal part by part. -/
theorem append_inj_iff {m n : ℕ} {x x' : BitVec m} {y y' : BitVec n} :
    x ++ y = x' ++ y' ↔ x = x' ∧ y = y' := by
  constructor
  · intro h
    have hleft := congrArg (·.extractLsb' n m) h
    have hright := congrArg (·.extractLsb' 0 n) h
    simp only [BitVec.extractLsb'_append_eq_left] at hleft
    simp only [BitVec.extractLsb'_append_eq_right] at hright
    exact ⟨hleft, hright⟩
  · rintro ⟨rfl, rfl⟩
    rfl

/-- Shifting up and or-ing joins two fields. -/
theorem shiftLeft_or_setWidth (hi : BitVec n) (lo : BitVec k) :
    hi.setWidth w <<< k ||| lo.setWidth w = (hi ++ lo).setWidth w := by
  apply BitVec.eq_of_getLsbD_eq
  intro i hw
  rw [BitVec.getLsbD_or, BitVec.getLsbD_shiftLeft, BitVec.getLsbD_setWidth,
    BitVec.getLsbD_setWidth, BitVec.getLsbD_setWidth, BitVec.getLsbD_append]
  by_cases hlow : i < k
  · simp [hw, hlow]
  · have hout : lo.getLsbD i = false := BitVec.getLsbD_of_ge lo i (not_lt.mp hlow)
    simp [hw, hlow, hout, Nat.lt_of_le_of_lt (Nat.sub_le i k) hw]

/-- Clearing the low part of a word leaves the high part. -/
theorem append_and_not_low (hi : BitVec n) (lo : BitVec k) :
    (hi ++ lo) &&& ~~~low (n + k) k = hi ++ 0#k := by
  apply BitVec.eq_of_getLsbD_eq
  intro i _
  rw [getLsbD_and_not_low, BitVec.getLsbD_append, BitVec.getLsbD_append]
  by_cases hlow : i < k
  · simp [hlow]
  · simp [hlow]

/-! ## Aligned words -/

section Aligned

variable {x : BitVec w}

theorem and_not_low_of_dvd (h : 2 ^ k ∣ x.toNat) : x &&& ~~~low w k = x :=
  BitVec.eq_of_toNat_eq ((toNat_and_not_low x k).trans (Nat.div_mul_cancel h))

/-- An aligned word is its high part, moved back. -/
theorem shiftLeft_extractLsb'_of_dvd (hw : k + n = w) (h : 2 ^ k ∣ x.toNat) :
    (x.extractLsb' k n).setWidth w <<< k = x := by
  rw [← and_not_low hw, and_not_low_of_dvd h]

/-- The low part of an aligned word is zero. -/
theorem setWidth_of_dvd (h : 2 ^ k ∣ x.toNat) : x.setWidth k = 0#k := by
  apply BitVec.eq_of_toNat_eq
  rw [BitVec.toNat_setWidth, Nat.mod_eq_zero_of_dvd h, BitVec.toNat_zero]

/-- Flags in the low bits of an aligned word are cleared again. -/
theorem or_and_not_low {flags : BitVec w} (hflags : flags &&& ~~~low w k = 0)
    (h : 2 ^ k ∣ x.toNat) : (x ||| flags) &&& ~~~low w k = x := by
  rw [BitVec.and_or_distrib_right, and_not_low_of_dvd h, hflags]
  exact BitVec.or_zero

end Aligned

/-- An aligned word is its high part followed by zeros. -/
theorem extractLsb'_append_zero_of_dvd {x : BitVec (n + k)} (h : 2 ^ k ∣ x.toNat) :
    x.extractLsb' k n ++ 0#k = x := by
  rw [← setWidth_of_dvd h, BitVec.setWidth_eq_extractLsb' (Nat.le_add_left k n),
    extractLsb'_append_extractLsb']

end BitField
