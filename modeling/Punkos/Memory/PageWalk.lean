import Punkos.Memory.PageTable

/-!
# The page walk and the architecture

`virt_to_phys` re-implements in software what the processor does on every access. Here the
processor's side is stated on its own, as two relations over the tables in memory: `EndsAt`, the
entry a walk ends at and its level, and `Faults`, a walk that meets an entry without its present
bit or a level-4 entry with bit 7. The walk of the kernel finds the same entry and gives up in the
same cases, since both sides are one radix-tree walk.

## What goes wrong

They differ in what they take from the entry they end at. The kernel uses `addr()`, bits 51 to 12,
whatever the level. In an entry that maps 2 MiB or 1 GiB the page frame starts at bit 21 or 30, and
bit 12 is the PAT attribute: a large page with that bit set is translated to an address 4 KiB too
high. `virtToPhys_agrees_iff` is the exact condition.
-/

namespace Punkos

open RadixTree

/-! ## The architecture's translation -/

/-- The page frame of a leaf at level `k`: bits 51 to 12, 21 or 30 of the entry. -/
def PageTableEntry.pageFrame (e : PageTableEntry) (k : ℕ) : ℕ :=
  (e.bits.extractLsb' (12 + 9 * k) (40 - 9 * k)).toNat * 2 ^ (12 + 9 * k)

section Walk

variable (mem : PhysMem) (addr : ℕ)

/-- The walk of `addr` from table `t` of level `k` ends at entry `e` of level `l`: bit 7 ends it at
the two middle levels, and the last level ends it anyway. -/
inductive EndsAt : ℕ → PhysFrame → ℕ → PageTableEntry → Prop
  | page {t : PhysFrame} :
      (mem t (tableIndex 0 addr)).present = true → EndsAt 0 t 0 (mem t (tableIndex 0 addr))
  | largePage {k : ℕ} {t : PhysFrame} : k < 2 →
      (mem t (tableIndex (k + 1) addr)).present = true →
      (mem t (tableIndex (k + 1) addr)).hugePage = true →
      EndsAt (k + 1) t (k + 1) (mem t (tableIndex (k + 1) addr))
  | next {k l : ℕ} {t : PhysFrame} {e : PageTableEntry} :
      (mem t (tableIndex (k + 1) addr)).present = true →
      (mem t (tableIndex (k + 1) addr)).hugePage = false →
      EndsAt k (mem t (tableIndex (k + 1) addr)).target l e → EndsAt (k + 1) t l e

/-- The walk of `addr` from table `t` of level `k` finds no page. -/
inductive Faults : ℕ → PhysFrame → Prop
  | notPresent {k : ℕ} {t : PhysFrame} :
      (mem t (tableIndex k addr)).present = false → Faults k t
  | reserved {k : ℕ} {t : PhysFrame} : 2 ≤ k →
      (mem t (tableIndex (k + 1) addr)).hugePage = true → Faults (k + 1) t
  | next {k : ℕ} {t : PhysFrame} :
      (mem t (tableIndex (k + 1) addr)).hugePage = false →
      Faults k (mem t (tableIndex (k + 1) addr)).target → Faults (k + 1) t

end Walk

/-- The architecture maps `v` to the physical address `p`. -/
def MapsTo (mem : PhysMem) (cr3 : PhysFrame) (v : VirtAddr) (p : ℕ) : Prop :=
  ∃ k e, EndsAt mem v.val 3 cr3 k e ∧ p = e.pageFrame k + v.val % 2 ^ (12 + 9 * k)

/-! ## Both sides walk the same way -/

/-- The indices of `addr` from level `k` down. -/
def pathFrom (addr : ℕ) : ℕ → List PageTableIndex
  | 0 => [tableIndex 0 addr]
  | k + 1 => tableIndex (k + 1) addr :: pathFrom addr k

@[simp] theorem length_pathFrom (addr k : ℕ) : (pathFrom addr k).length = k + 1 := by
  induction k with
  | zero => rfl
  | succ k ih => rw [pathFrom, List.length_cons, ih]

section Walk

variable {mem : PhysMem} {addr : ℕ}

theorem EndsAt.level_le {k l : ℕ} {t : PhysFrame} {e : PageTableEntry}
    (h : EndsAt mem addr k t l e) : l ≤ 2 := by
  induction h with
  | page => exact Nat.zero_le 2
  | largePage hk => exact hk
  | next _ _ _ ih => exact ih

/-- Every walk ends at an entry or faults, and the radix-tree walk says which. -/
theorem lookup_pathFrom (mem : PhysMem) (addr k : ℕ) (t : PhysFrame) :
    (∃ l e, EndsAt mem addr k t l e ∧ lookup link mem t (pathFrom addr k) = some (e.addr, l)) ∨
      Faults mem addr k t ∧ lookup link mem t (pathFrom addr k) = none := by
  induction k generalizing t with
  | zero =>
    rcases hp : (mem t (tableIndex 0 addr)).present with _ | _
    · exact Or.inr ⟨.notPresent hp, by simp [pathFrom, lookup, link, hp]⟩
    · exact Or.inl ⟨0, _, .page hp, by simp [pathFrom, lookup, link, hp]⟩
  | succ k ih =>
    rcases hp : (mem t (tableIndex (k + 1) addr)).present with _ | _
    · exact Or.inr ⟨.notPresent hp, by simp [pathFrom, lookup, link, hp]⟩
    rcases hh : (mem t (tableIndex (k + 1) addr)).hugePage with _ | _
    · -- the entry names a table: the rest of the walk decides
      have hdown : lookup link mem t (pathFrom addr (k + 1)) =
          lookup link mem (mem t (tableIndex (k + 1) addr)).target (pathFrom addr k) := by
        apply lookup_cons_node
        rw [length_pathFrom]
        exact link_node hp hh
      rw [hdown]
      obtain ⟨l, e, hend, hlook⟩ | ⟨hfault, hlook⟩ := ih (mem t (tableIndex (k + 1) addr)).target
      · exact Or.inl ⟨l, e, .next hp hh hend, hlook⟩
      · exact Or.inr ⟨.next hh hfault, hlook⟩
    · by_cases hk : k < 2
      · exact Or.inl ⟨k + 1, _, .largePage hk hp hh, by simp [pathFrom, lookup, link, hp, hh, hk]⟩
      · exact Or.inr ⟨.reserved (Nat.le_of_not_lt hk) hh,
          by simp [pathFrom, lookup, link, hp, hh, hk]⟩

/-- A walk ends in one way only. -/
theorem EndsAt.unique {k l l' : ℕ} {t : PhysFrame} {e e' : PageTableEntry}
    (h : EndsAt mem addr k t l e) (h' : EndsAt mem addr k t l' e') : l = l' ∧ e = e' := by
  induction h with
  | page =>
    rcases h' with _ | _ | _
    exact ⟨rfl, rfl⟩
  | largePage _ _ hh =>
    rcases h' with _ | _ | ⟨-, hh', -⟩
    · exact ⟨rfl, rfl⟩
    · rw [hh] at hh'
      exact Bool.noConfusion hh'
  | next _ hh _ ih =>
    rcases h' with _ | ⟨-, -, hh'⟩ | ⟨-, -, h'⟩
    · rw [hh] at hh'
      exact Bool.noConfusion hh'
    · exact ih h'

theorem EndsAt.not_faults {k l : ℕ} {t : PhysFrame} {e : PageTableEntry}
    (h : EndsAt mem addr k t l e) : ¬Faults mem addr k t := by
  intro hf
  induction h with
  | page hp =>
    rcases hf with hnp | _ | _
    rw [hp] at hnp
    exact Bool.noConfusion hnp
  | largePage hk hp hh =>
    rcases hf with hnp | ⟨hle, -⟩ | ⟨hnh, -⟩
    · rw [hp] at hnp
      exact Bool.noConfusion hnp
    · exact absurd hk (Nat.not_lt_of_le hle)
    · rw [hh] at hnh
      exact Bool.noConfusion hnh
  | next hp hh _ ih =>
    rcases hf with hnp | ⟨-, hh'⟩ | ⟨-, hf⟩
    · rw [hp] at hnp
      exact Bool.noConfusion hnp
    · rw [hh] at hh'
      exact Bool.noConfusion hh'
    · exact ih hf

end Walk

/-! ## What is taken from the entry -/

/-- The part of `addr()` below the page frame is zero exactly when its bits are. -/
theorem addr_eq_pageFrame_iff (e : PageTableEntry) {k : ℕ} (hk : k ≤ 2) :
    e.addr = e.pageFrame k ↔ ∀ i, 12 ≤ i → i < 12 + 9 * k → e.bits.getLsbD i = false := by
  have hlow : (e.bits.extractLsb' 12 (9 * k) = 0#(9 * k)) ↔
      ∀ i, 12 ≤ i → i < 12 + 9 * k → e.bits.getLsbD i = false := by
    constructor
    · intro h i hi hlt
      have hbit := congrArg (·.getLsbD (i - 12)) h
      simp only [BitVec.getLsbD_extractLsb', BitVec.getLsbD_zero] at hbit
      have hin : i - 12 < 9 * k := by omega
      rw [decide_eq_true hin, Bool.true_and, Nat.add_sub_cancel' hi] at hbit
      exact hbit
    · intro h
      apply BitVec.eq_of_getLsbD_eq
      intro i hi
      rw [BitVec.getLsbD_extractLsb', BitVec.getLsbD_zero, h (12 + i) (by omega) (by omega),
        Bool.and_false]
  rw [← hlow, ← BitVec.toNat_inj]
  unfold PageTableEntry.addr PageTableEntry.pageFrame
  simp only [BitVec.extractLsb'_toNat, BitVec.toNat_ofNat, Nat.shiftRight_eq_div_pow, Nat.zero_mod]
  simp only [Nat.reducePow]
  obtain rfl | rfl | rfl : k = 0 ∨ k = 1 ∨ k = 2 := by omega
  · simp [Nat.mod_one]
  · simp only [Nat.reduceMul, Nat.reduceAdd, Nat.reduceSub, Nat.reducePow]
    omega
  · simp only [Nat.reduceMul, Nat.reduceAdd, Nat.reduceSub, Nat.reducePow]
    omega

/-- What the kernel's walk returns, in the architecture's terms. -/
theorem virtToPhys_cases (mem : PhysMem) (cr3 : PhysFrame) (v : VirtAddr) :
    (∃ k e, EndsAt mem v.val 3 cr3 k e ∧
        virtToPhys mem cr3 v = some (e.addr + v.val % 2 ^ (12 + 9 * k))) ∨
      Faults mem v.val 3 cr3 ∧ virtToPhys mem cr3 v = none := by
  have hpath : pathOf v.val = pathFrom v.val 3 := rfl
  rw [virtToPhys_eq_lookup, hpath]
  obtain ⟨k, e, hend, hlook⟩ | ⟨hfault, hlook⟩ := lookup_pathFrom mem v.val 3 cr3
  · exact Or.inl ⟨k, e, hend, by rw [hlook]; rfl⟩
  · exact Or.inr ⟨hfault, by rw [hlook]; rfl⟩

theorem dvd_addr (e : PageTableEntry) : 4096 ∣ e.addr := Nat.dvd_mul_left 4096 _

/-- Wherever the walk ends, the offset in a page of 4 KiB is kept. -/
theorem virtToPhys_mod {mem : PhysMem} {cr3 : PhysFrame} {v : VirtAddr} {p : ℕ}
    (h : virtToPhys mem cr3 v = some p) : p % 4096 = v.val % 4096 := by
  obtain ⟨k, e, -, hwalk⟩ | ⟨-, hwalk⟩ := virtToPhys_cases mem cr3 v
  · obtain rfl := Option.some.inj (hwalk.symm.trans h)
    have hdvd : 4096 ∣ 2 ^ (12 + 9 * k) := ⟨2 ^ (9 * k), Nat.pow_add 2 12 (9 * k)⟩
    rw [Nat.add_mod, Nat.mod_eq_zero_of_dvd (dvd_addr e), Nat.zero_add, Nat.mod_mod,
      Nat.mod_mod_of_dvd _ hdvd]
  · rw [hwalk] at h
    cases h

/-- **The walk agrees with the architecture, exactly when the entry it ends at has no bit set
between bit 12 and its page frame.** A 4 KiB leaf has no such bits, and a walk that faults ends at
no entry. -/
theorem virtToPhys_agrees_iff (mem : PhysMem) (cr3 : PhysFrame) (v : VirtAddr) :
    ((∀ p, virtToPhys mem cr3 v = some p ↔ MapsTo mem cr3 v p) ∧
        (virtToPhys mem cr3 v = none ↔ Faults mem v.val 3 cr3)) ↔
      ∀ k e, EndsAt mem v.val 3 cr3 k e → ∀ i, 12 ≤ i → i < 12 + 9 * k →
        e.bits.getLsbD i = false := by
  obtain ⟨k, e, hend, hwalk⟩ | ⟨hfault, hwalk⟩ := virtToPhys_cases mem cr3 v
  · rw [hwalk]
    constructor
    · rintro ⟨hsome, -⟩ k' e' hend'
      obtain ⟨rfl, rfl⟩ := hend.unique hend'
      obtain ⟨k', e', hend', hp⟩ := (hsome _).mp rfl
      obtain ⟨rfl, rfl⟩ := hend.unique hend'
      exact (addr_eq_pageFrame_iff e hend.level_le).mp (Nat.add_right_cancel hp)
    · intro hbits
      have haddr := (addr_eq_pageFrame_iff e hend.level_le).mpr (hbits k e hend)
      refine ⟨fun p ↦ ⟨fun hp ↦ ⟨k, e, hend, ?_⟩, ?_⟩, ?_⟩
      · rw [← haddr]
        exact (Option.some.inj hp).symm
      · rintro ⟨k', e', hend', rfl⟩
        obtain ⟨rfl, rfl⟩ := hend.unique hend'
        rw [haddr]
      · exact iff_of_false (Option.some_ne_none _) hend.not_faults
  · rw [hwalk]
    have hno : ∀ k e, ¬EndsAt mem v.val 3 cr3 k e := fun k e hend ↦ hend.not_faults hfault
    constructor
    · intro _ k e hend
      exact absurd hend (hno k e)
    · intro _
      refine ⟨fun p ↦ iff_of_false (Option.some_ne_none p).symm ?_, iff_of_true rfl hfault⟩
      rintro ⟨k, e, hend, -⟩
      exact hno k e hend

/-- Tables that map the first 2 MiB of the address space to the page at 2 MiB, with the PAT bit of
the large page set. -/
def patMem : PhysMem := fun t _ ↦
  if t.startAddress = 0x1000 then ⟨0x2001⟩
  else if t.startAddress = 0x2000 then ⟨0x3001⟩
  else if t.startAddress = 0x3000 then ⟨0x201081⟩
  else .zero

/-- The statement without the condition fails: the kernel translates address 0 to `0x201000`, the
processor to `0x200000`. -/
theorem not_virtToPhys_agrees :
    ¬∀ (mem : PhysMem) (cr3 : PhysFrame) (v : VirtAddr),
      (∀ p, virtToPhys mem cr3 v = some p ↔ MapsTo mem cr3 v p) ∧
        (virtToPhys mem cr3 v = none ↔ Faults mem v.val 3 cr3) := by
  intro h
  let cr3 : PhysFrame := ⟨0x1000, by decide, by decide⟩
  let v : VirtAddr := ⟨0, by decide⟩
  have hmaps : MapsTo patMem cr3 v 0x200000 := by
    refine ⟨1, _, .next ?_ ?_ (.next ?_ ?_ (.largePage Nat.zero_lt_two ?_ ?_)), ?_⟩ <;> decide
  have hwalk : virtToPhys patMem cr3 v = some 0x201000 := by decide
  have := ((h patMem cr3 v).1 0x200000).mpr hmaps
  rw [hwalk] at this
  exact absurd (Option.some.inj this) (by decide)

end Punkos
