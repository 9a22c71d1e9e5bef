import Mathlib.Data.Nat.Bitwise
import Punkos.Foundation.RadixTree
import Punkos.Memory.FrameAllocator

/-!
# Page tables and the page walk

`memory::virt_to_phys` walks the active page tables by hand. Physical memory is modelled as far as
the walk reads it: every frame, seen as a page table, gives each of its 512 indices a 64-bit entry.
The fixed offset at which the bootloader maps physical memory is only the way the kernel reaches
those frames, so it does not appear.

The accessors of the `x86_64` crate that the walk uses are taken as documented: `addr()` is bits
51 to 12 of the entry, and `frame()` fails when the entry is not present or has the huge-page bit.

## The walk as a radix-tree lookup

`virtToPhys` follows the source line by line. `virtToPhys_eq_lookup` identifies it with `lookup` in
a radix tree of three pointer levels, after which nothing has to be said about the four nested
reads again: what a mapping does to the tree is a statement about index paths, and `path_injective`
turns it into one about canonical addresses.
-/

namespace Punkos

open RadixTree

/-! ## Entries -/

/-- A page table entry. -/
structure PageTableEntry where
  /-- The 64 bits of the entry. -/
  bits : BitVec 64
  deriving DecidableEq

/-- Why an entry names no table. -/
inductive FrameError where
  /-- The present bit is clear. -/
  | frameNotPresent
  /-- The entry maps a large page. -/
  | hugeFrame
  deriving DecidableEq, Repr

namespace PageTableEntry

/-- The unused entry. -/
def zero : PageTableEntry := ⟨0⟩

/-- `flags().contains(PRESENT)`. -/
def present (e : PageTableEntry) : Bool := e.bits.getLsbD 0

/-- `flags().contains(HUGE_PAGE)`. -/
def hugePage (e : PageTableEntry) : Bool := e.bits.getLsbD 7

/-- `addr()`: bits 51 to 12. -/
def addr (e : PageTableEntry) : ℕ := (e.bits.extractLsb' 12 40).toNat * 4096

theorem addr_lt (e : PageTableEntry) : e.addr < 2 ^ 52 := by
  have := (e.bits.extractLsb' 12 40).isLt
  rw [addr]
  omega

/-- The frame at `addr()`, whatever the flags say. -/
def target (e : PageTableEntry) : PhysFrame := ⟨e.addr, Nat.dvd_mul_left 4096 _, e.addr_lt⟩

/-- `frame()`. -/
def frame (e : PageTableEntry) : Except FrameError PhysFrame :=
  if !e.present then .error .frameNotPresent
  else if e.hugePage then .error .hugeFrame
  else .ok e.target

end PageTableEntry

/-- An index into a page table. -/
abbrev PageTableIndex := Fin 512

/-- Physical memory, each frame read as a page table. -/
abbrev PhysMem := PhysFrame → PageTableIndex → PageTableEntry

/-! ## Virtual addresses -/

/-- The index an address selects in a table of level `k`, counted from 0 at the last level. -/
def tableIndex (k addr : ℕ) : PageTableIndex :=
  ⟨addr / 2 ^ (12 + 9 * k) % 512, Nat.mod_lt _ (by decide)⟩

/-- The indices of an address, from the level-4 table down. -/
def pathOf (addr : ℕ) : List PageTableIndex :=
  [tableIndex 3 addr, tableIndex 2 addr, tableIndex 1 addr, tableIndex 0 addr]

@[simp] theorem length_pathOf (addr : ℕ) : (pathOf addr).length = 4 := rfl

/-- A canonical virtual address: bits 48 to 63 repeat bit 47. -/
structure VirtAddr where
  /-- The address. -/
  val : ℕ
  /-- The lower or the upper half of the address space. -/
  canonical : val < 2 ^ 47 ∨ 2 ^ 64 - 2 ^ 47 ≤ val ∧ val < 2 ^ 64

namespace VirtAddr

/-- Bits 47 to 39. -/
def p4Index (v : VirtAddr) : PageTableIndex := tableIndex 3 v.val

/-- Bits 38 to 30. -/
def p3Index (v : VirtAddr) : PageTableIndex := tableIndex 2 v.val

/-- Bits 29 to 21. -/
def p2Index (v : VirtAddr) : PageTableIndex := tableIndex 1 v.val

/-- Bits 20 to 12. -/
def p1Index (v : VirtAddr) : PageTableIndex := tableIndex 0 v.val

end VirtAddr

/-- Addresses with the same indices lie on one page, as long as they are canonical. -/
theorem path_injective {v w : VirtAddr} (h : pathOf v.val = pathOf w.val) :
    v.val / 4096 = w.val / 4096 := by
  simp only [pathOf, tableIndex, List.cons.injEq, Fin.mk.injEq, and_true] at h
  obtain ⟨h₃, h₂, h₁, h₀⟩ := h
  have hv := v.canonical
  have hw := w.canonical
  simp only [Nat.reduceMul, Nat.reduceAdd, Nat.reducePow, Nat.reduceSub] at h₃ h₂ h₁ h₀ hv hw
  omega

theorem pathOf_page (addr : ℕ) : pathOf (addr / 4096 * 4096) = pathOf addr := by
  simp only [pathOf, tableIndex, List.cons.injEq, Fin.mk.injEq, and_true]
  simp only [Nat.reduceMul, Nat.reduceAdd, Nat.reducePow]
  omega

/-! ## The walk -/

/-- Translate a virtual address through the tables rooted at `cr3`. -/
def virtToPhys (mem : PhysMem) (cr3 : PhysFrame) (virt : VirtAddr) : Option ℕ :=
  let p4e := mem cr3 virt.p4Index
  if !p4e.present then none
  else do
    let p3 ← p4e.frame.toOption
    let p3e := mem p3 virt.p3Index
    if !p3e.present then none
    else if p3e.hugePage then some (p3e.addr + (virt.val &&& 0x3FFF_FFFF))
    else do
      let p2 ← p3e.frame.toOption
      let p2e := mem p2 virt.p2Index
      if !p2e.present then none
      else if p2e.hugePage then some (p2e.addr + (virt.val &&& 0x1F_FFFF))
      else do
        let p1 ← p2e.frame.toOption
        let p1e := mem p1 virt.p1Index
        if !p1e.present then none
        else some (p1e.addr + (virt.val &&& 0xFFF))

/-- What an entry of a table of level `k` says to the walk. A large page may end it at the two
middle levels; in the level-4 table the huge-page bit leads nowhere. -/
def link : ℕ → PageTableEntry → Link PhysFrame ℕ
  | 0, e => if e.present then .leaf e.addr else .absent
  | k + 1, e =>
    if !e.present then .absent
    else if e.hugePage then (if k < 2 then .leaf e.addr else .absent)
    else .node e.target

@[simp] theorem link_zero (k : ℕ) : link k .zero = .absent := by
  cases k <;> rfl

theorem link_node {k : ℕ} {e : PageTableEntry} (hp : e.present = true) (hh : e.hugePage = false) :
    link (k + 1) e = .node e.target := by
  simp [link, hp, hh]

/-- **The walk is a radix-tree lookup.** The level at which a leaf is found fixes how many low bits
of the address are the offset. -/
theorem virtToPhys_eq_lookup (mem : PhysMem) (cr3 : PhysFrame) (v : VirtAddr) :
    virtToPhys mem cr3 v =
      (lookup link mem cr3 (pathOf v.val)).map fun l ↦ l.1 + v.val % 2 ^ (12 + 9 * l.2) := by
  have h30 : v.val &&& 0x3FFF_FFFF = v.val % 2 ^ 30 := Nat.and_two_pow_sub_one_eq_mod v.val 30
  have h21 : v.val &&& 0x1F_FFFF = v.val % 2 ^ 21 := Nat.and_two_pow_sub_one_eq_mod v.val 21
  have h12 : v.val &&& 0xFFF = v.val % 2 ^ 12 := Nat.and_two_pow_sub_one_eq_mod v.val 12
  unfold virtToPhys VirtAddr.p4Index VirtAddr.p3Index VirtAddr.p2Index VirtAddr.p1Index pathOf
  rw [h30, h21, h12]
  -- level by level: not present, large page, or the next table
  cases h4 : (mem cr3 (tableIndex 3 v.val)).present
  · simp [lookup, link, h4]
  cases h4h : (mem cr3 (tableIndex 3 v.val)).hugePage
  swap
  · simp [lookup, link, PageTableEntry.frame, Except.toOption, h4, h4h]
  rw [lookup_cons_node (p := [_, _, _]) (link_node h4 h4h)]
  simp only [PageTableEntry.frame, h4, h4h, Except.toOption, Bool.not_true, Bool.false_eq_true,
    ↓reduceIte, Option.bind_eq_bind, Option.bind_some]
  generalize (mem cr3 (tableIndex 3 v.val)).target = p3
  cases h3 : (mem p3 (tableIndex 2 v.val)).present
  · simp [lookup, link, h3]
  cases h3h : (mem p3 (tableIndex 2 v.val)).hugePage
  swap
  · simp [lookup, link, h3, h3h]
  rw [lookup_cons_node (p := [_, _]) (link_node h3 h3h)]
  simp only [Bool.not_true, Bool.false_eq_true, ↓reduceIte, Option.bind_some]
  generalize (mem p3 (tableIndex 2 v.val)).target = p2
  cases h2 : (mem p2 (tableIndex 1 v.val)).present
  · simp [lookup, link, h2]
  cases h2h : (mem p2 (tableIndex 1 v.val)).hugePage
  swap
  · simp [lookup, link, h2, h2h]
  rw [lookup_cons_node (p := [_]) (link_node h2 h2h)]
  simp only [Bool.not_true, Bool.false_eq_true, ↓reduceIte, Option.bind_some]
  generalize (mem p2 (tableIndex 1 v.val)).target = p1
  cases h1 : (mem p1 (tableIndex 0 v.val)).present
  · simp [lookup, link, h1]
  · simp [lookup, link, h1]

end Punkos
