import Punkos.Memory.FrameBudget
import Punkos.Memory.PageWalk

/-!
# The walk through the offset mapping

The page walk of `PageTable` reads physical memory. The kernel cannot: it runs with paging on, and
every table it looks at is reached at a virtual address, the table's frame plus the offset at which
the bootloader mapped physical memory. So each read of a page table is itself translated by the
page tables, among them the ones that `init_heap` has just changed.

`Cpu` is the processor with its CR3 and physical memory; `Cpu.load` is a load at a virtual address,
translated by the architecture's walk, which may fault. `Cpu.virtToPhys` is the source with these
loads. What makes it come out as the walk of `PageTable` is that the tables lie in the offset
mapping (`Cpu.virtToPhys_eq`). The set-up keeps that true of the new tables too, because it maps
nothing but the heap, and it would have failed if the heap had overlapped the offset mapping
(`heap_translated`).
-/

namespace Punkos

open RadixTree BootInfoFrameAllocator

/-! ## Loads -/

/-- How an access goes wrong. -/
inductive AccessFault where
  /-- The sum of two addresses is not canonical, and `VirtAddr::new` panics. -/
  | virtAddrNotValid
  /-- The processor finds no page. -/
  | pageFault
  deriving DecidableEq, Repr

/-- The processor's walk of `addr` from the level-`k` table `t`. -/
def mmuWalk (mem : PhysMem) (addr : ℕ) : ℕ → PhysFrame → Option ℕ
  | 0, t =>
    let e := mem t (tableIndex 0 addr)
    if e.present then some (e.pageFrame 0 + addr % 2 ^ 12) else none
  | k + 1, t =>
    let e := mem t (tableIndex (k + 1) addr)
    if !e.present then none
    else if e.hugePage then
      if k < 2 then some (e.pageFrame (k + 1) + addr % 2 ^ (12 + 9 * (k + 1))) else none
    else mmuWalk mem addr k e.target

/-- The frame of a physical address of 52 bits. -/
def frameOf (p : ℕ) : PhysFrame where
  startAddress := p % 2 ^ 52 / 4096 * 4096
  aligned := Nat.dvd_mul_left 4096 _
  lt := by omega

/-- The entry at a physical address, which is a multiple of eight. -/
def entryAt (mem : PhysMem) (p : ℕ) : PageTableEntry :=
  mem (frameOf p) ⟨p % 4096 / 8, by omega⟩

/-- The processor with paging on. -/
structure Cpu where
  /-- The frame in CR3. -/
  cr3 : PhysFrame
  /-- Physical memory. -/
  mem : PhysMem

namespace Cpu

variable (c : Cpu)

/-- Load the entry at a virtual address. -/
def load (addr : ℕ) : Except AccessFault PageTableEntry :=
  match mmuWalk c.mem addr 3 c.cr3 with
  | some p => .ok (entryAt c.mem p)
  | none => .error .pageFault

/-! ## The code -/

section Code

variable (physOffset : VirtAddr)

/-- The address at which a frame is seen through the offset mapping. -/
def ptAt (frame : PhysFrame) : Except AccessFault VirtAddr :=
  let addr := physOffset.val + frame.startAddress
  if h : addr < 2 ^ 47 ∨ 2 ^ 64 - 2 ^ 47 ≤ addr ∧ addr < 2 ^ 64 then .ok ⟨addr, h⟩
  else .error .virtAddrNotValid

/-- `active_level_4_table`, of which `init` makes the mapper. -/
def activeLevel4Table : Except AccessFault VirtAddr := ptAt physOffset c.cr3

/-- `&*pt_at(frame)`, and the entry at an index. -/
def readEntry (frame : PhysFrame) (i : PageTableIndex) : Except AccessFault PageTableEntry := do
  let table ← ptAt physOffset frame
  c.load (table.val + 8 * i.val)

/-- Translate a virtual address. The outer result says whether the walk itself runs into a fault.
-/
def virtToPhys (virt : VirtAddr) : Except AccessFault (Option ℕ) := do
  let p4e ← c.readEntry physOffset c.cr3 virt.p4Index
  if !p4e.present then return none
  else match p4e.frame with
    | .error _ => return none
    | .ok p3 => do
      let p3e ← c.readEntry physOffset p3 virt.p3Index
      if !p3e.present then return none
      else if p3e.hugePage then return some (p3e.addr + (virt.val &&& 0x3FFF_FFFF))
      else match p3e.frame with
        | .error _ => return none
        | .ok p2 => do
          let p2e ← c.readEntry physOffset p2 virt.p2Index
          if !p2e.present then return none
          else if p2e.hugePage then return some (p2e.addr + (virt.val &&& 0x1F_FFFF))
          else match p2e.frame with
            | .error _ => return none
            | .ok p1 => do
              let p1e ← c.readEntry physOffset p1 virt.p1Index
              if !p1e.present then return none
              else return some (p1e.addr + (virt.val &&& 0xFFF))

end Code

end Cpu

/-! ## The processor's walk -/

/-- The function is the architecture's relation. -/
theorem mmuWalk_eq_some_iff {mem : PhysMem} {addr k : ℕ} {t : PhysFrame} {p : ℕ} :
    mmuWalk mem addr k t = some p ↔
      ∃ l e, EndsAt mem addr k t l e ∧ p = e.pageFrame l + addr % 2 ^ (12 + 9 * l) := by
  induction k generalizing t with
  | zero =>
    rw [mmuWalk]
    constructor
    · intro h
      rcases hp : (mem t (tableIndex 0 addr)).present with _ | _
      · simp [hp] at h
      · exact ⟨0, _, .page hp, by simpa [hp, eq_comm] using h⟩
    · rintro ⟨l, e, hend, rfl⟩
      rcases hend with hp | _ | _
      simp [hp]
  | succ k ih =>
    rw [mmuWalk]
    constructor
    · intro h
      rcases hp : (mem t (tableIndex (k + 1) addr)).present with _ | _
      · simp [hp] at h
      rcases hh : (mem t (tableIndex (k + 1) addr)).hugePage with _ | _
      · obtain ⟨l, e, hend, hpe⟩ := ih.mp (by simpa [hp, hh] using h)
        exact ⟨l, e, .next hp hh hend, hpe⟩
      · by_cases hk : k < 2
        · exact ⟨k + 1, _, .largePage hk hp hh, by simpa [hp, hh, hk, eq_comm] using h⟩
        · simp [hp, hh, hk] at h
    · rintro ⟨l, e, hend, rfl⟩
      rcases hend with _ | ⟨hk, hp, hh⟩ | ⟨hp, hh, hend⟩
      · simp [hp, hh, hk]
      · simpa [hp, hh] using ih.mpr ⟨l, e, hend, rfl⟩

theorem mmuWalk_eq_some_iff_mapsTo {mem : PhysMem} {cr3 : PhysFrame} {v : VirtAddr} {p : ℕ} :
    mmuWalk mem v.val 3 cr3 = some p ↔ MapsTo mem cr3 v p :=
  mmuWalk_eq_some_iff

/-- The page frame of a leaf is its address without the bits below it. -/
theorem pageFrame_eq (e : PageTableEntry) {k : ℕ} (hk : k ≤ 2) :
    e.pageFrame k = e.addr / 2 ^ (12 + 9 * k) * 2 ^ (12 + 9 * k) := by
  unfold PageTableEntry.addr PageTableEntry.pageFrame
  simp only [BitVec.extractLsb'_toNat, Nat.shiftRight_eq_div_pow]
  obtain rfl | rfl | rfl : k = 0 ∨ k = 1 ∨ k = 2 := by omega
  all_goals
    simp only [Nat.reduceMul, Nat.reduceAdd, Nat.reduceSub, Nat.reducePow]
    omega

/-- What the architecture maps an address to is decided by the radix-tree walk. -/
theorem mapsTo_iff_lookup {mem : PhysMem} {cr3 : PhysFrame} {v : VirtAddr} {p : ℕ} :
    MapsTo mem cr3 v p ↔ ∃ a l, lookup link mem cr3 (pathOf v.val) = some (a, l) ∧
      p = a / 2 ^ (12 + 9 * l) * 2 ^ (12 + 9 * l) + v.val % 2 ^ (12 + 9 * l) := by
  have hpath : pathOf v.val = pathFrom v.val 3 := rfl
  rw [hpath]
  obtain ⟨l, e, hend, hlook⟩ | ⟨hfault, hlook⟩ := lookup_pathFrom mem v.val 3 cr3
  · rw [hlook]
    constructor
    · rintro ⟨l', e', hend', rfl⟩
      obtain ⟨rfl, rfl⟩ := hend.unique hend'
      exact ⟨e.addr, l, rfl, by rw [pageFrame_eq e hend.level_le]⟩
    · rintro ⟨a, l', heq, rfl⟩
      obtain ⟨rfl, rfl⟩ := Prod.mk.inj (Option.some.inj heq)
      exact ⟨l, e, hend, by rw [pageFrame_eq e hend.level_le]⟩
  · rw [hlook]
    refine iff_of_false ?_ (by simp)
    rintro ⟨l, e, hend, -⟩
    exact hend.not_faults hfault

/-! ## Tables seen through the offset -/

/-- The frame is mapped at the offset plus its address. -/
def OffsetMapped (mem : PhysMem) (cr3 : PhysFrame) (physOffset : VirtAddr) (f : PhysFrame) :
    Prop :=
  ∀ o < 4096, ∃ v : VirtAddr, v.val = physOffset.val + f.startAddress + o ∧
    MapsTo mem cr3 v (f.startAddress + o)

theorem entryAt_add (mem : PhysMem) (f : PhysFrame) (i : PageTableIndex) :
    entryAt mem (f.startAddress + 8 * i.val) = mem f i := by
  have hi := i.isLt
  have hlt := f.lt
  obtain ⟨q, hq⟩ := f.aligned
  have hframe : frameOf (f.startAddress + 8 * i.val) = f := by
    apply PhysFrame.ext
    rw [frameOf]
    dsimp only
    omega
  have hindex : (f.startAddress + 8 * i.val) % 4096 / 8 = i.val := by omega
  rw [entryAt, hframe]
  congr 1
  exact Fin.ext hindex

section Visible

variable {c : Cpu} {physOffset : VirtAddr} {f : PhysFrame}

theorem ptAt_of_mapped (h : OffsetMapped c.mem c.cr3 physOffset f) :
    ∃ v : VirtAddr, v.val = physOffset.val + f.startAddress ∧ Cpu.ptAt physOffset f = .ok v := by
  obtain ⟨v, hv, -⟩ := h 0 (by decide)
  have hval : v.val = physOffset.val + f.startAddress := hv
  refine ⟨v, hval, ?_⟩
  have hcanonical := v.canonical
  rw [hval] at hcanonical
  rw [Cpu.ptAt, dif_pos hcanonical]
  congr 1
  rcases v with ⟨val, _⟩
  obtain rfl : val = physOffset.val + f.startAddress := hval
  rfl

theorem load_of_mapped (h : OffsetMapped c.mem c.cr3 physOffset f) (i : PageTableIndex) :
    c.load (physOffset.val + f.startAddress + 8 * i.val) = .ok (c.mem f i) := by
  obtain ⟨v, hv, hmaps⟩ := h (8 * i.val) (by omega)
  rw [← hv, Cpu.load, mmuWalk_eq_some_iff_mapsTo.mpr hmaps]
  dsimp only
  rw [entryAt_add]

theorem readEntry_of_mapped (h : OffsetMapped c.mem c.cr3 physOffset f) (i : PageTableIndex) :
    c.readEntry physOffset f i = .ok (c.mem f i) := by
  obtain ⟨v, hv, hpt⟩ := ptAt_of_mapped h
  rw [Cpu.readEntry, hpt]
  change c.load (v.val + 8 * i.val) = _
  rw [hv, load_of_mapped h]

/-- `active_level_4_table` returns where the table of CR3 is seen. -/
theorem activeLevel4Table_of_mapped (h : OffsetMapped c.mem c.cr3 physOffset c.cr3) :
    ∃ table, c.activeLevel4Table physOffset = .ok table ∧
      ∀ i : PageTableIndex, c.load (table.val + 8 * i.val) = .ok (c.mem c.cr3 i) := by
  obtain ⟨v, hv, hpt⟩ := ptAt_of_mapped h
  refine ⟨v, hpt, fun i ↦ ?_⟩
  rw [hv, load_of_mapped h]

end Visible

/-- **The walk through the offset mapping** never faults and is the walk of physical memory, when
the tables it may come to are in the offset mapping. -/
theorem Cpu.virtToPhys_eq {c : Cpu} {physOffset : VirtAddr}
    (h : ∀ t, Reach link c.mem 3 c.cr3 t → OffsetMapped c.mem c.cr3 physOffset t)
    (v : VirtAddr) : c.virtToPhys physOffset v = .ok (Punkos.virtToPhys c.mem c.cr3 v) := by
  have hreach₃ : Reach link c.mem 3 c.cr3 c.cr3 := Reach.refl 3 c.cr3
  rw [Cpu.virtToPhys, Punkos.virtToPhys, readEntry_of_mapped (h _ hreach₃)]
  simp only [bind, Except.bind, pure, Except.pure, PageTableEntry.frame]
  -- each table that is read next lies one pointer further down
  rcases h4 : (c.mem c.cr3 v.p4Index).present with _ | _
  · rfl
  rcases h4h : (c.mem c.cr3 v.p4Index).hugePage with _ | _
  swap
  · rfl
  have hreach₂ : ∀ t, Reach link c.mem 2 (c.mem c.cr3 v.p4Index).target t →
      Reach link c.mem 3 c.cr3 t := fun t ht ↦ ht.child (link_node h4 h4h)
  generalize (c.mem c.cr3 v.p4Index).target = p3 at hreach₂
  simp only [readEntry_of_mapped (h _ (hreach₂ _ (Reach.refl 2 p3))), Bool.not_true,
    Bool.false_eq_true, ↓reduceIte]
  rcases h3 : (c.mem p3 v.p3Index).present with _ | _
  · simp [Except.toOption, h3]
  rcases h3h : (c.mem p3 v.p3Index).hugePage with _ | _
  swap
  · simp [Except.toOption, h3, h3h]
  have hreach₁ : ∀ t, Reach link c.mem 1 (c.mem p3 v.p3Index).target t →
      Reach link c.mem 3 c.cr3 t := fun t ht ↦ hreach₂ t (ht.child (link_node h3 h3h))
  simp only [Except.toOption, Option.bind_some, h3, h3h, Bool.not_true, Bool.false_eq_true,
    ↓reduceIte]
  generalize (c.mem p3 v.p3Index).target = p2 at hreach₁
  simp only [readEntry_of_mapped (h _ (hreach₁ _ (Reach.refl 1 p2)))]
  rcases h2 : (c.mem p2 v.p2Index).present with _ | _
  · simp
  rcases h2h : (c.mem p2 v.p2Index).hugePage with _ | _
  swap
  · simp
  have hreach₀ : ∀ t, Reach link c.mem 0 (c.mem p2 v.p2Index).target t →
      Reach link c.mem 3 c.cr3 t := fun t ht ↦ hreach₁ t (ht.child (link_node h2 h2h))
  generalize (c.mem p2 v.p2Index).target = p1 at hreach₀
  simp only [readEntry_of_mapped (h _ (hreach₀ _ (Reach.refl 0 p1))), Bool.not_true,
    Bool.false_eq_true, ↓reduceIte, Option.bind_some]
  rcases (c.mem p1 v.p1Index).present with _ | _
  · rfl
  · rfl

/-! ## After the set-up -/

section SetUp

variable {m : MemoryRegions} {mem : PhysMem} {cr3 : PhysFrame} {c : ℕ} {s : MemoryState}

/-- An address that was mapped before is mapped as before: it is no heap address, since the heap
was not mapped. -/
theorem HeapInv.mapsTo_of_mapsTo (hs : HeapInv m mem cr3 c heapPages 2048 s)
    (hunmapped : ∀ v : VirtAddr, InHeap v.val → virtToPhys mem cr3 v = none) {v : VirtAddr} {p : ℕ}
    (h : MapsTo mem cr3 v p) : MapsTo s.mem cr3 v p := by
  obtain ⟨a, l, hlook, hp⟩ := mapsTo_iff_lookup.mp h
  -- the heap was not mapped, so a mapped address lies outside it
  have hout : ¬InHeap v.val := by
    intro hv
    have hnone := hunmapped v hv
    rw [virtToPhys_eq_lookup, hlook] at hnone
    exact Option.some_ne_none _ hnone
  have hkeep : lookup link s.mem cr3 (pathOf v.val) = lookup link mem cr3 (pathOf v.val) := by
    apply hs.outside _ (length_pathOf v.val)
    rw [List.take_of_length_le (by rw [length_heapPages])]
    exact pathOf_notMem_of_not_inHeap hout
  exact mapsTo_iff_lookup.mpr ⟨a, l, hkeep.trans hlook, hp⟩

/-- A table is an old one or a usable frame. -/
theorem HeapInv.reach_cases (hal : m.PageAligned) (hs : HeapInv m mem cr3 c heapPages 2048 s)
    {t : PhysFrame} (ht : Reach link s.mem 3 cr3 t) :
    Reach link mem 3 cr3 t ∨ m.UsableFrame t := by
  obtain ⟨p, hp⟩ := ht
  rcases hs.tables p t hp with h | ⟨-, i, -, hnth, -⟩
  · exact Or.inl ⟨p, h⟩
  · exact Or.inr (usableFrame_of_nth hal hnth)

/-- The frame of a heap address, and what both walks make of it. -/
theorem HeapInv.exists_heap_frame (hs : HeapInv m mem cr3 c heapPages 2048 s) {j : ℕ}
    (hj : j < 2048) :
    ∃ f, nth (usableFrames m) (framePos mem cr3 c heapPages j) = .ok (some f) ∧
      ∀ v : VirtAddr, v.val / 4096 = heapStart / 4096 + j →
        virtToPhys s.mem cr3 v = some (f.startAddress + v.val % 4096) ∧
          MapsTo s.mem cr3 v (f.startAddress + v.val % 4096) := by
  obtain ⟨f, hf, hlook⟩ := hs.data j hj _ (getElem?_heapPages hj)
  refine ⟨f, hf, fun v hv ↦ ?_⟩
  rw [← (pathOf_eq_heapPage_iff hj v).mpr hv] at hlook
  constructor
  · rw [virtToPhys_eq_lookup, hlook]
    rfl
  · refine mapsTo_iff_lookup.mpr ⟨f.startAddress, 0, hlook, ?_⟩
    have hpage : 2 ^ 12 ∣ f.startAddress := f.aligned
    rw [Nat.mul_zero, Nat.add_zero, Nat.div_mul_cancel hpage]
    rfl

/-- Frames at different turns are different, so their bytes are. -/
theorem byte_unique (hdis : m.RegionsDisjoint) (hal : m.PageAligned) {i j o o' : ℕ}
    {f g : PhysFrame} (hf : nth (usableFrames m) (framePos mem cr3 c heapPages i) = .ok (some f))
    (hg : nth (usableFrames m) (framePos mem cr3 c heapPages j) = .ok (some g)) (ho : o < 4096)
    (ho' : o' < 4096) (h : f.startAddress + o = g.startAddress + o') : i = j ∧ o = o' := by
  have hfa := f.aligned
  have hga := g.aligned
  -- both frames are aligned, and both bytes within them
  have hstart : f.startAddress = g.startAddress := by omega
  obtain rfl : f = g := PhysFrame.ext hstart
  have hpos := index_unique hdis hal (getElem?_of_nth hf) (getElem?_of_nth hg)
  exact ⟨(framePos_strictMono mem cr3 c heapPages).injective hpos, by omega⟩

end SetUp

/-- **The heap, seen through the offset mapping.** If the bootloader's tables and the usable frames
are in the offset mapping, then after a successful set-up the tables still are, the new ones
included. Every call of `virt_to_phys` goes through without a fault, and for the heap it returns
the physical address at which the processor itself finds the byte, a different one for each. -/
theorem heap_translated {mapTo : MapTo} {mem : PhysMem} {cr3 : PhysFrame}
    (hmapTo : MapToContract mapTo mem cr3) (hsucc : MapToSucceeds mapTo) {m : MemoryRegions}
    (hdis : m.RegionsDisjoint) (hal : m.PageAligned) (htab : BootTables m mem cr3)
    (hclean : Clean link mem .zero 3 cr3) {physOffset : VirtAddr}
    (hoff : ∀ f, Reach link mem 3 cr3 f ∨ m.UsableFrame f → OffsetMapped mem cr3 physOffset f)
    {minAddr : ℕ} {s : MemoryState}
    (h : setUpMemory mapTo cr3 m minAddr mem = .ok (.ok (), s)) :
    (∀ f, Reach link s.mem 3 cr3 f ∨ m.UsableFrame f → OffsetMapped s.mem cr3 physOffset f) ∧
      (∀ v, (Cpu.mk cr3 s.mem).virtToPhys physOffset v = .ok (virtToPhys s.mem cr3 v)) ∧
      ∃ phys : ℕ → ℕ, Set.InjOn phys {a | InHeap a} ∧ ∀ v : VirtAddr, InHeap v.val →
        (Cpu.mk cr3 s.mem).virtToPhys physOffset v = .ok (some (phys v.val)) ∧
          MapsTo s.mem cr3 v (phys v.val) := by
  obtain ⟨c, s, -, hmap, rfl⟩ := setUpMemory_succeeds_with.mp h
  dsimp only
  have hs := HeapInv.mapPages hdis hal htab nodup_heapPages_pathOf hmapTo hmap
  rw [length_heapPages] at hs
  have hunmapped := ((mapPages_heapPages_succeeds_iff hmapTo hsucc hdis hal htab hclean).mp
    ⟨s, hmap⟩).1
  -- new tables are usable frames, so the offset mapping has them already
  have hkeep : ∀ f, Reach link s.mem 3 cr3 f ∨ m.UsableFrame f →
      OffsetMapped s.mem cr3 physOffset f := by
    intro f hf o ho
    have hf' : Reach link mem 3 cr3 f ∨ m.UsableFrame f :=
      hf.elim (fun hreach ↦ hs.reach_cases hal hreach) Or.inr
    obtain ⟨v, hv, hmaps⟩ := hoff f hf' o ho
    exact ⟨v, hv, hs.mapsTo_of_mapsTo hunmapped hmaps⟩
  have hwalk : ∀ v, (Cpu.mk cr3 s.mem).virtToPhys physOffset v = .ok (virtToPhys s.mem cr3 v) :=
    Cpu.virtToPhys_eq fun t ht ↦ hkeep t (Or.inl ht)
  refine ⟨hkeep, hwalk, ?_⟩
  have hex : ∀ j, ∃ f, j < 2048 →
      nth (usableFrames m) (framePos mem cr3 c heapPages j) = .ok (some f) ∧
        ∀ v : VirtAddr, v.val / 4096 = heapStart / 4096 + j →
          virtToPhys s.mem cr3 v = some (f.startAddress + v.val % 4096) ∧
            MapsTo s.mem cr3 v (f.startAddress + v.val % 4096) := by
    intro j
    by_cases hj : j < 2048
    · obtain ⟨f, hf⟩ := hs.exists_heap_frame hj
      exact ⟨f, fun _ ↦ hf⟩
    · exact ⟨cr3, fun hlt ↦ absurd hlt hj⟩
  choose f hf using hex
  refine ⟨fun a ↦ (f (a / 4096 - heapStart / 4096)).startAddress + a % 4096, ?_, ?_⟩
  · intro a ha b hb hab
    -- the same byte is in the same frame, and different pages have different frames
    obtain ⟨i, hi, o, ho, rfl⟩ := InHeap.exists_offset ha
    obtain ⟨j, hj, o', ho', rfl⟩ := InHeap.exists_offset hb
    simp only [heapPage_div _ ho, heapPage_mod _ ho, heapPage_div _ ho', heapPage_mod _ ho',
      Nat.add_sub_cancel_left] at hab
    obtain ⟨rfl, rfl⟩ := byte_unique hdis hal (hf i hi).1 (hf j hj).1 ho ho' hab
    rfl
  · intro v hv
    obtain ⟨hlo, hhi⟩ := Set.mem_Ico.mp ((inHeap_iff v.val).mp hv)
    obtain ⟨hvirt, hmaps⟩ := (hf (v.val / 4096 - heapStart / 4096) (by omega)).2 v (by omega)
    exact ⟨by rw [hwalk, hvirt], hmaps⟩

/-! ## A machine with an offset mapping

The bare machine of `Mapper`, with the first GiB of physical memory mapped by one large page. -/

/-- The table below entry 3 of the level-4 table. -/
def gibTable : PhysFrame := ⟨0x2000, by decide, by decide⟩

/-- Memory that holds the two tables. -/
def offsetMem : PhysMem := fun t i ↦
  if t = bareCr3 ∧ i.val = 3 then ⟨0x2003⟩
  else if t = gibTable ∧ i.val = 0 then ⟨0x83⟩
  else .zero

/-- Where physical memory is mapped. -/
def gibOffset : VirtAddr := ⟨3 * 2 ^ 39, by decide⟩

theorem offsetMem_cr3 (i : PageTableIndex) :
    offsetMem bareCr3 i = if i = 3 then ⟨0x2003⟩ else .zero := by
  have hne : bareCr3 ≠ gibTable := by decide
  have hval : i.val = 3 ↔ i = 3 := (Fin.ext_iff (b := 3)).symm
  simp [offsetMem, hne, hval]

theorem offsetMem_gibTable (i : PageTableIndex) :
    offsetMem gibTable i = if i = 0 then ⟨0x83⟩ else .zero := by
  have hne : gibTable ≠ bareCr3 := by decide
  simp [offsetMem, hne]

theorem target_gibTable : PageTableEntry.target ⟨0x2003⟩ = gibTable := by decide

/-- The tree has two tables. -/
theorem resolve_offsetMem {p : List PageTableIndex} {t : PhysFrame}
    (h : resolve link offsetMem 3 bareCr3 p = some t) :
    p = [] ∧ t = bareCr3 ∨ p = [3] ∧ t = gibTable := by
  rcases p with _ | ⟨i, p⟩
  · exact Or.inl ⟨rfl, by simpa [eq_comm] using h⟩
  by_cases hi : i = 3
  · subst hi
    have hlink : link 3 (offsetMem bareCr3 3) = .node gibTable := by
      rw [offsetMem_cr3, if_pos rfl, link_node (by decide) (by decide), target_gibTable]
    rw [resolve_cons_node hlink] at h
    rcases p with _ | ⟨j, p⟩
    · exact Or.inr ⟨rfl, by simpa [eq_comm] using h⟩
    · have hno : ∀ n', link 2 (offsetMem gibTable j) ≠ .node n' := by
        intro n'
        rw [offsetMem_gibTable]
        split
        · simp [link, PageTableEntry.present, PageTableEntry.hugePage]
        · simp
      rw [resolve_cons_eq_none hno] at h
      cases h
  · rw [resolve_cons_eq_none (by rw [offsetMem_cr3, if_neg hi]; simp)] at h
    cases h

theorem offsetTables : BootTables bareMap offsetMem bareCr3 := by
  constructor
  · intro p q t hp hq
    rcases resolve_offsetMem hp with ⟨rfl, rfl⟩ | ⟨rfl, rfl⟩ <;>
      rcases resolve_offsetMem hq with ⟨rfl, h⟩ | ⟨rfl, h⟩
    · rfl
    · exact absurd h (by decide)
    · exact absurd h (by decide)
    · rfl
  · rintro t ⟨p, hp⟩ ⟨r, hr, -, hlo, -⟩
    obtain rfl : r = ⟨0x200000, 0x200000 + 4096 * 10000, .usable⟩ := by simpa [bareMap] using hr
    rcases resolve_offsetMem hp with ⟨-, rfl⟩ | ⟨-, rfl⟩
    · simp [bareCr3] at hlo
    · simp [gibTable] at hlo

theorem clean_offsetMem : Clean link offsetMem .zero 3 bareCr3 := by
  intro p t ht i habs
  rcases resolve_offsetMem ht with ⟨rfl, rfl⟩ | ⟨rfl, rfl⟩
  · rw [offsetMem_cr3] at habs ⊢
    split at habs
    · simp [link, PageTableEntry.present, PageTableEntry.hugePage] at habs
    · next hi => rw [if_neg hi]
  · rw [offsetMem_gibTable] at habs ⊢
    split at habs
    · simp [link, PageTableEntry.present, PageTableEntry.hugePage] at habs
    · next hi => rw [if_neg hi]

/-- A frame of the first GiB is in the offset mapping. -/
theorem offsetMapped_of_lt {f : PhysFrame} (hf : f.startAddress + 4096 ≤ 2 ^ 30) :
    OffsetMapped offsetMem bareCr3 gibOffset f := by
  intro o ho
  have hlt : 3 * 2 ^ 39 + f.startAddress + o < 2 ^ 47 := by omega
  refine ⟨⟨3 * 2 ^ 39 + f.startAddress + o, Or.inl hlt⟩, rfl, 2, ⟨0x83⟩, ?_, ?_⟩
  · have hp4 : tableIndex 3 (3 * 2 ^ 39 + f.startAddress + o) = 3 := by
      apply Fin.ext
      simp only [tableIndex]
      omega
    have hp3 : tableIndex 2 (3 * 2 ^ 39 + f.startAddress + o) = 0 := by
      apply Fin.ext
      simp only [tableIndex]
      omega
    have htop : offsetMem bareCr3 (tableIndex 3 (3 * 2 ^ 39 + f.startAddress + o)) = ⟨0x2003⟩ := by
      rw [hp4, offsetMem_cr3, if_pos rfl]
    have hgib : offsetMem gibTable (tableIndex 2 (3 * 2 ^ 39 + f.startAddress + o)) = ⟨0x83⟩ := by
      rw [hp3, offsetMem_gibTable, if_pos rfl]
    refine .next (by rw [htop]; decide) (by rw [htop]; decide) ?_
    rw [htop, target_gibTable, ← hgib]
    exact .largePage (by decide) (by rw [hgib]; decide) (by rw [hgib]; decide)
  · have hframe : PageTableEntry.pageFrame ⟨0x83⟩ 2 = 0 := by decide
    rw [hframe]
    dsimp only
    omega

/-- Its heap, with the parameters `kernel_main` uses. -/
theorem heap_translated_gib :
    ∃ s, setUpMemory offsetMapTo bareCr3 bareMap 0x200000 offsetMem = .ok (.ok (), s) ∧
      ∃ phys : ℕ → ℕ, Set.InjOn phys {a | InHeap a} ∧ ∀ v : VirtAddr, InHeap v.val →
        (Cpu.mk bareCr3 s.mem).virtToPhys gibOffset v = .ok (some (phys v.val)) ∧
          MapsTo s.mem bareCr3 v (phys v.val) := by
  have hunmapped : ∀ page ∈ heapPages, lookup link offsetMem bareCr3 (pathOf page) = none := by
    intro page hpage
    obtain ⟨j, hj, rfl⟩ := List.mem_range'.mp (heapPages_eq ▸ hpage)
    have hidx : tableIndex 3 (heapStart + 4096 * j) ≠ 3 := by
      intro h
      have hval := congrArg Fin.val h
      simp only [tableIndex, heapStart] at hval
      omega
    refine lookup_cons_absent ?_
    rw [offsetMem_cr3, if_neg hidx]
    rfl
  obtain ⟨s, hs⟩ := setUpMemory_succeeds bareMap_wellFormed.1 bareMap_wellFormed.2 offsetTables
    hunmapped countWhile_bareMap fun _ hi ↦ exists_nth_bareMap (by omega)
  refine ⟨s, hs, (heap_translated offsetMapTo_contract offsetMapTo_succeeds bareMap_wellFormed.1
    bareMap_wellFormed.2 offsetTables clean_offsetMem (fun f hf ↦ offsetMapped_of_lt ?_) hs).2.2⟩
  rcases hf with ⟨p, hp⟩ | ⟨r, hr, -, -, hhi⟩
  · rcases resolve_offsetMem hp with ⟨-, rfl⟩ | ⟨-, rfl⟩
    · decide
    · decide
  · obtain rfl : r = ⟨0x200000, 0x200000 + 4096 * 10000, .usable⟩ := by simpa [bareMap] using hr
    exact hhi.trans (by decide)

end Punkos
