import Punkos.Memory.Mapper
import Punkos.Memory.PageWalk
import Punkos.Xhci.Driver

/-!
# Where the controller looks

The controller addresses a ring or an array by one physical address and reads on from there. The
driver hands it the translation of the first byte. Whether the rest lies where the controller looks
for it depends on the frames behind the block: `init_heap` maps each heap page to whatever frame is
next, and the page tables it needs on the way come out of the same allocator, so that neighbouring
pages need not have neighbouring frames.

`dma_contiguous_iff` gives the exact condition in terms of the memory map, the initial tables and
the block's address: the structure fits into its first page, or the frames behind its two pages,
whose positions `framePos` computes, happen to be adjacent.
-/

namespace Punkos

/-! ## The platform after memory set-up -/

/-- `VirtAddr::new`, which panics on an address that is not canonical. -/
def VirtAddr.new (v : ℕ) : Option VirtAddr :=
  if h : v < 2 ^ 47 ∨ 2 ^ 64 - 2 ^ 47 ≤ v ∧ v < 2 ^ 64 then some ⟨v, h⟩ else none

/-- What the driver sees of the kernel when the tables at `cr3` are in force. -/
def kernelPlatform (mem : PhysMem) (cr3 : PhysFrame) (alloc : List Block → ℕ → ℕ → Option ℕ) :
    Platform where
  translate v := (VirtAddr.new v).bind fun v ↦ (virtToPhys mem cr3 v).map (BitVec.ofNat 64)
  alloc := alloc

/-- A multiple of 64 translates to a multiple of 64. -/
theorem dvd_translate {mem : PhysMem} {cr3 : PhysFrame} {alloc : List Block → ℕ → ℕ → Option ℕ}
    {v : ℕ} {phys : BitVec 64} (h : (kernelPlatform mem cr3 alloc).translate v = some phys)
    (hv : 64 ∣ v) : 64 ∣ phys.toNat := by
  obtain ⟨w, hw, h⟩ := Option.bind_eq_some_iff.mp h
  obtain ⟨p, hp, rfl⟩ := Option.map_eq_some_iff.mp h
  have hval : w.val = v := by
    rw [VirtAddr.new] at hw
    split_ifs at hw
    rw [← Option.some.inj hw]
  have hmod := virtToPhys_mod hp
  rw [BitVec.toNat_ofNat, Nat.dvd_mod_iff (by decide)]
  omega

/-- Every block of the ring is where the controller looks for it. -/
def Ring.Contiguous (P : Platform) (r : Ring) : Prop :=
  ∀ i < r.trbs.length, P.translate (r.base + 16 * i) = some (r.phys + BitVec.ofNat 64 (16 * i))

/-- Every pointer of the array is where the controller looks for it. -/
def Dcbaa.Contiguous (P : Platform) (d : Dcbaa) : Prop :=
  ∀ i < d.ptrs.length, P.translate (d.base + 8 * i) = some (d.phys + BitVec.ofNat 64 (8 * i))

/-- The block lies in the heap. -/
def HeapBlock (ptr size : ℕ) : Prop := heapStart ≤ ptr ∧ ptr + size ≤ heapStart + heapSize

/-- What the allocator crate documents of `alloc`. -/
structure AllocContract (alloc : List Block → ℕ → ℕ → Option ℕ) : Prop where
  /-- Blocks are aligned as asked. -/
  aligned : ∀ live size align ptr, alloc live size align = some ptr → align ∣ ptr
  /-- Blocks lie in the heap. -/
  inside : ∀ live size align ptr, alloc live size align = some ptr → HeapBlock ptr size
  /-- Blocks do not overlap live ones. -/
  disjoint : ∀ live size align ptr, alloc live size align = some ptr →
    ∀ b ∈ live, ∀ v, b.Contains v → ¬ (ptr ≤ v ∧ v < ptr + size)

/-- The frames behind heap pages `j` and `j + 1` are adjacent and in order, when the cursor of the
frame allocator starts at `c`. -/
def AdjacentFrames (m : MemoryRegions) (mem : PhysMem) (cr3 : PhysFrame) (c j : ℕ) : Prop :=
  ∃ f g, nth (usableFrames m) (framePos mem cr3 c heapPages j) = .ok (some f) ∧
    nth (usableFrames m) (framePos mem cr3 c heapPages (j + 1)) = .ok (some g) ∧
    g.startAddress = f.startAddress + 4096

/-- The condition for a structure of `size` bytes, at most a page, at `ptr`. -/
def DmaSafe (m : MemoryRegions) (mem : PhysMem) (cr3 : PhysFrame) (c ptr size : ℕ) : Prop :=
  ptr % 4096 + size ≤ 4096 ∨ AdjacentFrames m mem cr3 c ((ptr - heapStart) / 4096)

/-! ## Translation of heap addresses -/

theorem HeapBlock.inHeap {ptr size v : ℕ} (h : HeapBlock ptr size)
    (hv : ptr ≤ v ∧ v < ptr + size) : InHeap v :=
  ⟨h.1.trans hv.1, hv.2.trans_le h.2⟩

theorem HeapBlock.inHeap_self {ptr size : ℕ} (h : HeapBlock ptr size) (hsize : 0 < size) :
    InHeap ptr :=
  h.inHeap ⟨Nat.le_refl ptr, Nat.lt_add_of_pos_right hsize⟩

section Layout

variable {m : MemoryRegions} {mem₀ : PhysMem} {cr3 : PhysFrame} {c : ℕ} {s : MemoryState}
  (alloc : List Block → ℕ → ℕ → Option ℕ)

/-- A heap address translates into the frame of its page, at the same offset. -/
theorem translate_heap (hs : HeapInv m mem₀ cr3 c heapPages 2048 s) {j : ℕ} (hj : j < 2048) :
    ∃ f, nth (usableFrames m) (framePos mem₀ cr3 c heapPages j) = .ok (some f) ∧
      ∀ off < 4096, (kernelPlatform s.mem cr3 alloc).translate (heapStart + 4096 * j + off) =
        some (BitVec.ofNat 64 (f.startAddress + off)) := by
  have hpage : heapStart / 4096 + j ∈ heapPageNumbers := ⟨by omega, by omega⟩
  obtain ⟨f, hf, hv⟩ := hs.exists_frame hpage
  rw [Nat.add_sub_cancel_left] at hf
  refine ⟨f, hf, fun off hoff ↦ ?_⟩
  have hlt := heapPage_lt hj hoff
  have hnew : VirtAddr.new (heapStart + 4096 * j + off) = some ⟨_, .inl hlt⟩ := dif_pos (.inl hlt)
  simp only [kernelPlatform, hnew, Option.bind_some, hv ⟨_, .inl hlt⟩ (heapPage_div j hoff),
    heapPage_mod j hoff, Option.map_some]

/-- An element on the page after the first is where the controller looks for it exactly if the
frames are adjacent. -/
theorem translate_next_page_iff (hs : HeapInv m mem₀ cr3 c heapPages 2048 s) {j : ℕ}
    (hj : j + 1 < 2048) (f : PhysFrame) (off : ℕ) :
    ∃ g, nth (usableFrames m) (framePos mem₀ cr3 c heapPages (j + 1)) = .ok (some g) ∧
      ∀ d, 4096 ≤ off + d → off + d < 8192 →
        ((kernelPlatform s.mem cr3 alloc).translate (heapStart + 4096 * j + off + d) =
          some (BitVec.ofNat 64 (f.startAddress + off) + BitVec.ofNat 64 d) ↔
        g.startAddress = f.startAddress + 4096) := by
  obtain ⟨g, hg, hnext⟩ := translate_heap alloc hs hj
  refine ⟨g, hg, fun d hd hd' ↦ ?_⟩
  have haddr : heapStart + 4096 * j + off + d = heapStart + 4096 * (j + 1) + (off + d - 4096) := by
    omega
  have hflt := f.lt
  have hglt := g.lt
  rw [haddr, hnext _ (by omega), Option.some.injEq, ← BitVec.ofNat_add, ← BitVec.toNat_inj,
    BitVec.toNat_ofNat, BitVec.toNat_ofNat]
  omega

/-- If an array aligned to its element size crosses a page boundary, some element starts there. -/
theorem exists_element_at_boundary {w k j off : ℕ} (hw : w ∣ 64)
    (hptr : 64 ∣ heapStart + 4096 * j + off) (hoff : off < 4096) (hcross : 4096 < off + w * k) :
    ∃ i < k, off + w * i = 4096 := by
  have hdvd : w ∣ 4096 - off := by
    have hwoff : w ∣ off := by
      rw [← heapPage_mod j hoff, Nat.dvd_mod_iff (hw.trans (by decide))]
      exact hw.trans hptr
    exact Nat.dvd_sub (hw.trans (by decide)) hwoff
  obtain ⟨i, hi⟩ := hdvd
  refine ⟨i, ?_, by omega⟩
  by_contra hge
  have := Nat.mul_le_mul_left w (not_lt.mp hge)
  omega

/-- **Contiguity of an array.** `k` elements of `w` bytes, at most a page in all, starting at a
heap address aligned to 64 bytes. -/
theorem translate_array_iff (hs : HeapInv m mem₀ cr3 c heapPages 2048 s) {ptr w k : ℕ}
    (hw : w ∣ 64) (hk : 0 < k) (hsize : w * k ≤ 4096) (hptr : 64 ∣ ptr)
    (hblock : HeapBlock ptr (w * k)) {phys : BitVec 64}
    (hphys : (kernelPlatform s.mem cr3 alloc).translate ptr = some phys) :
    (∀ i < k, (kernelPlatform s.mem cr3 alloc).translate (ptr + w * i) =
      some (phys + BitVec.ofNat 64 (w * i))) ↔ DmaSafe m mem₀ cr3 c ptr (w * k) := by
  have hwpos : 0 < w := Nat.pos_of_dvd_of_pos hw (by decide)
  have hwk : 0 < w * k := Nat.mul_pos hwpos hk
  obtain ⟨j, hj, off, hoff, rfl⟩ := (hblock.inHeap_self hwk).exists_offset
  have hhi := hblock.2
  rw [heapSize] at hhi
  have hpage : (heapStart + 4096 * j + off - heapStart) / 4096 = j := by omega
  obtain ⟨f, hf, hfirst⟩ := translate_heap alloc hs hj
  obtain rfl : BitVec.ofNat 64 (f.startAddress + off) = phys :=
    Option.some.inj ((hfirst off hoff).symm.trans hphys)
  rw [DmaSafe, heapPage_mod j hoff, hpage]
  constructor
  · intro h
    by_contra hnot
    rw [not_or, not_le] at hnot
    obtain ⟨g, hg, hiff⟩ := translate_next_page_iff alloc hs (show j + 1 < 2048 by omega) f off
    obtain ⟨i, hik, hi⟩ := exists_element_at_boundary hw hptr hoff hnot.1
    have hadj := (hiff (w * i) (by omega) (by omega)).mp (h i hik)
    exact hnot.2 ⟨f, g, hf, hg, hadj⟩
  · intro hsafe i hik
    have hwi : w * i < w * k := Nat.mul_lt_mul_of_pos_left hik hwpos
    by_cases hsame : off + w * i < 4096
    · rw [Nat.add_assoc, hfirst _ hsame, ← BitVec.ofNat_add, Nat.add_assoc]
    · obtain ⟨g, hg, hiff⟩ := translate_next_page_iff alloc hs (show j + 1 < 2048 by omega) f off
      refine (hiff (w * i) (by omega) (by omega)).mpr ?_
      rcases hsafe with hfit | ⟨f', g', hf', hg', hadj⟩
      · omega
      · obtain rfl : f = f' := by simpa using hf.symm.trans hf'
        obtain rfl : g = g' := by simpa using hg.symm.trans hg'
        exact hadj

theorem align64_of_dvd {ptr : ℕ} (h : 64 ∣ ptr) : align64 ptr = ptr := by
  rw [align64]
  omega

theorem exists_translate (hs : HeapInv m mem₀ cr3 c heapPages 2048 s) {ptr size : ℕ}
    (hblock : HeapBlock ptr size) (hsize : 0 < size) :
    ∃ phys, (kernelPlatform s.mem cr3 alloc).translate ptr = some phys := by
  obtain ⟨j, hj, off, hoff, rfl⟩ := (hblock.inHeap_self hsize).exists_offset
  obtain ⟨f, -, htranslate⟩ := translate_heap alloc hs hj
  exact ⟨_, htranslate off hoff⟩

/-- A ring on a block of the heap, and when it is contiguous. -/
theorem ringNew_contiguous_iff (hs : HeapInv m mem₀ cr3 c heapPages 2048 s) {D : Device}
    (M : Machine D) {ptr : ℕ} (halloc : alloc M.live (256 * 16 + 64) 64 = some ptr)
    (hptr : 64 ∣ ptr) (hblock : HeapBlock ptr (256 * 16 + 64)) :
    ∃ ring M', Ring.new (kernelPlatform s.mem cr3 alloc) 256 ⟨8, rfl⟩ M = some (ring, M') ∧
      (ring.Contiguous (kernelPlatform s.mem cr3 alloc) ↔ DmaSafe m mem₀ cr3 c ptr 4096) := by
  obtain ⟨phys, hphys⟩ := exists_translate alloc hs hblock (by decide)
  have halign := align64_of_dvd hptr
  refine ⟨Ring.fresh ptr phys 256 ⟨8, rfl⟩,
    { M with live := ⟨ptr, 256 * 16 + 64⟩ :: M.live }, ?_, ?_⟩
  · have hdo : M.alloc (kernelPlatform s.mem cr3 alloc) (256 * 16 + 64) 64 =
        some (ptr, { M with live := ⟨ptr, 256 * 16 + 64⟩ :: M.live }) := by
      rw [Machine.alloc, show (kernelPlatform s.mem cr3 alloc).alloc = alloc from rfl, halloc]
      rfl
    rw [Ring.new, hdo]
    simp only [Option.bind_eq_bind, Option.bind_some, halign, hphys]
    rfl
  · have hlen : (Ring.fresh ptr phys 256 ⟨8, rfl⟩).trbs.length = 256 := List.length_replicate
    rw [Ring.Contiguous, hlen]
    exact translate_array_iff alloc hs (by decide) (by decide) (by decide) hptr
      ⟨hblock.1, by have := hblock.2; omega⟩ hphys

/-- An array of device contexts on a block of the heap, and when it is contiguous. -/
theorem dcbaaNew_contiguous_iff (hs : HeapInv m mem₀ cr3 c heapPages 2048 s) {D : Device}
    (M : Machine D) (maxSlots : BitVec 8) {ptr : ℕ}
    (halloc : alloc M.live ((maxSlots.toNat + 1) * 8 + 64) 64 = some ptr) (hptr : 64 ∣ ptr)
    (hblock : HeapBlock ptr ((maxSlots.toNat + 1) * 8 + 64)) :
    ∃ dcbaa M', Dcbaa.new (kernelPlatform s.mem cr3 alloc) maxSlots M = some (dcbaa, M') ∧
      (dcbaa.Contiguous (kernelPlatform s.mem cr3 alloc) ↔
        DmaSafe m mem₀ cr3 c ptr ((maxSlots.toNat + 1) * 8)) := by
  have hslots := maxSlots.isLt
  obtain ⟨phys, hphys⟩ := exists_translate alloc hs hblock (Nat.succ_pos _)
  have halign := align64_of_dvd hptr
  refine ⟨⟨ptr, List.replicate (maxSlots.toNat + 1) 0, phys⟩,
    { M with live := ⟨ptr, (maxSlots.toNat + 1) * 8 + 64⟩ :: M.live }, ?_, ?_⟩
  · have hdo : M.alloc (kernelPlatform s.mem cr3 alloc) ((maxSlots.toNat + 1) * 8 + 64) 64 =
        some (ptr, { M with live := ⟨ptr, (maxSlots.toNat + 1) * 8 + 64⟩ :: M.live }) := by
      rw [Machine.alloc, show (kernelPlatform s.mem cr3 alloc).alloc = alloc from rfl, halloc]
      rfl
    rw [Dcbaa.new, hdo]
    simp only [Option.bind_eq_bind, Option.bind_some, halign, hphys]
    rfl
  · rw [Dcbaa.Contiguous, List.length_replicate, Nat.mul_comm (maxSlots.toNat + 1) 8]
    refine translate_array_iff alloc hs (by decide) (Nat.succ_pos _) (by omega) hptr
      ⟨hblock.1, ?_⟩ hphys
    have := hblock.2
    omega

end Layout

/-- **When the controller finds what the driver wrote.** After a successful memory set-up,
`Ring::new` and `Dcbaa::new` return for every pair of blocks the heap may give them, and every
element is where the controller looks for it if and only if the structure fits into the page it
starts on or the frames behind that page and the next are adjacent. -/
theorem dma_contiguous_iff {mapTo : MapTo} {mem : PhysMem} {cr3 : PhysFrame}
    (hmapTo : MapToContract mapTo mem cr3) {m : MemoryRegions} (hdis : m.RegionsDisjoint)
    (hal : m.PageAligned) (htab : BootTables m mem cr3) {minAddr c : ℕ} {s : MemoryState}
    (hc : countWhile (fun f ↦ f.startAddress < minAddr) (usableFrames m) = .ok c)
    (hsetUp : setUpMemory mapTo cr3 m minAddr mem = .ok (.ok (), s))
    (alloc : List Block → ℕ → ℕ → Option ℕ) {D : Device} (M₁ M₂ : Machine D) (maxSlots : BitVec 8)
    {ptr₁ ptr₂ : ℕ} (halloc₁ : alloc M₁.live (256 * 16 + 64) 64 = some ptr₁) (hptr₁ : 64 ∣ ptr₁)
    (hblock₁ : HeapBlock ptr₁ (256 * 16 + 64))
    (halloc₂ : alloc M₂.live ((maxSlots.toNat + 1) * 8 + 64) 64 = some ptr₂) (hptr₂ : 64 ∣ ptr₂)
    (hblock₂ : HeapBlock ptr₂ ((maxSlots.toNat + 1) * 8 + 64)) :
    (∃ ring M', Ring.new (kernelPlatform s.mem cr3 alloc) 256 ⟨8, rfl⟩ M₁ = some (ring, M') ∧
      (ring.Contiguous (kernelPlatform s.mem cr3 alloc) ↔ DmaSafe m mem cr3 c ptr₁ 4096)) ∧
    ∃ dcbaa M', Dcbaa.new (kernelPlatform s.mem cr3 alloc) maxSlots M₂ = some (dcbaa, M') ∧
      (dcbaa.Contiguous (kernelPlatform s.mem cr3 alloc) ↔
        DmaSafe m mem cr3 c ptr₂ ((maxSlots.toNat + 1) * 8)) := by
  obtain ⟨c', s', hc', hmem, hs⟩ := heapInv_of_setUpMemory hmapTo hdis hal htab hsetUp
  obtain rfl : c = c' := Except.ok.inj (hc.symm.trans hc')
  rw [hmem]
  exact ⟨ringNew_contiguous_iff alloc hs M₁ halloc₁ hptr₁ hblock₁,
    dcbaaNew_contiguous_iff alloc hs M₂ maxSlots halloc₂ hptr₂ hblock₂⟩

/-! ## On the bare machine -/

/-- A controller that does nothing. -/
def deadDevice : Device where
  State := Unit
  read _ _ := (0, ())
  write _ _ _ _ := ()
  post _ := ([], ())

/-- A machine with an empty heap. -/
def deadMachine : Machine deadDevice := ⟨(), [], fun _ ↦ none, []⟩

/-- A ring and an array that start a page are contiguous. -/
theorem dma_contiguous_bare :
    ∃ s, setUpMemory offsetMapTo bareCr3 bareMap 0x200000 bareMem = .ok (.ok (), s) ∧
      (∃ ring M', Ring.new (kernelPlatform s.mem bareCr3 fun _ _ _ ↦ some heapStart) 256 ⟨8, rfl⟩
        deadMachine = some (ring, M') ∧
        ring.Contiguous (kernelPlatform s.mem bareCr3 fun _ _ _ ↦ some heapStart)) ∧
      ∃ dcbaa M', Dcbaa.new (kernelPlatform s.mem bareCr3 fun _ _ _ ↦ some heapStart) 255
        deadMachine = some (dcbaa, M') ∧
        dcbaa.Contiguous (kernelPlatform s.mem bareCr3 fun _ _ _ ↦ some heapStart) := by
  obtain ⟨s, hs⟩ := bare_setUp_succeeds
  have hblock : ∀ size, size ≤ heapSize → HeapBlock heapStart size := fun size hsize ↦
    ⟨le_refl _, Nat.add_le_add_left hsize _⟩
  obtain ⟨⟨ring, M₁, hring, hiff₁⟩, dcbaa, M₂, hdcbaa, hiff₂⟩ := dma_contiguous_iff
    offsetMapTo_contract bareMap_wellFormed.1 bareMap_wellFormed.2 bareTables countWhile_bareMap hs
    (fun _ _ _ ↦ some heapStart) deadMachine deadMachine 255 rfl (by decide) (hblock _ (by decide))
      rfl (by decide)
    (hblock _ (by decide))
  exact ⟨s, hs, ⟨ring, M₁, hring, hiff₁.mpr (.inl (by decide))⟩,
    dcbaa, M₂, hdcbaa, hiff₂.mpr (.inl (by decide))⟩

theorem startAddress_bareMap {i : ℕ} {f : PhysFrame}
    (h : nth (usableFrames bareMap) i = .ok (some f)) : f.startAddress = 0x200000 + 4096 * i := by
  have haddr := startAddress_of_getElem? bareMap_wellFormed.2 (getElem?_of_nth h)
  rw [usableAddrs_bareMap] at haddr
  obtain ⟨hi, heq⟩ := List.getElem?_eq_some_iff.mp haddr
  rw [← heq, List.getElem_range']

/-- Mapping the first heap page takes tables, so the frame of the second page comes later. -/
theorem not_adjacentFrames_bare : ¬ AdjacentFrames bareMap bareMem bareCr3 0 0 := by
  rintro ⟨f, g, hf, hg, hadj⟩
  rw [startAddress_bareMap hf, startAddress_bareMap hg] at hadj
  have htaken : 0 < tablesTaken bareMem bareCr3 (heapPages.take 1) := by
    refine Finset.card_pos.mpr ⟨(pathOf heapStart).take 1, ?_⟩
    rw [Finset.mem_filter, List.mem_toFinset, List.mem_flatMap]
    refine ⟨⟨heapStart, ?_, ?_⟩, resolve_bareMem_cons _ _ _ _⟩
    · rw [heapPages_eq, List.range'_succ]
      exact List.mem_cons_self
    · exact mem_tablePaths (List.take_prefix _ _) (by simp [pathOf]) (by simp [pathOf])
  have hzero : tablesTaken bareMem bareCr3 (heapPages.take 0) = 0 := rfl
  simp only [framePos, hzero, Nat.zero_add] at hadj
  omega

/-- A ring that starts 64 bytes into the heap is torn apart by the page tables. -/
theorem not_dma_contiguous :
    ∃ s, setUpMemory offsetMapTo bareCr3 bareMap 0x200000 bareMem = .ok (.ok (), s) ∧
      HeapBlock (heapStart + 64) (256 * 16 + 64) ∧ 64 ∣ heapStart + 64 ∧
      ∃ ring M', Ring.new (kernelPlatform s.mem bareCr3 fun _ _ _ ↦ some (heapStart + 64)) 256
        ⟨8, rfl⟩ deadMachine = some (ring, M') ∧
        ¬ ring.Contiguous (kernelPlatform s.mem bareCr3 fun _ _ _ ↦ some (heapStart + 64)) := by
  obtain ⟨s, hsetUp⟩ := bare_setUp_succeeds
  obtain ⟨c, s', hc, hmem, hs⟩ := heapInv_of_setUpMemory offsetMapTo_contract bareMap_wellFormed.1
    bareMap_wellFormed.2 bareTables hsetUp
  obtain rfl : 0 = c := Except.ok.inj (countWhile_bareMap.symm.trans hc)
  have hblock : HeapBlock (heapStart + 64) (256 * 16 + 64) := ⟨by decide, by decide⟩
  obtain ⟨ring, M', hring, hiff⟩ := ringNew_contiguous_iff
    (fun _ _ _ ↦ some (heapStart + 64)) hs deadMachine rfl (by decide) hblock
  refine ⟨s, hsetUp, hblock, by decide, ring, M', hmem ▸ hring, ?_⟩
  rw [hmem, hiff]
  rintro (hfit | hadj)
  · exact absurd hfit (by decide)
  · exact not_adjacentFrames_bare hadj

end Punkos
