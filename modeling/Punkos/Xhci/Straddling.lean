import Punkos.Memory.FrameBudget
import Punkos.Xhci.Alignment
import Punkos.Xhci.BringUp

/-!
# What a torn structure reaches into

A structure that goes on from one heap page to the next is torn where the frames behind the two
pages are not adjacent (`DmaLayout`). Here it is worked out where that happens, and what the
controller finds in the place of the rest.

The allocator gives a heap page its own frame first, and the page tables that are still missing on
the way to the page right after it. On frames that lie side by side two neighbouring pages are
therefore torn apart exactly where a table was taken, and what follows the frame of the first is
that table. Only the first page of the heap and those at which a level-1 table begins can be such
pages (`tableTurns`).

So a ring that is torn has the controller read its commands from a page table in force, or write
its events into one (`torn_arrays_reach_tables`).
-/

namespace Punkos

open RadixTree BootInfoFrameAllocator

/-! ## Where tables are taken -/

/-- A table has to be taken to map heap page `j` after the pages before it. -/
def TakesTable (mem : PhysMem) (cr3 : PhysFrame) (j : ℕ) : Prop :=
  ∃ p ∈ tablePaths (heapStart + 4096 * j), resolve link mem 3 cr3 p = none ∧
    p ∉ (heapPages.take j).flatMap tablePaths

/-- The first page of the heap, and the pages at which a level-1 table begins. -/
def tableTurns : List ℕ := [0, 448, 960, 1472, 1984]

section Turns

variable {mem : PhysMem} {cr3 : PhysFrame}

theorem mem_tablePaths_take {j : ℕ} (hj : j ≤ 2048) {p : List PageTableIndex} :
    p ∈ (heapPages.take j).flatMap tablePaths ↔
      ∃ i < j, p ∈ tablePaths (heapStart + 4096 * i) := by
  have hget : ∀ i < j, (heapPages.take j)[i]? = some (heapStart + 4096 * i) := fun i hi ↦ by
    rw [List.getElem?_take_of_lt hi, getElem?_heapPages (hi.trans_le hj)]
  rw [List.mem_flatMap]
  constructor
  · rintro ⟨page, hpage, hp⟩
    obtain ⟨i, hi, rfl⟩ := List.mem_iff_getElem.mp hpage
    have hij : i < j := by
      rw [List.length_take] at hi
      omega
    refine ⟨i, hij, ?_⟩
    rwa [← Option.some.inj ((List.getElem?_eq_getElem hi).symm.trans (hget i hij))]
  · rintro ⟨i, hi, hp⟩
    exact ⟨_, List.mem_of_getElem? (hget i hi), hp⟩

/-- Any other page has the tables of the page before it. -/
theorem mem_tableTurns {j : ℕ} (hj : j < 2048) (h : TakesTable mem cr3 j) : j ∈ tableTurns := by
  obtain ⟨p, hp, -, hnew⟩ := h
  by_contra hnot
  rcases j with _ | i
  · exact hnot List.mem_cons_self
  -- no level-1 table begins between the two pages
  have hsame : (64 + (i + 1)) / 512 = (64 + i) / 512 := by
    simp only [tableTurns, List.mem_cons, List.not_mem_nil, or_false, not_or] at hnot
    omega
  rw [tablePaths_heapPage hj, hsame, ← tablePaths_heapPage (Nat.lt_of_succ_lt hj)] at hp
  exact hnew ((mem_tablePaths_take hj.le).mpr ⟨i, Nat.lt_succ_self i, hp⟩)

theorem tablesTaken_concat_eq_iff (mem : PhysMem) (cr3 : PhysFrame) (pages : List ℕ) (page : ℕ) :
    tablesTaken mem cr3 (pages ++ [page]) = tablesTaken mem cr3 pages ↔
      ∀ p ∈ tablePaths page, resolve link mem 3 cr3 p = none → p ∈ pages.flatMap tablePaths := by
  rw [tablesTaken, tablesTaken, List.flatMap_append, List.flatMap_singleton, List.toFinset_append]
  constructor
  · intro h p hp hnone
    -- the set only grows, so an equal number means an equal set
    have hsame := Finset.eq_of_subset_of_card_le
      (Finset.filter_subset_filter _ Finset.subset_union_left) h.le
    have hmem : p ∈ ((pages.flatMap tablePaths).toFinset ∪ (tablePaths page).toFinset).filter
        fun p ↦ resolve link mem 3 cr3 p = none := by
      rw [Finset.mem_filter, Finset.mem_union, List.mem_toFinset, List.mem_toFinset]
      exact ⟨Or.inr hp, hnone⟩
    rw [← hsame] at hmem
    exact List.mem_toFinset.mp (Finset.mem_filter.mp hmem).1
  · intro h
    congr 1
    ext p
    simp only [Finset.mem_filter, Finset.mem_union, List.mem_toFinset]
    constructor
    · rintro ⟨hold | hnew, hnone⟩
      · exact ⟨hold, hnone⟩
      · exact ⟨h p hnew hnone, hnone⟩
    · rintro ⟨hold, hnone⟩
      exact ⟨Or.inl hold, hnone⟩

/-- The next page gets the next frame unless a table is taken. -/
theorem framePos_succ_eq_iff {c j : ℕ} (hj : j < 2048) :
    framePos mem cr3 c heapPages (j + 1) = framePos mem cr3 c heapPages j + 1 ↔
      ¬TakesTable mem cr3 j := by
  have hiff := tablesTaken_concat_eq_iff mem cr3 (heapPages.take j) (heapStart + 4096 * j)
  rw [framePos, framePos, take_succ_pages (getElem?_heapPages hj), TakesTable]
  push Not
  rw [← hiff]
  omega

/-- If the level-1 tables of the heap are missing at first, all these pages take one. -/
theorem takesTable_of_mem
    (h : ∀ p ∈ heapTablePaths, p.length = 3 → resolve link mem 3 cr3 p = none) {j : ℕ}
    (hj : j ∈ tableTurns) : TakesTable mem cr3 j := by
  simp only [tableTurns, List.mem_cons, List.not_mem_nil, or_false] at hj
  have hlt : j < 2048 := by omega
  have hmem : [136, 273, .ofNat 512 (34 + (64 + j) / 512)] ∈
      tablePaths (heapStart + 4096 * j) := by
    rw [tablePaths_heapPage hlt]
    simp
  refine ⟨_, hmem, h _ (tablePaths_heapPage_subset hlt hmem) rfl, fun hold ↦ ?_⟩
  obtain ⟨i, hij, hp⟩ := (mem_tablePaths_take hlt.le).mp hold
  rw [tablePaths_heapPage (hij.trans hlt)] at hp
  have hsame : Fin.ofNat 512 (34 + (64 + j) / 512) = Fin.ofNat 512 (34 + (64 + i) / 512) := by
    simpa using hp
  have hval := congrArg Fin.val hsame
  simp only [Fin.ofNat] at hval
  omega

end Turns

/-! ## Frames side by side -/

/-- The usable frames at the positions from `lo` up to `hi` lie side by side in memory. -/
def SideBySide (m : MemoryRegions) (lo hi : ℕ) : Prop :=
  ∀ i f g, lo ≤ i → i + 1 < hi → nth (usableFrames m) i = .ok (some f) →
    nth (usableFrames m) (i + 1) = .ok (some g) → g.startAddress = f.startAddress + 4096

theorem SideBySide.startAddress_add {m : MemoryRegions} {lo hi : ℕ} (h : SideBySide m lo hi)
    {i d : ℕ} {f g : PhysFrame} (hlo : lo ≤ i) (hhi : i + d < hi)
    (hf : nth (usableFrames m) i = .ok (some f))
    (hg : nth (usableFrames m) (i + d) = .ok (some g)) :
    g.startAddress = f.startAddress + 4096 * d := by
  induction d generalizing g with
  | zero =>
    obtain rfl : f = g := by simpa using hf.symm.trans hg
    rfl
  | succ d ih =>
    obtain ⟨g', hg'⟩ := exists_nth_of_le hg (Nat.le_succ (i + d))
    rw [h (i + d) g' g (by omega) (by omega) hg' hg, ih (by omega) hg']
    omega

/-! ## What lies between the frames of the heap -/

/-- Between the frames of a page and of the next one there are only tables. -/
def TablesFollow (m : MemoryRegions) (mem₀ : PhysMem) (cr3 : PhysFrame) (c : ℕ) (pages : List ℕ)
    (j : ℕ) (mem : PhysMem) : Prop :=
  ∀ j' < j, ∀ i, framePos mem₀ cr3 c pages j' < i → i < framePos mem₀ cr3 c pages (j' + 1) →
    ∃ t, nth (usableFrames m) i = .ok (some t) ∧ Reach link mem 3 cr3 t

section Loop

variable {m : MemoryRegions} {mem₀ : PhysMem} {cr3 : PhysFrame} {c : ℕ} {pages : List ℕ}
  (hdis : m.RegionsDisjoint) (hal : m.PageAligned) (htab : BootTables m mem₀ cr3)
include hdis hal htab

/-- One page: the frames taken after its own are tables from then on. -/
theorem TablesFollow.step {j : ℕ} {s : MemoryState} (hs : HeapInv m mem₀ cr3 c pages j s)
    (hfollow : TablesFollow m mem₀ cr3 c pages j s.mem) {page : ℕ} (hpage : pages[j]? = some page)
    {frame : PhysFrame} {a a' : BootInfoFrameAllocator} {fs : List PhysFrame} {mem' : PhysMem}
    (hframe : s.frameAllocator.allocateFrame = .ok (some frame, a))
    (hinst : Install link .zero frame.startAddress 3 cr3 (pathOf page) s.mem fs mem')
    (htakes : Takes a fs a') : TablesFollow m mem₀ cr3 c pages (j + 1) mem' := by
  obtain ⟨-, hfs, -, hdistinct, hfresh⟩ := hs.taken hdis hal htab hframe htakes
  obtain ⟨-, hext⟩ := hinst.extended link_zero hs.unshared hdistinct hfresh
  intro j' hj' i hlo hhi
  rcases Nat.lt_succ_iff_lt_or_eq.mp hj' with hlt | rfl
  -- an earlier page: its tables are not moved
  · obtain ⟨t, ht, p, hp⟩ := hfollow j' hlt i hlo hhi
    exact ⟨t, ht, p, hext.resolve_of_resolve p t hp⟩
  -- this page: position `i` is that of a frame just taken, and each of these is a table
  · rw [hs.framePos_succ hpage hext] at hhi
    obtain ⟨k, rfl⟩ := Nat.exists_eq_add_of_lt hlo
    have hk : k < fs.length := by omega
    have hpos := hfs k _ (List.getElem?_eq_getElem hk)
    rw [Nat.add_right_comm] at hpos
    exact ⟨fs[k], hpos, hext.reach_of_mem (by rw [length_pathOf]; omega) (List.getElem_mem hk)⟩

/-- A successful set-up ends with both invariants. -/
theorem tablesFollow_of_setUpMemory {mapTo : MapTo} (hmapTo : MapToContract mapTo mem₀ cr3)
    {minAddr : ℕ} {s : MemoryState}
    (hc : countWhile (fun f ↦ f.startAddress < minAddr) (usableFrames m) = .ok c)
    (h : setUpMemory mapTo cr3 m minAddr mem₀ = .ok (.ok (), s)) :
    ∃ s', s.mem = s'.mem ∧ HeapInv m mem₀ cr3 c heapPages 2048 s' ∧
      TablesFollow m mem₀ cr3 c heapPages 2048 s'.mem := by
  obtain ⟨c', s', hc', hloop, hmem, -, -⟩ := setUpMemory_eq_ok h
  obtain rfl : c = c' := Except.ok.inj (hc.symm.trans hc')
  have hend := HeapInv.mapPages_induct (I := fun j s ↦ TablesFollow m mem₀ cr3 c heapPages j s.mem)
    hdis hal htab nodup_heapPages_pathOf hmapTo
    (fun hs hfollow hpage ↦ hfollow.step hdis hal htab hs hpage) (HeapInv.start htab)
    (fun j hj ↦ absurd hj (Nat.not_lt_zero j)) List.drop_zero (Nat.zero_add _) hloop
  rw [length_heapPages] at hend
  exact ⟨s', hmem, hend⟩

end Loop

/-! ## Arrays in the heap -/

/-- An array that the driver shares with the controller. -/
structure DmaArray where
  /-- Its address. -/
  base : ℕ
  /-- The size of an element. -/
  width : ℕ
  /-- The number of elements. -/
  count : ℕ
  /-- The physical address that the controller is given. -/
  phys : BitVec 64

/-- The address at which the controller looks for element `i`. -/
def DmaArray.lookedFor (a : DmaArray) (i : ℕ) : BitVec 64 := a.phys + BitVec.ofNat 64 (a.width * i)

/-- Element `i` is where the controller looks for it. -/
def DmaArray.Found (P : Platform) (a : DmaArray) (i : ℕ) : Prop :=
  P.translate (a.base + a.width * i) = some (a.lookedFor i)

/-- What the controller reaches, when the heap was mapped into the tables of `mem₀` and those of
`mem` are in force. -/
structure DmaArray.Reaches (P : Platform) (mem₀ mem : PhysMem) (cr3 : PhysFrame) (a : DmaArray) :
    Prop where
  /-- The array is torn exactly if it crosses from a page that took a table. -/
  found_iff : (∀ i < a.count, a.Found P i) ↔
    a.base % 4096 + a.width * a.count ≤ 4096 ∨ ¬TakesTable mem₀ cr3 ((a.base - heapStart) / 4096)
  /-- What the controller takes for the elements it does not find is one page table in force. -/
  in_table : ∃ t, Reach link mem 3 cr3 t ∧ ∀ i < a.count, ¬a.Found P i →
    (a.lookedFor i).toNat / 4096 * 4096 = t.startAddress

section Arrays

variable {m : MemoryRegions} {mem₀ : PhysMem} {cr3 : PhysFrame} {c : ℕ} {s : MemoryState}
  (alloc : List Block → ℕ → ℕ → Option ℕ) (hs : HeapInv m mem₀ cr3 c heapPages 2048 s)
  (hside : SideBySide m c (framePos mem₀ cr3 c heapPages 2048))
include hs hside

theorem adjacentFrames_iff {j : ℕ} (hj : j + 1 < 2048) :
    AdjacentFrames m mem₀ cr3 c j ↔ ¬TakesTable mem₀ cr3 j := by
  have hj' := Nat.lt_of_succ_lt hj
  obtain ⟨f, hf, -⟩ := hs.data j hj' _ (getElem?_heapPages hj')
  obtain ⟨g, hg, -⟩ := hs.data (j + 1) hj _ (getElem?_heapPages hj)
  have hmono := framePos_strictMono mem₀ cr3 c heapPages
  obtain ⟨d, hd⟩ := Nat.exists_eq_add_of_le (hmono (show j < j + 1 from Nat.lt_succ_self j)).le
  have hc : c ≤ framePos mem₀ cr3 c heapPages j := by
    rw [framePos, Nat.add_assoc]
    exact Nat.le_add_right _ _
  have hg' := hg
  rw [hd] at hg'
  have hstart := hside.startAddress_add hc (hd ▸ hmono hj) hf hg'
  rw [← framePos_succ_eq_iff hj' (c := c), AdjacentFrames]
  constructor
  · rintro ⟨f', g', hf', hg'', hadj⟩
    obtain rfl : f = f' := by simpa using hf.symm.trans hf'
    obtain rfl : g = g' := by simpa using hg.symm.trans hg''
    omega
  · intro hnext
    exact ⟨f, g, hf, hg, by omega⟩

/-- What is true of any array of at most a page. -/
theorem DmaArray.reaches (hfollow : TablesFollow m mem₀ cr3 c heapPages 2048 s.mem) {a : DmaArray}
    (hw : a.width ∣ 64) (hk : 0 < a.count) (hsize : a.width * a.count ≤ 4096) (hbase : 64 ∣ a.base)
    (hblock : HeapBlock a.base (a.width * a.count))
    (hphys : (kernelPlatform s.mem cr3 alloc).translate a.base = some a.phys) :
    a.Reaches (kernelPlatform s.mem cr3 alloc) mem₀ s.mem cr3 := by
  obtain ⟨base, w, k, phys⟩ := a
  dsimp only at hw hk hsize hbase hblock hphys
  have hwk : 0 < w * k := Nat.mul_pos (Nat.pos_of_dvd_of_pos hw (by decide)) hk
  have harray := translate_array_iff alloc hs hw hk hsize hbase hblock hphys
  obtain ⟨j, hj, off, hoff, rfl⟩ := (hblock.inHeap_self hwk).exists_offset
  have hpage : (heapStart + 4096 * j + off - heapStart) / 4096 = j := by omega
  have hnext : 4096 < off + w * k → j + 1 < 2048 := by
    intro hcross
    have hhi := hblock.2
    rw [heapSize] at hhi
    omega
  have hiff : (∀ i < k, DmaArray.Found (kernelPlatform s.mem cr3 alloc)
      ⟨heapStart + 4096 * j + off, w, k, phys⟩ i) ↔
        off + w * k ≤ 4096 ∨ ¬TakesTable mem₀ cr3 j := by
    refine harray.trans ?_
    rw [DmaSafe, heapPage_mod j hoff, hpage]
    by_cases hfit : off + w * k ≤ 4096
    · exact iff_of_true (Or.inl hfit) (Or.inl hfit)
    · rw [or_iff_right hfit, or_iff_right hfit,
        adjacentFrames_iff hs hside (hnext (Nat.lt_of_not_le hfit))]
  refine ⟨by rw [hpage, heapPage_mod j hoff]; exact hiff, ?_⟩
  by_cases hall : off + w * k ≤ 4096 ∨ ¬TakesTable mem₀ cr3 j
  · exact ⟨cr3, Reach.refl _ _, fun i hi hnot ↦ absurd (hiff.mpr hall i hi) hnot⟩
  -- the frame after that of page `j` is the first table that was taken for it
  rw [not_or, not_le, not_not] at hall
  obtain ⟨hcross, htakes⟩ := hall
  have hmono := framePos_strictMono mem₀ cr3 c heapPages
  have hgap : framePos mem₀ cr3 c heapPages j + 1 < framePos mem₀ cr3 c heapPages (j + 1) := by
    refine lt_of_le_of_ne (hmono (Nat.lt_succ_self j)) fun heq ↦ ?_
    exact (framePos_succ_eq_iff hj).mp heq.symm htakes
  obtain ⟨t, ht, hreach⟩ := hfollow j hj _ (Nat.lt_succ_self _) hgap
  obtain ⟨f, hf, hfirst⟩ := translate_heap alloc hs hj
  have hc : c ≤ framePos mem₀ cr3 c heapPages j := by
    rw [framePos, Nat.add_assoc]
    exact Nat.le_add_right _ _
  have hstart := hside _ f t hc (hgap.trans_le (hmono.monotone hj)) hf ht
  obtain rfl : BitVec.ofNat 64 (f.startAddress + off) = phys :=
    Option.some.inj ((hfirst off hoff).symm.trans hphys)
  refine ⟨t, hreach, fun i hi hnot ↦ ?_⟩
  -- an element on the first page is found
  have hbeyond : 4096 ≤ off + w * i := by
    by_contra hlt
    refine hnot ?_
    change (kernelPlatform s.mem cr3 alloc).translate (heapStart + 4096 * j + off + w * i) =
      some (BitVec.ofNat 64 (f.startAddress + off) + BitVec.ofNat 64 (w * i))
    rw [Nat.add_assoc, hfirst _ (Nat.lt_of_not_le hlt), ← BitVec.ofNat_add, Nat.add_assoc]
  have hwi : w * i < w * k := Nat.mul_lt_mul_of_pos_left hi (Nat.pos_of_mul_pos_right hwk)
  have hlt := f.lt
  have haligned := f.aligned
  change (BitVec.ofNat 64 (f.startAddress + off) + BitVec.ofNat 64 (w * i)).toNat / 4096 * 4096 = _
  rw [← BitVec.ofNat_add, BitVec.toNat_ofNat, hstart]
  omega

end Arrays

/-! ## The arrays of a controller -/

/-- The two rings and the array of device contexts. The segment table has one entry only. -/
def Controller.arrays (c : Controller) : List DmaArray :=
  [⟨c.cmdRing.base, 16, c.cmdRing.trbs.length, c.cmdRing.phys⟩,
    ⟨c.eventRing.base, 16, c.eventRing.trbs.length, c.eventRing.phys⟩,
    ⟨c.dcbaa.base, 8, c.dcbaa.ptrs.length, c.dcbaa.phys⟩]

/-- What the driver allocates and what it hands over. -/
theorem forall_mem_arrays {mem : PhysMem} {cr3 : PhysFrame}
    {alloc : List Block → ℕ → ℕ → Option ℕ} (halloc : AllocContract alloc) {D : Device} {fuel : ℕ}
    {M M' : Machine D} {c : Controller}
    (h : Controller.init (kernelPlatform mem cr3 alloc) fuel M = some (c, M')) :
    ∀ a ∈ c.arrays, a.width ∣ 64 ∧ 0 < a.count ∧ a.width * a.count ≤ 4096 ∧ 64 ∣ a.base ∧
      HeapBlock a.base (a.width * a.count) ∧
      (kernelPlatform mem cr3 alloc).translate a.base = some a.phys := by
  obtain ⟨_, _, _, _, _, -, -, hallocate, -⟩ := Controller.init_eq_some h
  obtain ⟨_, _, hcmd, hevent, hdcbaa, -⟩ := Controller.allocate_eq_some hallocate
  have hring : ∀ {r : Ring} {m₁ m₂ : Machine D},
      Ring.new (kernelPlatform mem cr3 alloc) 256 ⟨8, rfl⟩ m₁ = some (r, m₂) →
      r.trbs.length = 256 ∧ 64 ∣ r.base ∧ HeapBlock r.base 4096 ∧
        (kernelPlatform mem cr3 alloc).translate r.base = some r.phys := by
    intro r m₁ m₂ hnew
    obtain ⟨ptr, phys, hptr, hphys, rfl, -⟩ := Ring.new_eq_some hnew
    have hdvd := halloc.aligned _ _ _ _ hptr
    obtain ⟨hlo, hhi⟩ := halloc.inside _ _ _ _ hptr
    refine ⟨List.length_replicate, dvd_align64 ptr, ?_, hphys⟩
    change HeapBlock (align64 ptr) 4096
    rw [align64_of_dvd hdvd]
    exact ⟨hlo, by omega⟩
  intro a ha
  simp only [Controller.arrays, List.mem_cons, List.not_mem_nil, or_false] at ha
  rcases ha with rfl | rfl | rfl
  · obtain ⟨hlen, hdvd, hblock, hphys⟩ := hring hcmd
    dsimp only
    rw [hlen]
    exact ⟨by decide, by decide, by decide, hdvd, hblock, hphys⟩
  · obtain ⟨hlen, hdvd, hblock, hphys⟩ := hring hevent
    dsimp only
    rw [hlen]
    exact ⟨by decide, by decide, by decide, hdvd, hblock, hphys⟩
  · obtain ⟨ptr, phys, hptr, hphys, hc, -⟩ := Dcbaa.new_eq_some hdcbaa
    have hdvd := halloc.aligned _ _ _ _ hptr
    obtain ⟨hlo, hhi⟩ := halloc.inside _ _ _ _ hptr
    rw [align64_of_dvd hdvd] at hphys hc
    rw [hc]
    dsimp only
    rw [List.length_replicate]
    have hslots := (Controller.identify M).1.isLt
    exact ⟨by decide, Nat.succ_pos _, by omega, hdvd, ⟨hlo, by omega⟩, hphys⟩

/-- **What a torn structure reaches into.** Let the frames that the set-up takes lie side by side.
Then tables are taken at most at five of the heap's pages, the first and those that begin a level-1
table, and at all of these if the level-1 tables were missing. Each array of a controller that
`init` returns is where the controller looks for it unless it crosses from such a page into the
next; and for the elements that are elsewhere the controller takes what is in a page table in
force. -/
theorem torn_arrays_reach_tables {mapTo : MapTo} {mem : PhysMem} {cr3 : PhysFrame}
    (hmapTo : MapToContract mapTo mem cr3) {m : MemoryRegions} (hdis : m.RegionsDisjoint)
    (hal : m.PageAligned) (htab : BootTables m mem cr3) {minAddr n : ℕ} {s : MemoryState}
    (hn : countWhile (fun f ↦ f.startAddress < minAddr) (usableFrames m) = .ok n)
    (hsetUp : setUpMemory mapTo cr3 m minAddr mem = .ok (.ok (), s))
    (hside : SideBySide m n (n + 2048 + tablesTaken mem cr3 heapPages))
    {alloc : List Block → ℕ → ℕ → Option ℕ} (halloc : AllocContract alloc) :
    (∀ j < 2048, TakesTable mem cr3 j → j ∈ tableTurns) ∧
      ((∀ p ∈ heapTablePaths, p.length = 3 → resolve link mem 3 cr3 p = none) →
        ∀ j ∈ tableTurns, TakesTable mem cr3 j) ∧
      ∀ {D : Device} (fuel : ℕ) (M M' : Machine D) (c : Controller),
        Controller.init (kernelPlatform s.mem cr3 alloc) fuel M = some (c, M') →
        ∀ a ∈ c.arrays, a.Reaches (kernelPlatform s.mem cr3 alloc) mem s.mem cr3 := by
  refine ⟨fun j hj ↦ mem_tableTurns hj, fun hmissing j ↦ takesTable_of_mem hmissing,
    fun fuel M M' c hinit a ha ↦ ?_⟩
  obtain ⟨s', hmem, hs, hfollow⟩ := tablesFollow_of_setUpMemory hdis hal htab hmapTo hn hsetUp
  have hlast : framePos mem cr3 n heapPages 2048 = n + 2048 + tablesTaken mem cr3 heapPages := by
    rw [framePos, List.take_of_length_le (by rw [length_heapPages])]
  rw [hmem] at hinit ⊢
  obtain ⟨hw, hk, hsize, hbase, hblock, hphys⟩ := forall_mem_arrays halloc hinit a ha
  exact DmaArray.reaches alloc hs (hlast ▸ hside) hfollow hw hk hsize hbase hblock hphys

/-! ## On the bare machine -/

/-- The slots of `slotAlloc`, used from 64 bytes after their start. -/
def shiftedAlloc (live : List Block) (size align : ℕ) : Option ℕ :=
  if align ∣ 64 then (slotAlloc live (size + 64) align).map (· + 64) else none

theorem shiftedAlloc_contract : AllocContract shiftedAlloc := by
  have hslot : ∀ {live : List Block} {size align ptr : ℕ}, shiftedAlloc live size align = some ptr →
      align ∣ 64 ∧ ∃ q, slotAlloc live (size + 64) align = some q ∧ q + 64 = ptr := by
    intro live size align ptr h
    obtain ⟨hdvd, hslot⟩ := Option.ite_none_right_eq_some.mp h
    exact ⟨hdvd, Option.map_eq_some_iff.mp hslot⟩
  refine ⟨fun live size align ptr h ↦ ?_, fun live size align ptr h ↦ ?_,
    fun live size align ptr h b hb v hv hnew ↦ ?_⟩
  all_goals obtain ⟨hdvd, q, hq, rfl⟩ := hslot h
  · exact Nat.dvd_add (slotAlloc_contract.aligned _ _ _ _ hq) hdvd
  · obtain ⟨hlo, hhi⟩ := slotAlloc_contract.inside _ _ _ _ hq
    exact ⟨Nat.le_add_right_of_le hlo, by omega⟩
  · exact slotAlloc_contract.disjoint _ _ _ _ hq b hb v hv ⟨by omega, by omega⟩

/-- The start of the next block. -/
def nextShifted (live : List Block) : ℕ := heapStart + 8192 * live.length + 64

theorem serves_shiftedAlloc_cons {P : Platform} (hP : P.alloc = shiftedAlloc)
    (htranslate : ∀ k < 1024, ∃ phys, P.translate (heapStart + 8192 * k + 64) = some phys)
    {live : List Block} (hlive : ∀ b ∈ live, b.start + b.size ≤ heapStart + 8192 * live.length)
    (hlen : live.length < 1024) {size : ℕ} (hsize : size + 64 ≤ 8192) {sizes : List ℕ}
    (hrest : (∀ b ∈ (⟨nextShifted live, size⟩ :: live : List Block),
      b.start + b.size ≤ heapStart + 8192 * (live.length + 1)) →
      P.Serves (⟨nextShifted live, size⟩ :: live) sizes) : P.Serves live (size :: sizes) := by
  have hdvd : 64 ∣ heapStart + 8192 * live.length := by
    rw [heapStart]
    omega
  obtain ⟨phys, hphys⟩ := htranslate live.length hlen
  refine ⟨nextShifted live, phys, ?_, ?_, hrest fun b hb ↦ ?_⟩
  · have hslot : slotAlloc live (size + 64) 64 = some (heapStart + 8192 * live.length) :=
      if_pos ⟨hdvd, hsize, hlen, hlive⟩
    rw [hP, shiftedAlloc, if_pos (Nat.dvd_refl 64), hslot]
    rfl
  · have hnext : 64 ∣ nextShifted live := Nat.dvd_add hdvd (Nat.dvd_refl 64)
    rw [align64_of_dvd hnext]
    exact hphys
  · rcases List.mem_cons.mp hb with rfl | hb
    · change heapStart + 8192 * live.length + 64 + size ≤ _
      omega
    · have := hlive b hb
      omega

theorem serves_shiftedAlloc {P : Platform} (hP : P.alloc = shiftedAlloc)
    (htranslate : ∀ k < 1024, ∃ phys, P.translate (heapStart + 8192 * k + 64) = some phys)
    (maxSlots : BitVec 8) : P.Serves [] (Controller.requests maxSlots) := by
  have hslots := maxSlots.isLt
  have hring : 256 * 16 + 64 + 64 ≤ 8192 := by decide
  refine serves_shiftedAlloc_cons hP htranslate (fun b hb ↦ absurd hb List.not_mem_nil) (by decide)
    hring fun h₁ ↦ serves_shiftedAlloc_cons hP htranslate h₁ (by decide) hring fun h₂ ↦ ?_
  refine serves_shiftedAlloc_cons hP htranslate h₂ (by decide) (by omega) fun h₃ ↦ ?_
  exact serves_shiftedAlloc_cons hP htranslate h₃ (show 3 < 1024 by decide) (by decide)
    fun _ ↦ trivial

theorem sideBySide_bareMap (lo hi : ℕ) : SideBySide bareMap lo hi := by
  intro i f g _ _ hf hg
  rw [startAddress_bareMap hf, startAddress_bareMap hg]
  omega

/-- On the bare machine `init` returns with this heap too. -/
theorem bare_init_returns_shifted {s : MemoryState}
    (hsetUp : setUpMemory offsetMapTo bareCr3 bareMap 0x200000 bareMem = .ok (.ok (), s)) :
    ∃ c M', Controller.init (kernelPlatform s.mem bareCr3 shiftedAlloc) 1 (firmwareMachine 64 4) =
      some (c, M') ∧ c.cmdRing.base = heapStart + 64 ∧ c.cmdRing.trbs.length = 256 := by
  obtain ⟨n, s', -, hmem, hs⟩ := heapInv_of_setUpMemory offsetMapTo_contract bareMap_wellFormed.1
    bareMap_wellFormed.2 bareTables hsetUp
  have hserves : (kernelPlatform s.mem bareCr3 shiftedAlloc).Serves []
      (Controller.requests 64) := by
    refine serves_shiftedAlloc rfl (fun k hk ↦ ?_) 64
    rw [hmem]
    refine exists_translate shiftedAlloc hs (show HeapBlock _ 1 from ⟨by omega, ?_⟩) (by decide)
    rw [heapSize]
    omega
  obtain ⟨c, M', hinit⟩ := init_returns (firmwareMachine 64 4) Nat.zero_lt_one Nat.zero_lt_one
    Nat.zero_lt_one Nat.zero_lt_one hserves
  refine ⟨c, M', hinit, ?_⟩
  obtain ⟨_, _, _, _, _, hstop, hreset, hallocate, -⟩ := Controller.init_eq_some hinit
  obtain ⟨_, _, hcmd, -⟩ := Controller.allocate_eq_some hallocate
  obtain ⟨ptr, _, hptr, -, hring, -⟩ := Ring.new_eq_some hcmd
  rw [(Controller.reset_frame hreset).1, (Controller.stop_frame hstop).1] at hptr
  obtain rfl : heapStart + 64 = ptr := Option.some.inj hptr
  rw [hring]
  exact ⟨rfl, List.length_replicate⟩

/-- With all blocks 64 bytes off, the command ring goes on in a page table. -/
theorem torn_arrays_reach_tables_bare :
    ∃ s c M', setUpMemory offsetMapTo bareCr3 bareMap 0x200000 bareMem = .ok (.ok (), s) ∧
      Controller.init (kernelPlatform s.mem bareCr3 shiftedAlloc) 1 (firmwareMachine 64 4) =
        some (c, M') ∧
      ∃ a ∈ c.arrays, ∃ i < a.count, ∃ t, Reach link s.mem 3 bareCr3 t ∧
        (a.lookedFor i).toNat / 4096 * 4096 = t.startAddress := by
  obtain ⟨s, hsetUp⟩ := bare_setUp_succeeds
  obtain ⟨-, hall, harrays⟩ := torn_arrays_reach_tables offsetMapTo_contract bareMap_wellFormed.1
    bareMap_wellFormed.2 bareTables countWhile_bareMap hsetUp (sideBySide_bareMap _ _)
    shiftedAlloc_contract
  obtain ⟨c, M', hinit, hbase, hlen⟩ := bare_init_returns_shifted hsetUp
  refine ⟨s, c, M', hsetUp, hinit, _, List.mem_cons_self, ?_⟩
  obtain ⟨hiff, t, hreach, hin⟩ := harrays 1 _ M' c hinit _ List.mem_cons_self
  have htakes : TakesTable bareMem bareCr3 0 := by
    refine hall (fun p _ hlen ↦ ?_) 0 List.mem_cons_self
    rcases p with _ | ⟨i, p⟩
    · cases hlen
    · exact resolve_bareMem_cons _ _ _ _
  rw [hbase, hlen] at hiff
  -- the ring ends 64 bytes into the second page, and the first one took three tables
  have htorn : ¬∀ i < 256, DmaArray.Found (kernelPlatform s.mem bareCr3 shiftedAlloc)
      ⟨heapStart + 64, 16, 256, c.cmdRing.phys⟩ i := by
    rw [hiff]
    rintro (hfit | hnone)
    · exact absurd hfit (show ¬(heapStart + 64) % 4096 + 16 * 256 ≤ 4096 by decide)
    · have hpage : (heapStart + 64 - heapStart) / 4096 = 0 := rfl
      rw [hpage] at hnone
      exact hnone htakes
  push Not at htorn
  obtain ⟨i, hi, hnot⟩ := htorn
  rw [hbase, hlen] at hin ⊢
  exact ⟨i, hi, t, hreach, hin i hi hnot⟩

end Punkos
