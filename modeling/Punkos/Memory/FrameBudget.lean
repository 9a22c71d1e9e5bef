import Punkos.Memory.Mapper

/-!
# How many frames the set-up takes

`HeapInit` says what a successful set-up leaves behind. This module says when it succeeds, and what
it costs: the frames are handed out by position, so the whole price is the last position the loop
reads. Besides one frame for each of the 2048 pages it pays for the page tables that are missing,
and of those the heap has seven (`tablesTaken_heapPages_le`), whatever the bootloader left behind.

## What is assumed of `map_to` here

`MapToContract` is silent about calls that fail. `MapToSucceeds` adds the documented reasons for
failure, and that there is no other: the page is mapped already or lies in a large page, or the
allocator it is given has too few frames for the missing tables. It is only asked to speak about
clean tables, which those of the bootloader are and which the loop keeps clean (`HeapInv.clean`).
-/

namespace Punkos

open RadixTree BootInfoFrameAllocator

/-! ## When `map_to` succeeds -/

/-- The frames at the positions from `lo` up to `hi` are there. -/
def FramesAt (m : MemoryRegions) (lo hi : ℕ) : Prop :=
  ∀ i, lo ≤ i → i < hi → ∃ f, nth (usableFrames m) i = .ok (some f)

/-- On clean tables `map_to` succeeds exactly when the page is unmapped and the allocator has a
frame for each missing table. -/
def MapToSucceeds (mapTo : MapTo) : Prop :=
  ∀ cr3 mem page frame a, Clean link mem .zero 3 cr3 →
    ((∃ mem' a', mapTo cr3 mem page frame heapFlags a = .ok (.ok (), mem', a')) ↔
      lookup link mem cr3 (pathOf page) = none ∧
        FramesAt a.memoryRegions a.next (a.next + missing link mem 3 cr3 (pathOf page)))

theorem framesAt_split {m : MemoryRegions} {lo mid hi : ℕ} (h₁ : lo ≤ mid) (h₂ : mid ≤ hi) :
    FramesAt m lo hi ↔ FramesAt m lo mid ∧ FramesAt m mid hi := by
  constructor
  · intro h
    exact ⟨fun i hi hi' ↦ h i hi (hi'.trans_le h₂), fun i hi hi' ↦ h i (h₁.trans hi) hi'⟩
  · rintro ⟨hlow, hhigh⟩ i hi hi'
    rcases lt_or_ge i mid with hlt | hge
    · exact hlow i hi hlt
    · exact hhigh i hge hi'

/-- One frame: the next call of the allocator returns it. -/
theorem framesAt_succ {m : MemoryRegions} {c : ℕ} : FramesAt m c (c + 1) ↔
    ∃ f, (⟨m, c⟩ : BootInfoFrameAllocator).allocateFrame = .ok (some f, ⟨m, c + 1⟩) := by
  constructor
  · intro h
    obtain ⟨f, hf⟩ := h c le_rfl (Nat.lt_succ_self _)
    exact ⟨f, allocateFrame_eq_ok_iff.mpr ⟨hf, rfl⟩⟩
  · rintro ⟨f, hf⟩ i hi hi'
    obtain rfl : i = c := by omega
    exact ⟨f, (allocateFrame_eq_ok_iff.mp hf).1⟩

/-- Positions are read from the left, so the last one decides. -/
theorem framesAt_iff_last {m : MemoryRegions} {lo n : ℕ} :
    FramesAt m lo (lo + n + 1) ↔ ∃ f, nth (usableFrames m) (lo + n) = .ok (some f) := by
  constructor
  · intro h
    exact h (lo + n) (Nat.le_add_right _ _) (Nat.lt_succ_self _)
  · rintro ⟨f, hf⟩ i - hi
    exact exists_nth_of_le hf (Nat.le_of_lt_succ hi)

/-- The mapper of `Mapper` succeeds in just these cases. -/
theorem descendMap_succeeds_iff (frame : PhysFrame) {k : ℕ} {n : PhysFrame}
    {p : List PageTableIndex} {mem : PhysMem} {a : BootInfoFrameAllocator}
    (hp : p.length = k + 1) :
    (∃ mem' a', descendMap frame heapFlags k n p mem a = .ok (.ok (), mem', a')) ↔
      lookup link mem n p = none ∧
        FramesAt a.memoryRegions a.next (a.next + missing link mem k n p) := by
  induction k generalizing n p mem a with
  | zero =>
    obtain ⟨i, rfl⟩ := List.length_eq_one_iff.mp hp
    have hframes : FramesAt a.memoryRegions a.next (a.next + missing link mem 0 n [i]) := by
      intro j hj hj'
      rw [missing, List.range_zero, List.countP_nil] at hj'
      omega
    rw [descendMap]
    rcases hpres : (mem n i).present with _ | _
    · rw [lookup_cons_absent (by simp [link, hpres])]
      simpa using hframes
    · rw [lookup_cons_leaf (l := (mem n i).addr) (by simp [link, hpres])]
      simp
  | succ k ih =>
    obtain ⟨i, p, rfl⟩ := List.exists_cons_of_length_eq_add_one hp
    have hp' : p.length = k + 1 := by simpa using hp
    rw [descendMap]
    rcases hlink : link (k + 1) (mem n i) with _ | n' | l
    · -- a table is missing: one frame for it, and all tables below it are missing too
      rw [lookup_cons_absent (by rw [hp']; exact hlink)]
      have hcount : ∀ f : PhysFrame, 1 + missing link
          (Function.update (write mem n i (.ofFrame f heapFlags)) f fun _ ↦ .zero) k f p
            = missing link mem (k + 1) n (i :: p) := by
        intro f
        exact missing_cleared link_zero (fun j ↦ by simp) hlink hp'
      rw [← hcount n, ← Nat.add_assoc, framesAt_split (Nat.le_succ a.next) (Nat.le_add_right _ _)]
      by_cases hone : FramesAt a.memoryRegions a.next (a.next + 1)
      -- with a frame for the table, the rest is the case one level down
      · obtain ⟨f, halloc⟩ := framesAt_succ.mp hone
        have hclear : lookup link (Function.update (write mem n i (.ofFrame f heapFlags)) f
            fun _ ↦ .zero) f p = none := lookup_cleared link_zero (fun j ↦ by simp) p
        have hsame := (Nat.add_left_cancel ((hcount f).trans (hcount n).symm))
        rw [← hsame]
        have hrec := @ih f p
          (Function.update (write mem n i (.ofFrame f heapFlags)) f fun _ ↦ .zero)
          ⟨a.memoryRegions, a.next + 1⟩ hp'
        simpa [halloc, hone, hclear] using hrec
      -- without one, `map_to` fails here
      · refine iff_of_false ?_ fun h ↦ hone h.2.1
        rintro ⟨mem', a', h⟩
        dsimp only at h
        split at h
        · cases h
        · cases h
        · next f a₁ halloc =>
          obtain ⟨-, rfl⟩ := allocateFrame_eq_ok_iff.mp halloc
          exact hone (framesAt_succ.mpr ⟨f, halloc⟩)
    · rw [lookup_cons_node (by rw [hp']; exact hlink), missing_cons, resolve_cons_node hlink,
        resolve_nil, if_neg (by simp), Nat.zero_add]
      simp only [resolve_cons_node hlink]
      exact ih hp'
    · rw [lookup_cons_leaf (by rw [hp']; exact hlink)]
      simp

theorem offsetMapTo_succeeds : MapToSucceeds offsetMapTo :=
  fun _ _ page frame _ _ ↦ descendMap_succeeds_iff frame (length_pathOf page)

/-! ## One page -/

section OnePage

variable {m : MemoryRegions} {mem₀ : PhysMem} {cr3 : PhysFrame} {c : ℕ} {pages : List ℕ} {j : ℕ}
  {s : MemoryState} (hs : HeapInv m mem₀ cr3 c pages j s) {page : ℕ}
  (hpage : pages[j]? = some page)

include hs hpage

/-- A page that no earlier turn has mapped is as unmapped as it was at first. -/
theorem HeapInv.lookup_page (hnd : (pages.map pathOf).Nodup) :
    lookup link s.mem cr3 (pathOf page) = lookup link mem₀ cr3 (pathOf page) :=
  hs.outside _ (length_pathOf page) (pathOf_notMem_take hnd hpage)

/-- The turn succeeds when the page is unmapped and its price can be paid. -/
theorem HeapInv.turn_succeeds_iff (hnd : (pages.map pathOf).Nodup) {mapTo : MapTo}
    (hsucc : MapToSucceeds mapTo) (hclean : Clean link mem₀ .zero 3 cr3) :
    (∃ frame a mem' a', s.frameAllocator.allocateFrame = .ok (some frame, a) ∧
      mapTo cr3 s.mem page frame heapFlags a = .ok (.ok (), mem', a')) ↔
      lookup link mem₀ cr3 (pathOf page) = none ∧
        FramesAt m (framePos mem₀ cr3 c pages j) (framePos mem₀ cr3 c pages (j + 1)) := by
  rw [hs.framePos_succ_eq hpage, ← hs.lookup_page hpage hnd,
    framesAt_split (Nat.le_succ _) (Nat.le_add_right _ _), hs.cursor]
  constructor
  · rintro ⟨frame, a, mem', a', halloc, hmap⟩
    obtain ⟨-, rfl⟩ := allocateFrame_eq_ok_iff.mp halloc
    obtain ⟨hlook, hframes⟩ := (hsucc cr3 s.mem page frame _ (hs.clean hclean)).mp ⟨mem', a', hmap⟩
    exact ⟨hlook, framesAt_succ.mpr ⟨frame, halloc⟩, hframes⟩
  · rintro ⟨hlook, hone, hframes⟩
    obtain ⟨frame, halloc⟩ := framesAt_succ.mp hone
    obtain ⟨mem', a', hmap⟩ :=
      (hsucc cr3 s.mem page frame ⟨m, _⟩ (hs.clean hclean)).mpr ⟨hlook, hframes⟩
    exact ⟨frame, _, mem', a', halloc, hmap⟩

end OnePage

/-! ## The loop -/

theorem mapPages_cons_succeeds {mapTo : MapTo} {cr3 : PhysFrame} {page : ℕ} {rest : List ℕ}
    {s s' : MemoryState} {frame : PhysFrame} {a a' : BootInfoFrameAllocator} {mem : PhysMem}
    (halloc : s.frameAllocator.allocateFrame = .ok (some frame, a))
    (hmap : mapTo cr3 s.mem page frame heapFlags a = .ok (.ok (), mem, a'))
    (hrest : mapPages mapTo cr3 rest ⟨mem, a', s.heap⟩ = .ok (.ok (), s')) :
    mapPages mapTo cr3 (page :: rest) s = .ok (.ok (), s') := by
  rw [mapPages]
  simp only [halloc, hmap]
  exact hrest

/-- The loop goes through exactly when the remaining pages were unmapped at first and their whole
price can be paid. -/
theorem HeapInv.mapPages_succeeds_iff {m : MemoryRegions} (hdis : m.RegionsDisjoint)
    (hal : m.PageAligned) {mem₀ : PhysMem} {cr3 : PhysFrame} (htab : BootTables m mem₀ cr3)
    (hclean : Clean link mem₀ .zero 3 cr3) {mapTo : MapTo} (hmapTo : MapToContract mapTo mem₀ cr3)
    (hsucc : MapToSucceeds mapTo) {c : ℕ} {pages : List ℕ} (hnd : (pages.map pathOf).Nodup)
    {rest : List ℕ} {j : ℕ} {s : MemoryState} (hs : HeapInv m mem₀ cr3 c pages j s)
    (hrest : pages.drop j = rest) (hj : j + rest.length = pages.length) :
    (∃ s', Punkos.mapPages mapTo cr3 rest s = .ok (.ok (), s')) ↔
      (∀ page ∈ rest, lookup link mem₀ cr3 (pathOf page) = none) ∧
        FramesAt m (framePos mem₀ cr3 c pages j) (framePos mem₀ cr3 c pages pages.length) := by
  induction rest generalizing j s with
  | nil =>
    obtain rfl : j = pages.length := hj
    refine iff_of_true ⟨s, rfl⟩ ⟨by simp, fun i hi hi' ↦ ?_⟩
    omega
  | cons page rest ih =>
    rw [List.length_cons] at hj
    obtain ⟨hpage, hrest'⟩ := of_drop_eq_cons hrest
    -- the price of the rest begins where that of this page ends
    have hmono := (framePos_strictMono mem₀ cr3 c pages).monotone
    have hturn := hs.turn_succeeds_iff hpage hnd hsucc hclean
    rw [List.forall_mem_cons, framesAt_split (hmono (Nat.le_succ j)) (hmono (by omega))]
    constructor
    · rintro ⟨s', h⟩
      obtain ⟨frame, a, mem, a', halloc, hmap, hrec⟩ := mapPages_cons_eq_ok h
      obtain ⟨fs, hinst, htakes⟩ := hmapTo _ _ _ _ _ _ hs.clean hmap
      obtain ⟨hlook, hprice⟩ := hturn.mp ⟨frame, a, mem, a', halloc, hmap⟩
      obtain ⟨hlooks, hprices⟩ := (ih (hs.step hdis hal htab hnd hpage halloc hinst htakes)
        hrest' (by omega)).mp ⟨s', hrec⟩
      exact ⟨⟨hlook, hlooks⟩, hprice, hprices⟩
    · rintro ⟨⟨hlook, hlooks⟩, hprice, hprices⟩
      obtain ⟨frame, a, mem, a', halloc, hmap⟩ := hturn.mpr ⟨hlook, hprice⟩
      obtain ⟨fs, hinst, htakes⟩ := hmapTo _ _ _ _ _ _ hs.clean hmap
      obtain ⟨s', hrec⟩ := (ih (hs.step hdis hal htab hnd hpage halloc hinst htakes)
        hrest' (by omega)).mpr ⟨hlooks, hprices⟩
      exact ⟨s', mapPages_cons_succeeds halloc hmap hrec⟩

/-! ## The tables of the heap

The heap starts 256 KiB after a multiple of 2 MiB, so its 8 MiB touch five level-1 tables; one
level-2 and one level-3 table lead to them. -/

/-- The table paths of the heap's pages. -/
def heapTablePaths : List (List PageTableIndex) :=
  [136] :: [136, 273] :: (List.range 5).map fun d ↦ [136, 273, .ofNat 512 (34 + d)]

theorem tablePaths_heapPage {j : ℕ} (hj : j < 2048) : tablePaths (heapStart + 4096 * j) =
    [[136], [136, 273], [136, 273, .ofNat 512 (34 + (64 + j) / 512)]] := by
  have h₃ : tableIndex 3 (heapStart + 4096 * j) = 136 := by
    apply Fin.ext
    simp only [tableIndex, heapStart]
    omega
  have h₂ : tableIndex 2 (heapStart + 4096 * j) = 273 := by
    apply Fin.ext
    simp only [tableIndex, heapStart]
    omega
  have h₁ : tableIndex 1 (heapStart + 4096 * j) = .ofNat 512 (34 + (64 + j) / 512) := by
    apply Fin.ext
    simp only [tableIndex, heapStart, Fin.ofNat]
    omega
  rw [← h₃, ← h₂, ← h₁]
  rfl

theorem tablePaths_heapPage_subset {j : ℕ} (hj : j < 2048) :
    tablePaths (heapStart + 4096 * j) ⊆ heapTablePaths := by
  have hlast : [136, 273, .ofNat 512 (34 + (64 + j) / 512)] ∈ heapTablePaths := by
    refine List.mem_cons_of_mem _ (List.mem_cons_of_mem _ (List.mem_map.mpr ⟨_, ?_, rfl⟩))
    rw [List.mem_range]
    omega
  rw [tablePaths_heapPage hj]
  simpa [heapTablePaths] using hlast

/-- The heap never needs more than seven tables. -/
theorem tablesTaken_heapPages_le (mem : PhysMem) (cr3 : PhysFrame) :
    tablesTaken mem cr3 heapPages ≤ 7 := by
  have hsub : (heapPages.flatMap tablePaths).toFinset ⊆ heapTablePaths.toFinset := by
    intro p hp
    rw [List.mem_toFinset, List.mem_flatMap] at hp
    obtain ⟨page, hpage, hp⟩ := hp
    obtain ⟨j, hj, rfl⟩ := List.mem_range'.mp (heapPages_eq ▸ hpage)
    exact List.mem_toFinset.mpr (tablePaths_heapPage_subset hj hp)
  calc tablesTaken mem cr3 heapPages
      ≤ (heapPages.flatMap tablePaths).toFinset.card := Finset.card_filter_le _ _
    _ ≤ heapTablePaths.toFinset.card := Finset.card_le_card hsub
    _ ≤ heapTablePaths.length := List.toFinset_card_le _
    _ = 7 := rfl

/-! ## The set-up -/

/-- A set-up that succeeds, taken apart. -/
theorem setUpMemory_succeeds_with {mapTo : MapTo} {cr3 : PhysFrame} {m : MemoryRegions}
    {minAddr : ℕ} {mem : PhysMem} {s : MemoryState} :
    setUpMemory mapTo cr3 m minAddr mem = .ok (.ok (), s) ↔
      ∃ c s', countWhile (fun f ↦ f.startAddress < minAddr) (usableFrames m) = .ok c ∧
        mapPages mapTo cr3 heapPages ⟨mem, ⟨m, c⟩, none⟩ = .ok (.ok (), s') ∧
        s = { s' with heap := some (heapStart, heapSize) } := by
  rw [setUpMemory]
  rcases hskip : (init m).skipBelow minAddr with e | a
  · refine iff_of_false (by simp [bind, Except.bind]) ?_
    rintro ⟨c, s', hc, -, -⟩
    rw [skipBelow_eq_ok_iff.mpr ⟨c, hc, rfl⟩] at hskip
    cases hskip
  obtain ⟨c, hc, rfl⟩ := skipBelow_eq_ok_iff.mp hskip
  simp only [init] at hc
  rcases hloop : mapPages mapTo cr3 heapPages ⟨mem, ⟨m, c⟩, none⟩ with e | ⟨e | ⟨⟩, s'⟩
  · simp [initHeap, init, hc, hloop, bind, Except.bind]
  · simp [initHeap, init, hc, hloop, bind, Except.bind, pure, Except.pure]
  · simp [initHeap, init, hc, hloop, bind, Except.bind, pure, Except.pure, eq_comm]

/-- No heap address is mapped exactly when no heap page is. -/
theorem heap_unmapped_iff (mem : PhysMem) (cr3 : PhysFrame) :
    (∀ page ∈ heapPages, lookup link mem cr3 (pathOf page) = none) ↔
      ∀ v : VirtAddr, InHeap v.val → virtToPhys mem cr3 v = none := by
  constructor
  · intro h v hv
    obtain ⟨j, hj, off, hoff, hval⟩ := hv.exists_offset
    have hpath := (pathOf_eq_heapPage_iff hj v).mpr (hval ▸ heapPage_div j hoff)
    rw [virtToPhys_eq_lookup, hpath, h _ (List.mem_of_getElem? (getElem?_heapPages hj))]
    rfl
  · intro h page hpage
    obtain ⟨j, hj, rfl⟩ := List.mem_range'.mp (heapPages_eq ▸ hpage)
    have hv := h (heapPageAddr j hj) ⟨Nat.le_add_right _ _, by
      simp only [heapPageAddr, heapSize]
      omega⟩
    rw [virtToPhys_eq_lookup, Option.map_eq_none_iff] at hv
    exact hv

/-- The loop over the heap's pages, from a cursor at `c`. -/
theorem mapPages_heapPages_succeeds_iff {mapTo : MapTo} {mem : PhysMem} {cr3 : PhysFrame}
    (hmapTo : MapToContract mapTo mem cr3) (hsucc : MapToSucceeds mapTo) {m : MemoryRegions}
    (hdis : m.RegionsDisjoint) (hal : m.PageAligned) (htab : BootTables m mem cr3)
    (hclean : Clean link mem .zero 3 cr3) {c : ℕ} :
    (∃ s, mapPages mapTo cr3 heapPages ⟨mem, ⟨m, c⟩, none⟩ = .ok (.ok (), s)) ↔
      (∀ v : VirtAddr, InHeap v.val → virtToPhys mem cr3 v = none) ∧
        ∃ f, nth (usableFrames m) (c + 2047 + tablesTaken mem cr3 heapPages) = .ok (some f) := by
  have hiff := (HeapInv.start htab (c := c)).mapPages_succeeds_iff hdis hal htab hclean hmapTo
    hsucc nodup_heapPages_pathOf List.drop_zero (Nat.zero_add _)
  have hlo : framePos mem cr3 c heapPages 0 = c := by simp [framePos, tablesTaken]
  have hhi : framePos mem cr3 c heapPages heapPages.length =
      c + (2047 + tablesTaken mem cr3 heapPages) + 1 := by
    rw [framePos, List.take_length, length_heapPages]
    omega
  rw [hiff, hlo, hhi, framesAt_iff_last, Nat.add_assoc, heap_unmapped_iff]

/-- **When the set-up succeeds.** The heap must be unmapped, and after the skipped frames there
must be one for each of its 2048 pages and one for each table missing, of which there are at most
seven. That many are then taken. -/
theorem setUpMemory_succeeds_iff {mapTo : MapTo} {mem : PhysMem} {cr3 : PhysFrame}
    (hmapTo : MapToContract mapTo mem cr3) (hsucc : MapToSucceeds mapTo) {m : MemoryRegions}
    (hdis : m.RegionsDisjoint) (hal : m.PageAligned) (htab : BootTables m mem cr3)
    (hclean : Clean link mem .zero 3 cr3) (minAddr : ℕ) :
    tablesTaken mem cr3 heapPages ≤ 7 ∧
      ((∃ s, setUpMemory mapTo cr3 m minAddr mem = .ok (.ok (), s)) ↔
        (∀ v : VirtAddr, InHeap v.val → virtToPhys mem cr3 v = none) ∧
        ∃ c f, countWhile (fun f ↦ f.startAddress < minAddr) (usableFrames m) = .ok c ∧
          nth (usableFrames m) (c + 2047 + tablesTaken mem cr3 heapPages) = .ok (some f)) ∧
      ∀ s, setUpMemory mapTo cr3 m minAddr mem = .ok (.ok (), s) →
        ∃ c, countWhile (fun f ↦ f.startAddress < minAddr) (usableFrames m) = .ok c ∧
          s.frameAllocator = ⟨m, c + 2048 + tablesTaken mem cr3 heapPages⟩ := by
  have hloop := fun c ↦ mapPages_heapPages_succeeds_iff hmapTo hsucc hdis hal htab hclean (c := c)
  refine ⟨tablesTaken_heapPages_le mem cr3, ?_, ?_⟩
  · constructor
    · rintro ⟨s, hs⟩
      obtain ⟨c, s', hc, hmap, -⟩ := setUpMemory_succeeds_with.mp hs
      obtain ⟨hunmapped, f, hf⟩ := (hloop c).mp ⟨s', hmap⟩
      exact ⟨hunmapped, c, f, hc, hf⟩
    · rintro ⟨hunmapped, c, f, hc, hf⟩
      obtain ⟨s', hmap⟩ := (hloop c).mpr ⟨hunmapped, f, hf⟩
      exact ⟨_, setUpMemory_succeeds_with.mpr ⟨c, s', hc, hmap, rfl⟩⟩
  · intro s hs
    obtain ⟨c, s', hc, hmap, rfl⟩ := setUpMemory_succeeds_with.mp hs
    have hend := HeapInv.mapPages hdis hal htab nodup_heapPages_pathOf hmapTo hmap
    refine ⟨c, hc, ?_⟩
    have hcursor := hend.cursor
    rwa [framePos, List.take_length, length_heapPages] at hcursor

theorem clean_bareMem : Clean link bareMem .zero 3 bareCr3 := fun _ _ _ _ _ ↦ rfl

/-- On the bare machine the set-up succeeds and leaves at least 7945 of the 10000 frames. -/
theorem setUpMemory_succeeds_bare :
    ∃ s, setUpMemory offsetMapTo bareCr3 bareMap 0x200000 bareMem = .ok (.ok (), s) ∧
      s.frameAllocator.next ≤ 2055 := by
  have hset := setUpMemory_succeeds_iff offsetMapTo_contract offsetMapTo_succeeds
    bareMap_wellFormed.1 bareMap_wellFormed.2 bareTables clean_bareMem 0x200000
  have hle := hset.1
  have hunmapped : ∀ v : VirtAddr, InHeap v.val → virtToPhys bareMem bareCr3 v = none := by
    intro v _
    rw [virtToPhys_eq_lookup, lookup_bareMem]
    rfl
  have hframes : 0 + 2047 + tablesTaken bareMem bareCr3 heapPages < 10000 := by omega
  obtain ⟨f, hf⟩ := exists_nth_bareMap hframes
  obtain ⟨s, hs⟩ := hset.2.1.mpr ⟨hunmapped, 0, f, countWhile_bareMap, hf⟩
  obtain ⟨c, hc, hnext⟩ := hset.2.2 s hs
  have hzero : 0 = c := Except.ok.inj (countWhile_bareMap.symm.trans hc)
  refine ⟨s, hs, ?_⟩
  simp only [hnext]
  omega

end Punkos
