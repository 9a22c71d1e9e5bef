import Mathlib.Data.Finset.Card
import Punkos.Memory.PageTable

/-!
# Mapping the kernel heap

`allocator::init_heap` maps the 2048 pages of the heap one after the other. For each page it takes
a frame for the data and then calls `map_to`, which takes a further frame for every page table that
is missing on the way down. Data and tables come from the same allocator, interleaved.

## What is assumed of `map_to`

`OffsetPageTable::map_to` belongs to the `x86_64` crate. It enters as a parameter, and
`MapToContract` says what the kernel relies on: a successful call installs the page in the tree of
tables (`RadixTree.Install`), each missing table is taken from the allocator that is passed in and
cleared, and no other entry changes. Nothing is assumed of a call that fails.

To `map_to` an entry is unused when it is zero, to the page walk when it is not present. On the
tables a bootloader builds the two are the same (`RadixTree.Clean`), and an insertion keeps them so.
Starting from such tables the set-up shows `map_to` no others, and so the contract does not speak
about others (`StaysClean`).

## The invariant

Frames are handed out by position, so the whole loop can be described by positions: after `j` pages
the cursor has moved past `j` data frames and past one frame for each table that was missing in the
initial tree and lies on the path of one of those pages (`tablesTaken`). The frame of the `j`-th
page is the one the cursor stood on at that moment. Distinct positions are distinct frames, which
is all that the freshness hypotheses of `Install.extended` ask for.
-/

namespace Punkos

open RadixTree BootInfoFrameAllocator

/-! ## The code -/

/-- First address of the heap. -/
def heapStart : ℕ := 0x4444_4444_0000

/-- Size of the heap: 8 MiB. -/
def heapSize : ℕ := 8 * 1024 * 1024

/-- The start addresses of the pages from the one of `first` to the one of `last`
(`Page::range_inclusive` of `Page::containing_address`). -/
def pageRangeInclusive (first last : ℕ) : List ℕ :=
  List.range' (first / 4096 * 4096) (last / 4096 - first / 4096 + 1) 4096

/-- The pages `init_heap` maps. -/
def heapPages : List ℕ := pageRangeInclusive heapStart (heapStart + heapSize - 1)

/-- `MapToError`. -/
inductive MapToError where
  /-- No frame was left for a table or for the page. -/
  | frameAllocationFailed
  /-- A large page already covers the address. -/
  | parentEntryHugePage
  /-- The page is already mapped. -/
  | pageAlreadyMapped (frame : PhysFrame)
  deriving DecidableEq, Repr

/-- `PRESENT | WRITABLE`. -/
def heapFlags : BitVec 64 := 0b11

/-- The type of `map_to`, for the mapper of the level-4 table in the first argument: memory, page,
frame, flags and allocator go in, the outcome and the changed memory and allocator come out. -/
abbrev MapTo :=
  PhysFrame → PhysMem → ℕ → PhysFrame → BitVec 64 → BootInfoFrameAllocator →
    Except Panic (Except MapToError Unit × PhysMem × BootInfoFrameAllocator)

/-- The memory subsystem: physical memory, the frame allocator, and the region the heap allocator
was given, if any. -/
structure MemoryState where
  /-- Physical memory. -/
  mem : PhysMem
  /-- The frame allocator. -/
  frameAllocator : BootInfoFrameAllocator
  /-- Start and size passed to `ALLOCATOR.lock().init`. -/
  heap : Option (ℕ × ℕ)

section Code

variable (mapTo : MapTo) (cr3 : PhysFrame)

/-- The loop of `init_heap`. -/
def mapPages : List ℕ → MemoryState → Except Panic (Except MapToError Unit × MemoryState)
  | [], s => .ok (.ok (), s)
  | page :: pages, s =>
    match s.frameAllocator.allocateFrame with
    | .error e => .error e
    | .ok (none, a) => .ok (.error .frameAllocationFailed, { s with frameAllocator := a })
    | .ok (some frame, a) =>
      match mapTo cr3 s.mem page frame heapFlags a with
      | .error e => .error e
      | .ok (.error e, mem, a) => .ok (.error e, { s with mem := mem, frameAllocator := a })
      | .ok (.ok (), mem, a) => mapPages pages { s with mem := mem, frameAllocator := a }

/-- Map the heap and hand it to the heap allocator. -/
def initHeap (s : MemoryState) : Except Panic (Except MapToError Unit × MemoryState) := do
  let (r, s) ← mapPages mapTo cr3 heapPages s
  match r with
  | .error e => return (.error e, s)
  | .ok () => return (.ok (), { s with heap := some (heapStart, heapSize) })

/-- The memory set-up of `kernel_main`: make the frame allocator, skip low memory, map the heap. -/
def setUpMemory (m : MemoryRegions) (minAddr : ℕ) (mem : PhysMem) :
    Except Panic (Except MapToError Unit × MemoryState) := do
  let a ← (init m).skipBelow minAddr
  initHeap mapTo cr3 ⟨mem, a, none⟩

end Code

/-! ## The contract of `map_to` -/

/-- The allocator hands out exactly `fs`, one call per frame. -/
inductive Takes : BootInfoFrameAllocator → List PhysFrame → BootInfoFrameAllocator → Prop
  | nil (a : BootInfoFrameAllocator) : Takes a [] a
  | cons {a a₁ a₂ : BootInfoFrameAllocator} {f : PhysFrame} {fs : List PhysFrame} :
      a.allocateFrame = .ok (some f, a₁) → Takes a₁ fs a₂ → Takes a (f :: fs) a₂

/-- The tables in `mem` are clean if those in `mem₀` are. -/
def StaysClean (mem₀ : PhysMem) (cr3 : PhysFrame) (mem : PhysMem) : Prop :=
  Clean link mem₀ .zero 3 cr3 → Clean link mem .zero 3 cr3

/-- What the kernel relies on when it starts from the tables in `mem₀`: a successful `map_to`
installs `page → frame`, takes the missing tables from the allocator it is given, and changes
nothing else. -/
def MapToContract (mapTo : MapTo) (mem₀ : PhysMem) (cr3 : PhysFrame) : Prop :=
  ∀ mem page frame a mem' a', StaysClean mem₀ cr3 mem →
    mapTo cr3 mem page frame heapFlags a = .ok (.ok (), mem', a') →
    ∃ fs, Install link .zero frame.startAddress 3 cr3 (pathOf page) mem fs mem' ∧ Takes a fs a'

theorem Takes.spec {a a' : BootInfoFrameAllocator} {fs : List PhysFrame} (h : Takes a fs a') :
    a' = ⟨a.memoryRegions, a.next + fs.length⟩ ∧ ∀ j f, fs[j]? = some f →
      nth (usableFrames a.memoryRegions) (a.next + j) = .ok (some f) := by
  induction h with
  | nil a => exact ⟨rfl, by simp⟩
  | @cons a a₁ a₂ f fs hf _ ih =>
    obtain ⟨hnth, rfl⟩ := allocateFrame_eq_ok_iff.mp hf
    obtain ⟨rfl, ih⟩ := ih
    refine ⟨by simp only [List.length_cons]; congr 1; omega, ?_⟩
    rintro (_ | j) g hg
    · simpa [← Option.some.inj hg] using hnth
    · have := ih j g (by simpa using hg)
      rwa [show a.next + (j + 1) = a.next + 1 + j by omega]

/-! ## Positions

The frames are handed out in the order of `usableFrames`, so where the loop stands is a number. -/

/-- The paths of the three tables below the level-4 table on the way to a page. -/
def tablePaths (page : ℕ) : List (List PageTableIndex) :=
  (List.range 3).map fun j ↦ (pathOf page).take (j + 1)

/-- How many tables have to be taken to map `pages` into the tree of `mem`: one for each table path
of a page that is not there yet. -/
def tablesTaken (mem : PhysMem) (cr3 : PhysFrame) (pages : List ℕ) : ℕ :=
  ((pages.flatMap tablePaths).toFinset.filter fun p ↦ resolve link mem 3 cr3 p = none).card

/-- The position of the frame that backs the `j`-th page, when the cursor starts at `c`. -/
def framePos (mem : PhysMem) (cr3 : PhysFrame) (c : ℕ) (pages : List ℕ) (j : ℕ) : ℕ :=
  c + j + tablesTaken mem cr3 (pages.take j)

theorem mem_tablePaths {page : ℕ} {p : List PageTableIndex} (hp : p <+: pathOf page)
    (hne : p ≠ []) (hlen : p.length ≤ 3) : p ∈ tablePaths page := by
  refine List.mem_map.mpr ⟨p.length - 1, ?_, ?_⟩
  · have := List.length_pos_iff.mpr hne
    rw [List.mem_range]
    omega
  · rw [Nat.sub_add_cancel (List.length_pos_iff.mpr hne)]
    exact (List.prefix_iff_eq_take.mp hp).symm

theorem prefix_of_mem_tablePaths {page : ℕ} {p : List PageTableIndex} (hp : p ∈ tablePaths page) :
    p <+: pathOf page ∧ p.length ≤ 3 := by
  obtain ⟨j, hj, rfl⟩ := List.mem_map.mp hp
  rw [List.mem_range] at hj
  exact ⟨List.take_prefix _ _, by rw [List.length_take]; omega⟩

theorem nodup_tablePaths (page : ℕ) : (tablePaths page).Nodup := by
  refine List.Nodup.map_on ?_ List.nodup_range
  intro i hi j hj hij
  rw [List.mem_range] at hi hj
  have := congrArg List.length hij
  rw [List.length_take, List.length_take, length_pathOf] at this
  omega

/-- What one more page adds: the tables still missing from the tree as it then is. -/
theorem tablesTaken_concat {mem mem' : PhysMem} {cr3 : PhysFrame} {pages : List ℕ} {page : ℕ}
    (h : ∀ p ∈ tablePaths page, resolve link mem' 3 cr3 p = none ↔
      resolve link mem 3 cr3 p = none ∧ p ∉ pages.flatMap tablePaths) :
    tablesTaken mem cr3 (pages ++ [page]) =
      tablesTaken mem cr3 pages + missing link mem' 3 cr3 (pathOf page) := by
  have hcount : missing link mem' 3 cr3 (pathOf page)
      = ((tablePaths page).toFinset.filter fun p ↦ resolve link mem' 3 cr3 p = none).card := by
    have hfilter : ((tablePaths page).toFinset.filter fun p ↦ resolve link mem' 3 cr3 p = none)
        = ((tablePaths page).filter fun p ↦ resolve link mem' 3 cr3 p = none).toFinset := by
      ext p
      simp
    rw [missing, hfilter, List.toFinset_card_of_nodup ((nodup_tablePaths page).filter _),
      ← List.countP_eq_length_filter, tablePaths, List.countP_map]
    rfl
  rw [hcount, tablesTaken, tablesTaken, List.flatMap_append, List.toFinset_append,
    Finset.filter_union, ← Finset.card_union_of_disjoint]
  · congr 1
    ext p
    simp only [Finset.mem_union, Finset.mem_filter, List.mem_toFinset, List.flatMap_singleton]
    constructor
    · rintro (hp | ⟨hp, hnone⟩)
      · exact Or.inl hp
      · by_cases hmem : p ∈ pages.flatMap tablePaths
        · exact Or.inl ⟨hmem, hnone⟩
        · exact Or.inr ⟨hp, (h p hp).mpr ⟨hnone, hmem⟩⟩
    · rintro (hp | ⟨hp, hnone⟩)
      · exact Or.inl hp
      · exact Or.inr ⟨hp, ((h p hp).mp hnone).1⟩
  · rw [Finset.disjoint_left]
    intro p hp hp'
    simp only [Finset.mem_filter, List.mem_toFinset] at hp hp'
    exact ((h p hp'.1).mp hp'.2).2 hp.1

theorem tablesTaken_mono (mem : PhysMem) (cr3 : PhysFrame) {pages pages' : List ℕ}
    (h : pages ⊆ pages') : tablesTaken mem cr3 pages ≤ tablesTaken mem cr3 pages' := by
  refine Finset.card_le_card (Finset.filter_subset_filter _ ?_)
  intro p hp
  rw [List.mem_toFinset, List.mem_flatMap] at hp ⊢
  obtain ⟨page, hpage, hp⟩ := hp
  exact ⟨page, h hpage, hp⟩

theorem framePos_strictMono (mem : PhysMem) (cr3 : PhysFrame) (c : ℕ) (pages : List ℕ) :
    StrictMono (framePos mem cr3 c pages) := by
  intro i j hij
  have := tablesTaken_mono mem cr3 (List.take_prefix_take_left (l := pages) hij.le).subset
  unfold framePos
  omega

/-! ## The loop invariant -/

/-- The page tables the bootloader hands over: a tree, with no table in memory it reports as
usable. That it is clean, too, only matters to what is asked of `map_to`. -/
structure BootTables (m : MemoryRegions) (mem : PhysMem) (cr3 : PhysFrame) : Prop where
  /-- No table is shared by two paths. -/
  unshared : Unshared link mem 3 cr3
  /-- No table lies in a usable region. -/
  owned : ∀ t, Reach link mem 3 cr3 t → ¬m.IsUsable t.startAddress

/-- The state after the first `j` of `pages` have been mapped, starting from the tables in `mem₀`
with the cursor at `c`. -/
structure HeapInv (m : MemoryRegions) (mem₀ : PhysMem) (cr3 : PhysFrame) (c : ℕ) (pages : List ℕ)
    (j : ℕ) (s : MemoryState) : Prop where
  /-- The cursor stands on the frame of the next page. -/
  cursor : s.frameAllocator = ⟨m, framePos mem₀ cr3 c pages j⟩
  /-- The heap allocator has not been initialised. -/
  heap_eq : s.heap = none
  /-- The tables form a tree. -/
  unshared : Unshared link s.mem 3 cr3
  /-- A clean one, if it was. -/
  clean : StaysClean mem₀ cr3 s.mem
  /-- The initial tables are where they were. -/
  resolve_of_resolve : ∀ p t, resolve link mem₀ 3 cr3 p = some t →
    resolve link s.mem 3 cr3 p = some t
  /-- A new table lies on the path of a mapped page and is no page's frame. -/
  tables : ∀ p t, resolve link s.mem 3 cr3 p = some t → resolve link mem₀ 3 cr3 p = some t ∨
    p ∈ (pages.take j).flatMap tablePaths ∧ ∃ i < framePos mem₀ cr3 c pages j,
      nth (usableFrames m) i = .ok (some t) ∧ ∀ j' < j, i ≠ framePos mem₀ cr3 c pages j'
  /-- Every table on the path of a mapped page is there. -/
  resolve_path : ∀ p ∈ (pages.take j).flatMap tablePaths, resolve link s.mem 3 cr3 p ≠ none
  /-- A mapped page translates to the frame its turn gave it. -/
  data : ∀ j' < j, ∀ page, pages[j']? = some page →
    ∃ f, nth (usableFrames m) (framePos mem₀ cr3 c pages j') = .ok (some f) ∧
      lookup link s.mem cr3 (pathOf page) = some (f.startAddress, 0)
  /-- Nothing else has changed. -/
  outside : ∀ q, q.length = 4 → q ∉ (pages.take j).map pathOf →
    lookup link s.mem cr3 q = lookup link mem₀ cr3 q

section Invariant

variable {m : MemoryRegions} {mem₀ : PhysMem} {cr3 : PhysFrame} {c : ℕ} {pages : List ℕ}

theorem HeapInv.start (htab : BootTables m mem₀ cr3) :
    HeapInv m mem₀ cr3 c pages 0 ⟨mem₀, ⟨m, c⟩, none⟩ where
  cursor := by simp [framePos, tablesTaken]
  heap_eq := rfl
  unshared := htab.unshared
  clean := id
  resolve_of_resolve := fun _ _ h ↦ h
  tables := fun _ _ h ↦ Or.inl h
  resolve_path := by simp
  data := by simp
  outside := fun _ _ _ ↦ rfl

/-- A frame at or past the cursor is in no table. -/
theorem HeapInv.not_reach (hdis : m.RegionsDisjoint) (hal : m.PageAligned)
    (htab : BootTables m mem₀ cr3) {j : ℕ} {s : MemoryState}
    (hs : HeapInv m mem₀ cr3 c pages j s) {i : ℕ} {f : PhysFrame}
    (hi : framePos mem₀ cr3 c pages j ≤ i) (hf : nth (usableFrames m) i = .ok (some f)) :
    ¬Reach link s.mem 3 cr3 f := by
  rintro ⟨p, hp⟩
  rcases hs.tables p f hp with h | ⟨-, i', hi', hf', -⟩
  · exact htab.owned f ⟨p, h⟩ (isUsable_startAddress hal (getElem?_of_nth hf))
  · have := index_unique hdis hal (getElem?_of_nth hf) (getElem?_of_nth hf')
    omega

/-- Which of a page's tables are there is decided by the initial tree and the pages already
mapped. -/
theorem HeapInv.resolve_eq_none_iff {j : ℕ} {s : MemoryState}
    (hs : HeapInv m mem₀ cr3 c pages j s) (p : List PageTableIndex) :
    resolve link s.mem 3 cr3 p = none ↔
      resolve link mem₀ 3 cr3 p = none ∧ p ∉ (pages.take j).flatMap tablePaths := by
  constructor
  · intro h
    refine ⟨?_, fun hp ↦ hs.resolve_path p hp h⟩
    by_contra hne
    obtain ⟨t, ht⟩ := Option.ne_none_iff_exists'.mp hne
    rw [hs.resolve_of_resolve p t ht] at h
    simp at h
  · rintro ⟨h₀, hp⟩
    by_contra hne
    obtain ⟨t, ht⟩ := Option.ne_none_iff_exists'.mp hne
    rcases hs.tables p t ht with h | ⟨h, -⟩
    · simp [h] at h₀
    · exact hp h

/-- Frames taken one after the other sit at consecutive positions. -/
theorem exists_pos_of_mem {a : ℕ} {fs : List PhysFrame}
    (hfs : ∀ k f, fs[k]? = some f → nth (usableFrames m) (a + k) = .ok (some f)) {f : PhysFrame}
    (hf : f ∈ fs) : ∃ i, a ≤ i ∧ i < a + fs.length ∧ nth (usableFrames m) i = .ok (some f) := by
  obtain ⟨k, hk, hkf⟩ := List.mem_iff_getElem.mp hf
  refine ⟨a + k, Nat.le_add_right _ _, Nat.add_lt_add_left hk a, ?_⟩
  exact hfs k f (by rw [List.getElem?_eq_getElem hk, hkf])

/-- They are distinct. -/
theorem nodup_of_taken (hdis : m.RegionsDisjoint) (hal : m.PageAligned) {a : ℕ}
    {fs : List PhysFrame}
    (hfs : ∀ k f, fs[k]? = some f → nth (usableFrames m) (a + k) = .ok (some f)) : fs.Nodup := by
  rw [List.nodup_iff_injective_getElem]
  intro k k' hkk'
  have h₁ := getElem?_of_nth (hfs k _ (List.getElem?_eq_getElem k.isLt))
  have h₂ := getElem?_of_nth (hfs k' _ (List.getElem?_eq_getElem k'.isLt))
  have hget : fs[k'.val] = fs[k.val] := hkk'.symm
  rw [hget] at h₂
  have := index_unique hdis hal h₁ h₂
  exact Fin.ext (by omega)

/-- The next page is not one of the pages before it. -/
theorem pathOf_notMem_take (hnd : (pages.map pathOf).Nodup) {j page : ℕ}
    (hpage : pages[j]? = some page) :
    pathOf page ∉ (pages.take j).map pathOf := by
  intro hmem
  obtain ⟨page', hpage', heq⟩ := List.mem_map.mp hmem
  obtain ⟨i, hi, rfl⟩ := List.mem_take_iff_getElem.mp hpage'
  obtain ⟨hj, rfl⟩ := List.getElem?_eq_some_iff.mp hpage
  have hi' : i < (pages.map pathOf).length := by rw [List.length_map]; omega
  have hj' : j < (pages.map pathOf).length := by rwa [List.length_map]
  have heq' : (pages.map pathOf)[i] = (pages.map pathOf)[j] := by simpa using heq
  have := hnd.getElem_inj_iff.mp heq'
  omega

theorem of_drop_eq_cons {j page : ℕ} {rest : List ℕ} (h : pages.drop j = page :: rest) :
    pages[j]? = some page ∧ pages.drop (j + 1) = rest := by
  constructor
  · rw [← List.head?_drop, h]
    rfl
  · rw [← List.tail_drop, h]
    rfl

theorem take_succ_pages {j page : ℕ} (hpage : pages[j]? = some page) :
    pages.take (j + 1) = pages.take j ++ [page] := by
  rw [List.take_add_one, hpage]
  rfl

section OnePage

variable {j : ℕ} {s : MemoryState} {page : ℕ} {l : ℕ} {fs : List PhysFrame} {mem' : PhysMem}
  (hs : HeapInv m mem₀ cr3 c pages j s) (hpage : pages[j]? = some page)
  (hext : Extended link l 3 cr3 (pathOf page) s.mem fs mem')

include hs hpage

/-- The price of a page: its own frame and the tables missing at its turn. -/
theorem HeapInv.framePos_succ_eq : framePos mem₀ cr3 c pages (j + 1) =
    framePos mem₀ cr3 c pages j + 1 + missing link s.mem 3 cr3 (pathOf page) := by
  rw [framePos, framePos, take_succ_pages hpage,
    tablesTaken_concat fun p _ ↦ hs.resolve_eq_none_iff p]
  omega

include hext

/-- The cursor moves past the page's own frame and the tables. -/
theorem HeapInv.framePos_succ :
    framePos mem₀ cr3 c pages (j + 1) = framePos mem₀ cr3 c pages j + 1 + fs.length := by
  rw [hext.length_eq, hs.framePos_succ_eq hpage]

/-- A table is an old one or one of those just taken, which sit right after the page's own frame.
-/
theorem HeapInv.tables_succ (hfs : ∀ k f, fs[k]? = some f →
      nth (usableFrames m) (framePos mem₀ cr3 c pages j + 1 + k) = .ok (some f))
    (p : List PageTableIndex) (t : PhysFrame) (ht : resolve link mem' 3 cr3 p = some t) :
    resolve link mem₀ 3 cr3 p = some t ∨ p ∈ (pages.take (j + 1)).flatMap tablePaths ∧
      ∃ i < framePos mem₀ cr3 c pages (j + 1), nth (usableFrames m) i = .ok (some t) ∧
        ∀ j' < j + 1, i ≠ framePos mem₀ cr3 c pages j' := by
  have hsucc := hs.framePos_succ hpage hext
  rw [take_succ_pages hpage, List.flatMap_append, List.flatMap_singleton]
  rcases hext.resolve_cases p t ht with h | ⟨hmem, hpre⟩
  · rcases hs.tables p t h with h | ⟨hp, i, hi, hit, hij⟩
    · exact Or.inl h
    · refine Or.inr ⟨List.mem_append_left _ hp, i, by omega, hit, fun j' hj' ↦ ?_⟩
      rcases Nat.lt_succ_iff_lt_or_eq.mp hj' with hj' | rfl
      · exact hij j' hj'
      · exact hi.ne
  · by_cases hnil : p = []
    · subst hnil
      exact Or.inl (by simpa using ht)
    · obtain ⟨i, hi, hi', hit⟩ := exists_pos_of_mem hfs hmem
      have htable := mem_tablePaths hpre hnil (length_le_of_resolve ht)
      refine Or.inr ⟨List.mem_append_right _ htable, i, by omega, hit, fun j' hj' ↦ ?_⟩
      have := (framePos_strictMono mem₀ cr3 c pages).monotone (Nat.le_of_lt_succ hj')
      omega

theorem HeapInv.resolve_path_succ (p : List PageTableIndex)
    (hp : p ∈ (pages.take (j + 1)).flatMap tablePaths) : resolve link mem' 3 cr3 p ≠ none := by
  rw [take_succ_pages hpage, List.flatMap_append, List.flatMap_singleton, List.mem_append] at hp
  rcases hp with hp | hp
  · obtain ⟨t, ht⟩ := Option.ne_none_iff_exists'.mp (hs.resolve_path p hp)
    rw [hext.resolve_of_resolve p t ht]
    exact Option.some_ne_none t
  · obtain ⟨hpre, hlen⟩ := prefix_of_mem_tablePaths hp
    exact hext.resolve_path p hpre hlen

/-- The pages mapped before keep their frames. -/
theorem HeapInv.data_of_lt (hnd : (pages.map pathOf).Nodup) {j' page' : ℕ} (hlt : j' < j)
    (hpage' : pages[j']? = some page') :
    ∃ f, nth (usableFrames m) (framePos mem₀ cr3 c pages j') = .ok (some f) ∧
      lookup link mem' cr3 (pathOf page') = some (f.startAddress, 0) := by
  obtain ⟨f, hf, hlook⟩ := hs.data j' hlt page' hpage'
  refine ⟨f, hf, ?_⟩
  have hne : pathOf page' ≠ pathOf page := by
    intro heq
    refine pathOf_notMem_take hnd hpage (List.mem_map.mpr ⟨page', ?_, heq⟩)
    obtain ⟨hlen, hget⟩ := List.getElem?_eq_some_iff.mp hpage'
    exact List.mem_take_iff_getElem.mpr ⟨j', by omega, hget⟩
  rw [hext.lookup_of_ne _ (length_pathOf page') hne, hlook]

end OnePage

/-- What is taken in one turn: the frame at the cursor, and for the tables those right behind it,
which are distinct and in no table yet. -/
theorem HeapInv.taken (hdis : m.RegionsDisjoint) (hal : m.PageAligned)
    (htab : BootTables m mem₀ cr3) {j : ℕ} {s : MemoryState}
    (hs : HeapInv m mem₀ cr3 c pages j s) {frame : PhysFrame} {a a' : BootInfoFrameAllocator}
    {fs : List PhysFrame} (hframe : s.frameAllocator.allocateFrame = .ok (some frame, a))
    (htakes : Takes a fs a') :
    nth (usableFrames m) (framePos mem₀ cr3 c pages j) = .ok (some frame) ∧
      (∀ k f, fs[k]? = some f →
        nth (usableFrames m) (framePos mem₀ cr3 c pages j + 1 + k) = .ok (some f)) ∧
      a' = ⟨m, framePos mem₀ cr3 c pages j + 1 + fs.length⟩ ∧
      fs.Nodup ∧ ∀ f ∈ fs, ¬Reach link s.mem 3 cr3 f := by
  obtain ⟨hnth, rfl⟩ := allocateFrame_eq_ok_iff.mp hframe
  obtain ⟨rfl, hfs⟩ := htakes.spec
  simp only [hs.cursor] at hnth hfs ⊢
  refine ⟨hnth, hfs, trivial, nodup_of_taken hdis hal hfs, fun f hf ↦ ?_⟩
  obtain ⟨i, hi, -, hif⟩ := exists_pos_of_mem hfs hf
  exact hs.not_reach hdis hal htab (Nat.le_of_succ_le hi) hif

/-- **One page.** The step of the loop keeps the invariant. -/
theorem HeapInv.step (hdis : m.RegionsDisjoint) (hal : m.PageAligned)
    (htab : BootTables m mem₀ cr3) (hnd : (pages.map pathOf).Nodup) {j : ℕ} {s : MemoryState}
    (hs : HeapInv m mem₀ cr3 c pages j s) {page : ℕ} (hpage : pages[j]? = some page)
    {frame : PhysFrame} {a a' : BootInfoFrameAllocator} {fs : List PhysFrame} {mem' : PhysMem}
    (hframe : s.frameAllocator.allocateFrame = .ok (some frame, a))
    (hinst : Install link .zero frame.startAddress 3 cr3 (pathOf page) s.mem fs mem')
    (htakes : Takes a fs a') :
    HeapInv m mem₀ cr3 c pages (j + 1) ⟨mem', a', s.heap⟩ := by
  obtain ⟨hnth, hfs, rfl, hdistinct, hfresh⟩ := hs.taken hdis hal htab hframe htakes
  obtain ⟨-, hext⟩ := hinst.extended link_zero hs.unshared hdistinct hfresh
  refine ⟨?_, hs.heap_eq, hext.unshared, ?_, ?_, hs.tables_succ hpage hext hfs,
    hs.resolve_path_succ hpage hext, ?_, ?_⟩
  · rw [hs.framePos_succ hpage hext]
  · intro hclean
    exact hinst.clean link_zero hs.unshared hdistinct hfresh (hs.clean hclean)
  · intro p t ht
    exact hext.resolve_of_resolve p t (hs.resolve_of_resolve p t ht)
  · intro j' hj' page' hpage'
    rcases Nat.lt_succ_iff_lt_or_eq.mp hj' with hlt | rfl
    · exact hs.data_of_lt hpage hext hnd hlt hpage'
    · obtain rfl : page = page' := Option.some.inj (hpage.symm.trans hpage')
      exact ⟨frame, hnth, hext.lookup_self⟩
  · intro q hq hmem
    rw [take_succ_pages hpage, List.map_append, List.mem_append, not_or] at hmem
    rw [hext.lookup_of_ne q hq (by simpa using hmem.2), hs.outside q hq hmem.1]

/-! ## The whole loop -/

/-- What one iteration of the loop can do when it goes on to the next page. -/
theorem mapPages_cons_eq_ok {mapTo : MapTo} {page : ℕ} {rest : List ℕ} {s s' : MemoryState}
    (h : mapPages mapTo cr3 (page :: rest) s = .ok (.ok (), s')) :
    ∃ frame a mem a', s.frameAllocator.allocateFrame = .ok (some frame, a) ∧
      mapTo cr3 s.mem page frame heapFlags a = .ok (.ok (), mem, a') ∧
      mapPages mapTo cr3 rest ⟨mem, a', s.heap⟩ = .ok (.ok (), s') := by
  rw [mapPages] at h
  split at h
  · simp at h
  · simp at h
  · next frame a ha =>
    split at h
    · simp at h
    · simp at h
    · next mem a' ha' => exact ⟨frame, a, mem, a', ha, ha', h⟩

/-- The rule of the loop: what each turn preserves beside the invariant holds at the end with it. -/
theorem HeapInv.mapPages_induct (hdis : m.RegionsDisjoint) (hal : m.PageAligned)
    (htab : BootTables m mem₀ cr3) (hnd : (pages.map pathOf).Nodup) {mapTo : MapTo}
    (hmapTo : MapToContract mapTo mem₀ cr3) {I : ℕ → MemoryState → Prop}
    (hstep : ∀ {j s page frame a a' fs mem'}, HeapInv m mem₀ cr3 c pages j s → I j s →
      pages[j]? = some page → s.frameAllocator.allocateFrame = .ok (some frame, a) →
      Install link .zero frame.startAddress 3 cr3 (pathOf page) s.mem fs mem' → Takes a fs a' →
      I (j + 1) ⟨mem', a', s.heap⟩)
    {rest : List ℕ} {j : ℕ} {s s' : MemoryState} (hs : HeapInv m mem₀ cr3 c pages j s)
    (hI : I j s) (hrest : pages.drop j = rest) (hj : j + rest.length = pages.length)
    (h : Punkos.mapPages mapTo cr3 rest s = .ok (.ok (), s')) :
    HeapInv m mem₀ cr3 c pages pages.length s' ∧ I pages.length s' := by
  induction rest generalizing j s with
  | nil =>
    obtain rfl : s = s' := by simpa [Punkos.mapPages] using h
    rw [← hj]
    exact ⟨hs, hI⟩
  | cons page rest ih =>
    obtain ⟨frame, a, mem, a', hframe, hmap, hrec⟩ := mapPages_cons_eq_ok h
    obtain ⟨fs, hinst, htakes⟩ := hmapTo _ _ _ _ _ _ hs.clean hmap
    obtain ⟨hpage, hrest'⟩ := of_drop_eq_cons hrest
    refine ih (hs.step hdis hal htab hnd hpage hframe hinst htakes)
      (hstep hs hI hpage hframe hinst htakes) hrest' ?_ hrec
    rw [List.length_cons] at hj
    omega

theorem HeapInv.mapPages (hdis : m.RegionsDisjoint) (hal : m.PageAligned)
    (htab : BootTables m mem₀ cr3) (hnd : (pages.map pathOf).Nodup) {mapTo : MapTo}
    (hmapTo : MapToContract mapTo mem₀ cr3) {s : MemoryState}
    (h : Punkos.mapPages mapTo cr3 pages ⟨mem₀, ⟨m, c⟩, none⟩ = .ok (.ok (), s)) :
    HeapInv m mem₀ cr3 c pages pages.length s :=
  (HeapInv.mapPages_induct (I := fun _ _ ↦ True) hdis hal htab hnd hmapTo
    (fun _ _ _ _ _ _ ↦ trivial) (.start htab) trivial List.drop_zero (Nat.zero_add _) h).1

end Invariant

theorem heap_eq_of_mapPages {mapTo : MapTo} {cr3 : PhysFrame} {pages : List ℕ} {s s' : MemoryState}
    {r : Except MapToError Unit} (h : mapPages mapTo cr3 pages s = .ok (r, s')) :
    s'.heap = s.heap := by
  induction pages generalizing s with
  | nil =>
    obtain ⟨-, rfl⟩ : .ok () = r ∧ s = s' := by simpa [mapPages] using h
    rfl
  | cons page pages ih =>
    rw [mapPages] at h
    split at h
    · simp at h
    · obtain ⟨-, rfl⟩ := Prod.mk.inj (Except.ok.inj h)
      rfl
    · split at h
      · simp at h
      · obtain ⟨-, rfl⟩ := Prod.mk.inj (Except.ok.inj h)
        rfl
      · have hrec := ih h
        exact hrec

/-! ## The heap pages -/

/-- A heap address. -/
def InHeap (v : ℕ) : Prop := heapStart ≤ v ∧ v < heapStart + heapSize

/-- The page numbers of the heap. -/
def heapPageNumbers : Set ℕ := Set.Ico (heapStart / 4096) (heapStart / 4096 + 2048)

theorem heapStart_aligned : 4096 ∣ heapStart := by decide

/-- Every heap address lies at some offset in some heap page. -/
theorem InHeap.exists_offset {v : ℕ} (h : InHeap v) :
    ∃ j < 2048, ∃ off < 4096, v = heapStart + 4096 * j + off := by
  obtain ⟨hlo, hhi⟩ := h
  rw [heapSize] at hhi
  exact ⟨(v - heapStart) / 4096, by omega, (v - heapStart) % 4096, Nat.mod_lt _ (by decide),
    by omega⟩

theorem heapPage_div (j : ℕ) {off : ℕ} (hoff : off < 4096) :
    (heapStart + 4096 * j + off) / 4096 = heapStart / 4096 + j := by
  obtain ⟨n, hn⟩ := heapStart_aligned
  omega

theorem heapPage_mod (j : ℕ) {off : ℕ} (hoff : off < 4096) :
    (heapStart + 4096 * j + off) % 4096 = off := by
  obtain ⟨n, hn⟩ := heapStart_aligned
  omega

/-- Heap addresses are in the lower half of the address space. -/
theorem heapPage_lt {j off : ℕ} (hj : j < 2048) (hoff : off < 4096) :
    heapStart + 4096 * j + off < 2 ^ 47 := by
  rw [heapStart]
  omega

theorem heapPages_eq : heapPages = List.range' heapStart 2048 4096 := rfl

@[simp] theorem length_heapPages : heapPages.length = 2048 := by
  rw [heapPages_eq, List.length_range']

theorem getElem?_heapPages {j : ℕ} (hj : j < 2048) :
    heapPages[j]? = some (heapStart + 4096 * j) := by
  rw [heapPages_eq, List.getElem?_range' hj]

/-- The start of a heap page, as a canonical address. -/
def heapPageAddr (j : ℕ) (hj : j < 2048) : VirtAddr :=
  ⟨heapStart + 4096 * j, Or.inl (by unfold heapStart; omega)⟩

/-- An address has the path of a heap page exactly when it lies on it. -/
theorem pathOf_eq_heapPage_iff {j : ℕ} (hj : j < 2048) (v : VirtAddr) :
    pathOf v.val = pathOf (heapStart + 4096 * j) ↔ v.val / 4096 = heapStart / 4096 + j := by
  constructor
  · intro h
    rw [path_injective (w := heapPageAddr j hj) h]
    exact heapPage_div j (show 0 < 4096 by decide)
  · intro h
    obtain ⟨n, hn⟩ := heapStart_aligned
    have hmul : v.val / 4096 * 4096 = heapStart + 4096 * j := by omega
    rw [← pathOf_page v.val, hmul]

theorem nodup_heapPages_pathOf : (heapPages.map pathOf).Nodup := by
  rw [heapPages_eq, List.nodup_map_iff_inj_on (List.nodup_range' 4096 (by omega))]
  intro p hp q hq hpq
  obtain ⟨i, hi, rfl⟩ := List.mem_range'.mp hp
  obtain ⟨j, hj, rfl⟩ := List.mem_range'.mp hq
  have hpage : (heapStart + 4096 * i) / 4096 = heapStart / 4096 + j :=
    (pathOf_eq_heapPage_iff hj (heapPageAddr i hi)).mp hpq
  omega

theorem inHeap_iff (v : ℕ) : InHeap v ↔ v / 4096 ∈ heapPageNumbers := by
  unfold InHeap heapPageNumbers heapStart heapSize
  rw [Set.mem_Ico]
  omega

/-- An address outside the heap shares its path with no heap page. -/
theorem pathOf_notMem_of_not_inHeap {v : VirtAddr} (hv : ¬InHeap v.val) :
    pathOf v.val ∉ heapPages.map pathOf := by
  intro hmem
  obtain ⟨page, hpage, heq⟩ := List.mem_map.mp hmem
  obtain ⟨j, hj, rfl⟩ := List.mem_range'.mp (heapPages_eq ▸ hpage)
  refine hv ((inHeap_iff v.val).mpr ?_)
  rw [(pathOf_eq_heapPage_iff hj v).mp heq.symm]
  exact ⟨by omega, by omega⟩

/-! ## The mapped heap -/

/-- The whole frame lies inside one usable region. -/
def MemoryRegions.UsableFrame (m : MemoryRegions) (f : PhysFrame) : Prop :=
  ∃ r ∈ m, r.kind = .usable ∧ r.start ≤ f.startAddress ∧ f.startAddress + 4096 ≤ r.stop

theorem usableFrame_of_nth {m : MemoryRegions} (hal : m.PageAligned) {i : ℕ} {f : PhysFrame}
    (h : nth (usableFrames m) i = .ok (some f)) : m.UsableFrame f := by
  obtain ⟨r, hr, hk, h₁, h₂⟩ := isUsable_startAddress hal (getElem?_of_nth h)
  have hstop := (hal r hr).2
  have hstart := f.aligned
  exact ⟨r, hr, hk, h₁, by omega⟩

/-- The frame that backs heap page number `p`: the one at the position of its turn. -/
theorem HeapInv.exists_frame {m : MemoryRegions} {mem₀ : PhysMem} {cr3 : PhysFrame} {c : ℕ}
    {s : MemoryState} (hs : HeapInv m mem₀ cr3 c heapPages 2048 s) {p : ℕ}
    (hp : p ∈ heapPageNumbers) :
    ∃ f, nth (usableFrames m) (framePos mem₀ cr3 c heapPages (p - heapStart / 4096)) =
      .ok (some f) ∧
      ∀ v : VirtAddr, v.val / 4096 = p →
        virtToPhys s.mem cr3 v = some (f.startAddress + v.val % 4096) := by
  obtain ⟨h₁, h₂⟩ := Set.mem_Ico.mp hp
  have hj : p - heapStart / 4096 < 2048 := by omega
  obtain ⟨f, hf, hlook⟩ := hs.data _ hj _ (getElem?_heapPages hj)
  refine ⟨f, hf, fun v hv ↦ ?_⟩
  have hpath := (pathOf_eq_heapPage_iff hj v).mpr (by omega)
  rw [virtToPhys_eq_lookup, hpath, hlook]
  rfl

theorem HeapInv.virtToPhys_outside {m : MemoryRegions} {mem₀ : PhysMem} {cr3 : PhysFrame} {c : ℕ}
    {s : MemoryState} (hs : HeapInv m mem₀ cr3 c heapPages 2048 s) {v : VirtAddr}
    (hv : ¬InHeap v.val) : virtToPhys s.mem cr3 v = virtToPhys mem₀ cr3 v := by
  have hout := pathOf_notMem_of_not_inHeap hv
  rw [virtToPhys_eq_lookup, virtToPhys_eq_lookup, hs.outside _ (length_pathOf v.val)]
  rwa [List.take_of_length_le (by rw [length_heapPages])]

/-- The frame of a heap page is no page table. -/
theorem HeapInv.not_reach_data {m : MemoryRegions} (hdis : m.RegionsDisjoint) (hal : m.PageAligned)
    {mem₀ : PhysMem} {cr3 : PhysFrame} (htab : BootTables m mem₀ cr3) {c : ℕ} {pages : List ℕ}
    {n : ℕ} {s : MemoryState} (hs : HeapInv m mem₀ cr3 c pages n s) {j : ℕ} (hj : j < n)
    {f : PhysFrame} (hf : nth (usableFrames m) (framePos mem₀ cr3 c pages j) = .ok (some f)) :
    ¬Reach link s.mem 3 cr3 f := by
  rintro ⟨p, hp⟩
  rcases hs.tables p f hp with h | ⟨-, i, -, hi, hne⟩
  · exact htab.owned f ⟨p, h⟩ (isUsable_startAddress hal (getElem?_of_nth hf))
  · exact hne j hj (index_unique hdis hal (getElem?_of_nth hi) (getElem?_of_nth hf))

/-- A run of `setUpMemory` up to the loop: where the cursor starts, and how the loop ends. -/
theorem setUpMemory_eq_ok {mapTo : MapTo} {cr3 : PhysFrame} {m : MemoryRegions} {minAddr : ℕ}
    {mem : PhysMem} {r : Except MapToError Unit} {s : MemoryState}
    (h : setUpMemory mapTo cr3 m minAddr mem = .ok (r, s)) :
    ∃ c s', countWhile (fun f ↦ f.startAddress < minAddr) (usableFrames m) = .ok c ∧
      mapPages mapTo cr3 heapPages ⟨mem, ⟨m, c⟩, none⟩ = .ok (r, s') ∧ s.mem = s'.mem ∧
      (r = .ok () → s.heap = some (heapStart, heapSize)) ∧ ∀ e, r = .error e → s = s' := by
  rw [setUpMemory] at h
  rcases hskip : (init m).skipBelow minAddr with e | a
  · simp [hskip, bind, Except.bind] at h
  obtain ⟨c, hc, rfl⟩ := skipBelow_eq_ok_iff.mp hskip
  rw [hskip] at h
  rcases hloop : mapPages mapTo cr3 heapPages ⟨mem, ⟨m, c⟩, none⟩ with e | ⟨r', s'⟩
  · simp [initHeap, init, hloop, bind, Except.bind] at h
  refine ⟨c, s', hc, ?_⟩
  rcases r' with e | ⟨⟩
  · obtain ⟨rfl, rfl⟩ : .error e = r ∧ s' = s := by
      simpa [initHeap, init, hloop, bind, Except.bind, pure, Except.pure] using h
    exact ⟨hloop, rfl, by simp, fun _ _ ↦ rfl⟩
  · obtain ⟨rfl, rfl⟩ : .ok () = r ∧ { s' with heap := some (heapStart, heapSize) } = s := by
      simpa [initHeap, init, hloop, bind, Except.bind, pure, Except.pure] using h
    exact ⟨hloop, rfl, fun _ ↦ rfl, by simp⟩

/-- A successful set-up ends with the invariant for all 2048 pages. -/
theorem heapInv_of_setUpMemory {mapTo : MapTo} {mem : PhysMem} {cr3 : PhysFrame}
    (hmapTo : MapToContract mapTo mem cr3) {m : MemoryRegions} (hdis : m.RegionsDisjoint)
    (hal : m.PageAligned) (htab : BootTables m mem cr3) {minAddr : ℕ} {s : MemoryState}
    (h : setUpMemory mapTo cr3 m minAddr mem = .ok (.ok (), s)) :
    ∃ c s', countWhile (fun f ↦ f.startAddress < minAddr) (usableFrames m) = .ok c ∧
      s.mem = s'.mem ∧ HeapInv m mem cr3 c heapPages 2048 s' := by
  obtain ⟨c, s', hc, hloop, hmem, -, -⟩ := setUpMemory_eq_ok h
  refine ⟨c, s', hc, hmem, ?_⟩
  have hend := HeapInv.mapPages hdis hal htab nodup_heapPages_pathOf hmapTo hloop
  rwa [length_heapPages] at hend

/-- **The heap mapping.** After a successful set-up every heap address translates to an injectively
chosen usable frame that is no page table, and every other address translates as before. A failed
set-up leaves the heap allocator uninitialised. -/
theorem setUpMemory_maps_heap {mapTo : MapTo} {mem : PhysMem} {cr3 : PhysFrame}
    (hmapTo : MapToContract mapTo mem cr3) {m : MemoryRegions} (hdis : m.RegionsDisjoint)
    (hal : m.PageAligned) (htab : BootTables m mem cr3) (minAddr : ℕ)
    {r : Except MapToError Unit} {s : MemoryState}
    (h : setUpMemory mapTo cr3 m minAddr mem = .ok (r, s)) :
    (r = .ok () → ∃ f : ℕ → PhysFrame,
      (∀ v : VirtAddr, InHeap v.val →
        virtToPhys s.mem cr3 v = some ((f (v.val / 4096)).startAddress + v.val % 4096)) ∧
      Set.InjOn f heapPageNumbers ∧
      (∀ p ∈ heapPageNumbers, m.UsableFrame (f p) ∧ ¬Reach link s.mem 3 cr3 (f p)) ∧
      (∀ v : VirtAddr, ¬InHeap v.val → virtToPhys s.mem cr3 v = virtToPhys mem cr3 v) ∧
      s.heap = some (heapStart, heapSize)) ∧
    ∀ e, r = .error e → s.heap = none := by
  obtain ⟨c, s₁, -, hloop, -, hheap, herr⟩ := setUpMemory_eq_ok h
  constructor
  · rintro rfl
    obtain ⟨c, s', -, hmem, hinv⟩ := heapInv_of_setUpMemory hmapTo hdis hal htab h
    have hex : ∀ p, ∃ f, p ∈ heapPageNumbers →
        nth (usableFrames m) (framePos mem cr3 c heapPages (p - heapStart / 4096)) = .ok (some f) ∧
          ∀ v : VirtAddr, v.val / 4096 = p →
            virtToPhys s'.mem cr3 v = some (f.startAddress + v.val % 4096) := by
      intro p
      by_cases hp : p ∈ heapPageNumbers
      · obtain ⟨f, hf⟩ := hinv.exists_frame hp
        exact ⟨f, fun _ ↦ hf⟩
      · exact ⟨cr3, fun h ↦ absurd h hp⟩
    choose f hf using hex
    rw [hmem]
    refine ⟨f, fun v hv ↦ (hf _ ((inHeap_iff v.val).mp hv)).2 v rfl, ?_, ?_, ?_, hheap rfl⟩
    · intro p hp q hq hpq
      have hp' := getElem?_of_nth (hf p hp).1
      have hq' := getElem?_of_nth (hf q hq).1
      rw [← hpq] at hq'
      have hpos := (framePos_strictMono mem cr3 c heapPages).injective
        (index_unique hdis hal hp' hq')
      obtain ⟨h₁, -⟩ := Set.mem_Ico.mp hp
      obtain ⟨h₂, -⟩ := Set.mem_Ico.mp hq
      omega
    · intro p hp
      obtain ⟨h₁, h₂⟩ := Set.mem_Ico.mp hp
      exact ⟨usableFrame_of_nth hal (hf p hp).1,
        hinv.not_reach_data hdis hal htab (by omega) (hf p hp).1⟩
    · exact fun v hv ↦ hinv.virtToPhys_outside hv
  · intro e he
    rw [herr e he, heap_eq_of_mapPages hloop]

end Punkos
