import Punkos.Memory.HeapInit

/-!
# A mapper that meets the contract

`MapToContract` is a hypothesis about a function the kernel does not contain. This module shows
that it is not an idle one: `offsetMapTo` descends through the tables as `OffsetPageTable::map_to`
is documented to do, creating what is missing, and meets the contract. With enough frames and an
unmapped heap the set-up then succeeds (`setUpMemory_succeeds`), so the results about a successful
set-up are about something.
-/

namespace Punkos

open RadixTree BootInfoFrameAllocator

/-! ## Writing entries -/

/-- `set_frame(frame, flags)`. -/
def PageTableEntry.ofFrame (f : PhysFrame) (flags : BitVec 64) : PageTableEntry :=
  ⟨BitVec.ofNat 64 f.startAddress ||| flags⟩

theorem toNat_ofFrame (f : PhysFrame) :
    (PageTableEntry.ofFrame f heapFlags).bits.toNat = f.startAddress + 3 := by
  obtain ⟨q, hq⟩ := f.aligned
  have hlt : f.startAddress < 2 ^ 64 := f.lt.trans (by decide)
  have hor : 2 ^ 12 * q + 3 = 2 ^ 12 * q ||| 3 := Nat.two_pow_add_eq_or_of_lt (by decide) q
  have hq' : f.startAddress = 2 ^ 12 * q := hq
  rw [PageTableEntry.ofFrame, heapFlags, BitVec.toNat_or, BitVec.toNat_ofNat, Nat.mod_eq_of_lt hlt,
    hq', hor]
  rfl

@[simp] theorem present_ofFrame (f : PhysFrame) :
    (PageTableEntry.ofFrame f heapFlags).present = true := by
  have := f.aligned
  rw [PageTableEntry.present, BitVec.getLsbD, toNat_ofFrame, Nat.testBit_zero, decide_eq_true_iff]
  omega

@[simp] theorem hugePage_ofFrame (f : PhysFrame) :
    (PageTableEntry.ofFrame f heapFlags).hugePage = false := by
  have := f.aligned
  rw [PageTableEntry.hugePage, BitVec.getLsbD, toNat_ofFrame, Nat.testBit_eq_decide_div_mod_eq,
    decide_eq_false_iff_not]
  simp only [Nat.reducePow]
  omega

@[simp] theorem addr_ofFrame (f : PhysFrame) :
    (PageTableEntry.ofFrame f heapFlags).addr = f.startAddress := by
  have := f.aligned
  have := f.lt
  rw [PageTableEntry.addr, BitVec.extractLsb'_toNat, toNat_ofFrame, Nat.shiftRight_eq_div_pow]
  simp only [Nat.reducePow] at *
  omega

theorem link_ofFrame_leaf (f : PhysFrame) :
    link 0 (.ofFrame f heapFlags) = .leaf f.startAddress := by
  simp [link]

theorem link_ofFrame_node (k : ℕ) (f : PhysFrame) :
    link (k + 1) (.ofFrame f heapFlags) = .node f := by
  rw [link_node (present_ofFrame f) (hugePage_ofFrame f)]
  exact congrArg Link.node (PhysFrame.ext (addr_ofFrame f))

/-! ## The mapper -/

/-- Descend from the level-`k` table `n`, creating missing tables, and map the page at the end of
the path. -/
def descendMap (frame : PhysFrame) (flags : BitVec 64) :
    ℕ → PhysFrame → List PageTableIndex → PhysMem → BootInfoFrameAllocator →
      Except Panic (Except MapToError Unit × PhysMem × BootInfoFrameAllocator)
  | 0, n, [i], mem, a =>
    if (mem n i).present then .ok (.error (.pageAlreadyMapped frame), mem, a)
    else .ok (.ok (), write mem n i (.ofFrame frame flags), a)
  | k + 1, n, i :: p, mem, a =>
    match link (k + 1) (mem n i) with
    | .node n' => descendMap frame flags k n' p mem a
    | .leaf _ => .ok (.error .parentEntryHugePage, mem, a)
    | .absent =>
      match a.allocateFrame with
      | .error e => .error e
      | .ok (none, a) => .ok (.error .frameAllocationFailed, mem, a)
      | .ok (some f, a) =>
        descendMap frame flags k f p
          (Function.update (write mem n i (.ofFrame f flags)) f fun _ ↦ .zero) a
  -- a path is as long as the tree is deep
  | _, _, _, mem, a => .ok (.error .frameAllocationFailed, mem, a)

/-- `map_to` over the level-4 table `cr3`. -/
def offsetMapTo : MapTo := fun cr3 mem page frame flags a ↦
  descendMap frame flags 3 cr3 (pathOf page) mem a

theorem install_of_descendMap {frame : PhysFrame} {k : ℕ} {n : PhysFrame} {p : List PageTableIndex}
    {mem mem' : PhysMem} {a a' : BootInfoFrameAllocator}
    (h : descendMap frame heapFlags k n p mem a = .ok (.ok (), mem', a')) :
    ∃ fs, Install link .zero frame.startAddress k n p mem fs mem' ∧ Takes a fs a' := by
  induction p generalizing k n mem a with
  | nil => cases k <;> simp [descendMap] at h
  | cons i p ih =>
    rcases k with _ | k
    · rcases p with _ | ⟨j, p⟩
      · rw [descendMap] at h
        split at h
        · simp at h
        · obtain ⟨rfl, rfl⟩ : write mem n i (.ofFrame frame heapFlags) = mem' ∧ a = a' := by
            simpa using h
          exact ⟨[], .leaf (link_ofFrame_leaf frame), .nil a⟩
      · simp [descendMap] at h
    · rw [descendMap] at h
      split at h
      · next n' hn' =>
        obtain ⟨fs, hinst, htakes⟩ := ih h
        refine ⟨fs, .follow hn' hn' ?_, htakes⟩
        rwa [write, Function.update_eq_self, Function.update_eq_self]
      · simp at h
      · next habs =>
        split at h
        · simp at h
        · simp at h
        · next f a₁ ha₁ =>
          obtain ⟨fs, hinst, htakes⟩ := ih h
          exact ⟨f :: fs, .fresh habs (link_ofFrame_node k f) hinst, .cons ha₁ htakes⟩

/-- It does so from any tables. -/
theorem offsetMapTo_contract {mem₀ : PhysMem} {cr3 : PhysFrame} :
    MapToContract offsetMapTo mem₀ cr3 :=
  fun _ _ _ _ _ _ _ h ↦ install_of_descendMap h

/-! ## Success -/

/-- With frames to spare, an unmapped path can be mapped. -/
theorem exists_descendMap {m : MemoryRegions} (frame : PhysFrame) {k : ℕ} {n : PhysFrame}
    {p : List PageTableIndex} {mem : PhysMem} {c : ℕ} (hp : p.length = k + 1)
    (hlook : lookup link mem n p = none)
    (havail : ∀ i < c + k, ∃ f, nth (usableFrames m) i = .ok (some f)) :
    ∃ mem' a', descendMap frame heapFlags k n p mem ⟨m, c⟩ = .ok (.ok (), mem', a') := by
  induction k generalizing n p mem c with
  | zero =>
    obtain ⟨i, rfl⟩ := List.length_eq_one_iff.mp hp
    have habs : (mem n i).present = false := by
      by_contra hpres
      rw [lookup_cons_leaf (l := (mem n i).addr) (by simp [link, hpres])] at hlook
      simp at hlook
    exact ⟨_, _, by rw [descendMap, if_neg (by simp [habs])]⟩
  | succ k ih =>
    obtain ⟨i, p, rfl⟩ := List.exists_cons_of_length_eq_add_one hp
    have hp' : p.length = k + 1 := by simpa using hp
    rw [descendMap]
    rcases hlink : link (k + 1) (mem n i) with _ | n' | l
    · obtain ⟨f, hf⟩ := havail c (by omega)
      have halloc : (⟨m, c⟩ : BootInfoFrameAllocator).allocateFrame = .ok (some f, ⟨m, c + 1⟩) :=
        allocateFrame_eq_ok_iff.mpr ⟨hf, rfl⟩
      simp only [halloc]
      refine ih hp' ?_ fun j hj ↦ havail j (by omega)
      obtain ⟨j, q, rfl⟩ := List.exists_cons_of_length_eq_add_one hp'
      exact lookup_cons_absent (by simp)
    · rw [lookup_cons_node (by rw [hp']; exact hlink)] at hlook
      exact ih hp' hlook fun j hj ↦ havail j (by omega)
    · rw [lookup_cons_leaf (by rw [hp']; exact hlink)] at hlook
      simp at hlook

theorem tablesTaken_le (mem : PhysMem) (cr3 : PhysFrame) (pages : List ℕ) :
    tablesTaken mem cr3 pages ≤ 3 * pages.length := by
  refine (Finset.card_filter_le _ _).trans ((List.toFinset_card_le _).trans ?_)
  rw [List.length_flatMap]
  simp [tablePaths, Nat.mul_comm]

/-- The loop goes through when the remaining pages are unmapped and frames suffice. -/
theorem exists_mapPages {m : MemoryRegions} (hdis : m.RegionsDisjoint) (hal : m.PageAligned)
    {mem₀ : PhysMem} {cr3 : PhysFrame} (htab : BootTables m mem₀ cr3) {c : ℕ} {pages : List ℕ}
    (hnd : (pages.map pathOf).Nodup)
    (hunmapped : ∀ page ∈ pages, lookup link mem₀ cr3 (pathOf page) = none)
    (havail : ∀ i < c + 4 * pages.length, ∃ f, nth (usableFrames m) i = .ok (some f))
    {rest : List ℕ} {j : ℕ} {s : MemoryState} (hs : HeapInv m mem₀ cr3 c pages j s)
    (hrest : pages.drop j = rest) (hj : j + rest.length = pages.length) :
    ∃ s', mapPages offsetMapTo cr3 rest s = .ok (.ok (), s') := by
  induction rest generalizing j s with
  | nil => exact ⟨s, rfl⟩
  | cons page rest ih =>
    rw [List.length_cons] at hj
    obtain ⟨hpage, hrest'⟩ := of_drop_eq_cons hrest
    have hpos : framePos mem₀ cr3 c pages j ≤ c + 4 * j := by
      have := tablesTaken_le mem₀ cr3 (pages.take j)
      rw [List.length_take] at this
      rw [framePos]
      omega
    obtain ⟨frame, hframe⟩ := havail (framePos mem₀ cr3 c pages j) (by omega)
    have halloc : s.frameAllocator.allocateFrame
        = .ok (some frame, ⟨m, framePos mem₀ cr3 c pages j + 1⟩) := by
      rw [hs.cursor]
      exact allocateFrame_eq_ok_iff.mpr ⟨hframe, rfl⟩
    -- the page has not been mapped by an earlier turn, so it is as unmapped as it was at first
    have hlook : lookup link s.mem cr3 (pathOf page) = none := by
      rw [hs.outside _ (length_pathOf page), hunmapped page (List.mem_of_getElem? hpage)]
      intro hmem
      rw [← List.take_append_drop j pages, List.map_append, hrest] at hnd
      exact (List.nodup_append.mp hnd).2.2 _ hmem _ (by simp) rfl
    obtain ⟨mem', a', hmap⟩ := exists_descendMap frame (length_pathOf page) hlook
      (c := framePos mem₀ cr3 c pages j + 1) fun i hi ↦ havail i (by omega)
    obtain ⟨fs, hinst, htakes⟩ := install_of_descendMap hmap
    obtain ⟨s', hs'⟩ := ih (hs.step hdis hal htab hnd hpage halloc hinst htakes) hrest' (by omega)
    refine ⟨s', ?_⟩
    rw [mapPages]
    simp only [halloc, offsetMapTo, hmap]
    exact hs'

/-- **The set-up succeeds** with the mapper above when the heap is unmapped and four frames for
each heap page follow the skipped ones. -/
theorem setUpMemory_succeeds {m : MemoryRegions} (hdis : m.RegionsDisjoint) (hal : m.PageAligned)
    {mem : PhysMem} {cr3 : PhysFrame} (htab : BootTables m mem cr3) {minAddr c : ℕ}
    (hunmapped : ∀ page ∈ heapPages, lookup link mem cr3 (pathOf page) = none)
    (hc : countWhile (fun f ↦ f.startAddress < minAddr) (usableFrames m) = .ok c)
    (havail : ∀ i < c + 8192, ∃ f, nth (usableFrames m) i = .ok (some f)) :
    ∃ s, setUpMemory offsetMapTo cr3 m minAddr mem = .ok (.ok (), s) := by
  obtain ⟨s', hs'⟩ := exists_mapPages hdis hal htab nodup_heapPages_pathOf hunmapped
    (by rw [length_heapPages]; exact havail) (HeapInv.start htab) List.drop_zero
    (by rw [Nat.zero_add])
  refine ⟨{ s' with heap := some (heapStart, heapSize) }, ?_⟩
  have hskip : (init m).skipBelow minAddr = .ok ⟨m, c⟩ := skipBelow_eq_ok_iff.mpr ⟨c, hc, rfl⟩
  unfold setUpMemory initHeap
  rw [hskip]
  simp [bind, Except.bind, pure, Except.pure, hs']

/-! ## A machine with bare tables

One usable region of 10000 frames from 2 MiB on, and an empty level-4 table below it. -/

/-- The memory map. -/
def bareMap : MemoryRegions := [⟨0x200000, 0x200000 + 4096 * 10000, .usable⟩]

/-- Memory that holds nothing. -/
def bareMem : PhysMem := fun _ _ ↦ .zero

/-- The level-4 table. -/
def bareCr3 : PhysFrame := ⟨0x1000, by decide, by decide⟩

theorem bareMap_wellFormed : bareMap.RegionsDisjoint ∧ bareMap.PageAligned :=
  ⟨List.pairwise_singleton _ _, by simp [MemoryRegions.PageAligned, bareMap]⟩

theorem resolve_bareMem_cons (k : ℕ) (n : PhysFrame) (i : PageTableIndex)
    (p : List PageTableIndex) :
    resolve link bareMem k n (i :: p) = none := by
  rcases k with _ | k
  · rfl
  · exact resolve_cons_eq_none (by simp [bareMem]) p

theorem lookup_bareMem (n : PhysFrame) (p : List PageTableIndex) :
    lookup link bareMem n p = none := by
  rcases p with _ | ⟨i, p⟩
  · rfl
  · exact lookup_cons_absent (by simp [bareMem])

theorem bareTables : BootTables bareMap bareMem bareCr3 := by
  have honly : ∀ p t, resolve link bareMem 3 bareCr3 p = some t → p = [] ∧ t = bareCr3 := by
    rintro (_ | ⟨i, p⟩) t ht
    · exact ⟨rfl, by simpa [eq_comm] using ht⟩
    · simp [resolve_bareMem_cons] at ht
  refine ⟨fun p q t hp hq ↦ by rw [(honly p t hp).1, (honly q t hq).1], ?_⟩
  rintro t ⟨p, hp⟩ ⟨r, hr, -, hlo, -⟩
  obtain rfl : r = ⟨0x200000, 0x200000 + 4096 * 10000, .usable⟩ := by simpa [bareMap] using hr
  rw [(honly p t hp).2] at hlo
  simp [bareCr3] at hlo

theorem usableAddrs_bareMap : usableAddrs bareMap = List.range' 0x200000 10000 4096 := by
  simp [usableAddrs, bareMap, stepBy]

theorem frameItem_bareMap {addr : ℕ} (h : addr ∈ usableAddrs bareMap) :
    ∃ f, frameItem addr = .ok f := by
  rw [usableAddrs_bareMap] at h
  obtain ⟨i, hi, rfl⟩ := List.mem_range'.mp h
  have hlt : 0x200000 + 4096 * i < 2 ^ 52 := by omega
  exact ⟨.containingAddress ⟨_, hlt⟩, frameItem_eq_ok_iff.mpr ⟨hlt, rfl⟩⟩

theorem exists_nth_bareMap {i : ℕ} (hi : i < 10000) :
    ∃ f, nth (usableFrames bareMap) i = .ok (some f) := by
  refine exists_nth_of_forall_ok ?_ ?_
  · intro x hx
    obtain ⟨addr, haddr, rfl⟩ := List.mem_map.mp hx
    exact frameItem_bareMap haddr
  · rwa [usableFrames, usableAddrs_bareMap, List.length_map, List.length_range']

theorem countWhile_bareMap :
    countWhile (fun f ↦ f.startAddress < 0x200000) (usableFrames bareMap) = .ok 0 := by
  rw [usableFrames, usableAddrs_bareMap, List.range'_succ, List.map_cons]
  rfl

theorem bare_setUp_succeeds :
    ∃ s, setUpMemory offsetMapTo bareCr3 bareMap 0x200000 bareMem = .ok (.ok (), s) :=
  setUpMemory_succeeds bareMap_wellFormed.1 bareMap_wellFormed.2 bareTables
    (fun _ _ ↦ lookup_bareMem _ _) countWhile_bareMap fun _ hi ↦ exists_nth_bareMap (by omega)

/-- The heap mapping on the bare machine, with the parameters `kernel_main` uses. -/
theorem bare_heap_mapped :
    ∃ s, setUpMemory offsetMapTo bareCr3 bareMap 0x200000 bareMem = .ok (.ok (), s) ∧
      ∃ f : ℕ → PhysFrame, (∀ v : VirtAddr, InHeap v.val →
        virtToPhys s.mem bareCr3 v = some ((f (v.val / 4096)).startAddress + v.val % 4096)) ∧
        Set.InjOn f heapPageNumbers := by
  obtain ⟨s, hs⟩ := bare_setUp_succeeds
  obtain ⟨f, hheap, hinj, -⟩ := (setUpMemory_maps_heap offsetMapTo_contract bareMap_wellFormed.1
    bareMap_wellFormed.2 bareTables 0x200000 hs).1 rfl
  exact ⟨s, hs, f, hheap, hinj⟩

end Punkos
