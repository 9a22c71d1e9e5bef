import Mathlib.Data.List.Nodup
import Mathlib.Data.List.Pairwise
import Mathlib.Data.List.ReduceOption
import Punkos.Memory.FrameAllocator

/-!
# What the frame allocator hands out

A kernel that never calls `skip_below` late uses the allocator in one way only: `init`, perhaps one
`skip_below`, and then `allocate_frame` again and again. Here is what these calls return.

With page-aligned regions in ascending order the answer is exact (`allocate_enumerates`): the
frames of the usable regions from `min_addr` on, each once, and `None` ever after.

## What goes wrong

Nothing in the allocator rounds a boundary. A region that starts inside a page is stepped through
from there, and each address is rounded *down* to its frame; a region that ends inside a page still
yields the page it ends in. Either way a frame reaches out of the region, possibly into reserved
memory. `only_usable_iff` shows that a run goes wrong exactly when it comes to such a page, and that
page-aligned usable regions are exactly what all runs need.

And `skip_below` skips a *leading* run of low frames. The boot loader promises no order; where a
region with high frames comes before one with low frames, the low ones are handed out after all.
`skip_below_iff` shows that this is the only way in which the bound fails.
-/

namespace Punkos

open BootInfoFrameAllocator

/-! ## The calls -/

/-- The results of `n` calls of `allocate_frame`. -/
def allocateFrames : ℕ → BootInfoFrameAllocator → Except Panic (List (Option PhysFrame))
  | 0, _ => .ok []
  | n + 1, a => do
    let (frame, a) ← a.allocateFrame
    let frames ← allocateFrames n a
    return frame :: frames

/-- `init`, then `skip_below` if there is a bound, then `n` calls of `allocate_frame`. -/
def frameRun (m : MemoryRegions) (minAddr : Option ℕ) (n : ℕ) :
    Except Panic (List (Option PhysFrame)) := do
  let a ← match minAddr with
    | none => pure (init m)
    | some minAddr => (init m).skipBelow minAddr
  allocateFrames n a

/-- The frame lies wholly inside one usable region. -/
def MemoryRegions.InsideUsable (m : MemoryRegions) (f : PhysFrame) : Prop :=
  ∃ r ∈ m, r.kind = .usable ∧ r.start ≤ f.startAddress ∧ f.startAddress + 4096 ≤ r.stop

/-- What the results of a run should be. -/
structure OnlyUsable (m : MemoryRegions) (frames : List (Option PhysFrame)) : Prop where
  /-- Every frame lies in a usable region. -/
  inside : ∀ f, some f ∈ frames → m.InsideUsable f
  /-- No frame overlaps a region that is not usable. -/
  apart : ∀ f, some f ∈ frames → ∀ r ∈ m, r.kind ≠ .usable →
    Disjoint (Set.Ico f.startAddress (f.startAddress + 4096)) (Set.Ico r.start r.stop)
  /-- No frame is returned twice. -/
  nodup : frames.reduceOption.Nodup

/-! ## Streams without panics -/

section Streams

variable {α : Type*}

theorem nth_map_ok (xs : List α) (n : ℕ) : nth (xs.map .ok) n = .ok xs[n]? := by
  induction xs generalizing n with
  | nil => rfl
  | cons x xs ih =>
    rcases n with _ | n
    · rfl
    · exact ih n

theorem countWhile_map_ok (p : α → Bool) (xs : List α) :
    countWhile p (xs.map .ok) = .ok (xs.takeWhile p).length := by
  induction xs with
  | nil => rfl
  | cons x xs ih =>
    rw [List.map_cons, countWhile, ih, List.takeWhile_cons]
    by_cases hx : p x = true
    · rw [if_pos hx, if_pos hx]
      rfl
    · rw [if_neg hx, if_neg hx]
      rfl

end Streams

/-- Below 2^52 no item panics, and the stream is a list of frames. -/
theorem exists_usableFrames_eq {m : MemoryRegions} (hm : ∀ r ∈ m, r.stop ≤ 2 ^ 52) :
    ∃ frames : List PhysFrame, usableFrames m = frames.map .ok ∧
      frames.map PhysFrame.startAddress = (usableAddrs m).map (· / 4096 * 4096) := by
  have hlt : ∀ addr ∈ usableAddrs m, addr < 2 ^ 52 := fun addr haddr ↦ by
    obtain ⟨r, hr, -, hlt⟩ := isUsable_of_mem_usableAddrs haddr
    exact hlt.2.trans_le (hm r hr)
  rw [usableFrames]
  generalize usableAddrs m = addrs at hlt ⊢
  induction addrs with
  | nil => exact ⟨[], rfl, rfl⟩
  | cons addr addrs ih =>
    obtain ⟨frames, hframes, haddrs⟩ := ih fun a ha ↦ hlt a (List.mem_cons_of_mem _ ha)
    have haddr := hlt addr List.mem_cons_self
    refine ⟨.containingAddress ⟨addr, haddr⟩ :: frames, ?_, ?_⟩
    · have hitem : frameItem addr = .ok (.containingAddress ⟨addr, haddr⟩) :=
        frameItem_eq_ok_iff.mpr ⟨haddr, rfl⟩
      rw [List.map_cons, List.map_cons, hframes, hitem]
    · rw [List.map_cons, List.map_cons, haddrs]
      rfl

section Runs

variable {m : MemoryRegions} {frames : List PhysFrame}

theorem allocateFrames_eq (hframes : usableFrames m = frames.map .ok) (n c : ℕ) :
    allocateFrames n ⟨m, c⟩ = .ok ((List.range n).map fun i ↦ frames[c + i]?) := by
  induction n generalizing c with
  | zero => rfl
  | succ n ih =>
    have hstep : allocateFrame ⟨m, c⟩ = .ok (frames[c]?, ⟨m, c + 1⟩) :=
      allocateFrame_eq_ok_iff.mpr ⟨by rw [hframes, nth_map_ok], rfl⟩
    rw [allocateFrames, hstep, List.range_succ_eq_map, List.map_cons, List.map_map]
    have htail : (fun i ↦ frames[c + i]?) ∘ Nat.succ = fun i ↦ frames[c + 1 + i]? := by
      funext i
      rw [Function.comp_apply, Nat.succ_eq_add_one, Nat.add_assoc, Nat.add_comm 1 i]
    rw [htail]
    simp only [bind, Except.bind, ih (c + 1)]
    rfl

/-- A run is a window of the stream. -/
theorem frameRun_eq (hframes : usableFrames m = frames.map .ok) (minAddr : Option ℕ) (n : ℕ) :
    frameRun m minAddr n = .ok ((List.range n).map fun i ↦
      frames[(minAddr.elim 0 fun a ↦ (frames.takeWhile (·.startAddress < a)).length) + i]?) := by
  rcases minAddr with _ | a
  · exact allocateFrames_eq hframes n 0
  · have hskip : (init m).skipBelow a =
        .ok ⟨m, (frames.takeWhile (·.startAddress < a)).length⟩ := by
      refine skipBelow_eq_ok_iff.mpr ⟨_, ?_, rfl⟩
      exact (congrArg _ hframes).trans (countWhile_map_ok _ frames)
    rw [frameRun, hskip]
    exact allocateFrames_eq hframes n _

end Runs

theorem mem_stepBy_of_dvd {start stop addr : ℕ} (hle : start ≤ addr) (hlt : addr < stop)
    (hdvd : 4096 ∣ addr - start) : addr ∈ stepBy start stop 4096 := by
  obtain ⟨k, hk⟩ := hdvd
  refine List.mem_range'.mpr ⟨k, ?_, ?_⟩
  · rw [Nat.lt_div_iff_mul_lt (by decide)]
    omega
  · omega

theorem mem_usableAddrs_of_mem {m : MemoryRegions} {r : MemoryRegion} {addr : ℕ} (hr : r ∈ m)
    (hk : r.kind = .usable) (h : addr ∈ stepBy r.start r.stop 4096) : addr ∈ usableAddrs m := by
  refine List.mem_flatMap.mpr ⟨r, List.mem_filter.mpr ⟨hr, ?_⟩, h⟩
  exact decide_eq_true hk

/-- The region of an address is the only one. -/
theorem MemoryRegions.RegionsDisjoint.eq_of_mem {m : MemoryRegions} (hm : m.RegionsDisjoint)
    {r s : MemoryRegion} {addr : ℕ} (hr : r ∈ m) (hs : s ∈ m)
    (har : addr ∈ Set.Ico r.start r.stop) (has : addr ∈ Set.Ico s.start s.stop) : r = s := by
  have : Std.Symm fun r s : MemoryRegion ↦
      Disjoint (Set.Ico r.start r.stop) (Set.Ico s.start s.stop) := ⟨fun _ _ h ↦ h.symm⟩
  by_contra hne
  exact Set.disjoint_left.mp (List.Pairwise.forall hm hr hs hne) har has

/-! ## Only usable memory -/

/-- Every boundary of a usable region that is not empty is a multiple of the page size. -/
def MemoryRegions.UsableAligned (m : MemoryRegions) : Prop :=
  ∀ r ∈ m, r.kind = .usable → r.start < r.stop → 4096 ∣ r.start ∧ 4096 ∣ r.stop

theorem MemoryRegions.PageAligned.usableAligned {m : MemoryRegions} (hm : m.PageAligned) :
    m.UsableAligned :=
  fun r hr _ _ ↦ hm r hr

section Aligned

variable {m : MemoryRegions} (hal : m.UsableAligned)
include hal

/-- A stepped address starts a frame that ends inside its region. -/
theorem frame_fits {addr : ℕ} (h : addr ∈ usableAddrs m) :
    4096 ∣ addr ∧ ∃ r ∈ m, r.kind = .usable ∧ r.start ≤ addr ∧ addr + 4096 ≤ r.stop := by
  obtain ⟨r, hr, hk, ha⟩ := mem_usableAddrs h
  obtain ⟨hle, hlt, hmod⟩ := mem_stepBy ha
  obtain ⟨hstart, hstop⟩ := hal r hr hk (hle.trans_lt hlt)
  have hdvd : 4096 ∣ addr := by omega
  exact ⟨hdvd, r, hr, hk, hle, by omega⟩

/-- With aligned regions rounding changes nothing: the frames start where the steps are. -/
theorem exists_usableFrames_aligned (hm : ∀ r ∈ m, r.stop ≤ 2 ^ 52) :
    ∃ frames : List PhysFrame, usableFrames m = frames.map .ok ∧
      frames.map PhysFrame.startAddress = usableAddrs m := by
  obtain ⟨frames, hframes, haddrs⟩ := exists_usableFrames_eq hm
  refine ⟨frames, hframes, haddrs.trans ?_⟩
  rw [List.map_congr_left fun addr haddr ↦ Nat.div_mul_cancel (frame_fits hal haddr).1]
  exact List.map_id' _

theorem insideUsable_iff_mem (f : PhysFrame) :
    m.InsideUsable f ↔ f.startAddress ∈ usableAddrs m := by
  constructor
  · rintro ⟨r, hr, hk, hle, hstop⟩
    have hstart := (hal r hr hk (by omega)).1
    have hdvd := Nat.dvd_sub f.aligned hstart
    exact mem_usableAddrs_of_mem hr hk (mem_stepBy_of_dvd hle (by omega) hdvd)
  · intro h
    exact (frame_fits hal h).2

end Aligned

/-- The frames among the results of a window are the window of the frames. -/
theorem reduceOption_window {α : Type*} (xs : List α) (c n : ℕ) :
    ((List.range n).map fun i ↦ xs[c + i]?).reduceOption = (xs.drop c).take n := by
  induction n with
  | zero => rfl
  | succ n ih =>
    rw [List.range_succ, List.map_append, List.reduceOption_append, ih, List.take_add_one,
      List.getElem?_drop, List.map_singleton]
    rcases xs[c + n]? with _ | x <;> rfl

theorem some_mem_window_iff {α : Type*} {xs : List α} {c n : ℕ} {x : α} :
    some x ∈ (List.range n).map (fun i ↦ xs[c + i]?) ↔ x ∈ (xs.drop c).take n := by
  rw [← List.reduceOption_mem_iff, reduceOption_window]

/-- The addresses that a run steps to, from the first one whose frame is not below the bound. -/
def reachedAddrs (m : MemoryRegions) (minAddr : Option ℕ) (n : ℕ) : List ℕ :=
  ((usableAddrs m).drop (minAddr.elim 0 fun a ↦
    ((usableAddrs m).takeWhile (· / 4096 * 4096 < a)).length)).take n

/-- The usable region that contains the address neither starts nor ends inside its page. -/
def MemoryRegions.WholePage (m : MemoryRegions) (addr : ℕ) : Prop :=
  ∀ r ∈ m, r.kind = .usable → r.start ≤ addr → addr < r.stop →
    (r.start / 4096 = addr / 4096 → 4096 ∣ r.start) ∧ r.stop / 4096 ≠ addr / 4096

theorem mem_usableAddrs_of_mem_reachedAddrs {m : MemoryRegions} {minAddr : Option ℕ} {n addr : ℕ}
    (h : addr ∈ reachedAddrs m minAddr n) : addr ∈ usableAddrs m :=
  List.mem_of_mem_drop (List.mem_of_mem_take h)

/-- The frames of a run are the pages of the addresses it steps to. -/
theorem map_startAddress_window {m : MemoryRegions} {frames : List PhysFrame}
    (haddrs : frames.map PhysFrame.startAddress = (usableAddrs m).map (· / 4096 * 4096))
    (minAddr : Option ℕ) (n : ℕ) :
    ((frames.drop (minAddr.elim 0 fun a ↦
        (frames.takeWhile (·.startAddress < a)).length)).take n).map PhysFrame.startAddress =
      (reachedAddrs m minAddr n).map (· / 4096 * 4096) := by
  have hskip : ∀ a, (frames.takeWhile (·.startAddress < a)).length =
      ((usableAddrs m).takeWhile (· / 4096 * 4096 < a)).length := by
    intro a
    have hmap := congrArg (fun addrs ↦ (addrs.takeWhile (· < a)).length) haddrs
    simpa only [List.takeWhile_map, List.length_map, Function.comp_def] using hmap
  simp only [reachedAddrs, List.map_take, List.map_drop, haddrs, hskip]

section Pages

variable {m : MemoryRegions} (hdis : m.RegionsDisjoint)
include hdis

/-- A frame lies in a usable region just when the page of its address is whole. -/
theorem insideUsable_iff_wholePage {addr : ℕ} (haddr : addr ∈ usableAddrs m) {f : PhysFrame}
    (hf : f.startAddress = addr / 4096 * 4096) : m.InsideUsable f ↔ m.WholePage addr := by
  constructor
  · rintro ⟨s, hs, -, hle, hstop⟩ r hr - hstart hlt
    obtain rfl := hdis.eq_of_mem hr hs ⟨hstart, hlt⟩ ⟨by omega, by omega⟩
    exact ⟨fun _ ↦ by omega, by omega⟩
  · intro hwhole
    obtain ⟨r, hr, hk, hle, hlt⟩ := isUsable_of_mem_usableAddrs haddr
    obtain ⟨hstart, hstop⟩ := hwhole r hr hk hle hlt
    exact ⟨r, hr, hk, by omega, by omega⟩

/-- Two addresses with the same whole page are one. -/
theorem eq_of_wholePage {x y : ℕ} (hx : x ∈ usableAddrs m) (hy : y ∈ usableAddrs m)
    (hwhole : m.WholePage x) (hpage : x / 4096 * 4096 = y / 4096 * 4096) : x = y := by
  obtain ⟨r, hr, hk, hxr⟩ := mem_usableAddrs hx
  obtain ⟨s, hs, -, hys⟩ := mem_usableAddrs hy
  obtain ⟨hx₁, hx₂, hxmod⟩ := mem_stepBy hxr
  obtain ⟨hy₁, hy₂, hymod⟩ := mem_stepBy hys
  obtain ⟨hstart, hstop⟩ := hwhole r hr hk hx₁ hx₂
  -- the page is inside the region of `x`, and so `y` is
  obtain rfl := hdis.eq_of_mem hr hs ⟨by omega, by omega⟩ ⟨hy₁, hy₂⟩
  omega

/-- **One run.** It hands out only usable memory exactly when it reaches no address in a page that
its region has only a part of. -/
theorem onlyUsable_iff_wholePage (hm : ∀ r ∈ m, r.stop ≤ 2 ^ 52) (minAddr : Option ℕ) (n : ℕ) :
    (∃ results, frameRun m minAddr n = .ok results ∧ OnlyUsable m results) ↔
      ∀ addr ∈ reachedAddrs m minAddr n, m.WholePage addr := by
  obtain ⟨frames, hframes, haddrs⟩ := exists_usableFrames_eq hm
  have hrun := frameRun_eq hframes minAddr n
  have hreached := map_startAddress_window haddrs minAddr n
  generalize (minAddr.elim 0 fun a ↦ (frames.takeWhile (·.startAddress < a)).length) = skipped
    at hrun hreached
  constructor
  · rintro ⟨_, hrun', honly⟩ addr haddr
    obtain rfl := Except.ok.inj (hrun.symm.trans hrun')
    have hpage : addr / 4096 * 4096 ∈ (reachedAddrs m minAddr n).map (· / 4096 * 4096) :=
      List.mem_map_of_mem haddr
    obtain ⟨f, hf, hstart⟩ := List.mem_map.mp (hreached ▸ hpage)
    have hinside := honly.inside f (some_mem_window_iff.mpr hf)
    exact (insideUsable_iff_wholePage hdis (mem_usableAddrs_of_mem_reachedAddrs haddr) hstart).mp
      hinside
  · intro hwhole
    have hinside : ∀ f ∈ (frames.drop skipped).take n, m.InsideUsable f := by
      intro f hf
      have hmem := List.mem_map_of_mem (f := PhysFrame.startAddress) hf
      rw [hreached] at hmem
      obtain ⟨addr, haddr, hstart⟩ := List.mem_map.mp hmem
      exact (insideUsable_iff_wholePage hdis (mem_usableAddrs_of_mem_reachedAddrs haddr)
        hstart.symm).mpr (hwhole addr haddr)
    refine ⟨_, hrun, fun f hf ↦ hinside f (some_mem_window_iff.mp hf), fun f hf s hs hkind ↦ ?_, ?_⟩
    · obtain ⟨r, hr, hk, hle, hstop⟩ := hinside f (some_mem_window_iff.mp hf)
      apply Set.disjoint_left.mpr
      intro addr hframe haddr
      have hin : addr ∈ Set.Ico r.start r.stop := ⟨hle.trans hframe.1, hframe.2.trans_le hstop⟩
      exact hkind (hdis.eq_of_mem hr hs hin haddr ▸ hk)
    · rw [reduceOption_window]
      refine List.Nodup.of_map PhysFrame.startAddress ?_
      rw [hreached]
      refine List.Nodup.map_on (fun x hx y hy hpage ↦ ?_) ?_
      · exact eq_of_wholePage hdis (mem_usableAddrs_of_mem_reachedAddrs hx)
          (mem_usableAddrs_of_mem_reachedAddrs hy) (hwhole x hx) hpage
      · exact (nodup_usableAddrs hdis).sublist
          ((List.take_sublist _ _).trans (List.drop_sublist _ _))

end Pages

/-! ### All runs -/

theorem MemoryRegions.UsableAligned.wholePage {m : MemoryRegions} (hal : m.UsableAligned)
    (addr : ℕ) : m.WholePage addr := by
  intro r hr hk hle hlt
  obtain ⟨hstart, hstop⟩ := hal r hr hk (hle.trans_lt hlt)
  exact ⟨fun _ ↦ hstart, by omega⟩

/-- If the pages of all steps are whole, those of the first and the last step of a region are. -/
theorem usableAligned_of_wholePage {m : MemoryRegions}
    (h : ∀ addr ∈ usableAddrs m, m.WholePage addr) : m.UsableAligned := by
  intro r hr hk hlt
  have hfirst : r.start ∈ stepBy r.start r.stop 4096 := mem_stepBy_of_dvd le_rfl hlt (by simp)
  obtain ⟨hstart, -⟩ := h _ (mem_usableAddrs_of_mem hr hk hfirst) r hr hk le_rfl hlt
  have hdvd := hstart rfl
  let last := r.start + (r.stop - r.start - 1) / 4096 * 4096
  have hlast : last ∈ stepBy r.start r.stop 4096 :=
    mem_stepBy_of_dvd (by omega) (by omega) ⟨(r.stop - r.start - 1) / 4096, by omega⟩
  obtain ⟨-, hstop⟩ := h _ (mem_usableAddrs_of_mem hr hk hlast) r hr hk (by omega) (by omega)
  exact ⟨hdvd, by omega⟩

/-- A run with as many calls as there are steps reaches them all. -/
theorem reachedAddrs_length (m : MemoryRegions) :
    reachedAddrs m none (usableAddrs m).length = usableAddrs m :=
  List.take_length

/-- **Only usable memory is handed out, exactly when the usable regions are page-aligned.** For
every run with or without `skip_below` and of any number of allocations; and a single run does so
exactly when it reaches no address in a page inside which its region starts or ends. An empty region
may have any boundary, since nothing is stepped through in it. -/
theorem only_usable_iff {m : MemoryRegions} (hdis : m.RegionsDisjoint)
    (hm : ∀ r ∈ m, r.start ≤ r.stop ∧ r.stop ≤ 2 ^ 52) :
    (∀ minAddr n, (∃ frames, frameRun m minAddr n = .ok frames ∧ OnlyUsable m frames) ↔
      ∀ addr ∈ reachedAddrs m minAddr n, m.WholePage addr) ∧
    ((∀ minAddr n, ∃ frames, frameRun m minAddr n = .ok frames ∧ OnlyUsable m frames) ↔
      ∀ r ∈ m, r.kind = .usable → r.start < r.stop → 4096 ∣ r.start ∧ 4096 ∣ r.stop) := by
  have hrun := onlyUsable_iff_wholePage hdis fun r hr ↦ (hm r hr).2
  refine ⟨hrun, fun h ↦ ?_, fun hal minAddr n ↦ ?_⟩
  · apply usableAligned_of_wholePage
    intro addr haddr
    refine (hrun none (usableAddrs m).length).mp (h _ _) addr ?_
    rwa [reachedAddrs_length]
  · exact (hrun minAddr n).mpr fun addr _ ↦ MemoryRegions.UsableAligned.wholePage hal addr

/-- The end of conventional memory as a BIOS reports it: the extended BIOS data area takes the last
KiB below 640 KiB, and so ends the usable region in the middle of a page. -/
def biosMap : MemoryRegions :=
  [⟨0x9e000, 0x9fc00, .usable⟩, ⟨0x9fc00, 0xa0000, .unknownBios 2⟩]

theorem biosMap_wellFormed :
    biosMap.RegionsDisjoint ∧ ∀ r ∈ biosMap, r.start ≤ r.stop ∧ r.stop ≤ 2 ^ 52 := by
  constructor
  · simp [MemoryRegions.RegionsDisjoint, biosMap, Set.Ico_disjoint_Ico]
  · simp [biosMap]

/-- A map with aligned regions yields only usable frames. -/
theorem only_usable_twoFrames :
    (twoFrames.RegionsDisjoint ∧ ∀ r ∈ twoFrames, r.start ≤ r.stop ∧ r.stop ≤ 2 ^ 52) ∧
      ∀ minAddr n, ∃ frames, frameRun twoFrames minAddr n = .ok frames ∧
        OnlyUsable twoFrames frames := by
  obtain ⟨hdis, hal, -⟩ := twoFrames_wellFormed
  have hm : ∀ r ∈ twoFrames, r.start ≤ r.stop ∧ r.stop ≤ 2 ^ 52 := by simp [twoFrames]
  exact ⟨⟨hdis, hm⟩, (only_usable_iff hdis hm).2.mpr hal.usableAligned⟩

/-- The statement without the condition fails: the last frame of `biosMap` is handed out, and its
last KiB is reserved. -/
theorem not_only_usable :
    ¬∀ m : MemoryRegions, m.RegionsDisjoint → (∀ r ∈ m, r.start ≤ r.stop ∧ r.stop ≤ 2 ^ 52) →
      ∀ minAddr n, ∃ frames, frameRun m minAddr n = .ok frames ∧ OnlyUsable m frames := by
  intro h
  obtain ⟨hdis, hm⟩ := biosMap_wellFormed
  obtain ⟨frames, hrun, honly⟩ := h biosMap hdis hm (some 0x9f000) 1
  have hone : frameRun biosMap (some 0x9f000) 1 = .ok [some ⟨0x9f000, by decide, by decide⟩] := by
    rfl
  obtain rfl := Except.ok.inj (hone.symm.trans hrun)
  obtain ⟨r, hr, hk, -, hstop⟩ := honly.inside _ (List.mem_singleton_self _)
  simp only [biosMap, List.mem_cons, List.not_mem_nil, or_false] at hr
  obtain rfl | rfl := hr
  · simp at hstop
  · simp at hk

/-! ## The lower bound -/

/-- What is left after the leading elements with a property has no such element if and only if no
element without the property comes before one with it. -/
theorem forall_mem_drop_takeWhile {α : Type*} {p : α → Bool} {xs : List α} :
    (∀ x ∈ xs.drop (xs.takeWhile p).length, p x = false) ↔
      xs.Pairwise fun x y ↦ p x = false → p y = false := by
  induction xs with
  | nil => simp
  | cons x xs ih =>
    by_cases hx : p x = true
    · have hhead : ∀ y ∈ xs, p x = false → p y = false := by
        intro y _ hfalse
        rw [hx] at hfalse
        cases hfalse
      rw [List.takeWhile_cons_of_pos hx, List.length_cons, List.drop_succ_cons, ih,
        List.pairwise_cons, and_iff_right hhead]
    · have hx' : p x = false := Bool.eq_false_iff.mpr hx
      rw [List.takeWhile_cons_of_neg hx, List.length_nil, List.drop_zero, List.forall_mem_cons,
        List.pairwise_cons, and_iff_right hx']
      constructor
      · intro h
        exact ⟨fun y hy _ ↦ h y hy, List.pairwise_of_forall_mem_list fun _ _ y hy _ ↦ h y hy⟩
      · rintro ⟨h, -⟩ y hy
        exact h y hy hx'

/-- No usable region with a frame from `minAddr` on is listed before one with a frame below. -/
def MemoryRegions.LowFirst (m : MemoryRegions) (minAddr : ℕ) : Prop :=
  (m.filter fun r ↦ r.kind = .usable).Pairwise fun r s ↦
    r.start < r.stop → s.start < s.stop → minAddr + 4096 ≤ r.stop → minAddr ≤ s.start

/-- The condition on two regions, on the addresses they are stepped through. -/
theorem lowFirst_pair_iff {r s : MemoryRegion} (hr : 4096 ∣ r.start ∧ 4096 ∣ r.stop)
    (minAddr : ℕ) :
    (r.start < r.stop → s.start < s.stop → minAddr + 4096 ≤ r.stop → minAddr ≤ s.start) ↔
      ∀ x ∈ stepBy r.start r.stop 4096, ∀ y ∈ stepBy s.start s.stop 4096,
        minAddr ≤ x → minAddr ≤ y := by
  obtain ⟨hstart, hstop⟩ := hr
  constructor
  · intro h x hx y hy hmin
    obtain ⟨hx₁, hx₂, hxmod⟩ := mem_stepBy hx
    obtain ⟨hy₁, hy₂, -⟩ := mem_stepBy hy
    have hs := h (by omega) (by omega) (by omega)
    omega
  · intro h hlt hlt' hmin
    -- the last frame of `r` against the first of `s`
    have hlast : r.stop - 4096 ∈ stepBy r.start r.stop 4096 :=
      mem_stepBy_of_dvd (by omega) (by omega) (by omega)
    have hfirst : s.start ∈ stepBy s.start s.stop 4096 :=
      mem_stepBy_of_dvd le_rfl hlt' (by simp)
    exact h _ hlast _ hfirst (by omega)

/-- The condition on the regions, on the stream of addresses. -/
theorem lowFirst_iff {m : MemoryRegions} (hal : m.PageAligned) (minAddr : ℕ) :
    m.LowFirst minAddr ↔ (usableAddrs m).Pairwise fun a b ↦ minAddr ≤ a → minAddr ≤ b := by
  have hwithin : ∀ r ∈ m.filter fun r ↦ r.kind = .usable,
      (stepBy r.start r.stop 4096).Pairwise fun a b ↦ minAddr ≤ a → minAddr ≤ b := fun r _ ↦
    (List.pairwise_lt_range' 4096 (by omega)).imp fun hlt hmin ↦ hmin.trans hlt.le
  rw [usableAddrs, List.pairwise_flatMap, and_iff_right hwithin]
  exact List.Pairwise.iff_of_mem fun hr _ ↦
    lowFirst_pair_iff (hal _ (List.mem_of_mem_filter hr)) minAddr

/-- What the calls return after `skip_below`, all numbers of calls together. -/
theorem forall_frameRun_iff {m : MemoryRegions} {frames : List PhysFrame}
    (hframes : usableFrames m = frames.map .ok) (minAddr : ℕ) :
    (∀ n, ∃ results, frameRun m (some minAddr) n = .ok results ∧
        ∀ f, some f ∈ results → minAddr ≤ f.startAddress) ↔
      ∀ f ∈ frames.drop (frames.takeWhile (·.startAddress < minAddr)).length,
        minAddr ≤ f.startAddress := by
  constructor
  · intro h f hf
    obtain ⟨i, hi, hget⟩ := List.getElem_of_mem hf
    obtain ⟨results, hrun, hbound⟩ := h (i + 1)
    obtain rfl := Except.ok.inj ((frameRun_eq hframes (some minAddr) (i + 1)).symm.trans hrun)
    refine hbound f (List.mem_map.mpr ⟨i, List.mem_range.mpr i.lt_succ_self, ?_⟩)
    rw [Option.elim_some, ← List.getElem?_drop, List.getElem?_eq_getElem hi, hget]
  · intro h n
    refine ⟨_, frameRun_eq hframes (some minAddr) n, fun f hf ↦ h f ?_⟩
    obtain ⟨i, -, hi⟩ := List.mem_map.mp hf
    rw [Option.elim_some, ← List.getElem?_drop] at hi
    exact List.mem_of_getElem? hi

/-- **The bound of `skip_below`.** With page-aligned regions in any order, the allocator never
returns a frame below the bound if and only if no usable region with a frame from the bound on is
listed before one with a frame below it. -/
theorem skip_below_iff {m : MemoryRegions} (hal : m.PageAligned)
    (hm : ∀ r ∈ m, r.stop ≤ 2 ^ 52) (minAddr : ℕ) :
    (∀ n, ∃ frames, frameRun m (some minAddr) n = .ok frames ∧
        ∀ f, some f ∈ frames → minAddr ≤ f.startAddress) ↔ m.LowFirst minAddr := by
  obtain ⟨frames, hframes, haddrs⟩ := exists_usableFrames_aligned hal.usableAligned hm
  rw [forall_frameRun_iff hframes, lowFirst_iff hal, ← haddrs, List.pairwise_map]
  have hnot : ∀ f : PhysFrame,
      decide (f.startAddress < minAddr) = false ↔ minAddr ≤ f.startAddress := fun f ↦ by
    rw [decide_eq_false_iff_not, not_lt]
  simp only [← hnot]
  exact forall_mem_drop_takeWhile

/-- Two usable regions, the higher one listed first. -/
def highFirstMap : MemoryRegions :=
  [⟨0x200000, 0x201000, .usable⟩, ⟨0x1000, 0x2000, .usable⟩]

/-- On the map of one region the bound holds. -/
theorem skip_below_twoFrames :
    (twoFrames.PageAligned ∧ ∀ r ∈ twoFrames, r.stop ≤ 2 ^ 52) ∧
      ∀ n, ∃ frames, frameRun twoFrames (some 0x201000) n = .ok frames ∧
        ∀ f, some f ∈ frames → 0x201000 ≤ f.startAddress := by
  obtain ⟨-, hal, -⟩ := twoFrames_wellFormed
  have hm : ∀ r ∈ twoFrames, r.stop ≤ 2 ^ 52 := by simp [twoFrames]
  exact ⟨⟨hal, hm⟩, (skip_below_iff hal hm 0x201000).mpr (List.pairwise_singleton _ _)⟩

/-- The statement without the condition fails: of `highFirstMap` the frame at `0x1000` is handed
out after `skip_below(0x100000)`. -/
theorem not_skip_below :
    ¬∀ m : MemoryRegions, m.RegionsDisjoint → m.PageAligned → (∀ r ∈ m, r.stop ≤ 2 ^ 52) →
      ∀ minAddr n, ∃ frames, frameRun m (some minAddr) n = .ok frames ∧
        ∀ f, some f ∈ frames → minAddr ≤ f.startAddress := by
  intro h
  have hdis : highFirstMap.RegionsDisjoint := by
    simp [MemoryRegions.RegionsDisjoint, highFirstMap, Set.Ico_disjoint_Ico]
  have hal : highFirstMap.PageAligned := by simp [MemoryRegions.PageAligned, highFirstMap]
  have hm : ∀ r ∈ highFirstMap, r.stop ≤ 2 ^ 52 := by simp [highFirstMap]
  obtain ⟨frames, hrun, hbound⟩ := h highFirstMap hdis hal hm 0x100000 2
  have htwo : frameRun highFirstMap (some 0x100000) 2 =
      .ok [some ⟨0x200000, by decide, by decide⟩, some ⟨0x1000, by decide, by decide⟩] := by
    rfl
  obtain rfl := Except.ok.inj (htwo.symm.trans hrun)
  exact absurd (hbound ⟨0x1000, by decide, by decide⟩ (by simp)) (by decide)

/-! ## Exact enumeration -/

/-- In an ascending list what is left after the leading frames below a bound are the frames that
are not below it. -/
theorem mem_drop_takeWhile_iff {frames : List PhysFrame}
    (hasc : frames.Pairwise fun f g ↦ f.startAddress < g.startAddress) {a : ℕ} {f : PhysFrame} :
    f ∈ frames.drop (frames.takeWhile (·.startAddress < a)).length ↔
      f ∈ frames ∧ a ≤ f.startAddress := by
  induction frames with
  | nil => simp
  | cons g frames ih =>
    obtain ⟨hg, hasc⟩ := List.pairwise_cons.mp hasc
    by_cases hlt : g.startAddress < a
    · rw [List.takeWhile_cons_of_pos (by simpa using hlt), List.length_cons, List.drop_succ_cons,
        ih hasc, List.mem_cons]
      constructor
      · rintro ⟨hmem, hle⟩
        exact ⟨Or.inr hmem, hle⟩
      · rintro ⟨rfl | hmem, hle⟩
        · omega
        · exact ⟨hmem, hle⟩
    · rw [List.takeWhile_cons_of_neg (by simpa using hlt), List.length_nil, List.drop_zero]
      refine ⟨fun hmem ↦ ⟨hmem, ?_⟩, And.left⟩
      rcases List.mem_cons.mp hmem with rfl | hmem
      · omega
      · have := hg f hmem
        omega

/-- **Exact enumeration.** After `init` and `skip_below(min_addr)` the allocator returns the frames
inside usable regions from `min_addr` on, ascending and each once, and then `None` for good. -/
theorem allocate_enumerates {m : MemoryRegions} (hdis : m.RegionsDisjoint) (hasc : m.Ascending)
    (hal : m.PageAligned) (hm : ∀ r ∈ m, r.stop ≤ 2 ^ 52) (minAddr : ℕ) :
    ∃ frames : List PhysFrame,
      frames.Pairwise (fun f g ↦ f.startAddress < g.startAddress) ∧
      (∀ f, f ∈ frames ↔ m.InsideUsable f ∧ minAddr ≤ f.startAddress) ∧
      ∀ n, frameRun m (some minAddr) n = .ok ((List.range n).map fun i ↦ frames[i]?) := by
  obtain ⟨frames, hframes, haddrs⟩ := exists_usableFrames_aligned hal.usableAligned hm
  have hsorted : frames.Pairwise fun f g ↦ f.startAddress < g.startAddress :=
    List.pairwise_map.mp (haddrs ▸ pairwise_lt_usableAddrs hdis hasc)
  have hmem : ∀ f, f ∈ frames ↔ m.InsideUsable f := by
    intro f
    rw [insideUsable_iff_mem hal.usableAligned, ← haddrs, List.mem_map]
    refine ⟨fun hf ↦ ⟨f, hf, rfl⟩, ?_⟩
    rintro ⟨g, hg, hstart⟩
    exact PhysFrame.ext hstart ▸ hg
  refine ⟨frames.drop (frames.takeWhile (·.startAddress < minAddr)).length,
    hsorted.sublist (List.drop_sublist _ _), fun f ↦ ?_, fun n ↦ ?_⟩
  · rw [mem_drop_takeWhile_iff hsorted, hmem]
  · rw [frameRun_eq hframes]
    simp only [List.getElem?_drop, Option.elim_some]

/-- The two frames of `twoFrames`, the second one only from a bound between them. -/
theorem allocate_enumerates_twoFrames :
    (twoFrames.RegionsDisjoint ∧ twoFrames.Ascending ∧ twoFrames.PageAligned ∧
        ∀ r ∈ twoFrames, r.stop ≤ 2 ^ 52) ∧
      ∃ frames : List PhysFrame,
        frames.Pairwise (fun f g ↦ f.startAddress < g.startAddress) ∧
        (∀ f, f ∈ frames ↔ twoFrames.InsideUsable f ∧ 0x200001 ≤ f.startAddress) ∧
        ∀ n, frameRun twoFrames (some 0x200001) n =
          .ok ((List.range n).map fun i ↦ frames[i]?) := by
  obtain ⟨hdis, hal, hasc⟩ := twoFrames_wellFormed
  have hm : ∀ r ∈ twoFrames, r.stop ≤ 2 ^ 52 := by simp [twoFrames]
  exact ⟨⟨hdis, hasc, hal, hm⟩, allocate_enumerates hdis hasc hal hm 0x200001⟩

end Punkos
