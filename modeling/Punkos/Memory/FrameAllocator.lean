import Mathlib.Algebra.Group.Nat.Defs
import Mathlib.Data.List.Infix
import Mathlib.Order.CompletePartialOrder
import Mathlib.Order.Interval.Set.Disjoint
import Punkos.Foundation.Run

/-!
# The boot-time frame allocator

`BootInfoFrameAllocator` hands out 4 KiB frames by position: it keeps a cursor `next` into the
stream of all frames of the usable regions and recomputes that stream from the memory map on every
call. Nothing is marked as taken. Whether a frame can be handed out twice is therefore entirely a
question about where the cursor has been.

## Panicking iterators

The stream is a lazy Rust iterator whose items are built by `PhysAddr::new`, and that constructor
panics on an address with one of the bits 52 to 63 set. A stream is modelled as the list of its
*suspended* items, `List (Except Panic α)`: an item only panics when it is forced, and both `nth`
and `take_while(..).count()` force items strictly from the left. A map whose far end is not
addressable therefore still yields its first frames, as it does in the kernel.

## What goes wrong

`skip_below` sets the cursor to a count taken from the start of the stream, not from where
allocation stands. Called before the first allocation, as `kernel_main` does, it moves the cursor
forward; called later it can move it back over frames already handed out.
`frames_stay_distinct_iff` is the exact condition on its argument.
-/

namespace Punkos

open Transition

/-! ## Panics and suspended items -/

/-- The panics the modelled code can run into. The panic handler parks the CPU, so a panic ends
every run it occurs in. -/
inductive Panic where
  /-- `PhysAddr::new` was given an address with a bit in the range 52 to 64 set. -/
  | physAddrNotValid
  deriving DecidableEq, Repr

/-- `Iterator::nth` on a stream of suspended items: the `n` items before the result are forced
too. -/
def nth {α : Type*} : List (Except Panic α) → ℕ → Except Panic (Option α)
  | [], _ => .ok none
  | .error e :: _, _ => .error e
  | .ok a :: _, 0 => .ok (some a)
  | .ok _ :: xs, n + 1 => nth xs n

/-- `Iterator::take_while(p).count()` on a stream of suspended items. -/
def countWhile {α : Type*} (p : α → Bool) : List (Except Panic α) → Except Panic ℕ
  | [] => .ok 0
  | .error e :: _ => .error e
  | .ok a :: xs => if p a then (countWhile p xs).map (· + 1) else .ok 0

section Streams

variable {α : Type*} {p : α → Bool} {xs : List (Except Panic α)} {a : α}

theorem getElem?_of_nth {n : ℕ} (h : nth xs n = .ok (some a)) : xs[n]? = some (.ok a) := by
  induction xs generalizing n with
  | nil => simp [nth] at h
  | cons x xs ih =>
    cases x with
    | error e => simp [nth] at h
    | ok b =>
      cases n with
      | zero => simpa [nth] using h
      | succ n => simpa using ih h

/-- Reaching an item forces every earlier one, so each of them is an item that can be reached. -/
theorem exists_nth_of_le {m n : ℕ} (h : nth xs n = .ok (some a)) (hmn : m ≤ n) :
    ∃ b, nth xs m = .ok (some b) := by
  induction xs generalizing m n with
  | nil => simp [nth] at h
  | cons x xs ih =>
    cases x with
    | error e => simp [nth] at h
    | ok b =>
      cases m with
      | zero => exact ⟨b, rfl⟩
      | succ m =>
        obtain ⟨n, rfl⟩ := Nat.exists_eq_add_of_le' (show 1 ≤ n by omega)
        exact ih (n := n) h (by omega)

theorem exists_nth_of_forall_ok {n : ℕ} (h : ∀ x ∈ xs, ∃ b, x = .ok b) (hn : n < xs.length) :
    ∃ b, nth xs n = .ok (some b) := by
  induction xs generalizing n with
  | nil => simp at hn
  | cons x xs ih =>
    obtain ⟨b, rfl⟩ := h x List.mem_cons_self
    rcases n with _ | n
    · exact ⟨b, rfl⟩
    · exact ih (fun y hy ↦ h y (List.mem_cons_of_mem _ hy)) (by simpa using hn)

/-- Counting reaches the head, which is counted or ends the count. -/
theorem countWhile_cons_eq_ok {x : Except Panic α} {c : ℕ} (h : countWhile p (x :: xs) = .ok c) :
    ∃ b, x = .ok b ∧
      ((p b = true ∧ ∃ c', countWhile p xs = .ok c' ∧ c = c' + 1) ∨ (p b = false ∧ c = 0)) := by
  rcases x with e | b
  · exact nomatch h
  refine ⟨b, rfl, ?_⟩
  rw [countWhile] at h
  by_cases hb : p b = true
  · rw [if_pos hb] at h
    rcases hc : countWhile p xs with e | c'
    · rw [hc] at h
      exact nomatch h
    · rw [hc] at h
      exact .inl ⟨hb, c', rfl, (Except.ok.inj h).symm⟩
  · rw [if_neg hb] at h
    exact .inr ⟨Bool.eq_false_of_not_eq_true hb, (Except.ok.inj h).symm⟩

/-- Every item that is counted satisfies the predicate. -/
theorem exists_of_lt_countWhile {c i : ℕ} (h : countWhile p xs = .ok c) (hi : i < c) :
    ∃ b, xs[i]? = some (.ok b) ∧ p b = true := by
  induction xs generalizing c i with
  | nil =>
    obtain rfl : 0 = c := Except.ok.inj h
    exact absurd hi (Nat.not_lt_zero i)
  | cons x xs ih =>
    obtain ⟨b, rfl, ⟨hb, c', hc, rfl⟩ | ⟨-, rfl⟩⟩ := countWhile_cons_eq_ok h
    · rcases i with _ | i
      · exact ⟨b, rfl, hb⟩
      · exact ih hc (Nat.lt_of_succ_lt_succ hi)
    · exact absurd hi (Nat.not_lt_zero i)

/-- The item at which counting stops fails the predicate. -/
theorem not_of_countWhile {c : ℕ} (h : countWhile p xs = .ok c) (ha : xs[c]? = some (.ok a)) :
    p a = false := by
  induction xs generalizing c with
  | nil => simp at ha
  | cons x xs ih =>
    obtain ⟨b, rfl, ⟨-, c', hc, rfl⟩ | ⟨hb, rfl⟩⟩ := countWhile_cons_eq_ok h
    · exact ih hc ha
    · obtain rfl : b = a := Except.ok.inj (Option.some.inj ha)
      exact hb

end Streams

/-! ## Physical addresses and frames -/

/-- A physical address: on x86-64 at most 52 bits. -/
structure PhysAddr where
  /-- The address. -/
  val : ℕ
  /-- Bits 52 to 63 are clear. -/
  lt : val < 2 ^ 52

/-- `PhysAddr::new`, which panics rather than truncate. -/
def PhysAddr.new (addr : ℕ) : Except Panic PhysAddr :=
  if h : addr < 2 ^ 52 then .ok ⟨addr, h⟩ else .error .physAddrNotValid

/-- A 4 KiB physical frame, named by its start address. -/
@[ext]
structure PhysFrame where
  /-- The address of the first byte. -/
  startAddress : ℕ
  /-- Frames start on a page boundary. -/
  aligned : 4096 ∣ startAddress
  /-- Frames lie in the physical address space. -/
  lt : startAddress < 2 ^ 52
  deriving DecidableEq, Repr

/-- The frame an address lies in. -/
def PhysFrame.containingAddress (a : PhysAddr) : PhysFrame where
  startAddress := a.val / 4096 * 4096
  aligned := Nat.dvd_mul_left 4096 _
  lt := lt_of_le_of_lt (Nat.div_mul_le_self _ _) a.lt

/-! ## The memory map -/

/-- What the bootloader says about a region. -/
inductive MemoryRegionKind where
  /-- Unused conventional memory. -/
  | usable
  /-- The bootloader's own footprint, page tables included. -/
  | bootloader
  /-- A firmware-reported kind the bootloader does not know (UEFI). -/
  | unknownUefi (tag : ℕ)
  /-- A firmware-reported kind the bootloader does not know (BIOS). -/
  | unknownBios (tag : ℕ)
  deriving DecidableEq, Repr

/-- A region of the physical address space, `start..stop`. -/
structure MemoryRegion where
  /-- First address. -/
  start : ℕ
  /-- One past the last address (`end` in the source). -/
  stop : ℕ
  /-- What the region is. -/
  kind : MemoryRegionKind
  deriving DecidableEq, Repr

/-- The bootloader's memory map, in the order it is given. -/
abbrev MemoryRegions := List MemoryRegion

namespace MemoryRegions

/-- No address belongs to two regions. -/
def RegionsDisjoint (m : MemoryRegions) : Prop :=
  m.Pairwise fun r s ↦ Disjoint (Set.Ico r.start r.stop) (Set.Ico s.start s.stop)

/-- Every boundary is a multiple of the page size. -/
def PageAligned (m : MemoryRegions) : Prop := ∀ r ∈ m, 4096 ∣ r.start ∧ 4096 ∣ r.stop

/-- The regions are listed in ascending order. -/
def Ascending (m : MemoryRegions) : Prop := m.Pairwise fun r s ↦ r.start ≤ s.start

/-- An address of a usable region. -/
def IsUsable (m : MemoryRegions) (addr : ℕ) : Prop :=
  ∃ r ∈ m, r.kind = .usable ∧ r.start ≤ addr ∧ addr < r.stop

end MemoryRegions

/-- `(start..stop).step_by(step)`. -/
def stepBy (start stop step : ℕ) : List ℕ :=
  List.range' start ((stop - start + (step - 1)) / step) step

/-- The addresses `usable_frames` steps through, before they are turned into frames. -/
def usableAddrs (m : MemoryRegions) : List ℕ :=
  (m.filter fun r ↦ r.kind = .usable).flatMap fun r ↦ stepBy r.start r.stop 4096

/-- One item of `usable_frames`, as it is computed when it is forced. -/
def frameItem (addr : ℕ) : Except Panic PhysFrame :=
  (PhysAddr.new addr).map PhysFrame.containingAddress

/-- `usable_frames`, as a stream of suspended items. -/
def usableFrames (m : MemoryRegions) : List (Except Panic PhysFrame) :=
  (usableAddrs m).map frameItem

/-! ## The allocator -/

/-- Hands out usable frames straight from the memory map. -/
structure BootInfoFrameAllocator where
  /-- The memory map. -/
  memoryRegions : MemoryRegions
  /-- The position in `usableFrames` of the next frame to hand out. -/
  next : ℕ

namespace BootInfoFrameAllocator

/-- The allocator before any call. -/
def init (m : MemoryRegions) : BootInfoFrameAllocator := ⟨m, 0⟩

/-- Point the cursor just past the leading run of frames below `minAddr`. -/
def skipBelow (a : BootInfoFrameAllocator) (minAddr : ℕ) :
    Except Panic BootInfoFrameAllocator := do
  let skipCount ← countWhile (fun f ↦ f.startAddress < minAddr) (usableFrames a.memoryRegions)
  return { a with next := skipCount }

/-- The frame under the cursor, which then moves on by one even when there is none. -/
def allocateFrame (a : BootInfoFrameAllocator) :
    Except Panic (Option PhysFrame × BootInfoFrameAllocator) := do
  let frame ← nth (usableFrames a.memoryRegions) a.next
  return (frame, { a with next := a.next + 1 })

end BootInfoFrameAllocator

/-- A call on the allocator. -/
inductive AllocOp where
  /-- `allocate_frame()`. -/
  | allocateFrame
  /-- `skip_below(min_addr)`. -/
  | skipBelow (minAddr : ℕ)
  deriving DecidableEq, Repr

/-- A client's view: the frames it has been given, in order, and the allocator. -/
structure AllocState where
  /-- The frames returned so far. -/
  frames : List PhysFrame
  /-- The allocator. -/
  allocator : BootInfoFrameAllocator

/-- One call. A panic is no step at all, since nothing runs after it. -/
inductive AllocStep : AllocState → AllocOp → AllocState → Prop
  | allocateFrame {s : AllocState} {f : Option PhysFrame} {a : BootInfoFrameAllocator} :
      s.allocator.allocateFrame = .ok (f, a) →
        AllocStep s .allocateFrame ⟨s.frames ++ f.toList, a⟩
  | skipBelow {s : AllocState} {minAddr : ℕ} {a : BootInfoFrameAllocator} :
      s.allocator.skipBelow minAddr = .ok a → AllocStep s (.skipBelow minAddr) ⟨s.frames, a⟩

/-- The state in which the kernel receives the allocator. -/
def AllocState.boot (m : MemoryRegions) : AllocState := ⟨[], .init m⟩

/-! ## The stream of frames

With page-aligned regions an item is the frame *at* its address, and the order of the regions is
the order of the addresses. Both facts are about positions, since the cursor is one. -/

theorem mem_stepBy {start stop addr : ℕ} (h : addr ∈ stepBy start stop 4096) :
    start ≤ addr ∧ addr < stop ∧ (addr - start) % 4096 = 0 := by
  obtain ⟨i, hi, rfl⟩ := List.mem_range'.mp h
  omega

theorem mem_usableAddrs {m : MemoryRegions} {addr : ℕ} (h : addr ∈ usableAddrs m) :
    ∃ r ∈ m, r.kind = .usable ∧ addr ∈ stepBy r.start r.stop 4096 := by
  simp only [usableAddrs, List.mem_flatMap, List.mem_filter, decide_eq_true_eq] at h
  obtain ⟨r, ⟨hr, hk⟩, ha⟩ := h
  exact ⟨r, hr, hk, ha⟩

theorem isUsable_of_mem_usableAddrs {m : MemoryRegions} {addr : ℕ} (h : addr ∈ usableAddrs m) :
    m.IsUsable addr := by
  obtain ⟨r, hr, hk, ha⟩ := mem_usableAddrs h
  obtain ⟨h₁, h₂, -⟩ := mem_stepBy ha
  exact ⟨r, hr, hk, h₁, h₂⟩

theorem dvd_of_mem_usableAddrs {m : MemoryRegions} (hm : m.PageAligned) {addr : ℕ}
    (h : addr ∈ usableAddrs m) : 4096 ∣ addr := by
  obtain ⟨r, hr, -, ha⟩ := mem_usableAddrs h
  have hal := (hm r hr).1
  have hmod := mem_stepBy ha
  omega

/-- Disjoint regions never step through one address twice. -/
theorem nodup_usableAddrs {m : MemoryRegions} (hm : m.RegionsDisjoint) :
    (usableAddrs m).Nodup := by
  refine List.pairwise_flatMap.mpr ⟨fun r _ ↦ List.nodup_range' 4096 (by omega), ?_⟩
  refine (hm.filter _).imp ?_
  rintro r s hrs x hx y hy rfl
  exact Set.disjoint_left.mp hrs ⟨(mem_stepBy hx).1, (mem_stepBy hx).2.1⟩
    ⟨(mem_stepBy hy).1, (mem_stepBy hy).2.1⟩

/-- Disjoint regions in ascending order are stepped through in ascending order. -/
theorem pairwise_lt_usableAddrs {m : MemoryRegions} (hm : m.RegionsDisjoint)
    (hasc : m.Ascending) : (usableAddrs m).Pairwise (· < ·) := by
  refine List.pairwise_flatMap.mpr ⟨fun r _ ↦ List.pairwise_lt_range' 4096 (by omega), ?_⟩
  refine ((hm.and hasc).filter _).imp ?_
  rintro r s ⟨hrs, hle⟩ x hx y hy
  obtain ⟨-, hx₂, -⟩ := mem_stepBy hx
  obtain ⟨hy₁, hy₂, -⟩ := mem_stepBy hy
  -- were `s` to start inside `r`, its first address would belong to both
  have hsep : r.stop ≤ s.start := by
    by_contra hlt
    exact Set.disjoint_left.mp hrs ⟨hle, by omega⟩ ⟨le_refl s.start, by omega⟩
  omega

theorem frameItem_eq_ok_iff {addr : ℕ} {f : PhysFrame} :
    frameItem addr = .ok f ↔ addr < 2 ^ 52 ∧ f.startAddress = addr / 4096 * 4096 := by
  unfold frameItem PhysAddr.new
  by_cases h : addr < 2 ^ 52
  · rw [dif_pos h]
    simp only [h, Except.map, Except.ok.injEq, true_and]
    constructor
    · rintro rfl
      rfl
    · intro hf
      exact PhysFrame.ext hf.symm
  · rw [dif_neg h]
    constructor
    · simp [Except.map]
    · rintro ⟨hlt, -⟩
      exact absurd hlt h

/-- With page-aligned regions the item at a position is the frame at that position's address. -/
theorem startAddress_of_getElem? {m : MemoryRegions} (hm : m.PageAligned) {i : ℕ} {f : PhysFrame}
    (h : (usableFrames m)[i]? = some (.ok f)) : (usableAddrs m)[i]? = some f.startAddress := by
  rw [usableFrames, List.getElem?_map, Option.map_eq_some_iff] at h
  obtain ⟨addr, haddr, hf⟩ := h
  obtain ⟨-, hstart⟩ := frameItem_eq_ok_iff.mp hf
  have hdvd := dvd_of_mem_usableAddrs hm (List.mem_of_getElem? haddr)
  rw [haddr, hstart, Nat.div_mul_cancel hdvd]

theorem isUsable_startAddress {m : MemoryRegions} (hm : m.PageAligned) {i : ℕ} {f : PhysFrame}
    (h : (usableFrames m)[i]? = some (.ok f)) : m.IsUsable f.startAddress :=
  isUsable_of_mem_usableAddrs (List.mem_of_getElem? (startAddress_of_getElem? hm h))

/-- One frame, one position. -/
theorem index_unique {m : MemoryRegions} (hdis : m.RegionsDisjoint) (hal : m.PageAligned)
    {i j : ℕ} {f : PhysFrame} (hi : (usableFrames m)[i]? = some (.ok f))
    (hj : (usableFrames m)[j]? = some (.ok f)) : i = j := by
  have hi' := startAddress_of_getElem? hal hi
  have hj' := startAddress_of_getElem? hal hj
  obtain ⟨hlt, -⟩ := List.getElem?_eq_some_iff.mp hi'
  exact (List.getElem?_inj hlt (nodup_usableAddrs hdis)).mp (hi'.trans hj'.symm)

theorem startAddress_lt_of_lt {m : MemoryRegions} (hdis : m.RegionsDisjoint) (hal : m.PageAligned)
    (hasc : m.Ascending) {i j : ℕ} {f g : PhysFrame} (hij : i < j)
    (hf : (usableFrames m)[i]? = some (.ok f)) (hg : (usableFrames m)[j]? = some (.ok g)) :
    f.startAddress < g.startAddress := by
  obtain ⟨hi, hf'⟩ := List.getElem?_eq_some_iff.mp (startAddress_of_getElem? hal hf)
  obtain ⟨hj, hg'⟩ := List.getElem?_eq_some_iff.mp (startAddress_of_getElem? hal hg)
  rw [← hf', ← hg']
  exact List.pairwise_iff_getElem.mp (pairwise_lt_usableAddrs hdis hasc) i j hi hj hij

/-! ## One call -/

namespace BootInfoFrameAllocator

variable {a a' : BootInfoFrameAllocator}

theorem allocateFrame_eq_ok_iff {f : Option PhysFrame} :
    a.allocateFrame = .ok (f, a') ↔
      nth (usableFrames a.memoryRegions) a.next = .ok f ∧ a' = ⟨a.memoryRegions, a.next + 1⟩ := by
  rw [allocateFrame]
  cases h : nth (usableFrames a.memoryRegions) a.next with
  | error e => simp [bind, Except.bind]
  | ok g => simp [bind, Except.bind, pure, Except.pure, eq_comm]

theorem skipBelow_eq_ok_iff {minAddr : ℕ} :
    a.skipBelow minAddr = .ok a' ↔ ∃ c,
      countWhile (fun f ↦ f.startAddress < minAddr) (usableFrames a.memoryRegions) = .ok c ∧
        a' = ⟨a.memoryRegions, c⟩ := by
  rw [skipBelow]
  cases h : countWhile (fun f ↦ decide (f.startAddress < minAddr))
    (usableFrames a.memoryRegions) with
  | error e => simp [bind, Except.bind]
  | ok c => simp [bind, Except.bind, pure, Except.pure, eq_comm]

end BootInfoFrameAllocator

open BootInfoFrameAllocator

/-- What a call can do, with its guards: the one case analysis the run proofs below need. -/
theorem AllocStep.cases {s t : AllocState} {op : AllocOp} (h : AllocStep s op t) :
    (op = .allocateFrame ∧ ∃ f, nth (usableFrames s.allocator.memoryRegions)
      s.allocator.next = .ok f ∧
        t = ⟨s.frames ++ f.toList, s.allocator.memoryRegions, s.allocator.next + 1⟩) ∨
      ∃ minAddr c, op = .skipBelow minAddr ∧
        countWhile (fun f ↦ f.startAddress < minAddr)
          (usableFrames s.allocator.memoryRegions) = .ok c ∧
        t = ⟨s.frames, s.allocator.memoryRegions, c⟩ := by
  cases h with
  | allocateFrame h =>
    obtain ⟨hf, rfl⟩ := allocateFrame_eq_ok_iff.mp h
    exact Or.inl ⟨rfl, _, hf, rfl⟩
  | skipBelow h =>
    obtain ⟨c, hc, rfl⟩ := skipBelow_eq_ok_iff.mp h
    exact Or.inr ⟨_, c, rfl, hc, rfl⟩

/-! ## Runs that keep the cursor ahead -/

/-- The condition on a call: `skip_below` is given an address above every frame handed out. -/
def SkipsForward (s : AllocState) : AllocOp → Prop
  | .allocateFrame => True
  | .skipBelow minAddr => ∀ f ∈ s.frames, f.startAddress < minAddr

/-- The invariant of a run that only skips forward: the frames handed out sit at positions the
cursor has already passed. -/
structure CursorAhead (m : MemoryRegions) (s : AllocState) : Prop where
  /-- The map never changes. -/
  map_eq : s.allocator.memoryRegions = m
  /-- No frame has been handed out twice. -/
  nodup : s.frames.Nodup
  /-- Every frame handed out is behind the cursor. -/
  behind : ∀ f ∈ s.frames, ∃ i < s.allocator.next, nth (usableFrames m) i = .ok (some f)

theorem CursorAhead.boot (m : MemoryRegions) : CursorAhead m (.boot m) where
  map_eq := rfl
  nodup := List.nodup_nil
  behind := by simp [AllocState.boot]

/-- Counting the frames below `minAddr` passes every frame that is below `minAddr`. This is where
the order of the regions enters: it rules out a high frame in front of a low one. -/
theorem lt_countWhile_of_startAddress_lt {m : MemoryRegions} (hdis : m.RegionsDisjoint)
    (hal : m.PageAligned) (hasc : m.Ascending) {minAddr c i : ℕ} {g : PhysFrame}
    (hc : countWhile (fun f ↦ f.startAddress < minAddr) (usableFrames m) = .ok c)
    (hg : nth (usableFrames m) i = .ok (some g)) (hlt : g.startAddress < minAddr) : i < c := by
  by_contra hle
  obtain ⟨b, hb⟩ := exists_nth_of_le hg (Nat.le_of_not_lt hle)
  have hstop : minAddr ≤ b.startAddress := by
    simpa using not_of_countWhile hc (getElem?_of_nth hb)
  have hbg : b.startAddress ≤ g.startAddress := by
    rcases Nat.lt_or_eq_of_le (Nat.le_of_not_lt hle) with hci | rfl
    · exact (startAddress_lt_of_lt hdis hal hasc hci (getElem?_of_nth hb) (getElem?_of_nth hg)).le
    · rw [hb] at hg
      cases hg
      exact le_rfl
  omega

theorem CursorAhead.step {m : MemoryRegions} (hdis : m.RegionsDisjoint) (hal : m.PageAligned)
    (hasc : m.Ascending) {s t : AllocState} {op : AllocOp} (hs : CursorAhead m s)
    (h : Guarded AllocStep SkipsForward s op t) : CursorAhead m t := by
  obtain ⟨hstep, hfwd⟩ := h
  obtain ⟨rfl, f, hf, rfl⟩ | ⟨minAddr, c, rfl, hc, rfl⟩ := hstep.cases
  · rw [hs.map_eq] at hf
    have hold : ∀ g ∈ s.frames, ∃ i < s.allocator.next + 1,
        nth (usableFrames m) i = .ok (some g) := by
      intro g hg
      obtain ⟨i, hi, hgi⟩ := hs.behind g hg
      exact ⟨i, Nat.lt_succ_of_lt hi, hgi⟩
    cases f with
    | none =>
      refine ⟨hs.map_eq, by simpa using hs.nodup, fun g hg ↦ hold g (by simpa using hg)⟩
    | some f =>
      have hfresh : f ∉ s.frames := by
        intro hmem
        obtain ⟨i, hi, hfi⟩ := hs.behind f hmem
        exact hi.ne (index_unique hdis hal (getElem?_of_nth hfi) (getElem?_of_nth hf))
      refine ⟨hs.map_eq, ?_, fun g hg ↦ ?_⟩
      · exact List.nodup_append.mpr ⟨hs.nodup, List.pairwise_singleton _ f, by
          rintro g hg b hb rfl
          obtain rfl : g = f := by simpa using hb
          exact hfresh hg⟩
      · rcases List.mem_append.mp hg with hg | hg
        · exact hold g hg
        · obtain rfl : g = f := by simpa using hg
          exact ⟨_, Nat.lt_succ_self _, hf⟩
  · rw [hs.map_eq] at hc
    refine ⟨hs.map_eq, hs.nodup, fun g hg ↦ ?_⟩
    obtain ⟨i, -, hgi⟩ := hs.behind g hg
    exact ⟨i, lt_countWhile_of_startAddress_lt hdis hal hasc hc hgi (hfwd g hg), hgi⟩

theorem nodup_of_guarded_run {m : MemoryRegions} (hdis : m.RegionsDisjoint) (hal : m.PageAligned)
    (hasc : m.Ascending) {ops : List AllocOp} {s : AllocState}
    (h : Run (Guarded AllocStep SkipsForward) (.boot m) ops s) : s.frames.Nodup :=
  (h.invariant (fun _ _ _ ht hr ↦ ht.step hdis hal hasc hr) (CursorAhead.boot m)).nodup

/-! ## Runs that skip backward

Whatever the calls were, a frame handed out once was reached by forcing the stream up to its
position. A cursor moved back to or before that position reaches it again after finitely many
allocations, and none of those can panic. -/

/-- The part of the invariant that needs no condition on the calls. -/
def Reached (m : MemoryRegions) (s : AllocState) : Prop :=
  s.allocator.memoryRegions = m ∧ ∀ f ∈ s.frames, ∃ i, nth (usableFrames m) i = .ok (some f)

theorem Reached.step {m : MemoryRegions} {s t : AllocState} {op : AllocOp} (hs : Reached m s)
    (h : AllocStep s op t) : Reached m t := by
  obtain ⟨rfl, f, hf, rfl⟩ | ⟨minAddr, c, rfl, -, rfl⟩ := h.cases
  · refine ⟨hs.1, fun g hg ↦ ?_⟩
    rcases List.mem_append.mp hg with hg | hg
    · exact hs.2 g hg
    · obtain rfl : f = some g := by simpa using hg
      exact ⟨_, hs.1 ▸ hf⟩
  · exact ⟨hs.1, hs.2⟩

theorem reached_of_run {m : MemoryRegions} {ops : List AllocOp} {s : AllocState}
    (h : Run AllocStep (.boot m) ops s) : Reached m s :=
  h.invariant (fun _ _ _ ht hr ↦ ht.step hr) ⟨rfl, by simp [AllocState.boot]⟩

/-- From a cursor at or before the position of `f`, allocating on hands out `f`. -/
theorem exists_run_allocating {m : MemoryRegions} {i : ℕ} {f : PhysFrame}
    (hf : nth (usableFrames m) i = .ok (some f)) :
    ∀ (k : ℕ) (frames : List PhysFrame) (c : ℕ), c + k = i →
      ∃ extra c', f ∈ extra ∧
        Run AllocStep ⟨frames, m, c⟩ (List.replicate (k + 1) .allocateFrame)
          ⟨frames ++ extra, m, c'⟩ := by
  intro k
  induction k with
  | zero =>
    rintro frames c rfl
    refine ⟨[f], c + 1, List.mem_singleton_self f, Run.single ?_⟩
    exact .allocateFrame (f := some f) (allocateFrame_eq_ok_iff.mpr ⟨hf, rfl⟩)
  | succ k ih =>
    rintro frames c rfl
    obtain ⟨b, hb⟩ := exists_nth_of_le hf (Nat.le_add_right c (k + 1))
    obtain ⟨extra, c', hmem, hrun⟩ := ih (frames ++ [b]) (c + 1) (by omega)
    refine ⟨b :: extra, c', List.mem_cons_of_mem b hmem, ?_⟩
    have hfirst : AllocStep ⟨frames, m, c⟩ .allocateFrame ⟨frames ++ [b], m, c + 1⟩ :=
      .allocateFrame (f := some b) (allocateFrame_eq_ok_iff.mpr ⟨hb, rfl⟩)
    have hall := (Run.single hfirst).append hrun
    rwa [List.append_assoc, List.singleton_append, List.singleton_append,
      ← List.replicate_succ] at hall

/-- After a `skip_below` that does not clear a frame already handed out, some number of further
allocations hands that frame out again. -/
theorem exists_run_not_nodup {m : MemoryRegions} {pre : List AllocOp} {minAddr : ℕ}
    {s : AllocState} (h : Run AllocStep (.boot m) (pre ++ [.skipBelow minAddr]) s) {f : PhysFrame}
    (hf : f ∈ s.frames) (hle : minAddr ≤ f.startAddress) :
    ∃ k t, Run AllocStep (.boot m)
        (pre ++ [.skipBelow minAddr] ++ List.replicate k .allocateFrame) t ∧ ¬t.frames.Nodup := by
  obtain ⟨s₀, hpre, hlast⟩ := run_concat_iff.mp h
  obtain ⟨hmap, hreached⟩ := reached_of_run hpre
  obtain ⟨⟨⟩, -⟩ | ⟨_, c, ⟨rfl⟩, hc, rfl⟩ := hlast.cases
  rw [hmap] at hc h
  obtain ⟨i, hi⟩ := hreached f hf
  have hci : c ≤ i := by
    by_contra hlt
    obtain ⟨b, hb, hbm⟩ := exists_of_lt_countWhile hc (Nat.lt_of_not_le hlt)
    obtain rfl : b = f := by
      rw [getElem?_of_nth hi] at hb
      cases hb
      rfl
    have : b.startAddress < minAddr := by simpa using hbm
    omega
  obtain ⟨extra, c', hmem, hrun⟩ := exists_run_allocating hi (i - c) s₀.frames c (by omega)
  refine ⟨i - c + 1, _, h.append hrun, fun hnd ↦ ?_⟩
  exact (List.nodup_append.mp hnd).2.2 f hf f hmem rfl

/-! ## The exact condition -/

/-- **No frame is handed out twice, exactly when `skip_below` clears what has been handed out.**
The left side looks at every prefix of the call sequence followed by any number of further
allocations, so that a frame put back under the cursor counts against the call that put it there.
-/
theorem frames_stay_distinct_iff {m : MemoryRegions} (hdis : m.RegionsDisjoint)
    (hal : m.PageAligned) (hasc : m.Ascending) (ops : List AllocOp) :
    (∀ pre k s, pre <+: ops →
        Run AllocStep (.boot m) (pre ++ List.replicate k .allocateFrame) s → s.frames.Nodup) ↔
      ∀ pre minAddr s, pre ++ [.skipBelow minAddr] <+: ops →
        Run AllocStep (.boot m) (pre ++ [.skipBelow minAddr]) s →
          ∀ f ∈ s.frames, f.startAddress < minAddr := by
  constructor
  · intro hnodup pre minAddr s hpre hrun f hf
    by_contra hle
    obtain ⟨k, t, ht, hdup⟩ := exists_run_not_nodup hrun hf (Nat.le_of_not_lt hle)
    exact hdup (hnodup _ k t hpre ht)
  · intro hskip pre k s hpre hrun
    obtain ⟨t, ht, htail⟩ := run_append_iff.mp hrun
    have hguard : Run (Guarded AllocStep SkipsForward) (.boot m) pre t := by
      apply ht.guarded
      intro pre' op u v hop hu hstep
      cases hstep with
      | allocateFrame => trivial
      | skipBelow h =>
        have hclear := hskip pre' _ _ (hop.trans hpre) (hu.snoc (.skipBelow h))
        exact hclear
    have htail' : Run (Guarded AllocStep SkipsForward) t (List.replicate k .allocateFrame) s := by
      apply htail.guarded
      intro pre' op _ _ hop _ _
      obtain rfl : op = .allocateFrame :=
        List.eq_of_mem_replicate
          (hop.subset (List.mem_append_right _ (List.mem_singleton_self op)))
      trivial
    exact nodup_of_guarded_run hdis hal hasc (hguard.append htail')

/-- A map with two usable frames. -/
def twoFrames : MemoryRegions := [⟨0x200000, 0x202000, .usable⟩]

theorem twoFrames_wellFormed :
    twoFrames.RegionsDisjoint ∧ twoFrames.PageAligned ∧ twoFrames.Ascending :=
  ⟨List.pairwise_singleton _ _, by simp [MemoryRegions.PageAligned, twoFrames],
    List.pairwise_singleton _ _⟩

/-- The calls `kernel_main` makes: one `skip_below`, then allocations only. -/
theorem boot_frames_distinct :
    (twoFrames.RegionsDisjoint ∧ twoFrames.PageAligned ∧ twoFrames.Ascending) ∧
      ∀ k s, Run AllocStep (.boot twoFrames)
        ([.skipBelow 0x200000] ++ List.replicate k .allocateFrame) s → s.frames.Nodup := by
  obtain ⟨hdis, hal, hasc⟩ := twoFrames_wellFormed
  refine ⟨twoFrames_wellFormed, fun k s hrun ↦ ?_⟩
  refine (frames_stay_distinct_iff hdis hal hasc [.skipBelow 0x200000]).mpr ?_ _ k s
    (List.prefix_refl _) hrun
  intro pre minAddr t hpre ht f hf
  -- the only call is the first one, when nothing has been handed out
  obtain ⟨rfl, -⟩ : pre = [] ∧ minAddr = 0x200000 := by
    rcases pre with _ | ⟨op, pre⟩
    · simpa using hpre
    · simpa using hpre.length_le
  obtain ⟨u, hu, hlast⟩ := run_concat_iff.mp ht
  obtain rfl := run_nil_iff.mp hu
  obtain ⟨⟨⟩, -⟩ | ⟨_, c, -, -, rfl⟩ := hlast.cases
  simp [AllocState.boot] at hf

/-- The statement without the condition fails: allocate, `skip_below(0)`, allocate hands out the
frame at 2 MiB twice. -/
theorem not_frames_distinct :
    ¬∀ (m : MemoryRegions) (ops : List AllocOp) (s : AllocState), m.RegionsDisjoint →
      m.PageAligned → m.Ascending → Run AllocStep (.boot m) ops s → s.frames.Nodup := by
  intro h
  let f : PhysFrame := ⟨0x200000, by decide, by decide⟩
  have halloc : ∀ fs, AllocStep ⟨fs, twoFrames, 0⟩ .allocateFrame ⟨fs ++ [f], twoFrames, 1⟩ :=
    fun fs ↦ .allocateFrame (f := some f) rfl
  have hskip : AllocStep ⟨[f], twoFrames, 1⟩ (.skipBelow 0) ⟨[f], twoFrames, 0⟩ := .skipBelow rfl
  have hrun := (((Run.nil (AllocState.boot twoFrames)).snoc (halloc [])).snoc hskip).snoc
    (halloc [f])
  obtain ⟨hdis, hal, hasc⟩ := twoFrames_wellFormed
  have hnd := h twoFrames _ _ hdis hal hasc hrun
  simp at hnd

end Punkos
