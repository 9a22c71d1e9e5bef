import Punkos.Xhci.Discipline

/-!
# Alignment of what the controller reads

The structures shared with the controller start on multiples of 64. The driver does not rely on
the heap for that: it asks for 64 bytes more than it needs and rounds the address up. The physical
address is then a multiple of 64 too, since a page walk keeps at least the low 12 bits, whatever
the size of the page. So the low bits of the pointers written to CRCR, DCBAAP, ERSTBA and ERDP are
free for the flags these registers have there.
-/

namespace Punkos

/-! ## Rounding up -/

/-- The mask `!63` rounds down. -/
theorem toNat_and_not_63 (x : BitVec 64) : (x &&& ~~~63#64).toNat = x.toNat / 64 * 64 :=
  BitField.toNat_and_not_low x 6

/-- `(ptr as usize + 63) & !63`, as long as nothing overflows. -/
theorem toNat_aligned {ptr : ℕ} (h : ptr + 64 ≤ 2 ^ 64) :
    ((BitVec.ofNat 64 ptr + 63#64) &&& ~~~63#64).toNat = align64 ptr := by
  have hsum : (BitVec.ofNat 64 ptr + 63#64).toNat = ptr + 63 := by
    rw [BitVec.toNat_add, BitVec.toNat_ofNat, BitVec.toNat_ofNat]
    omega
  rw [toNat_and_not_63, hsum, align64]

/-! ## The three allocations -/

/-- A structure of `size` bytes at `base`, in the block that the heap gave out at `ptr` for it and
64 bytes more, with physical address `phys`. -/
structure DmaAligned (ptr size base : ℕ) (phys : BitVec 64) : Prop where
  /-- What the driver computes. -/
  machine : ((BitVec.ofNat 64 ptr + 63#64) &&& ~~~63#64).toNat = base
  /-- The start is aligned. -/
  aligned : 64 ∣ base
  /-- It does not start before the block. -/
  start : ptr ≤ base
  /-- It does not end after the block. -/
  stop : base + size ≤ ptr + (size + 64)
  /-- The physical address is aligned. -/
  phys_aligned : 64 ∣ phys.toNat

/-- `v` has the bits of `phys` from bit `n` on, and `flags` below. -/
structure CarriesPointer (n : ℕ) (v phys : BitVec 64) (flags : BitVec n) : Prop where
  /-- The pointer. -/
  pointer : ∀ i, n ≤ i → v.getLsbD i = phys.getLsbD i
  /-- The flags. -/
  flags : v.setWidth n = flags

/-- An aligned pointer written as it is sets no flag. -/
theorem carriesPointer_self {n : ℕ} {phys : BitVec 64} (h : 2 ^ n ∣ phys.toNat) :
    CarriesPointer n phys phys 0 := ⟨fun _ _ ↦ rfl, BitField.setWidth_of_dvd h⟩

/-- Or-ing bit 0 into an aligned pointer sets that flag and no other, and keeps the pointer. -/
theorem carriesPointer_or_one {phys : BitVec 64} (h : 64 ∣ phys.toNat) :
    CarriesPointer 6 (phys ||| 1) phys 1 where
  pointer i hi := by
    rw [BitVec.getLsbD_or, show (1 : BitVec 64) = 1#64 from rfl, BitVec.getLsbD_one]
    simp [show i ≠ 0 by omega]
  flags := by
    rw [BitVec.setWidth_or, BitField.setWidth_of_dvd (k := 6) h]
    decide

/-! ## What is written -/

section Code

variable {D : Device}

/-- What the last writes to the two halves of a register put there. -/
def Machine.written (m : Machine D) (low high : Mmio) : Option (BitVec 64) := do
  let hi ← m.writes.lookup high
  let lo ← m.writes.lookup low
  return hi ++ lo

/-- The four pointers the controller has been given, each with its flags. -/
structure PointersWritten (c : Controller) (segPhys : BitVec 64) (m : Machine D) : Prop where
  /-- CRCR: RCS is 1; CS, CA and CRR are 0. -/
  crcr : ∃ v, m.written Reg.crcrLow Reg.crcrHigh = some v ∧ CarriesPointer 6 v c.cmdRing.phys 1
  /-- DCBAAP: bits 5 to 0 are reserved. -/
  dcbaap : ∃ v, m.written Reg.dcbaapLow Reg.dcbaapHigh = some v ∧
    CarriesPointer 6 v c.dcbaa.phys 0
  /-- ERSTBA: bits 5 to 0 are reserved. -/
  erstba : ∃ v, m.written Reg.erstbaLow Reg.erstbaHigh = some v ∧ CarriesPointer 6 v segPhys 0
  /-- ERDP: DESI and EHB are 0. -/
  erdp : ∃ v, m.written Reg.erdpLow Reg.erdpHigh = some v ∧ CarriesPointer 4 v c.eventRing.phys 0

section Allocations

variable {mem : PhysMem} {cr3 : PhysFrame} {alloc : List Block → ℕ → ℕ → Option ℕ}

theorem dmaAligned {ptr size : ℕ} {phys : BitVec 64} (hptr : ptr + (size + 64) ≤ 2 ^ 64)
    (hphys : (kernelPlatform mem cr3 alloc).translate (align64 ptr) = some phys) :
    DmaAligned ptr size (align64 ptr) phys where
  machine := toNat_aligned (by omega)
  aligned := dvd_align64 ptr
  start := le_align64 ptr
  stop := by
    have := align64_le ptr
    omega
  phys_aligned := dvd_translate hphys (dvd_align64 ptr)

variable {m m' : Machine D}
  (halloc : ∀ live size align ptr, alloc live size align = some ptr → ptr + size ≤ 2 ^ 64)
include halloc

theorem Ring.new_dmaAligned {count : ℕ} {hcount : ∃ k, count = 2 ^ k} {r : Ring}
    (h : Ring.new (kernelPlatform mem cr3 alloc) count hcount m = some (r, m')) :
    ∃ ptr, alloc m.live (count * 16 + 64) 64 = some ptr ∧
      DmaAligned ptr (count * 16) r.base r.phys := by
  obtain ⟨ptr, phys, hptr, hphys, rfl, -⟩ := Ring.new_eq_some h
  exact ⟨ptr, hptr, dmaAligned (halloc _ _ _ _ hptr) hphys⟩

theorem Dcbaa.new_dmaAligned {maxSlots : BitVec 8} {d : Dcbaa}
    (h : Dcbaa.new (kernelPlatform mem cr3 alloc) maxSlots m = some (d, m')) :
    ∃ ptr, alloc m.live ((maxSlots.toNat + 1) * 8 + 64) 64 = some ptr ∧
      DmaAligned ptr ((maxSlots.toNat + 1) * 8) d.base d.phys := by
  obtain ⟨ptr, phys, hptr, hphys, rfl, -⟩ := Dcbaa.new_eq_some h
  exact ⟨ptr, hptr, dmaAligned (halloc _ _ _ _ hptr) hphys⟩

theorem allocateErst_dmaAligned {ring : Ring} {phys : BitVec 64}
    (h : allocateErst (kernelPlatform mem cr3 alloc) ring m = some (phys, m')) :
    ∃ ptr, alloc m.live (16 + 64) 64 = some ptr ∧ DmaAligned ptr 16 (align64 ptr) phys := by
  obtain ⟨ptr, hptr, hphys, -⟩ := allocateErst_eq_some h
  exact ⟨ptr, hptr, dmaAligned (halloc _ _ _ _ hptr) hphys⟩

/-- The pointers of a controller that has been allocated are aligned. -/
theorem Controller.allocate_aligned {maxSlots maxPorts : BitVec 8} {c : Controller}
    (h : Controller.allocate (kernelPlatform mem cr3 alloc) maxSlots maxPorts m = some (c, m')) :
    64 ∣ c.cmdRing.phys.toNat ∧ 64 ∣ c.eventRing.phys.toNat ∧ 64 ∣ c.dcbaa.phys.toNat := by
  obtain ⟨m₁, m₂, hcmd, hevent, hdcbaa, -⟩ := Controller.allocate_eq_some h
  obtain ⟨_, -, hcmd⟩ := Ring.new_dmaAligned halloc hcmd
  obtain ⟨_, -, hevent⟩ := Ring.new_dmaAligned halloc hevent
  obtain ⟨_, -, hdcbaa⟩ := Dcbaa.new_dmaAligned halloc hdcbaa
  exact ⟨hcmd.phys_aligned, hevent.phys_aligned, hdcbaa.phys_aligned⟩

omit halloc

/-- What stands in CRCR and DCBAAP once they have been written. -/
theorem Controller.written_writeContexts (c : Controller) (m : Machine D) :
    (c.writeContexts m).written Reg.crcrLow Reg.crcrHigh = some (c.cmdRing.phys ||| 1) ∧
      (c.writeContexts m).written Reg.dcbaapLow Reg.dcbaapHigh = some c.dcbaa.phys :=
  ⟨congrArg some (append_halves _), congrArg some (append_halves _)⟩

/-- What stands in all four registers once the last has been written. -/
theorem Controller.written_writeEventRing (c : Controller) (segPhys : BitVec 64) {m₁ : Machine D}
    (hwrites : m₁.writes = (c.writeContexts m).writes) :
    (c.writeEventRing segPhys m₁).written Reg.crcrLow Reg.crcrHigh =
        some (c.cmdRing.phys ||| 1) ∧
      (c.writeEventRing segPhys m₁).written Reg.dcbaapLow Reg.dcbaapHigh = some c.dcbaa.phys ∧
      (c.writeEventRing segPhys m₁).written Reg.erstbaLow Reg.erstbaHigh = some segPhys ∧
      (c.writeEventRing segPhys m₁).written Reg.erdpLow Reg.erdpHigh = some c.eventRing.phys := by
  have hlog : (c.writeEventRing segPhys m₁).writes =
      [(Reg.iman, (1 <<< 0 : BitVec 32)), (Reg.iman, 1 <<< 1)] ++
        (Observed.eventWrites c segPhys ++ (Observed.contextWrites c ++ m.writes)) := by
    change [(Reg.iman, (1 <<< 0 : BitVec 32)), (Reg.iman, 1 <<< 1)] ++
      (Observed.eventWrites c segPhys ++ m₁.writes) = _
    rw [hwrites]
    rfl
  unfold Machine.written
  rw [hlog]
  exact ⟨congrArg some (append_halves _), congrArg some (append_halves _),
    congrArg some (append_halves _), congrArg some (append_halves _)⟩

/-- A segment table that is allocated after the contexts are written leaves all four pointers in
place when the second half is written. -/
theorem Controller.pointersWritten_configure
    (halloc : ∀ live size align ptr, alloc live size align = some ptr → ptr + size ≤ 2 ^ 64)
    {c : Controller} (hcmd : 64 ∣ c.cmdRing.phys.toNat) (hevent : 64 ∣ c.eventRing.phys.toNat)
    (hdcbaa : 64 ∣ c.dcbaa.phys.toNat)
    (h : Controller.configure (kernelPlatform mem cr3 alloc) c m = some m') :
    ∃ segPhys m₁, allocateErst (kernelPlatform mem cr3 alloc) c.eventRing (c.writeContexts m) =
      some (segPhys, m₁) ∧ PointersWritten c segPhys m' := by
  obtain ⟨segPhys, m₁, herst, rfl⟩ := Controller.configure_eq_some h
  obtain ⟨_, -, hseg⟩ := allocateErst_dmaAligned halloc herst
  have hwrites : m₁.writes = (c.writeContexts m).writes := by
    obtain ⟨_, -, -, rfl⟩ := allocateErst_eq_some herst
    rfl
  obtain ⟨hcrcr, hdcbaap, herstba, herdp⟩ := c.written_writeEventRing segPhys hwrites
  exact ⟨segPhys, m₁, herst,
    { crcr := ⟨_, hcrcr, carriesPointer_or_one hcmd⟩
      dcbaap := ⟨_, hdcbaap, carriesPointer_self hdcbaa⟩
      erstba := ⟨_, herstba, carriesPointer_self hseg.phys_aligned⟩
      erdp := ⟨_, herdp, carriesPointer_self (dvd_trans (by decide) hevent)⟩ }⟩

/-- Starting the controller writes none of the four registers. -/
theorem PointersWritten.start {c : Controller} {segPhys : BitVec 64} {fuel : ℕ}
    (h : PointersWritten c segPhys m) (hstart : Controller.start fuel m = some m') :
    PointersWritten c segPhys m' := by
  obtain ⟨-, -, hwrites⟩ := Controller.start_frame hstart
  have hsame : ∀ low high, Reg.usbcmd ≠ low → Reg.usbcmd ≠ high →
      m'.written low high = m.written low high := by
    intro low high hlow hhigh
    unfold Machine.written
    rw [hwrites, List.lookup_cons, List.lookup_cons, beq_false_of_ne hlow.symm,
      beq_false_of_ne hhigh.symm]
  exact
    { crcr := by rw [hsame _ _ (by decide) (by decide)]; exact h.crcr
      dcbaap := by rw [hsame _ _ (by decide) (by decide)]; exact h.dcbaap
      erstba := by rw [hsame _ _ (by decide) (by decide)]; exact h.erstba
      erdp := by rw [hsame _ _ (by decide) (by decide)]; exact h.erdp }

end Allocations

/-- **Alignment.** Let the heap return any blocks inside the address space, aligned or not, and let
any page tables be in force. Then the ring of any size, the array of device contexts of any size
and the segment table, whenever their constructors return, start on a multiple of 64, lie inside
their blocks, and have a physical address that is a multiple of 64. The pointers written to CRCR
and DCBAAP, and after the segment table is allocated those in all four registers, carry these
addresses unchanged and the flags that are meant; they still do when `init` returns. -/
theorem dma_aligned {mem : PhysMem} {cr3 : PhysFrame} {alloc : List Block → ℕ → ℕ → Option ℕ}
    (halloc : ∀ live size align ptr, alloc live size align = some ptr → ptr + size ≤ 2 ^ 64) :
    (∀ (count : ℕ) (hcount : ∃ k, count = 2 ^ k) (m m' : Machine D) (r : Ring),
        Ring.new (kernelPlatform mem cr3 alloc) count hcount m = some (r, m') →
        ∃ ptr, alloc m.live (count * 16 + 64) 64 = some ptr ∧
          DmaAligned ptr (count * 16) r.base r.phys) ∧
      (∀ (maxSlots : BitVec 8) (m m' : Machine D) (d : Dcbaa),
        Dcbaa.new (kernelPlatform mem cr3 alloc) maxSlots m = some (d, m') →
        ∃ ptr, alloc m.live ((maxSlots.toNat + 1) * 8 + 64) 64 = some ptr ∧
          DmaAligned ptr ((maxSlots.toNat + 1) * 8) d.base d.phys) ∧
      (∀ (ring : Ring) (m m' : Machine D) (phys : BitVec 64),
        allocateErst (kernelPlatform mem cr3 alloc) ring m = some (phys, m') →
        ∃ ptr, alloc m.live (16 + 64) 64 = some ptr ∧ DmaAligned ptr 16 (align64 ptr) phys) ∧
      (∀ (maxSlots maxPorts : BitVec 8) (m m₁ : Machine D) (c : Controller),
        Controller.allocate (kernelPlatform mem cr3 alloc) maxSlots maxPorts m = some (c, m₁) →
        (∃ v, (c.writeContexts m₁).written Reg.crcrLow Reg.crcrHigh = some v ∧
          CarriesPointer 6 v c.cmdRing.phys 1) ∧
        (∃ v, (c.writeContexts m₁).written Reg.dcbaapLow Reg.dcbaapHigh = some v ∧
          CarriesPointer 6 v c.dcbaa.phys 0) ∧
        ∀ m₂, Controller.configure (kernelPlatform mem cr3 alloc) c m₁ = some m₂ →
          ∃ segPhys m', allocateErst (kernelPlatform mem cr3 alloc) c.eventRing
            (c.writeContexts m₁) = some (segPhys, m') ∧ PointersWritten c segPhys m₂) ∧
      ∀ (fuel : ℕ) (m m' : Machine D) (c : Controller),
        Controller.init (kernelPlatform mem cr3 alloc) fuel m = some (c, m') →
        ∃ segPhys, PointersWritten c segPhys m' := by
  refine ⟨fun _ _ _ _ _ ↦ Ring.new_dmaAligned halloc, fun _ _ _ _ ↦ Dcbaa.new_dmaAligned halloc,
    fun _ _ _ _ ↦ allocateErst_dmaAligned halloc, fun _ _ m m₁ c hallocate ↦ ?_,
    fun fuel m m' c hinit ↦ ?_⟩
  · obtain ⟨hcmd, hevent, hdcbaa⟩ := Controller.allocate_aligned halloc hallocate
    obtain ⟨hcrcr, hdcbaap⟩ := c.written_writeContexts m₁
    exact ⟨⟨_, hcrcr, carriesPointer_or_one hcmd⟩, ⟨_, hdcbaap, carriesPointer_self hdcbaa⟩,
      fun m₂ ↦ Controller.pointersWritten_configure halloc hcmd hevent hdcbaa⟩
  · obtain ⟨_, _, _, m₃, m₄, -, -, hallocate, hconfigure, hstart⟩ := Controller.init_eq_some hinit
    obtain ⟨hcmd, hevent, hdcbaa⟩ := Controller.allocate_aligned halloc hallocate
    obtain ⟨segPhys, -, -, hwritten⟩ :=
      Controller.pointersWritten_configure halloc hcmd hevent hdcbaa hconfigure
    exact ⟨segPhys, hwritten.start hstart⟩

end Code

/-! ## On a heap that aligns nothing -/

/-- Tables that map every GiB of the lowest 512 to the physical GiB at 1 GiB. -/
def gibMem : PhysMem := fun t _ ↦
  if t.startAddress = 0x1000 then ⟨0x2001⟩
  else if t.startAddress = 0x2000 then ⟨0x40000081⟩
  else .zero

/-- A heap that serves one small request, at an odd address. -/
def oddAlloc (live : List Block) (size _align : ℕ) : Option ℕ :=
  if live = [] ∧ size ≤ 4096 then some 0x1001 else none

theorem oddAlloc_inside (live : List Block) (size align ptr : ℕ)
    (h : oddAlloc live size align = some ptr) : ptr + size ≤ 2 ^ 64 := by
  rw [oddAlloc] at h
  split_ifs at h with hroom
  have hptr := Option.some.inj h
  omega

/-- A ring of four blocks behind a 1 GiB page. -/
theorem dma_aligned_odd :
    ∃ r m', Ring.new (kernelPlatform gibMem ⟨0x1000, by decide, by decide⟩ oddAlloc) 4 ⟨2, rfl⟩
        deadMachine = some (r, m') ∧ r.base = 0x1040 ∧ r.phys = 0x40001040 ∧
      DmaAligned 0x1001 64 r.base r.phys := by
  obtain ⟨r, m', hnew, hbase, hphys⟩ : ∃ r m',
      Ring.new (kernelPlatform gibMem ⟨0x1000, by decide, by decide⟩ oddAlloc) 4 ⟨2, rfl⟩
        deadMachine = some (r, m') ∧ r.base = 0x1040 ∧ r.phys = 0x40001040 :=
    ⟨_, _, rfl, rfl, rfl⟩
  obtain ⟨ptr, hptr, hdma⟩ := (dma_aligned oddAlloc_inside).1 4 ⟨2, rfl⟩ deadMachine m' r hnew
  obtain rfl : 0x1001 = ptr := Option.some.inj hptr
  exact ⟨r, m', hnew, hbase, hphys, hdma⟩

end Punkos
