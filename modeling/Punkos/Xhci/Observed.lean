import Punkos.Foundation.Command
import Punkos.Xhci.DmaLayout

/-!
# Bring-up under observation

`Controller::init` once more, this time with everything in view that the order of its accesses is
about: the words of memory it initialises, and a log of its register writes, each with the state of
the controller and the contents of memory at that moment. A run that gets stuck, in a polling loop
or in an allocation that fails, keeps its log.

`Observed.simulates_init` ties this to `Controller.init`: forgetting memory and log gives the
program of `Driver.lean` back.
-/

namespace Punkos

open Command

/-! ## What is observed -/

/-- The words of memory by address, as far as they have been written since their block was
allocated. -/
abbrev Words := ℕ → Option (BitVec 64)

/-- The words of a new block hold nothing yet. -/
def Words.forget (mem : Words) (ptr size : ℕ) : Words :=
  fun v ↦ if ptr ≤ v ∧ v < ptr + size then none else mem v

/-- A register write, and what there was when it happened. -/
structure Access (D : Device) where
  /-- The register. -/
  reg : Mmio
  /-- The value. -/
  value : BitVec 32
  /-- The controller before the write. -/
  dev : D.State
  /-- The memory. -/
  mem : Words

/-- A machine with its memory and the register writes of the run, newest first. -/
structure Observed (D : Device) where
  /-- The machine. -/
  machine : Machine D
  /-- The memory. -/
  mem : Words
  /-- The log. -/
  log : List (Access D)

namespace Observed

variable {D : Device}

/-- The beginning of a run. -/
def begin (m : Machine D) (mem : Words) : Observed D := ⟨m, mem, []⟩

/-- `read_volatile` of a register. -/
def read (r : Mmio) : Command (Observed D) (BitVec 32) := fun s ↦
  (some (s.machine.read r).1, { s with machine := (s.machine.read r).2 })

/-- `write_volatile` of a register. -/
def write (r : Mmio) (v : BitVec 32) : Command (Observed D) Unit := fun s ↦
  (some (), { s with
    machine := s.machine.write r v
    log := ⟨r, v, s.machine.dev, s.mem⟩ :: s.log })

/-- Two 32-bit writes, the low half first. -/
def write64 (low high : Mmio) (v : BitVec 64) : Command (Observed D) Unit := do
  write low (v.setWidth 32)
  write high ((v >>> 32).setWidth 32)

/-- Read a register until the value passes the test. -/
def pollUntil (r : Mmio) (p : BitVec 32 → Bool) (fuel : ℕ) : Command (Observed D) (BitVec 32) :=
  (read r).untilPasses p fuel

/-- `ptr::write` of one word. -/
def store (v : ℕ) (word : BitVec 64) : Command (Observed D) Unit := fun s ↦
  (some (), { s with mem := Function.update s.mem v (some word) })

/-- Zero the words from `base` on, one after the other. -/
def zeroWords (base : ℕ) : ℕ → Command (Observed D) Unit
  | 0 => return ()
  | n + 1 => do
    zeroWords base n
    store (base + 8 * n) 0

/-- The segment table entry becomes visible to the controller. -/
def publishErst (phys : BitVec 64) (entry : ErstEntry) : Command (Observed D) Unit := fun s ↦
  (some (), { s with
    machine := { s.machine with erst := Function.update s.machine.erst phys (some entry) } })

variable (P : Platform)

/-- `alloc`. -/
def alloc (size align : ℕ) : Command (Observed D) ℕ := fun s ↦
  match s.machine.alloc P size align with
  | none => (none, s)
  | some (ptr, m) => (some ptr, { s with machine := m, mem := s.mem.forget ptr size })

/-- `memory::virt_to_phys`, which `expect` turns into a panic if it fails. -/
def translate (v : ℕ) : Command (Observed D) (BitVec 64) := fun s ↦ (P.translate v, s)

/-! ## The driver -/

/-- `Ring::new`. A block of the ring is two words. -/
def newRing (count : ℕ) (hcount : ∃ k, count = 2 ^ k) : Command (Observed D) Ring := do
  let ptr ← alloc P (count * 16 + 64) 64
  zeroWords (align64 ptr) (2 * count)
  let phys ← translate P (align64 ptr)
  return Ring.fresh (align64 ptr) phys count hcount

/-- `Dcbaa::new`. -/
def newDcbaa (maxSlots : BitVec 8) : Command (Observed D) Dcbaa := do
  let count := maxSlots.toNat + 1
  let ptr ← alloc P (count * 8 + 64) 64
  zeroWords (align64 ptr) count
  let phys ← translate P (align64 ptr)
  return ⟨align64 ptr, List.replicate count 0, phys⟩

/-- `ptr::write` of a segment table entry, which is two words: the base, and the size with reserved
fields. -/
def storeEntry (base : ℕ) (entry : ErstEntry) : Command (Observed D) Unit := do
  store (base + 8 * 0) entry.ringBase
  store (base + 8 * 1) (entry.ringSize.setWidth 64)

/-- `allocate_erst`. -/
def allocateErst (eventRing : Ring) : Command (Observed D) (BitVec 64) := do
  let ptr ← alloc P (16 + 64) 64
  let entry : ErstEntry := ⟨eventRing.phys, BitVec.ofNat 16 eventRing.trbs.length⟩
  storeEntry (align64 ptr) entry
  let phys ← translate P (align64 ptr)
  publishErst phys entry
  return phys

/-- What is read before anything is written. -/
def identify : Command (Observed D) (BitVec 8 × BitVec 8) := do
  let _ ← read (.cap 0x00)
  let _ ← read (.cap 0x18)
  let _ ← read (.cap 0x00)
  let slots ← read Reg.hcsparams1
  let ports ← read Reg.hcsparams1
  return (slots.setWidth 8, ((ports >>> 24) &&& 0xFF).setWidth 8)

/-- Step 1: stop. -/
def stop (fuel : ℕ) : Command (Observed D) (BitVec 32) := do
  let cmd ← read Reg.usbcmd
  write Reg.usbcmd (cmd &&& ~~~Usbcmd.rs)
  let _ ← pollUntil Reg.usbsts (· &&& Usbsts.hch ≠ 0) fuel
  return cmd

/-- Step 2: reset. -/
def reset (fuel : ℕ) (cmd : BitVec 32) : Command (Observed D) Unit := do
  write Reg.usbcmd (cmd ||| Usbcmd.hcrst)
  let _ ← pollUntil Reg.usbcmd (· &&& Usbcmd.hcrst = 0) fuel
  let _ ← pollUntil Reg.usbsts (· &&& Usbsts.cnr = 0) fuel
  return ()

/-- Step 3: allocate. -/
def allocate (maxSlots maxPorts : BitVec 8) : Command (Observed D) Controller := do
  let cmdRing ← newRing P 256 exists_pow_256
  let eventRing ← newRing P 256 exists_pow_256
  let dcbaa ← newDcbaa P maxSlots
  return ⟨cmdRing, eventRing, dcbaa, maxSlots, maxPorts⟩

/-- The part of step 4 before the segment table is allocated. -/
def writeContexts (c : Controller) : Command (Observed D) Unit := do
  write Reg.config (c.maxSlots.setWidth 32)
  write64 Reg.dcbaapLow Reg.dcbaapHigh c.dcbaa.phys
  write64 Reg.crcrLow Reg.crcrHigh (c.cmdRing.phys ||| 1)

/-- The part after it. -/
def writeEventRing (c : Controller) (segPhys : BitVec 64) : Command (Observed D) Unit := do
  write64 Reg.erstbaLow Reg.erstbaHigh segPhys
  write Reg.erstsz ((1 : BitVec 16).setWidth 32)
  write64 Reg.erdpLow Reg.erdpHigh c.eventRing.phys
  write Reg.iman (1 <<< 1)
  write Reg.iman (1 <<< 0)

/-- Step 4: configure. -/
def configure (c : Controller) : Command (Observed D) Unit := do
  writeContexts c
  let segPhys ← allocateErst P c.eventRing
  writeEventRing c segPhys

/-- Step 5: start. -/
def start (fuel : ℕ) : Command (Observed D) Unit := do
  write Reg.usbcmd (Usbcmd.rs ||| Usbcmd.inte ||| Usbcmd.hsee)
  let _ ← pollUntil Reg.usbsts (· &&& Usbsts.hch = 0) fuel
  return ()

/-- `Controller::init`. -/
def init (fuel : ℕ) : Command (Observed D) Controller := do
  let (maxSlots, maxPorts) ← identify
  let cmd ← stop fuel
  reset fuel cmd
  let c ← allocate P maxSlots maxPorts
  configure P c
  start fuel
  return c

/-! ## The same program -/

section Simulation

variable {P}

theorem simulates_read (r : Mmio) :
    Simulates Observed.machine (read (D := D) r) fun m ↦ some (m.read r) :=
  fun _ ↦ rfl

theorem simulates_write (r : Mmio) (v : BitVec 32) :
    Simulates Observed.machine (write (D := D) r v) fun m ↦ some ((), m.write r v) :=
  fun _ ↦ rfl

theorem simulates_write64 (low high : Mmio) (v : BitVec 64) :
    Simulates Observed.machine (write64 (D := D) low high v) fun m ↦
      some ((), m.write64 low high v) :=
  (simulates_write low _).bind fun _ ↦ simulates_write high _

theorem simulates_pollUntil (r : Mmio) (p : BitVec 32 → Bool) (fuel : ℕ) :
    Simulates Observed.machine (pollUntil (D := D) r p fuel) (Machine.pollUntil r p fuel) := by
  induction fuel with
  | zero => exact fun _ ↦ rfl
  | succ fuel ih =>
    intro s
    rw [Machine.pollUntil]
    by_cases hp : p (s.machine.read r).1 = true
    · rw [if_pos hp, pollUntil, untilPasses_of_pass (c := read r) rfl hp]
      rfl
    · rw [if_neg hp, pollUntil, untilPasses_of_fail (c := read r) rfl (Bool.not_eq_true _ ▸ hp)]
      exact ih { s with machine := (s.machine.read r).2 }

theorem simulates_store (v : ℕ) (word : BitVec 64) :
    Simulates Observed.machine (store (D := D) v word) fun m ↦ some ((), m) :=
  fun _ ↦ rfl

theorem simulates_zeroWords (base n : ℕ) :
    Simulates Observed.machine (zeroWords (D := D) base n) fun m ↦ some ((), m) := by
  induction n with
  | zero => exact fun _ ↦ rfl
  | succ n ih => exact ih.bind fun _ ↦ simulates_store _ _

theorem simulates_alloc (size align : ℕ) :
    Simulates Observed.machine (alloc (D := D) P size align) fun m ↦ m.alloc P size align := by
  intro s
  change s.machine.alloc P size align = _
  rw [alloc]
  rcases s.machine.alloc P size align with _ | ⟨ptr, m⟩ <;> rfl

theorem simulates_translate (v : ℕ) :
    Simulates Observed.machine (translate (D := D) P v) fun m ↦
      (P.translate v).map fun phys ↦ (phys, m) :=
  fun _ ↦ rfl

theorem simulates_publishErst (phys : BitVec 64) (entry : ErstEntry) :
    Simulates Observed.machine (publishErst (D := D) phys entry) fun m ↦
      some ((), { m with erst := Function.update m.erst phys (some entry) }) :=
  fun _ ↦ rfl

/-- A block that is allocated, filled and translated. -/
theorem simulates_block {β : Type} {size : ℕ} {fill : ℕ → Command (Observed D) Unit}
    {k : ℕ → BitVec 64 → Command (Observed D) β} (f : ℕ → BitVec 64 → Machine D → β × Machine D)
    (hfill : ∀ base, Simulates Observed.machine (fill base) fun m ↦ some ((), m))
    (hk : ∀ ptr phys, Simulates Observed.machine (k ptr phys) fun m ↦ some (f ptr phys m)) :
    Simulates Observed.machine (do
        let ptr ← alloc (D := D) P size 64
        fill (align64 ptr)
        let phys ← translate P (align64 ptr)
        k ptr phys) fun m ↦
      (m.alloc P size 64).bind fun x ↦
        (P.translate (align64 x.1)).bind fun phys ↦ some (f x.1 phys x.2) := by
  refine Simulates.congr ((simulates_alloc size 64).bind fun ptr ↦
    (hfill (align64 ptr)).bind fun _ ↦
      (simulates_translate (align64 ptr)).bind fun phys ↦ hk ptr phys) fun m ↦ ?_
  congr 1
  funext ⟨ptr, m⟩
  rcases P.translate (align64 ptr) with _ | phys <;> simp

theorem simulates_newRing (count : ℕ) (hcount : ∃ k, count = 2 ^ k) :
    Simulates Observed.machine (newRing (D := D) P count hcount) (Ring.new P count hcount) :=
  simulates_block (fun ptr phys m ↦ (Ring.fresh (align64 ptr) phys count hcount, m))
    (fun base ↦ simulates_zeroWords base (2 * count)) fun _ _ ↦ Simulates.pure _ _

theorem simulates_newDcbaa (maxSlots : BitVec 8) :
    Simulates Observed.machine (newDcbaa (D := D) P maxSlots) (Dcbaa.new P maxSlots) :=
  simulates_block
    (fun ptr phys m ↦ (Dcbaa.mk (align64 ptr) (List.replicate (maxSlots.toNat + 1) 0) phys, m))
    (fun base ↦ simulates_zeroWords base (maxSlots.toNat + 1)) fun _ _ ↦ Simulates.pure _ _

theorem simulates_storeEntry (base : ℕ) (entry : ErstEntry) :
    Simulates Observed.machine (storeEntry (D := D) base entry) fun m ↦ some ((), m) :=
  (simulates_store _ _).bind fun _ ↦ simulates_store _ _

theorem simulates_allocateErst (eventRing : Ring) :
    Simulates Observed.machine (allocateErst (D := D) P eventRing)
      (Punkos.allocateErst P eventRing) :=
  simulates_block
    (fun _ phys m ↦ (phys, { m with
      erst := Function.update m.erst phys
        (some ⟨eventRing.phys, BitVec.ofNat 16 eventRing.trbs.length⟩) }))
    (fun base ↦ simulates_storeEntry base _) fun _ phys ↦
      (simulates_publishErst phys _).bind fun _ ↦ Simulates.pure _ phys

theorem simulates_identify : Simulates Observed.machine (identify (D := D)) fun m ↦
    some (((Controller.identify m).1, (Controller.identify m).2.1), (Controller.identify m).2.2) :=
  fun _ ↦ rfl

theorem simulates_stop (fuel : ℕ) :
    Simulates Observed.machine (stop (D := D) fuel) (Controller.stop fuel) :=
  (simulates_read Reg.usbcmd).bind fun cmd ↦ (simulates_write Reg.usbcmd _).bind fun _ ↦
    (simulates_pollUntil Reg.usbsts _ fuel).bind fun _ ↦ Simulates.pure _ cmd

theorem simulates_reset (fuel : ℕ) (cmd : BitVec 32) :
    Simulates Observed.machine (reset (D := D) fuel cmd) fun m ↦
      (Controller.reset fuel cmd m).map fun m ↦ ((), m) := by
  refine Simulates.congr ((simulates_write Reg.usbcmd _).bind fun _ ↦
    (simulates_pollUntil Reg.usbcmd _ fuel).bind fun _ ↦
      (simulates_pollUntil Reg.usbsts _ fuel).bind fun _ ↦ Simulates.pure _ ()) fun m ↦ ?_
  rw [Controller.reset]
  simp only [Option.bind_eq_bind, Option.map_bind, Function.comp_def]
  rfl

theorem simulates_allocate (maxSlots maxPorts : BitVec 8) :
    Simulates Observed.machine (allocate (D := D) P maxSlots maxPorts)
      (Controller.allocate P maxSlots maxPorts) :=
  (simulates_newRing (P := P) 256 ⟨8, rfl⟩).bind fun cmdRing ↦
    (simulates_newRing (P := P) 256 ⟨8, rfl⟩).bind fun eventRing ↦
      (simulates_newDcbaa (P := P) maxSlots).bind fun dcbaa ↦
        Simulates.pure _ (Controller.mk cmdRing eventRing dcbaa maxSlots maxPorts)

theorem simulates_configure (c : Controller) :
    Simulates Observed.machine (configure (D := D) P c) fun m ↦
      (Controller.configure P c m).map fun m ↦ ((), m) := by
  have hcontexts : Simulates Observed.machine (writeContexts (D := D) c) fun m ↦
      some ((), c.writeContexts m) :=
    (simulates_write Reg.config _).bind fun _ ↦
      (simulates_write64 Reg.dcbaapLow Reg.dcbaapHigh _).bind fun _ ↦
        simulates_write64 Reg.crcrLow Reg.crcrHigh _
  have hevent : ∀ segPhys, Simulates Observed.machine (writeEventRing (D := D) c segPhys) fun m ↦
      some ((), c.writeEventRing segPhys m) := fun segPhys ↦
    (simulates_write64 Reg.erstbaLow Reg.erstbaHigh _).bind fun _ ↦
      (simulates_write Reg.erstsz _).bind fun _ ↦
        (simulates_write64 Reg.erdpLow Reg.erdpHigh _).bind fun _ ↦
          (simulates_write Reg.iman _).bind fun _ ↦ simulates_write Reg.iman _
  refine Simulates.congr (hcontexts.bind fun _ ↦
    (simulates_allocateErst c.eventRing).bind fun segPhys ↦ hevent segPhys) fun m ↦ ?_
  rw [Controller.configure]
  simp only [Option.bind_eq_bind, Option.map_bind, Function.comp_def]
  rfl

theorem simulates_start (fuel : ℕ) :
    Simulates Observed.machine (start (D := D) fuel) fun m ↦
      (Controller.start fuel m).map fun m ↦ ((), m) := by
  refine Simulates.congr ((simulates_write Reg.usbcmd _).bind fun _ ↦
    (simulates_pollUntil Reg.usbsts _ fuel).bind fun _ ↦ Simulates.pure _ ()) fun m ↦ ?_
  rw [Controller.start]
  simp only [Option.bind_eq_bind, Option.map_bind, Function.comp_def]
  rfl

/-- **Observation changes nothing**: without memory and log, the program is `Controller.init`. -/
theorem simulates_init (fuel : ℕ) :
    Simulates Observed.machine (init (D := D) P fuel) (Controller.init P fuel) := by
  refine Simulates.congr (simulates_identify.bind fun ids ↦ (simulates_stop fuel).bind fun cmd ↦
    (simulates_reset fuel cmd).bind fun _ ↦ (simulates_allocate ids.1 ids.2).bind fun c ↦
      (simulates_configure c).bind fun _ ↦ (simulates_start fuel).bind fun _ ↦
        Simulates.pure _ c) fun m ↦ ?_
  rw [Controller.init]
  simp only [Option.bind_eq_bind, Option.bind_some, Option.bind_map, Function.comp_def]
  rfl

end Simulation

end Observed

end Punkos
