import Punkos.Foundation.BitField
import Punkos.Xhci.EventRing

/-!
# The xHCI driver

`xhci.rs` as a program on a machine: the driver's state is passed along explicitly, every register
access goes to a controller about which nothing is assumed, and every allocation goes to a heap
that keeps a list of live blocks. A function returns `none` where the source panics, and also where
a polling loop uses up its fuel; that a loop ends is then a statement about the controller.

The register blocks of the controller do not overlap, so a register is named by its block and its
offset there. The pointer arithmetic that leads to it is left out.
-/

namespace Punkos

/-! ## The machine -/

/-- A 32-bit register. -/
inductive Mmio where
  /-- Relative to the BAR. -/
  | cap (offset : ℕ)
  /-- Relative to the operational registers. -/
  | op (offset : ℕ)
  /-- Relative to the runtime registers. -/
  | rt (offset : ℕ)
  /-- The doorbell of a slot. -/
  | doorbell (target : ℕ)
  deriving DecidableEq, Repr

/-- An entry of the event ring segment table. -/
structure ErstEntry where
  /-- The physical address of the segment. -/
  ringBase : BitVec 64
  /-- The number of blocks in it. -/
  ringSize : BitVec 16
  deriving DecidableEq, Repr

/-- A controller. Reading a register may change its state; a write may also make it fetch segment
table entries from memory, which is why it sees them. -/
structure Device where
  /-- The states of the controller. -/
  State : Type
  /-- Read a register. -/
  read : State → Mmio → BitVec 32 × State
  /-- Write a register. -/
  write : (BitVec 64 → Option ErstEntry) → State → Mmio → BitVec 32 → State
  /-- The blocks written to the event ring since the driver last looked, each with its slot. -/
  post : State → List (ℕ × Trb) × State

/-- A block of the heap. -/
structure Block where
  /-- Its first address. -/
  start : ℕ
  /-- Its size in bytes. -/
  size : ℕ
  deriving DecidableEq, Repr

/-- The address lies in the block. -/
def Block.Contains (b : Block) (v : ℕ) : Prop := b.start ≤ v ∧ v < b.start + b.size

instance (b : Block) (v : ℕ) : Decidable (b.Contains v) := inferInstanceAs (Decidable (_ ∧ _))

/-- Everything the driver works on. -/
structure Machine (D : Device) where
  /-- The controller. -/
  dev : D.State
  /-- The live blocks of the heap. -/
  live : List Block
  /-- The segment table entries in memory, by physical address. -/
  erst : BitVec 64 → Option ErstEntry
  /-- The register writes made so far, newest first. -/
  writes : List (Mmio × BitVec 32)

/-- What the driver uses of the rest of the kernel. -/
structure Platform where
  /-- `memory::virt_to_phys` with the tables in force. -/
  translate : ℕ → Option (BitVec 64)
  /-- The heap allocator: where it puts a block of this size and alignment, given the live ones. -/
  alloc : List Block → ℕ → ℕ → Option ℕ

namespace Machine

variable {D : Device} (m : Machine D)

/-- `read_volatile`. -/
def read (r : Mmio) : BitVec 32 × Machine D :=
  ((D.read m.dev r).1, { m with dev := (D.read m.dev r).2 })

/-- `write_volatile`. -/
def write (r : Mmio) (v : BitVec 32) : Machine D :=
  { m with dev := D.write m.erst m.dev r v, writes := (r, v) :: m.writes }

/-- Two 32-bit writes, the low half first. -/
def write64 (low high : Mmio) (v : BitVec 64) : Machine D :=
  (m.write low (v.setWidth 32)).write high ((v >>> 32).setWidth 32)

/-- Read a register until the value passes the test. -/
def pollUntil (r : Mmio) (p : BitVec 32 → Bool) : ℕ → Machine D → Option (BitVec 32 × Machine D)
  | 0, _ => none
  | fuel + 1, m =>
    if p (m.read r).1 then some (m.read r) else pollUntil r p fuel (m.read r).2

/-- `alloc`. -/
def alloc (P : Platform) (size align : ℕ) : Option (ℕ × Machine D) :=
  (P.alloc m.live size align).map fun ptr ↦ (ptr, { m with live := ⟨ptr, size⟩ :: m.live })

/-- `dealloc` of the first `size` bytes of the block at `ptr`. What the block has beyond them is
not given back. -/
def dealloc (ptr size : ℕ) : Machine D :=
  { m with live := m.live.map fun b ↦
      if b.start = ptr then ⟨ptr + size, b.size - size⟩ else b }

/-- What the driver finds in the event ring. -/
def sync (ring : Ring) : Ring × Machine D :=
  ((D.post m.dev).1.foldl (fun r e ↦ r.store e.1 e.2) ring, { m with dev := (D.post m.dev).2 })

end Machine

/-! ## Registers -/

namespace Reg

/-- HCSPARAMS1. -/
def hcsparams1 : Mmio := .cap 4

/-- USBCMD. -/
def usbcmd : Mmio := .op 0x00

/-- USBSTS. -/
def usbsts : Mmio := .op 0x04

/-- CRCR, low half. -/
def crcrLow : Mmio := .op 0x18

/-- CRCR, high half. -/
def crcrHigh : Mmio := .op 0x1c

/-- DCBAAP, low half. -/
def dcbaapLow : Mmio := .op 0x30

/-- DCBAAP, high half. -/
def dcbaapHigh : Mmio := .op 0x34

/-- CONFIG. -/
def config : Mmio := .op 0x38

/-- IMAN of interrupter 0. -/
def iman : Mmio := .rt 0x20

/-- ERSTSZ of interrupter 0. -/
def erstsz : Mmio := .rt 0x28

/-- ERSTBA of interrupter 0, low half. -/
def erstbaLow : Mmio := .rt 0x30

/-- ERSTBA of interrupter 0, high half. -/
def erstbaHigh : Mmio := .rt 0x34

/-- ERDP of interrupter 0, low half. -/
def erdpLow : Mmio := .rt 0x38

/-- ERDP of interrupter 0, high half. -/
def erdpHigh : Mmio := .rt 0x3c

/-- PORTSC of a port, counted from 1. -/
def portsc (port : ℕ) : Mmio := .op (0x400 + (port - 1) * 0x10)

end Reg

namespace Usbcmd

/-- Run. -/
def rs : BitVec 32 := 1 <<< 0

/-- Host controller reset. -/
def hcrst : BitVec 32 := 1 <<< 1

/-- Interrupter enable. -/
def inte : BitVec 32 := 1 <<< 2

/-- Host system error enable. -/
def hsee : BitVec 32 := 1 <<< 3

end Usbcmd

namespace Usbsts

/-- Halted. -/
def hch : BitVec 32 := 1 <<< 0

/-- Controller not ready. -/
def cnr : BitVec 32 := 1 <<< 11

end Usbsts

namespace Portsc

/-- Current connect status. -/
def ccs : BitVec 32 := 1 <<< 0

/-- Port enabled. -/
def ped : BitVec 32 := 1 <<< 1

/-- Port reset. -/
def pr : BitVec 32 := 1 <<< 4

/-- Port power. -/
def pp : BitVec 32 := 1 <<< 9

/-- Port reset change. -/
def prc : BitVec 32 := 1 <<< 21

end Portsc

/-! ## Structures shared with the controller -/

/-- Round up to a multiple of 64: `(ptr + 63) & !63`. -/
def align64 (ptr : ℕ) : ℕ := (ptr + 63) / 64 * 64

theorem dvd_align64 (ptr : ℕ) : 64 ∣ align64 ptr := Nat.dvd_mul_left 64 _

theorem le_align64 (ptr : ℕ) : ptr ≤ align64 ptr := by
  rw [align64]
  omega

theorem align64_le (ptr : ℕ) : align64 ptr ≤ ptr + 63 := Nat.div_mul_le_self _ 64

/-- The array of device context pointers. -/
structure Dcbaa where
  /-- The address of the boxed slice. -/
  base : ℕ
  /-- The pointers. -/
  ptrs : List (BitVec 64)
  /-- The physical address of the first. -/
  phys : BitVec 64

section Code

variable {D : Device} (P : Platform)

/-- Allocate a ring of `count` blocks. -/
def Ring.new (count : ℕ) (hcount : ∃ k, count = 2 ^ k) (m : Machine D) :
    Option (Ring × Machine D) := do
  let (ptr, m) ← m.alloc P (count * 16 + 64) 64
  let phys ← P.translate (align64 ptr)
  return (Ring.fresh (align64 ptr) phys count hcount, m)

/-- Allocate the device context base address array. -/
def Dcbaa.new (maxSlots : BitVec 8) (m : Machine D) : Option (Dcbaa × Machine D) := do
  let count := maxSlots.toNat + 1
  let (ptr, m) ← m.alloc P (count * 8 + 64) 64
  let phys ← P.translate (align64 ptr)
  return (⟨align64 ptr, List.replicate count 0, phys⟩, m)

/-- Allocate and fill a segment table with one entry. Its block is never released. -/
def allocateErst (eventRing : Ring) (m : Machine D) : Option (BitVec 64 × Machine D) := do
  let (ptr, m) ← m.alloc P (16 + 64) 64
  let phys ← P.translate (align64 ptr)
  let entry : ErstEntry := ⟨eventRing.phys, BitVec.ofNat 16 eventRing.trbs.length⟩
  return (phys, { m with erst := Function.update m.erst phys (some entry) })

/-! ## The controller -/

/-- An initialised controller. -/
structure Controller where
  /-- The command ring. -/
  cmdRing : Ring
  /-- The event ring. -/
  eventRing : Ring
  /-- The device context base address array. -/
  dcbaa : Dcbaa
  /-- HCSPARAMS1.MaxSlots. -/
  maxSlots : BitVec 8
  /-- HCSPARAMS1.MaxPorts. -/
  maxPorts : BitVec 8

namespace Controller

/-- What is read before anything is written: CAPLENGTH and RTSOFF, the version, and twice
HCSPARAMS1. -/
def identify (m : Machine D) : BitVec 8 × BitVec 8 × Machine D :=
  let m := (((m.read (.cap 0x00)).2.read (.cap 0x18)).2.read (.cap 0x00)).2
  let (slots, m) := m.read Reg.hcsparams1
  let (ports, m) := m.read Reg.hcsparams1
  (slots.setWidth 8, ((ports >>> 24) &&& 0xFF).setWidth 8, m)

/-- Step 1: stop. Also returns the value USBCMD had. -/
def stop (fuel : ℕ) (m : Machine D) : Option (BitVec 32 × Machine D) := do
  let (cmd, m) := m.read Reg.usbcmd
  let m := m.write Reg.usbcmd (cmd &&& ~~~Usbcmd.rs)
  let (_, m) ← m.pollUntil Reg.usbsts (· &&& Usbsts.hch ≠ 0) fuel
  return (cmd, m)

/-- Step 2: reset. -/
def reset (fuel : ℕ) (cmd : BitVec 32) (m : Machine D) : Option (Machine D) := do
  let m := m.write Reg.usbcmd (cmd ||| Usbcmd.hcrst)
  let (_, m) ← m.pollUntil Reg.usbcmd (· &&& Usbcmd.hcrst = 0) fuel
  let (_, m) ← m.pollUntil Reg.usbsts (· &&& Usbsts.cnr = 0) fuel
  return m

/-- Step 3: allocate. -/
def allocate (maxSlots maxPorts : BitVec 8) (m : Machine D) : Option (Controller × Machine D) := do
  let (cmdRing, m) ← Ring.new P 256 exists_pow_256 m
  let (eventRing, m) ← Ring.new P 256 exists_pow_256 m
  let (dcbaa, m) ← Dcbaa.new P maxSlots m
  return (⟨cmdRing, eventRing, dcbaa, maxSlots, maxPorts⟩, m)

/-- `write_erstba`. -/
def writeErstba (phys : BitVec 64) (m : Machine D) : Machine D :=
  m.write64 Reg.erstbaLow Reg.erstbaHigh phys

/-- `write_erstsz`. The write is 16 bits wide; the upper half of the register is reserved. -/
def writeErstsz (count : BitVec 16) (m : Machine D) : Machine D :=
  m.write Reg.erstsz (count.setWidth 32)

/-- `enable_interrupter`. -/
def enableInterrupter (m : Machine D) : Machine D :=
  (m.write Reg.iman (1 <<< 1)).write Reg.iman (1 <<< 0)

/-- Step 4: configure. -/
def configure (c : Controller) (m : Machine D) : Option (Machine D) := do
  let m := m.write Reg.config (c.maxSlots.setWidth 32)
  let m := m.write64 Reg.dcbaapLow Reg.dcbaapHigh c.dcbaa.phys
  let m := m.write64 Reg.crcrLow Reg.crcrHigh (c.cmdRing.phys ||| 1)
  let (segPhys, m) ← allocateErst P c.eventRing m
  let m := writeErstba segPhys m
  let m := writeErstsz 1 m
  let m := m.write64 Reg.erdpLow Reg.erdpHigh c.eventRing.phys
  return enableInterrupter m

/-- Step 5: start. -/
def start (fuel : ℕ) (m : Machine D) : Option (Machine D) := do
  let m := m.write Reg.usbcmd (Usbcmd.rs ||| Usbcmd.inte ||| Usbcmd.hsee)
  let (_, m) ← m.pollUntil Reg.usbsts (· &&& Usbsts.hch = 0) fuel
  return m

/-- Bring the controller up. -/
def init (fuel : ℕ) (m : Machine D) : Option (Controller × Machine D) := do
  let (maxSlots, maxPorts, m) := identify m
  let (cmd, m) ← stop fuel m
  let m ← reset fuel cmd m
  let (c, m) ← allocate P maxSlots maxPorts m
  let m ← configure P c m
  let m ← start fuel m
  return (c, m)

/-- The polling loop of `noop`. -/
def awaitCompletion (cmdRing : Ring) : ℕ → Ring → Machine D → Bool × Ring × Machine D
  | 0, eventRing, m => (false, eventRing, m)
  | n + 1, eventRing, m =>
    match checkEvent cmdRing (m.sync eventRing).1 with
    | some (b, cleared) => (b, cleared, (m.sync eventRing).2)
    | none => awaitCompletion cmdRing n (m.sync eventRing).1 (m.sync eventRing).2

/-- Issue a No-Op and wait for its completion. -/
def noop (c : Controller) (m : Machine D) : Bool × Controller × Machine D :=
  let cmdRing := c.cmdRing.push noOpTrb
  let (_, m) := m.read (.cap 0x14)
  let m := m.write (.doorbell 0) 0
  let r := awaitCompletion cmdRing noopPolls c.eventRing m
  (r.1, { c with cmdRing := cmdRing, eventRing := r.2.1 }, r.2.2)

/-- The body of the loop of `initialise_ports`: whether something is connected. -/
def initialisePort (fuel port : ℕ) (m : Machine D) : Option (Bool × Machine D) :=
  let (sc, m) := m.read (Reg.portsc port)
  if sc &&& Portsc.ccs = 0 then some (false, m)
  else if sc &&& Portsc.ped = 0 then do
    let m := m.write (Reg.portsc port) (sc ||| Portsc.pp ||| Portsc.pr)
    let (sc, m) ← m.pollUntil (Reg.portsc port) (· &&& Portsc.prc ≠ 0) fuel
    let m := m.write (Reg.portsc port) (sc ||| Portsc.prc)
    let (_, m) := m.read (Reg.portsc port)
    return (true, m)
  else some (true, m)

/-- The loop of `initialise_ports`, with the number of connected ports so far. -/
def portLoop (fuel : ℕ) : List ℕ → ℕ → Machine D → Option (ℕ × Machine D)
  | [], connected, m => some (connected, m)
  | port :: ports, connected, m =>
    (initialisePort fuel port m).bind fun r ↦
      portLoop fuel ports (if r.1 then connected + 1 else connected) r.2

/-- Reset every connected port that is not enabled, and count the connected ones. -/
def initialisePorts (fuel : ℕ) (c : Controller) (m : Machine D) : Option (ℕ × Machine D) :=
  portLoop fuel (List.range' 1 c.maxPorts.toNat) 0 m

end Controller

end Code

/-- The two halves of a 64-bit write. -/
theorem append_halves (v : BitVec 64) : (v >>> 32).setWidth 32 ++ v.setWidth 32 = v := by
  rw [BitVec.setWidth_ushiftRight_eq_extractLsb, BitVec.setWidth_eq_extractLsb' (by decide)]
  exact BitField.extractLsb'_append_extractLsb' (n := 32) (k := 32) v

/-! ## Polling and allocating, from the result back -/

section Inversion

variable {D : Device} {P : Platform} {m m' : Machine D}

/-- **The polling rule.** What reads of a register preserve, polling it preserves; and when the
loop ends, the last value read has passed the test. -/
theorem Machine.pollUntil_invariant {I : Machine D → Prop} {r : Mmio} {p : BitVec 32 → Bool}
    (hread : ∀ m, I m → I (m.read r).2) {fuel : ℕ} {v : BitVec 32} (hm : I m)
    (h : m.pollUntil r p fuel = some (v, m')) :
    I m' ∧ p v = true ∧ ∃ m₀, I m₀ ∧ m₀.read r = (v, m') := by
  induction fuel generalizing m with
  | zero => cases h
  | succ fuel ih =>
    rw [Machine.pollUntil] at h
    by_cases hp : p (m.read r).1 = true
    · rw [if_pos hp, Option.some.injEq] at h
      have hv : (m.read r).1 = v := congrArg Prod.fst h
      have hm' : (m.read r).2 = m' := congrArg Prod.snd h
      exact ⟨hm' ▸ hread m hm, hv ▸ hp, m, hm, h⟩
    · rw [if_neg hp] at h
      exact ih (hread m hm) h

/-- Polling changes the controller only. -/
theorem Machine.pollUntil_frame {r : Mmio} {p : BitVec 32 → Bool} {fuel : ℕ} {v : BitVec 32}
    (h : m.pollUntil r p fuel = some (v, m')) :
    m'.live = m.live ∧ m'.erst = m.erst ∧ m'.writes = m.writes :=
  (Machine.pollUntil_invariant
    (I := fun u ↦ u.live = m.live ∧ u.erst = m.erst ∧ u.writes = m.writes)
    (fun _ hu ↦ hu) ⟨rfl, rfl, rfl⟩ h).1

theorem Machine.alloc_eq_some {size align ptr : ℕ} (h : m.alloc P size align = some (ptr, m')) :
    P.alloc m.live size align = some ptr ∧ m' = { m with live := ⟨ptr, size⟩ :: m.live } := by
  obtain ⟨ptr', hptr, heq⟩ := Option.map_eq_some_iff.mp h
  obtain ⟨rfl, rfl⟩ := Prod.mk.inj heq
  exact ⟨hptr, rfl⟩

/-- A block whose aligned start has a physical address, as the three allocations below take it. -/
theorem Machine.allocBlock_eq_some {β : Type*} {size : ℕ} {b : β}
    (k : ℕ → BitVec 64 → Machine D → β)
    (h : ((m.alloc P size 64).bind fun x ↦
      (P.translate (align64 x.1)).bind fun phys ↦ some (k x.1 phys x.2)) = some b) :
    ∃ ptr phys, P.alloc m.live size 64 = some ptr ∧ P.translate (align64 ptr) = some phys ∧
      k ptr phys { m with live := ⟨ptr, size⟩ :: m.live } = b := by
  obtain ⟨⟨ptr, m₁⟩, halloc, h⟩ := Option.bind_eq_some_iff.mp h
  obtain ⟨phys, hphys, h⟩ := Option.bind_eq_some_iff.mp h
  obtain ⟨hptr, rfl⟩ := Machine.alloc_eq_some halloc
  exact ⟨ptr, phys, hptr, hphys, Option.some.inj h⟩

theorem Ring.new_eq_some {count : ℕ} {hcount : ∃ k, count = 2 ^ k} {ring : Ring}
    (h : Ring.new P count hcount m = some (ring, m')) :
    ∃ ptr phys, P.alloc m.live (count * 16 + 64) 64 = some ptr ∧
      P.translate (align64 ptr) = some phys ∧ ring = .fresh (align64 ptr) phys count hcount ∧
      m' = { m with live := ⟨ptr, count * 16 + 64⟩ :: m.live } := by
  obtain ⟨ptr, phys, hptr, hphys, h⟩ := Machine.allocBlock_eq_some
    (fun ptr phys m ↦ (Ring.fresh (align64 ptr) phys count hcount, m)) h
  obtain ⟨rfl, rfl⟩ := Prod.mk.inj h
  exact ⟨ptr, phys, hptr, hphys, rfl, rfl⟩

theorem Dcbaa.new_eq_some {maxSlots : BitVec 8} {dcbaa : Dcbaa}
    (h : Dcbaa.new P maxSlots m = some (dcbaa, m')) :
    ∃ ptr phys, P.alloc m.live ((maxSlots.toNat + 1) * 8 + 64) 64 = some ptr ∧
      P.translate (align64 ptr) = some phys ∧
      dcbaa = ⟨align64 ptr, List.replicate (maxSlots.toNat + 1) 0, phys⟩ ∧
      m' = { m with live := ⟨ptr, (maxSlots.toNat + 1) * 8 + 64⟩ :: m.live } := by
  obtain ⟨ptr, phys, hptr, hphys, h⟩ := Machine.allocBlock_eq_some
    (fun ptr phys m ↦ (Dcbaa.mk (align64 ptr) (List.replicate (maxSlots.toNat + 1) 0) phys, m)) h
  obtain ⟨rfl, rfl⟩ := Prod.mk.inj h
  exact ⟨ptr, phys, hptr, hphys, rfl, rfl⟩

theorem allocateErst_eq_some {ring : Ring} {phys : BitVec 64}
    (h : allocateErst P ring m = some (phys, m')) :
    ∃ ptr, P.alloc m.live (16 + 64) 64 = some ptr ∧ P.translate (align64 ptr) = some phys ∧
      m' = { m with
        live := ⟨ptr, 16 + 64⟩ :: m.live
        erst := Function.update m.erst phys
          (some ⟨ring.phys, BitVec.ofNat 16 ring.trbs.length⟩) } := by
  obtain ⟨ptr, phys', hptr, hphys, h⟩ := Machine.allocBlock_eq_some
    (β := BitVec 64 × Machine D) (fun _ phys m ↦ (phys, { m with
      erst := Function.update m.erst phys (some ⟨ring.phys, BitVec.ofNat 16 ring.trbs.length⟩) }))
        h
  obtain ⟨rfl, rfl⟩ := Prod.mk.inj h
  exact ⟨ptr, hptr, hphys, rfl⟩

namespace Controller

/-- The five steps of `init`. -/
theorem init_eq_some {fuel : ℕ} {c : Controller} (h : init P fuel m = some (c, m')) :
    ∃ cmd m₁ m₂ m₃ m₄, stop fuel (identify m).2.2 = some (cmd, m₁) ∧ reset fuel cmd m₁ = some m₂ ∧
      allocate P (identify m).1 (identify m).2.1 m₂ = some (c, m₃) ∧ configure P c m₃ = some m₄ ∧
      start fuel m₄ = some m' := by
  rw [init] at h
  obtain ⟨⟨cmd, m₁⟩, hstop, h⟩ := Option.bind_eq_some_iff.mp h
  obtain ⟨m₂, hreset, h⟩ := Option.bind_eq_some_iff.mp h
  obtain ⟨⟨c', m₃⟩, hallocate, h⟩ := Option.bind_eq_some_iff.mp h
  obtain ⟨m₄, hconfigure, h⟩ := Option.bind_eq_some_iff.mp h
  obtain ⟨m₅, hstart, h⟩ := Option.bind_eq_some_iff.mp h
  obtain ⟨rfl, rfl⟩ := Prod.mk.inj (Option.some.inj h)
  exact ⟨cmd, m₁, m₂, m₃, m₄, hstop, hreset, hallocate, hconfigure, hstart⟩

theorem stop_eq_some {fuel : ℕ} {cmd : BitVec 32} (h : stop fuel m = some (cmd, m')) :
    cmd = (m.read Reg.usbcmd).1 ∧ ∃ v, ((m.read Reg.usbcmd).2.write Reg.usbcmd
      (cmd &&& ~~~Usbcmd.rs)).pollUntil Reg.usbsts (· &&& Usbsts.hch ≠ 0) fuel = some (v, m') := by
  rw [stop] at h
  obtain ⟨⟨v, m₁⟩, hpoll, h⟩ := Option.bind_eq_some_iff.mp h
  obtain ⟨rfl, rfl⟩ := Prod.mk.inj (Option.some.inj h)
  exact ⟨rfl, v, hpoll⟩

theorem reset_eq_some {fuel : ℕ} {cmd : BitVec 32} (h : reset fuel cmd m = some m') :
    ∃ v m₁ v', (m.write Reg.usbcmd (cmd ||| Usbcmd.hcrst)).pollUntil Reg.usbcmd
        (· &&& Usbcmd.hcrst = 0) fuel = some (v, m₁) ∧
      m₁.pollUntil Reg.usbsts (· &&& Usbsts.cnr = 0) fuel = some (v', m') := by
  rw [reset] at h
  obtain ⟨⟨v, m₁⟩, hpoll, h⟩ := Option.bind_eq_some_iff.mp h
  obtain ⟨⟨v', m₂⟩, hpoll', h⟩ := Option.bind_eq_some_iff.mp h
  obtain rfl := Option.some.inj h
  exact ⟨v, m₁, v', hpoll, hpoll'⟩

theorem start_eq_some {fuel : ℕ} (h : start fuel m = some m') :
    ∃ v, (m.write Reg.usbcmd (Usbcmd.rs ||| Usbcmd.inte ||| Usbcmd.hsee)).pollUntil Reg.usbsts
      (· &&& Usbsts.hch = 0) fuel = some (v, m') := by
  rw [start] at h
  obtain ⟨⟨v, m₁⟩, hpoll, h⟩ := Option.bind_eq_some_iff.mp h
  obtain rfl := Option.some.inj h
  exact ⟨v, hpoll⟩

theorem stop_frame {fuel : ℕ} {cmd : BitVec 32} (h : stop fuel m = some (cmd, m')) :
    m'.live = m.live ∧ m'.erst = m.erst ∧
      m'.writes = (Reg.usbcmd, cmd &&& ~~~Usbcmd.rs) :: m.writes := by
  obtain ⟨-, v, hpoll⟩ := stop_eq_some h
  exact Machine.pollUntil_frame hpoll

theorem reset_frame {fuel : ℕ} {cmd : BitVec 32} (h : reset fuel cmd m = some m') :
    m'.live = m.live ∧ m'.erst = m.erst ∧
      m'.writes = (Reg.usbcmd, cmd ||| Usbcmd.hcrst) :: m.writes := by
  obtain ⟨v, m₁, v', hpoll, hpoll'⟩ := reset_eq_some h
  obtain ⟨hlive, herst, hwrites⟩ := Machine.pollUntil_frame hpoll
  obtain ⟨hlive', herst', hwrites'⟩ := Machine.pollUntil_frame hpoll'
  exact ⟨hlive'.trans hlive, herst'.trans herst, hwrites'.trans hwrites⟩

theorem start_frame {fuel : ℕ} (h : start fuel m = some m') :
    m'.live = m.live ∧ m'.erst = m.erst ∧
      m'.writes = (Reg.usbcmd, Usbcmd.rs ||| Usbcmd.inte ||| Usbcmd.hsee) :: m.writes := by
  obtain ⟨v, hpoll⟩ := start_eq_some h
  exact Machine.pollUntil_frame hpoll

theorem allocate_eq_some {maxSlots maxPorts : BitVec 8} {c : Controller}
    (h : allocate P maxSlots maxPorts m = some (c, m')) :
    ∃ m₁ m₂, Ring.new P 256 ⟨8, rfl⟩ m = some (c.cmdRing, m₁) ∧
      Ring.new P 256 ⟨8, rfl⟩ m₁ = some (c.eventRing, m₂) ∧
      Dcbaa.new P maxSlots m₂ = some (c.dcbaa, m') ∧ c.maxSlots = maxSlots ∧
        c.maxPorts = maxPorts := by
  rw [allocate] at h
  obtain ⟨⟨cmdRing, m₁⟩, hcmd, h⟩ := Option.bind_eq_some_iff.mp h
  obtain ⟨⟨eventRing, m₂⟩, hevent, h⟩ := Option.bind_eq_some_iff.mp h
  obtain ⟨⟨dcbaa, m₃⟩, hdcbaa, h⟩ := Option.bind_eq_some_iff.mp h
  obtain ⟨rfl, rfl⟩ := Prod.mk.inj (Option.some.inj h)
  exact ⟨m₁, m₂, hcmd, hevent, hdcbaa, rfl, rfl⟩

/-- The registers written before the segment table is allocated. -/
def writeContexts (c : Controller) (m : Machine D) : Machine D :=
  ((m.write Reg.config (c.maxSlots.setWidth 32)).write64 Reg.dcbaapLow Reg.dcbaapHigh
    c.dcbaa.phys).write64
    Reg.crcrLow Reg.crcrHigh (c.cmdRing.phys ||| 1)

/-- The registers written after it. -/
def writeEventRing (c : Controller) (segPhys : BitVec 64) (m : Machine D) : Machine D :=
  enableInterrupter ((writeErstsz 1 (writeErstba segPhys m)).write64 Reg.erdpLow Reg.erdpHigh
    c.eventRing.phys)

/-- The registers of `writeContexts`. -/
def contextRegs : List Mmio :=
  [Reg.config, Reg.dcbaapLow, Reg.dcbaapHigh, Reg.crcrLow, Reg.crcrHigh]

/-- The registers of `writeEventRing`. -/
def eventRegs : List Mmio :=
  [Reg.erstbaLow, Reg.erstbaHigh, Reg.erstsz, Reg.erdpLow, Reg.erdpHigh, Reg.iman]

/-- What each of its writes keeps, `writeContexts` keeps. -/
theorem writeContexts_invariant {I : Machine D → Prop}
    (hI : ∀ r ∈ contextRegs, ∀ (u : Machine D) v, I u → I (u.write r v)) (c : Controller)
    (hm : I m) :
    I (c.writeContexts m) := by
  have hconfig := hI Reg.config (by decide) m (c.maxSlots.setWidth 32) hm
  have hdcbaap : ∀ u v, I u → I (u.write64 Reg.dcbaapLow Reg.dcbaapHigh v) := fun u v hu ↦
    hI Reg.dcbaapHigh (by decide) _ _ (hI Reg.dcbaapLow (by decide) u _ hu)
  have hcrcr : ∀ u v, I u → I (u.write64 Reg.crcrLow Reg.crcrHigh v) := fun u v hu ↦
    hI Reg.crcrHigh (by decide) _ _ (hI Reg.crcrLow (by decide) u _ hu)
  apply hcrcr
  apply hdcbaap
  exact hconfig

/-- What each of its writes keeps, `writeEventRing` keeps. -/
theorem writeEventRing_invariant {I : Machine D → Prop}
    (hI : ∀ r ∈ eventRegs, ∀ (u : Machine D) v, I u → I (u.write r v)) (c : Controller)
    (segPhys : BitVec 64) (hm : I m) : I (c.writeEventRing segPhys m) := by
  have herstba : I (writeErstba segPhys m) :=
    hI Reg.erstbaHigh (by decide) _ _ (hI Reg.erstbaLow (by decide) m _ hm)
  have herstsz : I (writeErstsz 1 (writeErstba segPhys m)) :=
    hI Reg.erstsz (by decide) _ _ herstba
  have herdp : ∀ u v, I u → I (u.write64 Reg.erdpLow Reg.erdpHigh v) := fun u v hu ↦
    hI Reg.erdpHigh (by decide) _ _ (hI Reg.erdpLow (by decide) u _ hu)
  apply hI Reg.iman (by decide)
  apply hI Reg.iman (by decide)
  exact herdp _ _ herstsz

theorem configure_eq_some {c : Controller} (h : configure P c m = some m') :
    ∃ segPhys m₁, allocateErst P c.eventRing (c.writeContexts m) = some (segPhys, m₁) ∧
      m' = c.writeEventRing segPhys m₁ := by
  rw [configure] at h
  obtain ⟨⟨segPhys, m₁⟩, herst, h⟩ := Option.bind_eq_some_iff.mp h
  obtain rfl := Option.some.inj h
  exact ⟨segPhys, m₁, herst, rfl⟩

end Controller

end Inversion

/-! ## When things succeed -/

section Success

variable {D : Device} {P : Platform} {m : Machine D}

/-- **The termination rule for polling.** If every read either passes the test and establishes `Q`,
or lowers the bound `n` in `I`, then the loop ends within `n + 1` reads. -/
theorem Machine.pollUntil_returns {r : Mmio} {p : BitVec 32 → Bool} {I : Machine D → ℕ → Prop}
    {Q : Machine D → Prop}
    (hread : ∀ m n, I m n → p (m.read r).1 = true ∧ Q (m.read r).2 ∨
      p (m.read r).1 = false ∧ ∃ k < n, I (m.read r).2 k)
    {n fuel : ℕ} (hm : I m n) (hfuel : n < fuel) :
    ∃ v m', m.pollUntil r p fuel = some (v, m') ∧ Q m' := by
  induction fuel generalizing m n with
  | zero => exact absurd hfuel (Nat.not_lt_zero n)
  | succ fuel ih =>
    rw [Machine.pollUntil]
    rcases hread m n hm with ⟨hp, hQ⟩ | ⟨hp, k, hk, hI⟩
    · rw [if_pos hp]
      exact ⟨_, _, rfl, hQ⟩
    · rw [hp, if_neg Bool.noConfusion]
      exact ih hI (by omega)

/-- The heap serves requests for blocks of these sizes, one after the other, and the blocks are
mapped. -/
def Platform.Serves (P : Platform) : List Block → List ℕ → Prop
  | _, [] => True
  | live, size :: sizes => ∃ ptr phys, P.alloc live size 64 = some ptr ∧
      P.translate (align64 ptr) = some phys ∧ P.Serves (⟨ptr, size⟩ :: live) sizes

/-- What one allocation takes and gives. -/
theorem Machine.alloc_of_eq {size ptr : ℕ} (h : P.alloc m.live size 64 = some ptr) :
    m.alloc P size 64 = some (ptr, { m with live := ⟨ptr, size⟩ :: m.live }) := by
  rw [Machine.alloc, h]
  rfl

theorem Ring.new_of_serves (count : ℕ) (hcount : ∃ k, count = 2 ^ k) {sizes : List ℕ}
    (h : P.Serves m.live ((count * 16 + 64) :: sizes)) :
    ∃ ring live, Ring.new P count hcount m = some (ring, { m with live := live }) ∧
      P.Serves live sizes := by
  obtain ⟨ptr, phys, hptr, hphys, hrest⟩ := h
  refine ⟨.fresh (align64 ptr) phys count hcount, _, ?_, hrest⟩
  rw [Ring.new, Machine.alloc_of_eq hptr]
  simp only [Option.bind_eq_bind, Option.bind_some, hphys]
  rfl

theorem Dcbaa.new_of_serves (maxSlots : BitVec 8) {sizes : List ℕ}
    (h : P.Serves m.live (((maxSlots.toNat + 1) * 8 + 64) :: sizes)) :
    ∃ dcbaa live, Dcbaa.new P maxSlots m = some (dcbaa, { m with live := live }) ∧
      P.Serves live sizes := by
  obtain ⟨ptr, phys, hptr, hphys, hrest⟩ := h
  refine ⟨⟨align64 ptr, List.replicate (maxSlots.toNat + 1) 0, phys⟩, _, ?_, hrest⟩
  rw [Dcbaa.new, Machine.alloc_of_eq hptr]
  simp only [Option.bind_eq_bind, Option.bind_some, hphys]
  rfl

/-- The sizes `init` asks for. -/
def Controller.requests (maxSlots : BitVec 8) : List ℕ :=
  [256 * 16 + 64, 256 * 16 + 64, (maxSlots.toNat + 1) * 8 + 64, 16 + 64]

theorem Controller.allocate_of_serves (maxSlots maxPorts : BitVec 8)
    (h : P.Serves m.live (requests maxSlots)) :
    ∃ c live, allocate P maxSlots maxPorts m = some (c, { m with live := live }) ∧
      P.Serves live [16 + 64] := by
  obtain ⟨cmdRing, live₁, hcmd, h⟩ := Ring.new_of_serves 256 ⟨8, rfl⟩ h
  obtain ⟨eventRing, live₂, hevent, h⟩ := Ring.new_of_serves (m := { m with live := live₁ }) 256
    ⟨8, rfl⟩ h
  obtain ⟨dcbaa, live₃, hdcbaa, h⟩ := Dcbaa.new_of_serves (m := { m with live := live₂ })
    maxSlots h
  refine ⟨⟨cmdRing, eventRing, dcbaa, maxSlots, maxPorts⟩, live₃, ?_, h⟩
  rw [allocate, hcmd]
  simp only [Option.bind_eq_bind, Option.bind_some, hevent, hdcbaa]
  rfl

/-- What `init` asks for before it returns, the heap has served. -/
theorem Controller.serves_of_init {fuel : ℕ} {c : Controller} {m' : Machine D}
    (h : init P fuel m = some (c, m')) : P.Serves m.live (requests (identify m).1) := by
  obtain ⟨cmd, m₁, m₂, m₃, m₄, hstop, hreset, hallocate, hconfigure, -⟩ := init_eq_some h
  have hlive : m₂.live = m.live := (reset_frame hreset).1.trans (stop_frame hstop).1
  obtain ⟨m₅, m₆, hcmd, hevent, hdcbaa, -, -⟩ := allocate_eq_some hallocate
  obtain ⟨segPhys, m₇, herst, -⟩ := configure_eq_some hconfigure
  obtain ⟨ptr₁, phys₁, halloc₁, hphys₁, -, rfl⟩ := Ring.new_eq_some hcmd
  obtain ⟨ptr₂, phys₂, halloc₂, hphys₂, -, rfl⟩ := Ring.new_eq_some hevent
  obtain ⟨ptr₃, phys₃, halloc₃, hphys₃, -, rfl⟩ := Dcbaa.new_eq_some hdcbaa
  obtain ⟨ptr₄, halloc₄, hphys₄, -⟩ := allocateErst_eq_some herst
  rw [← hlive]
  exact ⟨ptr₁, phys₁, halloc₁, hphys₁, ptr₂, phys₂, halloc₂, hphys₂, ptr₃, phys₃, halloc₃, hphys₃,
    ptr₄, segPhys, halloc₄, hphys₄, trivial⟩

theorem Controller.configure_of_serves (c : Controller) (h : P.Serves m.live [16 + 64]) :
    ∃ segPhys m₁, configure P c m = some (c.writeEventRing segPhys m₁) ∧
      m₁.dev = (c.writeContexts m).dev := by
  obtain ⟨ptr, phys, hptr, hphys, -⟩ := h
  have hm : P.alloc (c.writeContexts m).live (16 + 64) 64 = some ptr := hptr
  have herst : ∃ m₁, allocateErst P c.eventRing (c.writeContexts m) = some (phys, m₁) ∧
      m₁.dev = (c.writeContexts m).dev := by
    rw [allocateErst, Machine.alloc_of_eq hm]
    simp only [Option.bind_eq_bind, Option.bind_some, hphys]
    exact ⟨_, rfl, rfl⟩
  obtain ⟨m₁, herst, hdev⟩ := herst
  refine ⟨phys, m₁, ?_, hdev⟩
  have hconfigure : configure P c m = (allocateErst P c.eventRing (c.writeContexts m)).bind
      fun r ↦ some (c.writeEventRing r.1 r.2) := rfl
  rw [hconfigure, herst, Option.bind_some]

end Success

end Punkos
