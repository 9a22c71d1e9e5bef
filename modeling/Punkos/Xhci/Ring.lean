import Mathlib.Data.Nat.Bitwise
import Mathlib.Data.List.Basic

/-!
# Transfer request blocks and rings

The driver and the controller talk through arrays of 16-byte transfer request blocks. A producer
marks each block it writes with its cycle bit, and a consumer takes a block as written when that
bit agrees with its own state. This module is the driver's side: `Trb`, `Ring` and the operations
on them. Where a ring lives in memory is the business of `Ring.new`, in `Punkos.Xhci.Driver`.

A `Ring` carries what the assertion in `Ring::new` establishes: the number of slots is a power of
two, and the enqueue index is a slot.
-/

namespace Punkos

/-! ## Blocks -/

/-- A transfer request block. -/
@[ext]
structure Trb where
  /-- Bytes 0 to 7. -/
  parameter : BitVec 64
  /-- Bytes 8 to 11. -/
  status : BitVec 32
  /-- Bytes 12 to 15; bit 0 is the cycle bit. -/
  control : BitVec 32
  deriving DecidableEq, Repr

namespace Trb

/-- The block a ring is filled with at first. -/
def zero : Trb := ⟨0, 0, 0⟩

/-- Bit 0 of the control word. -/
def cycleBit (t : Trb) : Bool := t.control &&& 1 ≠ 0

/-- Bits 15 to 10 of the control word. -/
def trbType (t : Trb) : BitVec 8 := ((t.control >>> 10) &&& 0x3F).setWidth 8

end Trb

namespace TrbType

/-- Link: the ring continues elsewhere. -/
def link : BitVec 8 := 6

/-- No Op command. -/
def noOpCmd : BitVec 8 := 23

/-- Command Completion event. -/
def commandCompletion : BitVec 8 := 33

/-- Port Status Change event. -/
def portStatusChange : BitVec 8 := 34

end TrbType

/-- 256, the size of all rings of the driver, is a power of two. -/
theorem exists_pow_256 : ∃ k, 256 = 2 ^ k := ⟨8, rfl⟩

/-- The No-Op command as `Controller::noop` pushes it. -/
def noOpTrb : Trb := ⟨0, 0, TrbType.noOpCmd.setWidth 32 <<< 10⟩

/-! ## Rings -/

/-- A ring as the driver holds it. -/
structure Ring where
  /-- The address of the boxed slice. -/
  base : ℕ
  /-- The slots. -/
  trbs : List Trb
  /-- The physical address of slot 0. -/
  phys : BitVec 64
  /-- The slot the next `push` writes. -/
  enqueue : ℕ
  /-- The cycle bit the next `push` writes. -/
  cycle : Bool
  /-- `Ring::new` insists on a power of two. -/
  length_eq : ∃ k, trbs.length = 2 ^ k
  /-- The enqueue index is a slot. -/
  enqueue_lt : enqueue < trbs.length

/-- A block as `push` stores it: the cycle bit replaced, everything else kept. -/
def Trb.stamp (cycle : Bool) (t : Trb) : Trb :=
  { t with control := (t.control &&& ~~~1) ||| (if cycle then 1 else 0) }

/-- A block without its cycle bit: what the producer meant to say. -/
def Trb.payload (t : Trb) : Trb := { t with control := t.control &&& ~~~1 }

namespace Ring

/-- The ring `Ring::new` hands out: all slots zero, the producer at slot 0 with cycle bit 1. -/
def fresh (base : ℕ) (phys : BitVec 64) (count : ℕ) (hcount : ∃ k, count = 2 ^ k) : Ring where
  base := base
  trbs := List.replicate count Trb.zero
  phys := phys
  enqueue := 0
  cycle := true
  length_eq := by rw [List.length_replicate]; exact hcount
  enqueue_lt := by
    obtain ⟨k, rfl⟩ := hcount
    rw [List.length_replicate]
    exact Nat.two_pow_pos k

/-- Write one block and move on to the next slot. -/
def push (r : Ring) (t : Trb) : Ring where
  base := r.base
  trbs := r.trbs.set r.enqueue (t.stamp r.cycle)
  phys := r.phys
  enqueue := (r.enqueue + 1) &&& (r.trbs.length - 1)
  cycle := r.cycle
  length_eq := by rw [List.length_set]; exact r.length_eq
  enqueue_lt := by
    have := r.enqueue_lt
    have := Nat.and_le_right (n := r.enqueue + 1) (m := r.trbs.length - 1)
    rw [List.length_set]
    omega

/-- Overwrite one slot, the index aside: what the owner of an event ring does to clear a block, and
what the controller does to post one. -/
def store (r : Ring) (i : ℕ) (t : Trb) : Ring where
  base := r.base
  trbs := r.trbs.set i t
  phys := r.phys
  enqueue := r.enqueue
  cycle := r.cycle
  length_eq := by rw [List.length_set]; exact r.length_eq
  enqueue_lt := by rw [List.length_set]; exact r.enqueue_lt

/-- The block in slot 0. -/
def first (r : Ring) : Trb := r.trbs.get ⟨0, Nat.zero_lt_of_lt r.enqueue_lt⟩

/-- Flip the producer's cycle bit. Nothing in the driver calls it. -/
def toggleCycle (r : Ring) : Ring := { r with cycle := !r.cycle }

end Ring

/-! ## The cycle bit and the type -/

theorem Trb.cycleBit_eq (t : Trb) : t.cycleBit = t.control.getLsbD 0 := by
  rw [Trb.cycleBit, show (1 : BitVec 32) = 1#32 from rfl,
    BitVec.and_one_eq_setWidth_ofBool_getLsbD]
  cases t.control.getLsbD 0 <;> decide

@[simp] theorem Trb.cycleBit_stamp (b : Bool) (t : Trb) : (t.stamp b).cycleBit = b := by
  rw [Trb.cycleBit_eq, Trb.stamp]
  cases b <;> simp

@[simp] theorem Trb.cycleBit_zero : Trb.zero.cycleBit = false := by decide

/-- Stamping leaves the payload alone. -/
@[simp] theorem Trb.payload_stamp (b : Bool) (t : Trb) : (t.stamp b).payload = t.payload := by
  have hbit : (if b then 1 else 0 : BitVec 32) &&& ~~~1 = 0 := by cases b <;> decide
  have hmask : (~~~1 &&& ~~~1 : BitVec 32) = ~~~1 := by decide
  unfold Trb.payload Trb.stamp
  rw [BitVec.and_or_distrib_right, BitVec.and_assoc, hmask, hbit]
  simp

/-- Stamping leaves the type alone. -/
@[simp] theorem Trb.trbType_stamp (b : Bool) (t : Trb) : (t.stamp b).trbType = t.trbType := by
  have hbit : (if b then 1 else 0 : BitVec 32) >>> 10 = 0#32 := by cases b <;> decide
  have hmask : ((~~~1 : BitVec 32) >>> 10) &&& 0x3F = 0x3F := by decide
  unfold Trb.trbType Trb.stamp
  rw [BitVec.ushiftRight_or_distrib, BitVec.ushiftRight_and_distrib, hbit, BitVec.or_zero,
    BitVec.and_assoc, hmask]

theorem Ring.first_store (r : Ring) (i : ℕ) (t : Trb) :
    (r.store i t).first = if i = 0 then t else r.first := by
  unfold Ring.first Ring.store
  simp only [List.get_eq_getElem, List.getElem_set]

/-- The mask in `push` is reduction modulo the number of slots. -/
theorem Ring.and_length_sub_one (r : Ring) (n : ℕ) :
    n &&& (r.trbs.length - 1) = n % r.trbs.length := by
  obtain ⟨k, hk⟩ := r.length_eq
  rw [hk, Nat.and_two_pow_sub_one_eq_mod]

end Punkos
