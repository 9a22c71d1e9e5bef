import Mathlib.Data.List.Basic

/-!
# PCI devices

The part of `pci.rs` that comes after the bus scan: what a base address register says, what a
device record holds, and which devices are xHCI controllers.
-/

namespace Punkos.Pci

/-- A decoded base address register. -/
inductive Bar where
  /-- An I/O port. -/
  | io (port : BitVec 16)
  /-- Memory below 4 GiB. -/
  | memory32 (base : BitVec 32) (prefetchable : Bool)
  /-- Memory anywhere; takes two registers. -/
  | memory64 (base : BitVec 64) (prefetchable : Bool)
  /-- A reserved type. -/
  | unknown (raw : BitVec 32)
  deriving DecidableEq, Repr

/-- The physical base address of a memory BAR. -/
def Bar.memoryBase : Bar → Option (BitVec 64)
  | .memory32 base _ => some (base.setWidth 64)
  | .memory64 base _ => some base
  | .io _ => none
  | .unknown _ => none

/-- A device found on the bus. -/
structure Device where
  /-- Bus number. -/
  bus : BitVec 8
  /-- Device number. -/
  device : BitVec 8
  /-- Function number. -/
  function : BitVec 8
  /-- Vendor. -/
  vendorId : BitVec 16
  /-- Model. -/
  deviceId : BitVec 16
  /-- Class code. -/
  classCode : BitVec 8
  /-- Subclass. -/
  subclass : BitVec 8
  /-- Programming interface. -/
  progIf : BitVec 8
  /-- Header type. -/
  headerType : BitVec 8
  /-- The decoded BARs. -/
  bars : Fin 6 → Option Bar

/-- The xHCI controllers among the devices: class 0x0C, subclass 0x03, programming interface 0x30.
-/
def findXhci (devices : List Device) : List Device :=
  devices.filter fun d ↦ d.classCode = 0x0C ∧ d.subclass = 0x03 ∧ d.progIf = 0x30

/-- The address `kernel_main` hands to `Controller::init`, if BAR0 is a memory BAR. -/
def Device.mmio (d : Device) : Option (BitVec 64) := (d.bars 0).bind Bar.memoryBase

end Punkos.Pci
