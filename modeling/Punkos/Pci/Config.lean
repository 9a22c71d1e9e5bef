import Mathlib.Tactic.IntervalCases
import Punkos.Foundation.BitField
import Punkos.Pci.Device

/-!
# PCI configuration space

Configuration Mechanism #1: the kernel writes a dword that names a register to the port
CONFIG_ADDRESS and reads the register's value from CONFIG_DATA. The host bridge's half of this, how
it takes the dword apart, is `decodeAddress`; the kernel's half, how it puts the dword together, is
`configAddress`. That the two fit (`read32_eq`) is the only fact about bits in addresses that the
scan of the bus needs.

The assertion in `read32` is a `none`: the kernel panics there.
-/

namespace Punkos.Pci

/-! ## The host bridge -/

/-- Where a register of configuration space is: bus, device, function and dword. -/
structure ConfigRegister where
  /-- Bits 23 to 16 of the address. -/
  bus : BitVec 8
  /-- Bits 15 to 11. -/
  device : BitVec 5
  /-- Bits 10 to 8. -/
  function : BitVec 3
  /-- Bits 7 to 2. -/
  register : BitVec 6
  deriving DecidableEq, Repr

/-- The contents of configuration space. -/
abbrev ConfigSpace := ConfigRegister → BitVec 32

/-- How the host bridge reads CONFIG_ADDRESS: bit 31 enables the mechanism. -/
def decodeAddress (addr : BitVec 32) : Option ConfigRegister :=
  if addr.getLsbD 31 then
    some
      { bus := addr.extractLsb' 16 8
        device := addr.extractLsb' 11 5
        function := addr.extractLsb' 8 3
        register := addr.extractLsb' 2 6 }
  else none

/-- The value read from CONFIG_DATA while CONFIG_ADDRESS holds `addr`. Without the enable bit no
configuration cycle takes place and nobody drives the data lines. -/
def configData (cs : ConfigSpace) (addr : BitVec 32) : BitVec 32 :=
  (decodeAddress addr).elim (BitVec.allOnes 32) cs

/-! ## The kernel's accessors -/

/-- The CONFIG_ADDRESS dword for a byte offset into a function's configuration space. -/
def configAddress (bus device function offset : BitVec 8) : BitVec 32 :=
  0x80000000 ||| bus.setWidth 32 <<< 16 ||| (device &&& 0x1F).setWidth 32 <<< 11 |||
    (function &&& 0x7).setWidth 32 <<< 8 ||| (offset.setWidth 32 &&& 0xFC)

/-- A handle on the configuration space of one function. -/
structure PciConfig where
  /-- Bus number. -/
  bus : BitVec 8
  /-- Device number. -/
  device : BitVec 8
  /-- Function number. -/
  function : BitVec 8

namespace PciConfig

variable (cs : ConfigSpace) (cfg : PciConfig)

/-- Read the dword at a byte offset, which must be aligned. -/
def read32 (offset : BitVec 8) : Option (BitVec 32) :=
  if offset &&& 0x3 = 0 then
    some (configData cs (configAddress cfg.bus cfg.device cfg.function offset))
  else none

/-- Offset 0x00, low half. -/
def vendorId : Option (BitVec 16) := do
  let dword ← cfg.read32 cs 0x00
  return (dword &&& 0xFFFF).setWidth 16

/-- Offset 0x00, high half. -/
def deviceId : Option (BitVec 16) := do
  let dword ← cfg.read32 cs 0x00
  return (dword >>> 16 &&& 0xFFFF).setWidth 16

/-- Offset 0x0C, bits 23 to 16. -/
def headerType : Option (BitVec 8) := do
  let dword ← cfg.read32 cs 0x0C
  return (dword >>> 16 &&& 0xFF).setWidth 8

/-- Class, subclass and programming interface, from offset 0x08. -/
def classInfo : Option (BitVec 8 × BitVec 8 × BitVec 8) := do
  let dword ← cfg.read32 cs 0x08
  return ((dword >>> 24 &&& 0xFF).setWidth 8, (dword >>> 16 &&& 0xFF).setWidth 8,
    (dword >>> 8 &&& 0xFF).setWidth 8)

/-- The BAR at an index from 0 to 5. A 64-bit memory BAR takes its upper half from the next
register. -/
def readBar (barIndex : BitVec 8) : Option Bar := do
  let offset := 0x10 + barIndex * 4
  let raw ← cfg.read32 cs offset
  if raw &&& 0x1 = 1 then return .io ((raw &&& 0xFFFFFFFC).setWidth 16)
  else
    let ty := raw >>> 1 &&& 0x3
    let prefetchable := raw >>> 3 &&& 0x1 = 1
    let addr32 := raw &&& 0xFFFFFFF0
    if ty = 0x0 then return .memory32 addr32 prefetchable
    else if ty = 0x2 then
      let high ← cfg.read32 cs (offset + 4)
      return .memory64 (addr32.setWidth 64 ||| high.setWidth 64 <<< 32) prefetchable
    else return .unknown raw

end PciConfig

/-! ## The two halves fit -/

section Address

variable (bus device function offset : BitVec 8)

theorem configAddress_enable : (configAddress bus device function offset).getLsbD 31 = true := by
  simp [configAddress]

theorem configAddress_bus :
    (configAddress bus device function offset).extractLsb' 16 8 = bus := by
  apply BitVec.eq_of_getLsbD_eq
  intro i hi
  interval_cases i <;> simp [configAddress]

theorem configAddress_device :
    (configAddress bus device function offset).extractLsb' 11 5 = device.setWidth 5 := by
  apply BitVec.eq_of_getLsbD_eq
  intro i hi
  interval_cases i <;> simp [configAddress]

theorem configAddress_function :
    (configAddress bus device function offset).extractLsb' 8 3 = function.setWidth 3 := by
  apply BitVec.eq_of_getLsbD_eq
  intro i hi
  interval_cases i <;> simp [configAddress]

theorem configAddress_register :
    (configAddress bus device function offset).extractLsb' 2 6 = offset.extractLsb' 2 6 := by
  apply BitVec.eq_of_getLsbD_eq
  intro i hi
  interval_cases i <;> simp [configAddress]

end Address

/-- The registers of one function. -/
def PciConfig.registers (cs : ConfigSpace) (cfg : PciConfig) (register : BitVec 6) : BitVec 32 :=
  cs ⟨cfg.bus, cfg.device.setWidth 5, cfg.function.setWidth 3, register⟩

/-- **An aligned read returns the register of the function it is addressed to.** -/
theorem PciConfig.read32_eq (cs : ConfigSpace) (cfg : PciConfig) {offset : BitVec 8}
    (h : offset &&& 0x3 = 0) :
    cfg.read32 cs offset = some (cfg.registers cs (offset.extractLsb' 2 6)) := by
  rw [read32, if_pos h, configData, decodeAddress, if_pos (configAddress_enable ..),
    configAddress_bus, configAddress_device, configAddress_function, configAddress_register]
  rfl

/-! ## What the registers of a function say

The same decoding without ports and masks, as fields of registers. -/

section Fields

variable (dword : BitVec 32)

theorem byte_eq (k : ℕ) : (dword >>> k &&& 0xFF).setWidth 8 = dword.extractLsb' k 8 :=
  BitField.setWidth_ushiftRight_and_low dword k 8

theorem half_eq (k : ℕ) : (dword >>> k &&& 0xFFFF).setWidth 16 = dword.extractLsb' k 16 :=
  BitField.setWidth_ushiftRight_and_low dword k 16

theorem lowBit_eq_one_iff : dword &&& 0x1 = 1 ↔ dword.getLsbD 0 = true := by
  constructor
  · intro h
    have hbit := congrArg (·.getLsbD 0) h
    simpa using hbit
  · intro h
    apply BitVec.eq_of_getLsbD_eq
    intro i hi
    interval_cases i <;> simp [h]

theorem barType_eq : dword >>> 1 &&& 0x3 = (dword.extractLsb' 1 2).setWidth 32 :=
  BitField.ushiftRight_and_low dword 1 2

theorem barBase_eq :
    dword &&& (0xFFFFFFF0 : BitVec 32) = (dword.extractLsb' 4 28).setWidth 32 <<< 4 := by
  have hmask : (0xFFFFFFF0 : BitVec 32) = ~~~BitField.low 32 4 := by decide
  rw [hmask]
  exact BitField.and_not_low (k := 4) (n := 28) rfl dword

theorem barPort_eq :
    (dword &&& 0xFFFFFFFC).setWidth 16 = (dword.extractLsb' 2 14).setWidth 16 <<< 2 := by
  have hmask : (0xFFFFFFFC : BitVec 32).setWidth 16 = ~~~BitField.low 16 2 := by decide
  rw [BitVec.setWidth_and, hmask, BitField.and_not_low (k := 2) (n := 14) rfl,
    BitVec.extractLsb'_setWidth_of_le (by decide)]

end Fields

/-- The BAR that starts at register `4 + i`: bit 0 tells I/O from memory and bits 2 and 1 give the
width of a memory BAR. -/
def Bar.ofRegisters (regs : BitVec 6 → BitVec 32) (i : BitVec 6) : Bar :=
  let low := regs (4 + i)
  if low.getLsbD 0 then .io ((low.extractLsb' 2 14).setWidth 16 <<< 2)
  else if low.extractLsb' 1 2 = 0 then
    .memory32 ((low.extractLsb' 4 28).setWidth 32 <<< 4) (low.getLsbD 3)
  else if low.extractLsb' 1 2 = 2 then
    .memory64 (((low.extractLsb' 4 28).setWidth 32 <<< 4).setWidth 64 |||
      (regs (4 + i + 1)).setWidth 64 <<< 32) (low.getLsbD 3)
  else .unknown low

namespace PciConfig

variable (cs : ConfigSpace) (cfg : PciConfig)

theorem vendorId_eq : cfg.vendorId cs = some ((cfg.registers cs 0).extractLsb' 0 16) := by
  rw [vendorId, cfg.read32_eq cs rfl, ← half_eq]
  rfl

theorem deviceId_eq : cfg.deviceId cs = some ((cfg.registers cs 0).extractLsb' 16 16) := by
  rw [deviceId, cfg.read32_eq cs rfl, ← half_eq]
  rfl

theorem headerType_eq : cfg.headerType cs = some ((cfg.registers cs 3).extractLsb' 16 8) := by
  rw [headerType, cfg.read32_eq cs rfl, ← byte_eq]
  rfl

theorem classInfo_eq : cfg.classInfo cs = some ((cfg.registers cs 2).extractLsb' 24 8,
    (cfg.registers cs 2).extractLsb' 16 8, (cfg.registers cs 2).extractLsb' 8 8) := by
  rw [classInfo, cfg.read32_eq cs rfl, ← byte_eq, ← byte_eq, ← byte_eq]
  rfl

theorem readBar_eq {i : ℕ} (hi : i < 6) :
    cfg.readBar cs (BitVec.ofNat 8 i) =
      some (Bar.ofRegisters (cfg.registers cs) (BitVec.ofNat 6 i)) := by
  have hlow : cfg.read32 cs (0x10 + BitVec.ofNat 8 i * 4) =
      some (cfg.registers cs (4 + BitVec.ofNat 6 i)) := by
    interval_cases i <;> exact cfg.read32_eq cs rfl
  have hhigh : cfg.read32 cs (0x10 + BitVec.ofNat 8 i * 4 + 4) =
      some (cfg.registers cs (4 + BitVec.ofNat 6 i + 1)) := by
    interval_cases i <;> exact cfg.read32_eq cs rfl
  have hty : ∀ x y : BitVec 2, x.setWidth 32 = y.setWidth 32 ↔ x = y := fun x y ↦
    BitField.setWidth_inj_of_le (by decide)
  have hty₀ : ∀ x : BitVec 2, x.setWidth 32 = 0x0 ↔ x = 0 := fun x ↦ hty x 0
  have hty₂ : ∀ x : BitVec 2, x.setWidth 32 = 0x2 ↔ x = 2 := fun x ↦ hty x 2
  unfold readBar Bar.ofRegisters
  simp only [hlow, hhigh, Option.bind_eq_bind, Option.bind_some, barPort_eq, barBase_eq,
    barType_eq, lowBit_eq_one_iff, hty₀, hty₂, Bool.decide_eq_true, pure]
  split_ifs <;> rfl

end PciConfig

end Punkos.Pci
