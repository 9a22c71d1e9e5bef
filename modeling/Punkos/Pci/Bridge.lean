import Punkos.Foundation.Command
import Punkos.Pci.Scan

/-!
# Configuration space behind two ports

The kernel does not see configuration space. It has two ports: one holds the address of a register,
the other one moves data to or from the register whose address was written last. `Bridge` is the
host bridge with that latch, and the accessors below are the source's, port access by port access;
`Scan` treats them as reads of a function.

Two results connect the levels. Whatever the latch holds beforehand, the scan through the ports
returns what the scan of the function returns, and changes no register (`Bridge.enumerate_reads`).
And through any sequence of reads and writes the ports are a store (`Bridge.run_spec`): each
register has seen exactly the values written at the addresses that name it, where the numbers of
bus, device, function and offset may be out of range and are cut down by masks, so that several
handles can name one register.
-/

namespace Punkos.Pci

open Command

/-! ## The host bridge -/

/-- What a register makes of a write: the new contents, from the old ones and the written value.
Few registers just take what is written. -/
abbrev WriteRule := ConfigRegister → BitVec 32 → BitVec 32 → BitVec 32

/-- The host bridge. -/
structure Bridge where
  /-- The value in CONFIG_ADDRESS. -/
  address : BitVec 32
  /-- The registers behind CONFIG_DATA. -/
  space : ConfigSpace

/-- The configuration space after `value` is written to CONFIG_DATA while CONFIG_ADDRESS holds
`addr`. -/
def configWrite (rule : WriteRule) (cs : ConfigSpace) (addr value : BitVec 32) : ConfigSpace :=
  (decodeAddress addr).elim cs fun r ↦ Function.update cs r (rule r (cs r) value)

namespace Bridge

/-- A write to CONFIG_ADDRESS. -/
def writeAddress (addr : BitVec 32) : Command Bridge Unit := fun b ↦
  (some (), { b with address := addr })

/-- A read of CONFIG_DATA. -/
def readData : Command Bridge (BitVec 32) := fun b ↦ (some (configData b.space b.address), b)

/-- A write to CONFIG_DATA. -/
def writeData (rule : WriteRule) (value : BitVec 32) : Command Bridge Unit := fun b ↦
  (some (), { b with space := configWrite rule b.space b.address value })

/-! ## The accessors -/

section Accessors

variable (cfg : PciConfig)

/-- Read the dword at a byte offset, which must be aligned. -/
def read32 (offset : BitVec 8) : Command Bridge (BitVec 32) :=
  if offset &&& 0x3 = 0 then do
    writeAddress (configAddress cfg.bus cfg.device cfg.function offset)
    readData
  else stuck

/-- Write the dword at a byte offset, which must be aligned. -/
def write32 (rule : WriteRule) (offset : BitVec 8) (value : BitVec 32) : Command Bridge Unit :=
  if offset &&& 0x3 = 0 then do
    writeAddress (configAddress cfg.bus cfg.device cfg.function offset)
    writeData rule value
  else stuck

/-- Offset 0x00, low half. -/
def vendorId : Command Bridge (BitVec 16) := do
  let dword ← read32 cfg 0x00
  return (dword &&& 0xFFFF).setWidth 16

/-- Offset 0x00, high half. -/
def deviceId : Command Bridge (BitVec 16) := do
  let dword ← read32 cfg 0x00
  return (dword >>> 16 &&& 0xFFFF).setWidth 16

/-- Offset 0x0C, bits 23 to 16. -/
def headerType : Command Bridge (BitVec 8) := do
  let dword ← read32 cfg 0x0C
  return (dword >>> 16 &&& 0xFF).setWidth 8

/-- Class, subclass and programming interface, from offset 0x08. -/
def classInfo : Command Bridge (BitVec 8 × BitVec 8 × BitVec 8) := do
  let dword ← read32 cfg 0x08
  return ((dword >>> 24 &&& 0xFF).setWidth 8, (dword >>> 16 &&& 0xFF).setWidth 8,
    (dword >>> 8 &&& 0xFF).setWidth 8)

/-- The BAR at an index from 0 to 5. -/
def readBar (barIndex : BitVec 8) : Command Bridge Bar := do
  let offset := 0x10 + barIndex * 4
  let raw ← read32 cfg offset
  if raw &&& 0x1 = 1 then return .io ((raw &&& 0xFFFFFFFC).setWidth 16)
  else
    let ty := raw >>> 1 &&& 0x3
    let prefetchable := raw >>> 3 &&& 0x1 = 1
    let addr32 := raw &&& 0xFFFFFFF0
    -- the type in bits 2 and 1; only a 64-bit BAR takes the next register too
    if ty = 0x0 then return .memory32 addr32 prefetchable
    else if ty = 0x2 then
      let high ← read32 cfg (offset + 4)
      return .memory64 (addr32.setWidth 64 ||| high.setWidth 64 <<< 32) prefetchable
    else return .unknown raw

/-- The loop over the BARs. -/
def readBars (barIdx : ℕ) (d : Device) : Command Bridge Device :=
  if h : barIdx < 6 then do
    let bar ← readBar cfg (BitVec.ofNat 8 barIdx)
    let d := { d with bars := Function.update d.bars ⟨barIdx, h⟩ (some bar) }
    -- the upper half of a 64-bit BAR is no BAR of its own
    if bar.isMemory64 then readBars (barIdx + 2) d else readBars (barIdx + 1) d
  else pure d
termination_by 6 - barIdx

end Accessors

/-! ## The scan, port by port -/

/-- One of the functions 1 to 7 of a multi-function device. -/
def scanFunction (bus device : ℕ) (devices : List Device) (function : ℕ) :
    Command Bridge (List Device) := do
  let cfg : PciConfig := ⟨BitVec.ofNat 8 bus, BitVec.ofNat 8 device, BitVec.ofNat 8 function⟩
  let vid ← vendorId cfg
  if vid = 0xFFFF then return devices
  else
    let (classCode, subclass, progIf) ← classInfo cfg
    let deviceId ← deviceId cfg
    let headerType ← headerType cfg
    let dev : Device :=
      { bus := cfg.bus, device := cfg.device, function := cfg.function, vendorId := vid,
        deviceId, classCode, subclass, progIf, headerType, bars := fun _ ↦ none }
    let dev ← readBars cfg 0 dev
    return devices ++ [dev]

/-- One slot: function 0, and the other functions if bit 7 of its header type is set. -/
def scanSlot (bus : ℕ) (devices : List Device) (device : ℕ) : Command Bridge (List Device) := do
  let cfg : PciConfig := ⟨BitVec.ofNat 8 bus, BitVec.ofNat 8 device, 0⟩
  let vid ← vendorId cfg
  -- nothing in the slot
  if vid = 0xFFFF then return devices
  else
    let headerType ← headerType cfg
    let (classCode, subclass, progIf) ← classInfo cfg
    let did ← deviceId cfg
    let deviceInfo : Device :=
      { bus := cfg.bus, device := cfg.device, function := 0, vendorId := vid, deviceId := did,
        classCode, subclass, progIf, headerType, bars := fun _ ↦ none }
    let deviceInfo ← readBars cfg 0 deviceInfo
    let devices := devices ++ [deviceInfo]
    if headerType &&& 0x80 ≠ 0 then (List.range' 1 7).foldlM (scanFunction bus device) devices
    else return devices

/-- `enumerate`: every device on every bus. -/
def enumerate : Command Bridge (List Device) :=
  (List.range 256).foldlM (fun devices bus ↦ (List.range 32).foldlM (scanSlot bus) devices) []

/-! ## The ports simulate the function -/

section Reads

variable (cfg : PciConfig)

/-- Setting the latch makes what it held before irrelevant. -/
theorem read32_reads (offset : BitVec 8) :
    Reads space (read32 cfg offset) fun cs ↦ cfg.read32 cs offset := by
  intro b
  dsimp only
  rw [read32, PciConfig.read32]
  split
  · rfl
  · rfl

theorem vendorId_reads : Reads space (vendorId cfg) fun cs ↦ cfg.vendorId cs :=
  (read32_reads cfg _).bind fun _ ↦ Reads.pure _ _

theorem deviceId_reads : Reads space (deviceId cfg) fun cs ↦ cfg.deviceId cs :=
  (read32_reads cfg _).bind fun _ ↦ Reads.pure _ _

theorem headerType_reads : Reads space (headerType cfg) fun cs ↦ cfg.headerType cs :=
  (read32_reads cfg _).bind fun _ ↦ Reads.pure _ _

theorem classInfo_reads : Reads space (classInfo cfg) fun cs ↦ cfg.classInfo cs :=
  (read32_reads cfg _).bind fun _ ↦ Reads.pure _ _

theorem readBar_reads (barIndex : BitVec 8) :
    Reads space (readBar cfg barIndex) fun cs ↦ cfg.readBar cs barIndex := by
  refine (read32_reads cfg _).bind fun raw ↦ ?_
  dsimp only
  split
  · exact Reads.pure _ _
  split
  · exact Reads.pure _ _
  split
  · exact (read32_reads cfg _).bind fun _ ↦ Reads.pure _ _
  · exact Reads.pure _ _

theorem readBars_reads (barIdx : ℕ) (d : Device) :
    Reads space (readBars cfg barIdx d) fun cs ↦ Pci.readBars cs cfg barIdx d := by
  induction barIdx, d using readBars.induct with
  | case1 barIdx d h ih₁ ih₂ =>
    simp only [readBars.eq_1 cfg barIdx, Pci.readBars.eq_1 _ cfg barIdx, dif_pos h]
    refine (readBar_reads cfg _).bind fun bar ↦ ?_
    split
    · exact ih₁ bar
    · exact ih₂ bar
  | case2 barIdx d h =>
    simp only [readBars.eq_1 cfg barIdx, Pci.readBars.eq_1 _ cfg barIdx, dif_neg h]
    exact Reads.pure _ _

theorem scanFunction_reads (bus device : ℕ) (devices : List Device) (function : ℕ) :
    Reads space (scanFunction bus device devices function)
      fun cs ↦ Pci.scanFunction cs bus device devices function := by
  refine (vendorId_reads _).bind fun vid ↦ ?_
  split
  · exact Reads.pure _ _
  refine (classInfo_reads _).bind fun ⟨_, _, _⟩ ↦ (deviceId_reads _).bind fun _ ↦ ?_
  exact (headerType_reads _).bind fun _ ↦ (readBars_reads _ 0 _).bind fun _ ↦ Reads.pure _ _

theorem scanSlot_reads (bus : ℕ) (devices : List Device) (device : ℕ) :
    Reads space (scanSlot bus devices device) fun cs ↦ Pci.scanSlot cs bus devices device := by
  refine (vendorId_reads _).bind fun vid ↦ ?_
  split
  · exact Reads.pure _ _
  refine (headerType_reads _).bind fun header ↦ (classInfo_reads _).bind fun ⟨_, _, _⟩ ↦ ?_
  refine (deviceId_reads _).bind fun _ ↦ (readBars_reads _ 0 _).bind fun _ ↦ ?_
  dsimp only
  split
  · exact Reads.foldlM (scanFunction_reads bus device) _ _
  · exact Reads.pure _ _

/-- The scan through the ports is the scan of the space behind them. -/
theorem enumerate_reads : Reads space enumerate Pci.enumerate :=
  Reads.foldlM (fun devices bus ↦ Reads.foldlM (scanSlot_reads bus) _ devices) _ _

/-- **The scan through the ports.** Whatever was left in CONFIG_ADDRESS, `enumerate` runs through
without a panic, finds the functions that are present, slot by slot, and changes no register. -/
theorem enumerate_returns (b : Bridge) :
    ∃ b', enumerate b = (some ((List.range 256).flatMap (busDevices b.space)), b') ∧
      b'.space = b.space :=
  enumerate_reads.exists_of_eq_some (enumerate_eq b.space)

end Reads

/-! ## The ports are a store -/

end Bridge

/-- The register that an offset into a function's configuration space names. -/
def PciConfig.register (cfg : PciConfig) (offset : BitVec 8) : ConfigRegister :=
  ⟨cfg.bus, cfg.device.setWidth 5, cfg.function.setWidth 3, offset.extractLsb' 2 6⟩

theorem decodeAddress_configAddress (cfg : PciConfig) (offset : BitVec 8) :
    decodeAddress (configAddress cfg.bus cfg.device cfg.function offset) =
      some (cfg.register offset) := by
  rw [decodeAddress, if_pos (configAddress_enable ..), configAddress_bus, configAddress_device,
    configAddress_function, configAddress_register]
  rfl

/-- One use of the accessors. -/
inductive Access where
  /-- `cfg.read32(offset)`. -/
  | read (cfg : PciConfig) (offset : BitVec 8)
  /-- `cfg.write32(offset, value)`. -/
  | write (cfg : PciConfig) (offset : BitVec 8) (value : BitVec 32)

namespace Access

/-- The handle. -/
def cfg : Access → PciConfig
  | .read cfg _ => cfg
  | .write cfg _ _ => cfg

/-- The offset. -/
def offset : Access → BitVec 8
  | .read _ offset => offset
  | .write _ offset _ => offset

/-- The assertion of the accessors. -/
def Aligned (a : Access) : Prop := a.offset &&& 0x3 = 0

instance : DecidablePred Aligned := fun a ↦ inferInstanceAs (Decidable (a.offset &&& 0x3 = 0))

/-- The access names the register of `cfg` at `offset`: same bus, and the same device, function and
dword after the masks. -/
def Names (a : Access) (cfg : PciConfig) (offset : BitVec 8) : Prop :=
  a.cfg.bus = cfg.bus ∧ a.cfg.device.toNat % 32 = cfg.device.toNat % 32 ∧
    a.cfg.function.toNat % 8 = cfg.function.toNat % 8 ∧ a.offset.toNat / 4 = offset.toNat / 4

instance (a : Access) (cfg : PciConfig) (offset : BitVec 8) : Decidable (a.Names cfg offset) :=
  inferInstanceAs (Decidable (_ ∧ _))

/-- What it writes to that register, if anything. -/
def writtenAt (cfg : PciConfig) (offset : BitVec 8) : Access → Option (BitVec 32)
  | .read _ _ => none
  | .write c o value => if (Access.write c o value).Names cfg offset then some value else none

/-- The access, carried out. A write returns nothing. -/
def run (rule : WriteRule) : Access → Command Bridge (Option (BitVec 32))
  | .read cfg offset => do
    let value ← Bridge.read32 cfg offset
    return some value
  | .write cfg offset value => do
    Bridge.write32 cfg rule offset value
    return none

/-- Handles and offsets name the same register just when the masked numbers agree. -/
theorem names_iff (a : Access) (cfg : PciConfig) (offset : BitVec 8) :
    a.Names cfg offset ↔ a.cfg.register a.offset = cfg.register offset := by
  rw [PciConfig.register, PciConfig.register, ConfigRegister.mk.injEq, Names, ← BitVec.toNat_inj,
    ← BitVec.toNat_inj, ← BitVec.toNat_inj, ← BitVec.toNat_inj, BitVec.toNat_setWidth,
    BitVec.toNat_setWidth, BitVec.toNat_setWidth, BitVec.toNat_setWidth, BitVec.extractLsb'_toNat,
    BitVec.extractLsb'_toNat, Nat.shiftRight_eq_div_pow, Nat.shiftRight_eq_div_pow]
  have := a.offset.isLt
  have := offset.isLt
  simp only [Nat.reducePow] at *
  omega

/-- An access that passes the assertion returns, and acts on the register it names. -/
theorem run_of_aligned (rule : WriteRule) {a : Access} (h : a.Aligned) (b : Bridge) :
    ∃ v b', a.run rule b = (some v, b') ∧ ∀ cfg offset, b'.space (cfg.register offset) =
      (a.writtenAt cfg offset).elim (b.space (cfg.register offset))
        (rule (cfg.register offset) (b.space (cfg.register offset))) := by
  rcases a with ⟨c, o⟩ | ⟨c, o, value⟩
  · obtain ⟨b', hb', hspace⟩ := (Bridge.read32_reads c o).exists_of_eq_some (s := b)
      (PciConfig.read32_eq b.space c h)
    -- a read changes the latch only
    refine ⟨_, b', bind_of_some hb', fun cfg offset ↦ ?_⟩
    rw [hspace]
    rfl
  · have hrun : Bridge.write32 c rule o value b = (some (),
        ⟨configAddress c.bus c.device c.function o,
          Function.update b.space (c.register o)
            (rule (c.register o) (b.space (c.register o)) value)⟩) := by
      have ho : o &&& 0x3 = 0 := h
      rw [Bridge.write32, if_pos ho]
      change (some (), Bridge.mk _ (configWrite rule b.space _ value)) = _
      rw [configWrite, decodeAddress_configAddress]
      rfl
    refine ⟨none, _, bind_of_some hrun, fun cfg offset ↦ ?_⟩
    rw [writtenAt]
    by_cases hnames : (Access.write c o value).Names cfg offset
    · have hreg : c.register o = cfg.register offset := (names_iff _ _ _).mp hnames
      rw [if_pos hnames, ← hreg]
      exact Function.update_self ..
    · have hreg : cfg.register offset ≠ c.register o := fun h ↦
        hnames ((names_iff _ _ _).mpr h.symm)
      rw [if_neg hnames]
      exact Function.update_of_ne hreg ..

/-- One that fails it never gets to a port. -/
theorem run_of_not_aligned (rule : WriteRule) {a : Access} (h : ¬a.Aligned) (b : Bridge) :
    a.run rule b = (none, b) := by
  rcases a with ⟨c, o⟩ | ⟨c, o, value⟩
  · have ho : ¬o &&& 0x3 = 0 := h
    rw [run, Bridge.read32, if_neg ho]
    rfl
  · have ho : ¬o &&& 0x3 = 0 := h
    rw [run, Bridge.write32, if_neg ho]
    rfl

/-- Accesses one after the other. -/
def runAll (rule : WriteRule) : List Access → Command Bridge Unit
  | [] => pure ()
  | a :: as => do
    let _ ← a.run rule
    runAll rule as

/-- What comes from the first access on that fails the assertion leaves no trace, in CONFIG_ADDRESS
neither. -/
theorem runAll_takeWhile (rule : WriteRule) (as : List Access) (b : Bridge) :
    (runAll rule as b).2 = (runAll rule (as.takeWhile (·.Aligned)) b).2 := by
  induction as generalizing b with
  | nil => rfl
  | cons a as ih =>
    by_cases ha : a.Aligned
    · obtain ⟨v, b', hrun, -⟩ := run_of_aligned rule ha b
      rw [List.takeWhile_cons_of_pos (by simpa using ha), runAll, runAll, bind_of_some hrun,
        bind_of_some hrun]
      exact ih b'
    · rw [List.takeWhile_cons_of_neg (by simpa using ha)]
      have hstuck : runAll rule (a :: as) b = (none, b) :=
        bind_of_none (run_of_not_aligned rule ha b)
      rw [hstuck]
      rfl

end Access

/-- **Configuration space is a store.** A sequence of accesses goes through exactly when every
offset is aligned; otherwise it ends at the first that is not, before that access reaches a port,
with both ports as the accesses before it left them. Afterwards an aligned read returns what its
register made of the values written, in order, by the accesses that name it, whatever handles they
used and whatever CONFIG_ADDRESS held at first. -/
theorem Bridge.run_spec (rule : WriteRule) (as : List Access) (b : Bridge) :
    ((Access.runAll rule as b).1.isSome ↔ ∀ a ∈ as, a.Aligned) ∧
      (Access.runAll rule as b).2 = (Access.runAll rule (as.takeWhile (·.Aligned)) b).2 ∧
      ∀ (cfg : PciConfig) (offset : BitVec 8), offset &&& 0x3 = 0 →
        (Bridge.read32 cfg offset (Access.runAll rule as b).2).1 =
          some (((as.takeWhile (·.Aligned)).filterMap (Access.writtenAt cfg offset)).foldl
            (rule (cfg.register offset)) (b.space (cfg.register offset))) := by
  have hspace : ((Access.runAll rule as b).1.isSome ↔ ∀ a ∈ as, a.Aligned) ∧
      ∀ (cfg : PciConfig) (offset : BitVec 8),
        (Access.runAll rule as b).2.space (cfg.register offset) =
          ((as.takeWhile (·.Aligned)).filterMap (Access.writtenAt cfg offset)).foldl
            (rule (cfg.register offset)) (b.space (cfg.register offset)) := by
    -- on the accesses, from any bridge: each starts where the one before it left off
    induction as generalizing b with
    | nil => exact ⟨by simp [Access.runAll, pure_apply], fun _ _ ↦ rfl⟩
    | cons a as ih =>
      by_cases ha : a.Aligned
      · obtain ⟨v, b', hrun, hb'⟩ := Access.run_of_aligned rule ha b
        obtain ⟨hsome, hstore⟩ := ih b'
        rw [Access.runAll, bind_of_some hrun]
        refine ⟨by simp [hsome, ha], fun cfg offset ↦ ?_⟩
        rw [hstore, hb', List.takeWhile_cons_of_pos (by simpa using ha)]
        rcases hw : a.writtenAt cfg offset with _ | value
        · rw [List.filterMap_cons_none hw]
          rfl
        · rw [List.filterMap_cons_some hw]
          rfl
      -- the run ends here, with the accesses before this one as the whole of what is written
      · rw [Access.runAll, bind_of_none (Access.run_of_not_aligned rule ha b),
          List.takeWhile_cons_of_neg (by simpa using ha)]
        exact ⟨by simp [ha], fun _ _ ↦ rfl⟩
  refine ⟨hspace.1, Access.runAll_takeWhile rule as b, fun cfg offset h ↦ ?_⟩
  obtain ⟨b', hb', -⟩ := (Bridge.read32_reads cfg offset).exists_of_eq_some
    (s := (Access.runAll rule as b).2) (PciConfig.read32_eq _ cfg h)
  rw [hb', ← hspace.2]
  rfl

/-- A write through a handle whose numbers are out of range lands in function 0 of slot 0. -/
theorem Bridge.run_spec_masked :
    (Bridge.read32 ⟨0, 0, 0⟩ 0x10 (Access.runAll (fun _ _ value ↦ value)
      [.write ⟨0, 32, 8⟩ 0x10 0xFEB00000, .read ⟨0, 1, 0⟩ 0x10] ⟨0, fun _ ↦ 0⟩).2).1 =
        some 0xFEB00000 :=
  ((Bridge.run_spec (fun _ _ value ↦ value)
    [.write ⟨0, 32, 8⟩ 0x10 0xFEB00000, .read ⟨0, 1, 0⟩ 0x10] ⟨0, fun _ ↦ 0⟩).2.2 ⟨0, 0, 0⟩
      0x10 (by decide)).trans (by decide)

end Punkos.Pci
