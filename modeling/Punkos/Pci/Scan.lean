import Mathlib.Data.List.Pairwise
import Mathlib.Data.Prod.Lex
import Mathlib.Logic.Function.Basic
import Punkos.Pci.Config

/-!
# The scan of the PCI bus

`enumerate` tries every bus and device number, looks at the other functions of a slot only when
function 0 says that there are any, and reads each function it finds into a `Device`.

`functionDevice` is what such a record should be: each field taken from the registers of that
function alone. `enumerate_exact` then says which records the scan returns, and in which order. The
source has the code that fills in a record twice, once for function 0 and once for the others; the
one loop in it, over the BARs, is the same in both places and appears once here.
-/

namespace Punkos.Pci

/-! ## The scan -/

/-- The BAR takes two registers. -/
def Bar.isMemory64 : Bar → Bool
  | .memory64 _ _ => true
  | _ => false

/-- The loop over the BARs, which skips the upper half of a 64-bit BAR. -/
def readBars (cs : ConfigSpace) (cfg : PciConfig) (barIdx : ℕ) (d : Device) : Option Device :=
  if h : barIdx < 6 then do
    let bar ← cfg.readBar cs (BitVec.ofNat 8 barIdx)
    let d := { d with bars := Function.update d.bars ⟨barIdx, h⟩ (some bar) }
    if bar.isMemory64 then readBars cs cfg (barIdx + 2) d else readBars cs cfg (barIdx + 1) d
  else some d
termination_by 6 - barIdx

/-- One of the functions 1 to 7 of a multi-function device. -/
def scanFunction (cs : ConfigSpace) (bus device : ℕ) (devices : List Device) (function : ℕ) :
    Option (List Device) := do
  let cfg : PciConfig := ⟨BitVec.ofNat 8 bus, BitVec.ofNat 8 device, BitVec.ofNat 8 function⟩
  let vid ← cfg.vendorId cs
  if vid = 0xFFFF then return devices
  else
    let (classCode, subclass, progIf) ← cfg.classInfo cs
    let deviceId ← cfg.deviceId cs
    let headerType ← cfg.headerType cs
    let dev : Device :=
      { bus := cfg.bus, device := cfg.device, function := cfg.function, vendorId := vid,
        deviceId, classCode, subclass, progIf, headerType, bars := fun _ ↦ none }
    let dev ← readBars cs cfg 0 dev
    return devices ++ [dev]

/-- One slot: function 0, and the other functions if bit 7 of its header type is set. -/
def scanSlot (cs : ConfigSpace) (bus : ℕ) (devices : List Device) (device : ℕ) :
    Option (List Device) := do
  let cfg : PciConfig := ⟨BitVec.ofNat 8 bus, BitVec.ofNat 8 device, 0⟩
  let vid ← cfg.vendorId cs
  if vid = 0xFFFF then return devices
  else
    let headerType ← cfg.headerType cs
    let (classCode, subclass, progIf) ← cfg.classInfo cs
    let did ← cfg.deviceId cs
    let deviceInfo : Device :=
      { bus := cfg.bus, device := cfg.device, function := 0, vendorId := vid, deviceId := did,
        classCode, subclass, progIf, headerType, bars := fun _ ↦ none }
    let deviceInfo ← readBars cs cfg 0 deviceInfo
    let devices := devices ++ [deviceInfo]
    if headerType &&& 0x80 ≠ 0 then (List.range' 1 7).foldlM (scanFunction cs bus device) devices
    else return devices

/-- `enumerate`: every device on every bus. -/
def enumerate (cs : ConfigSpace) : Option (List Device) :=
  (List.range 256).foldlM
    (fun devices bus ↦ (List.range 32).foldlM (scanSlot cs bus) devices) []

/-! ## What it should find -/

/-- The register of BAR `i` is the upper half of a 64-bit BAR, because the register before it
starts one. -/
def upperHalf (regs : BitVec 6 → BitVec 32) : ℕ → Bool
  | 0 => false
  | i + 1 => !upperHalf regs i && (Bar.ofRegisters regs (BitVec.ofNat 6 i)).isMemory64

/-- The BARs of a function: every one but the upper halves. -/
def barsOf (regs : BitVec 6 → BitVec 32) (i : Fin 6) : Option Bar :=
  if upperHalf regs i then none else some (Bar.ofRegisters regs (BitVec.ofNat 6 i))

/-- The record of a function, from its own registers. -/
def functionDevice (cs : ConfigSpace) (bus : BitVec 8) (device : BitVec 5) (function : BitVec 3) :
    Device :=
  let regs : BitVec 6 → BitVec 32 := fun r ↦ cs ⟨bus, device, function, r⟩
  { bus := bus
    device := device.setWidth 8
    function := function.setWidth 8
    vendorId := (regs 0).extractLsb' 0 16
    deviceId := (regs 0).extractLsb' 16 16
    classCode := (regs 2).extractLsb' 24 8
    subclass := (regs 2).extractLsb' 16 8
    progIf := (regs 2).extractLsb' 8 8
    headerType := (regs 3).extractLsb' 16 8
    bars := barsOf regs }

/-- The function is there: its slot is not empty, and it is function 0 or one of a multi-function
device. -/
def Present (cs : ConfigSpace) (bus : BitVec 8) (device : BitVec 5) (function : BitVec 3) : Prop :=
  (functionDevice cs bus device 0).vendorId ≠ 0xFFFF ∧
    (function = 0 ∨ (functionDevice cs bus device 0).headerType.getLsbD 7 = true ∧
      (functionDevice cs bus device function).vendorId ≠ 0xFFFF)

instance (cs : ConfigSpace) (bus : BitVec 8) (device : BitVec 5) (function : BitVec 3) :
    Decidable (Present cs bus device function) :=
  inferInstanceAs (Decidable (_ ∧ _))

/-- Where a device is, ordered by bus, then device, then function. -/
def Device.address (d : Device) : ℕ ×ₗ ℕ ×ₗ ℕ :=
  toLex (d.bus.toNat, toLex (d.device.toNat, d.function.toNat))

/-! ## The BARs -/

section Bars

variable {regs : BitVec 6 → BitVec 32} {i : ℕ}

theorem upperHalf_succ_of_not_upper (h : upperHalf regs i = false) :
    upperHalf regs (i + 1) = (Bar.ofRegisters regs (BitVec.ofNat 6 i)).isMemory64 := by
  rw [upperHalf, h, Bool.not_false, Bool.true_and]

theorem upperHalf_succ_of_upper (h : upperHalf regs i = true) :
    upperHalf regs (i + 1) = false := by
  rw [upperHalf, h, Bool.not_true, Bool.false_and]

/-- What the loop over the BARs has done when it comes to index `i`. -/
structure BarsRead (regs : BitVec 6 → BitVec 32) (i : ℕ) (bars : Fin 6 → Option Bar) : Prop where
  /-- The loop never stops at an upper half. -/
  not_upper : upperHalf regs i = false
  /-- The BARs below are done. -/
  done : ∀ j : Fin 6, j.val < i → bars j = barsOf regs j
  /-- The others have not been touched. -/
  todo : ∀ j : Fin 6, i ≤ j.val → bars j = none

variable {bars : Fin 6 → Option Bar}

/-- One turn of the loop, for a BAR of one register. -/
theorem BarsRead.step_one (h : BarsRead regs i bars) (hi : i < 6)
    (hbar : (Bar.ofRegisters regs (BitVec.ofNat 6 i)).isMemory64 = false) :
    BarsRead regs (i + 1)
      (Function.update bars ⟨i, hi⟩ (some (Bar.ofRegisters regs (BitVec.ofNat 6 i)))) where
  not_upper := (upperHalf_succ_of_not_upper h.not_upper).trans hbar
  done j hj := by
    by_cases heq : j = ⟨i, hi⟩
    · rw [heq, Function.update_self, barsOf, h.not_upper]
      rfl
    · rw [Function.update_of_ne heq]
      have hne : j.val ≠ i := Fin.val_ne_of_ne heq
      exact h.done j (by omega)
  todo j hj := by
    have hne : j.val ≠ i := by omega
    rw [Function.update_of_ne (Fin.ne_of_val_ne hne)]
    exact h.todo j (by omega)

/-- One turn of the loop, for a BAR of two registers. -/
theorem BarsRead.step_two (h : BarsRead regs i bars) (hi : i < 6)
    (hbar : (Bar.ofRegisters regs (BitVec.ofNat 6 i)).isMemory64 = true) :
    BarsRead regs (i + 2)
      (Function.update bars ⟨i, hi⟩ (some (Bar.ofRegisters regs (BitVec.ofNat 6 i)))) where
  not_upper := upperHalf_succ_of_upper ((upperHalf_succ_of_not_upper h.not_upper).trans hbar)
  done j hj := by
    by_cases heq : j = ⟨i, hi⟩
    · rw [heq, Function.update_self, barsOf, h.not_upper]
      rfl
    · rw [Function.update_of_ne heq]
      have hne : j.val ≠ i := Fin.val_ne_of_ne heq
      by_cases hlt : j.val < i
      · exact h.done j hlt
      · -- the upper half itself
        have hupper : upperHalf regs j.val = true := by
          rw [show j.val = i + 1 by omega, upperHalf_succ_of_not_upper h.not_upper, hbar]
        rw [h.todo j (by omega), barsOf, hupper]
        rfl
  todo j hj := by
    have hne : j.val ≠ i := by omega
    rw [Function.update_of_ne (Fin.ne_of_val_ne hne)]
    exact h.todo j (by omega)

end Bars

/-- The loop over the BARs fills in the BARs of the function. -/
theorem readBars_eq (cs : ConfigSpace) (cfg : PciConfig) {i : ℕ} {d : Device}
    (h : BarsRead (cfg.registers cs) i d.bars) :
    readBars cs cfg i d = some { d with bars := barsOf (cfg.registers cs) } := by
  induction hn : 6 - i using Nat.strong_induction_on generalizing i d with
  | h n ih =>
    rw [readBars]
    by_cases hi : i < 6
    · rw [dif_pos hi, cfg.readBar_eq cs hi]
      simp only [Option.bind_eq_bind, Option.bind_some]
      rcases hbar : (Bar.ofRegisters (cfg.registers cs) (BitVec.ofNat 6 i)).isMemory64 with _ | _
      · exact ih _ (by omega) (h.step_one hi hbar) rfl
      · exact ih _ (by omega) (h.step_two hi hbar) rfl
    · rw [dif_neg hi]
      have hbars : d.bars = barsOf (cfg.registers cs) := by
        funext j
        exact h.done j (by omega)
      rw [← hbars]

theorem readBars_zero (cs : ConfigSpace) (cfg : PciConfig) {d : Device}
    (hd : d.bars = fun _ ↦ none) :
    readBars cs cfg 0 d = some { d with bars := barsOf (cfg.registers cs) } :=
  readBars_eq cs cfg ⟨rfl, fun j hj ↦ absurd hj (Nat.not_lt_zero j), fun j _ ↦ by rw [hd]⟩

/-! ## One function, one slot, the whole bus

Each loop only appends to the list of devices, so each is one `flatMap`. -/

theorem foldlM_append {α β : Type*} {step : List β → α → Option (List β)} {found : α → List β}
    {xs : List α} (h : ∀ x ∈ xs, ∀ acc, step acc x = some (acc ++ found x)) (acc : List β) :
    xs.foldlM step acc = some (acc ++ xs.flatMap found) := by
  induction xs generalizing acc with
  | nil => rw [List.foldlM_nil, List.flatMap_nil, List.append_nil]; rfl
  | cons x xs ih =>
    rw [List.foldlM_cons, h x List.mem_cons_self, Option.bind_eq_bind, Option.bind_some,
      ih fun y hy ↦ h y (List.mem_cons_of_mem x hy), List.flatMap_cons, List.append_assoc]

section Numbers

variable (cs : ConfigSpace) (bus device function : ℕ)

/-- The handle of a function, by its numbers. -/
def configAt : PciConfig :=
  ⟨BitVec.ofNat 8 bus, BitVec.ofNat 8 device, BitVec.ofNat 8 function⟩

/-- The record of a function, by its numbers. -/
def recordAt : Device :=
  functionDevice cs (BitVec.ofNat 8 bus) (BitVec.ofNat 5 device) (BitVec.ofNat 3 function)

/-- The functions found in a slot. -/
def slotDevices : List Device :=
  ((List.range 8).filter fun function ↦
    Present cs (BitVec.ofNat 8 bus) (BitVec.ofNat 5 device) (BitVec.ofNat 3 function)).map
      (recordAt cs bus device)

/-- The handle reaches the registers of its function and no others. -/
theorem registers_configAt :
    (configAt bus device function).registers cs =
      fun r ↦ cs ⟨BitVec.ofNat 8 bus, BitVec.ofNat 5 device, BitVec.ofNat 3 function, r⟩ := by
  funext r
  rw [configAt, PciConfig.registers, BitVec.setWidth_ofNat_of_le (by decide),
    BitVec.setWidth_ofNat_of_le (by decide)]

theorem vendorId_configAt :
    (configAt bus device function).vendorId cs =
      some (recordAt cs bus device function).vendorId := by
  rw [PciConfig.vendorId_eq, registers_configAt]
  rfl

theorem deviceId_configAt :
    (configAt bus device function).deviceId cs =
      some (recordAt cs bus device function).deviceId := by
  rw [PciConfig.deviceId_eq, registers_configAt]
  rfl

theorem headerType_configAt : (configAt bus device function).headerType cs =
    some (recordAt cs bus device function).headerType := by
  rw [PciConfig.headerType_eq, registers_configAt]
  rfl

theorem classInfo_configAt : (configAt bus device function).classInfo cs =
    some ((recordAt cs bus device function).classCode, (recordAt cs bus device function).subclass,
      (recordAt cs bus device function).progIf) := by
  rw [PciConfig.classInfo_eq, registers_configAt]
  rfl

variable {device function} (hd : device < 32) (hf : function < 8)
include hd hf

/-- With its BARs read in, a record is complete. -/
theorem readBars_configAt :
    readBars cs (configAt bus device function) 0
        { recordAt cs bus device function with
          bus := BitVec.ofNat 8 bus
          device := BitVec.ofNat 8 device
          function := BitVec.ofNat 8 function
          bars := fun _ ↦ none } =
      some (recordAt cs bus device function) := by
  have hdev : BitVec.ofNat 8 device = (BitVec.ofNat 5 device).setWidth 8 :=
    (BitVec.setWidth_ofNat_of_le_of_lt (by decide) hd).symm
  have hfun : BitVec.ofNat 8 function = (BitVec.ofNat 3 function).setWidth 8 :=
    (BitVec.setWidth_ofNat_of_le_of_lt (by decide) hf).symm
  rw [readBars_zero _ _ rfl, registers_configAt, hdev, hfun]
  rfl

theorem scanFunction_eq (devices : List Device) :
    scanFunction cs bus device devices function =
      some (devices ++ if (recordAt cs bus device function).vendorId = 0xFFFF then []
        else [recordAt cs bus device function]) := by
  have hbars := readBars_configAt cs bus hd hf
  have hcfg : (⟨BitVec.ofNat 8 bus, BitVec.ofNat 8 device, BitVec.ofNat 8 function⟩ : PciConfig) =
    configAt bus device function := rfl
  rw [scanFunction]
  simp only [hcfg, vendorId_configAt, classInfo_configAt, deviceId_configAt, headerType_configAt,
    Option.bind_eq_bind, Option.bind_some]
  by_cases hvid : (recordAt cs bus device function).vendorId = 0xFFFF
  · rw [if_pos hvid, if_pos hvid, List.append_nil]
    rfl
  · rw [if_neg hvid, if_neg hvid]
    exact (congrArg (Option.bind · fun dev ↦ some (devices ++ [dev])) hbars)

end Numbers

theorem flatMap_ite_singleton {α β : Type*} (p : α → Prop) [DecidablePred p] (g : α → β)
    (xs : List α) :
    (xs.flatMap fun x ↦ if p x then [] else [g x]) = (xs.filter fun x ↦ ¬p x).map g := by
  induction xs with
  | nil => rfl
  | cons x xs ih =>
    by_cases hp : p x
    · simp [hp, ih]
    · simp [hp, ih]

theorem headerType_and_iff : ∀ b : BitVec 8, b &&& 0x80 ≠ 0 ↔ b.getLsbD 7 = true := by decide

section Slot

variable (cs : ConfigSpace) (bus : ℕ) {device : ℕ}

/-- An empty slot has no functions at all. -/
theorem slotDevices_of_empty (h : (recordAt cs bus device 0).vendorId = 0xFFFF) :
    slotDevices cs bus device = [] := by
  have hnone : ∀ function ∈ List.range 8,
      ¬Present cs (BitVec.ofNat 8 bus) (BitVec.ofNat 5 device) (BitVec.ofNat 3 function) :=
    fun _ _ hp ↦ hp.1 h
  rw [slotDevices, List.filter_eq_nil_iff.mpr fun f hf ↦ by simpa using hnone f hf, List.map_nil]

/-- A slot that is not empty: function 0, and what the other functions say if there are any. -/
theorem slotDevices_of_present (h : (recordAt cs bus device 0).vendorId ≠ 0xFFFF) :
    slotDevices cs bus device = recordAt cs bus device 0 ::
      if (recordAt cs bus device 0).headerType.getLsbD 7 = true then
        ((List.range' 1 7).filter fun f ↦ ¬(recordAt cs bus device f).vendorId = 0xFFFF).map
          (recordAt cs bus device)
      else [] := by
  have hzero : Present cs (BitVec.ofNat 8 bus) (BitVec.ofNat 5 device) (BitVec.ofNat 3 0) :=
    ⟨h, Or.inl rfl⟩
  have hother : ∀ f ∈ List.range' 1 7,
      (Present cs (BitVec.ofNat 8 bus) (BitVec.ofNat 5 device) (BitVec.ofNat 3 f) ↔
        (recordAt cs bus device 0).headerType.getLsbD 7 = true ∧
          (recordAt cs bus device f).vendorId ≠ 0xFFFF) := by
    intro f hf
    have hne : BitVec.ofNat 3 f ≠ 0 := by
      obtain ⟨hle, hlt⟩ := List.mem_range'_1.mp hf
      intro heq
      have := congrArg BitVec.toNat heq
      simp only [BitVec.toNat_ofNat, BitVec.ofNat_eq_ofNat] at this
      omega
    exact ⟨fun hp ↦ hp.2.resolve_left hne, fun hp ↦ ⟨h, Or.inr hp⟩⟩
  have hrange : List.range 8 = 0 :: List.range' 1 7 := rfl
  rw [slotDevices, hrange, List.filter_cons_of_pos (by simpa using hzero), List.map_cons]
  congr 1
  by_cases hmulti : (recordAt cs bus device 0).headerType.getLsbD 7 = true
  · rw [if_pos hmulti]
    congr 1
    refine List.filter_congr fun f hf ↦ decide_eq_decide.mpr ?_
    rw [hother f hf]
    exact and_iff_right hmulti
  · rw [if_neg hmulti, List.filter_eq_nil_iff.mpr, List.map_nil]
    intro f hf
    rw [decide_eq_true_eq, hother f hf]
    exact fun hp ↦ hmulti hp.1

theorem scanSlot_eq (hd : device < 32) (devices : List Device) :
    scanSlot cs bus devices device = some (devices ++ slotDevices cs bus device) := by
  have hbars := readBars_configAt cs bus hd (show 0 < 8 by decide)
  have hcfg : (⟨BitVec.ofNat 8 bus, BitVec.ofNat 8 device, 0⟩ : PciConfig) =
    configAt bus device 0 := rfl
  rw [scanSlot]
  simp only [hcfg, vendorId_configAt, classInfo_configAt, deviceId_configAt, headerType_configAt,
    Option.bind_eq_bind, Option.bind_some]
  by_cases hvid : (recordAt cs bus device 0).vendorId = 0xFFFF
  · rw [if_pos hvid, slotDevices_of_empty cs bus hvid, List.append_nil]
    rfl
  · rw [if_neg hvid, slotDevices_of_present cs bus hvid]
    refine (congrArg (Option.bind · _) hbars).trans ?_
    rw [Option.bind_some]
    by_cases hmulti : (recordAt cs bus device 0).headerType.getLsbD 7 = true
    · have hscan : ∀ f ∈ List.range' 1 7, ∀ acc, scanFunction cs bus device acc f = _ :=
        fun f hf acc ↦ scanFunction_eq cs bus hd (List.mem_range'_1.mp hf).2 acc
      rw [if_pos ((headerType_and_iff _).mpr hmulti), if_pos hmulti, ← flatMap_ite_singleton,
        foldlM_append hscan, List.append_assoc]
      rfl
    · rw [if_neg (mt (headerType_and_iff _).mp hmulti), if_neg hmulti]
      rfl

end Slot

/-- The devices of a bus. -/
def busDevices (cs : ConfigSpace) (bus : ℕ) : List Device :=
  (List.range 32).flatMap fun device ↦ slotDevices cs bus device

/-- The scan, as one list. -/
theorem enumerate_eq (cs : ConfigSpace) :
    enumerate cs = some ((List.range 256).flatMap (busDevices cs)) := by
  have hbus : ∀ bus ∈ List.range 256, ∀ acc,
      (List.range 32).foldlM (scanSlot cs bus) acc = some (acc ++ busDevices cs bus) :=
    fun bus _ acc ↦ foldlM_append (fun device hd acc ↦
      scanSlot_eq cs bus (List.mem_range.mp hd) acc) acc
  rw [enumerate, foldlM_append hbus, List.nil_append]

/-! ## The result -/

theorem address_recordAt (cs : ConfigSpace) {bus device function : ℕ} (hb : bus < 256)
    (hd : device < 32) (hf : function < 8) :
    (recordAt cs bus device function).address = toLex (bus, toLex (device, function)) := by
  have hdev : device % 32 % 256 = device := by omega
  have hfun : function % 8 % 256 = function := by omega
  simp only [recordAt, functionDevice, Device.address, BitVec.toNat_setWidth, BitVec.toNat_ofNat,
    Nat.reducePow, Nat.mod_eq_of_lt hb, hdev, hfun]

theorem mem_slotDevices {cs : ConfigSpace} {bus device : ℕ} {d : Device} :
    d ∈ slotDevices cs bus device ↔ ∃ function < 8,
      Present cs (BitVec.ofNat 8 bus) (BitVec.ofNat 5 device) (BitVec.ofNat 3 function) ∧
        recordAt cs bus device function = d := by
  simp only [slotDevices, List.mem_map, List.mem_filter, List.mem_range, decide_eq_true_eq,
    and_assoc]

/-- The functions of a slot are found in order. -/
theorem pairwise_slotDevices (cs : ConfigSpace) {bus device : ℕ} (hb : bus < 256)
    (hd : device < 32) :
    (slotDevices cs bus device).Pairwise fun x y ↦ x.address < y.address := by
  apply List.pairwise_map.mpr
  refine List.Pairwise.imp_of_mem ?_ (List.pairwise_lt_range.filter _)
  intro f g hf hg hlt
  have hf' := List.mem_range.mp (List.mem_of_mem_filter hf)
  have hg' := List.mem_range.mp (List.mem_of_mem_filter hg)
  rw [address_recordAt cs hb hd hf', address_recordAt cs hb hd hg']
  exact Prod.Lex.toLex_lt_toLex.mpr (Or.inr ⟨rfl, Prod.Lex.toLex_lt_toLex.mpr (Or.inr ⟨rfl, hlt⟩)⟩)

theorem mem_busDevices {cs : ConfigSpace} {bus : ℕ} {d : Device} :
    d ∈ busDevices cs bus ↔ ∃ device < 32, ∃ function < 8,
      Present cs (BitVec.ofNat 8 bus) (BitVec.ofNat 5 device) (BitVec.ofNat 3 function) ∧
        recordAt cs bus device function = d := by
  simp only [busDevices, List.mem_flatMap, List.mem_range, mem_slotDevices]

/-- The slots of a bus are scanned in order. -/
theorem pairwise_busDevices (cs : ConfigSpace) {bus : ℕ} (hb : bus < 256) :
    (busDevices cs bus).Pairwise fun x y ↦ x.address < y.address := by
  refine List.pairwise_flatMap.mpr
    ⟨fun device hd ↦ pairwise_slotDevices cs hb (List.mem_range.mp hd), ?_⟩
  refine List.Pairwise.imp_of_mem ?_ List.pairwise_lt_range
  intro device device' hd hd' hlt x hx y hy
  obtain ⟨f, hf, -, rfl⟩ := mem_slotDevices.mp hx
  obtain ⟨g, hg, -, rfl⟩ := mem_slotDevices.mp hy
  rw [address_recordAt cs hb (List.mem_range.mp hd) hf,
    address_recordAt cs hb (List.mem_range.mp hd') hg]
  exact Prod.Lex.toLex_lt_toLex.mpr (Or.inr ⟨rfl, Prod.Lex.toLex_lt_toLex.mpr (Or.inl hlt)⟩)

/-- The buses are scanned in order. -/
theorem pairwise_allDevices (cs : ConfigSpace) :
    ((List.range 256).flatMap (busDevices cs)).Pairwise fun x y ↦ x.address < y.address := by
  refine List.pairwise_flatMap.mpr
    ⟨fun bus hb ↦ pairwise_busDevices cs (List.mem_range.mp hb), ?_⟩
  refine List.Pairwise.imp_of_mem ?_ List.pairwise_lt_range
  intro bus bus' hb hb' hlt x hx y hy
  obtain ⟨device, hd, f, hf, -, rfl⟩ := mem_busDevices.mp hx
  obtain ⟨device', hd', g, hg, -, rfl⟩ := mem_busDevices.mp hy
  rw [address_recordAt cs (List.mem_range.mp hb) hd hf,
    address_recordAt cs (List.mem_range.mp hb') hd' hg]
  exact Prod.Lex.toLex_lt_toLex.mpr (Or.inl hlt)

/-- **The scan is exact.** `enumerate` returns, in strictly increasing order of bus, device and
function, the record of every function that is present and of no other. Strict order leaves room
for one record a function only. -/
theorem enumerate_exact (cs : ConfigSpace) :
    ∃ devices, enumerate cs = some devices ∧
      devices.Pairwise (fun x y ↦ x.address < y.address) ∧
      ∀ d, d ∈ devices ↔ ∃ bus device function,
        Present cs bus device function ∧ d = functionDevice cs bus device function := by
  refine ⟨_, enumerate_eq cs, pairwise_allDevices cs, fun d ↦ ?_⟩
  rw [List.mem_flatMap]
  constructor
  · rintro ⟨bus, -, hd⟩
    obtain ⟨device, -, function, -, hp, rfl⟩ := mem_busDevices.mp hd
    exact ⟨_, _, _, hp, rfl⟩
  · rintro ⟨bus, device, function, hp, rfl⟩
    refine ⟨bus.toNat, List.mem_range.mpr bus.isLt, mem_busDevices.mpr
      ⟨device.toNat, device.isLt, function.toNat, function.isLt, ?_⟩⟩
    rw [recordAt, BitVec.ofNat_toNat, BitVec.ofNat_toNat, BitVec.ofNat_toNat, BitVec.setWidth_eq,
      BitVec.setWidth_eq, BitVec.setWidth_eq]
    exact ⟨hp, rfl⟩

end Punkos.Pci
