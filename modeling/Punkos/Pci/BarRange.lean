import Punkos.Pci.BarLayout

/-!
# Which registers the BARs are taken from

How many BAR registers a function has depends on its header type: six for type 0, two for a
PCI-to-PCI bridge, one for a CardBus bridge. `enumerate` does not look. It reads six BARs from every
function, and the upper half of a 64-bit BAR from whatever register comes next.

`readBarLogged` is `read_bar` with a log of the offsets it read. `bars_from_registers_iff` says for
which contents of configuration space every BAR of every record comes from BAR registers: no
function may have a header type other than 0, and none may have the start of a 64-bit BAR in the
last of the six registers.
-/

namespace Punkos.Pci

/-! ## What a BAR is read from -/

namespace PciConfig

variable (cs : ConfigSpace) (cfg : PciConfig)

/-- `read_bar`, with the offsets it reads. -/
def readBarLogged (barIndex : BitVec 8) : Option (Bar × List (BitVec 8)) := do
  let offset := 0x10 + barIndex * 4
  let raw ← cfg.read32 cs offset
  if raw &&& 0x1 = 1 then return (.io ((raw &&& 0xFFFFFFFC).setWidth 16), [offset])
  else
    let ty := raw >>> 1 &&& 0x3
    let prefetchable := raw >>> 3 &&& 0x1 = 1
    let addr32 := raw &&& 0xFFFFFFF0
    if ty = 0x0 then return (.memory32 addr32 prefetchable, [offset])
    else if ty = 0x2 then
      let high ← cfg.read32 cs (offset + 4)
      return (.memory64 (addr32.setWidth 64 ||| high.setWidth 64 <<< 32) prefetchable,
        [offset, offset + 4])
    else return (.unknown raw, [offset])

/-- The log adds nothing to the result, and a second offset is in it exactly for a 64-bit BAR. -/
theorem readBarLogged_eq_map (barIndex : BitVec 8) :
    cfg.readBarLogged cs barIndex = (cfg.readBar cs barIndex).map fun bar ↦
      (bar, if bar.isMemory64 then [0x10 + barIndex * 4, 0x10 + barIndex * 4 + 4]
        else [0x10 + barIndex * 4]) := by
  simp only [readBarLogged, readBar, Option.bind_eq_bind]
  generalize cfg.read32 cs (0x10 + barIndex * 4 + 4) = high
  rcases cfg.read32 cs (0x10 + barIndex * 4) with _ | raw
  · rfl
  · rw [Option.bind_some, Option.bind_some]
    split_ifs
    · rfl
    · rfl
    · rcases high with _ | high <;> rfl
    · rfl

end PciConfig

/-- The offsets that BAR `i` of a function is read from. -/
def barOffsets (regs : BitVec 6 → BitVec 32) (i : ℕ) : List ℕ :=
  if (Bar.ofRegisters regs (BitVec.ofNat 6 i)).isMemory64 then [0x10 + 4 * i, 0x14 + 4 * i]
  else [0x10 + 4 * i]

theorem mem_barOffsets {regs : BitVec 6 → BitVec 32} {i offset : ℕ} :
    offset ∈ barOffsets regs i ↔ offset = 0x10 + 4 * i ∨
      (Bar.ofRegisters regs (BitVec.ofNat 6 i)).isMemory64 = true ∧ offset = 0x14 + 4 * i := by
  rw [barOffsets]
  split_ifs with h
  · rw [List.mem_cons, List.mem_singleton]
    exact or_congr_right (and_iff_right h).symm
  · rw [List.mem_singleton]
    exact (or_iff_left fun h' ↦ h h'.1).symm

/-- All offsets fit into the byte of the address. -/
theorem toNat_barOffset {regs : BitVec 6 → BitVec 32} {i offset : ℕ} (hi : i < 6)
    (h : offset ∈ barOffsets regs i) : (BitVec.ofNat 8 offset).toNat = offset := by
  rw [BitVec.toNat_ofNat]
  rcases mem_barOffsets.mp h with rfl | ⟨-, rfl⟩ <;> omega

theorem PciConfig.readBarLogged_eq (cs : ConfigSpace) (cfg : PciConfig) {i : ℕ} (hi : i < 6) :
    cfg.readBarLogged cs (BitVec.ofNat 8 i) =
      some (Bar.ofRegisters (cfg.registers cs) (BitVec.ofNat 6 i),
        (barOffsets (cfg.registers cs) i).map (BitVec.ofNat 8)) := by
  have hlow : 0x10 + BitVec.ofNat 8 i * 4 = BitVec.ofNat 8 (0x10 + 4 * i) := by
    rw [BitVec.ofNat_add, BitVec.ofNat_mul, BitVec.mul_comm]
    rfl
  have hhigh : BitVec.ofNat 8 (0x10 + 4 * i) + 4 = BitVec.ofNat 8 (0x14 + 4 * i) := by
    rw [show 0x14 + 4 * i = 0x10 + 4 * i + 4 by omega, BitVec.ofNat_add (0x10 + 4 * i) 4]
    rfl
  rw [readBarLogged_eq_map, cfg.readBar_eq cs hi, Option.map_some, hlow, hhigh, barOffsets]
  split_ifs <;> rfl

/-! ## Which registers are BARs -/

/-- The number of BAR registers for a header type, of which bit 7 says something else. The types
from 3 on are reserved and have none. -/
def barRegisters (headerType : BitVec 8) : ℕ :=
  if headerType &&& 0x7F = 0 then 6
  else if headerType &&& 0x7F = 1 then 2
  else if headerType &&& 0x7F = 2 then 1
  else 0

/-- The handle of a function that was found. -/
def Device.config (d : Device) : PciConfig := ⟨d.bus, d.device, d.function⟩

/-- Each BAR of the record is what `read_bar` returns for it, and all it has read for that are BAR
registers. -/
def BarsFromBarRegisters (cs : ConfigSpace) (d : Device) : Prop :=
  ∀ i bar, d.bars i = some bar →
    ∃ offsets, d.config.readBarLogged cs (BitVec.ofNat 8 i) = some (bar, offsets) ∧
      ∀ offset ∈ offsets,
        0x10 ≤ offset.toNat ∧ offset.toNat < 0x10 + 4 * barRegisters d.headerType

/-- The dword starts a 64-bit memory BAR. -/
def StartsMemory64 (dword : BitVec 32) : Prop :=
  dword.getLsbD 0 = false ∧ dword.extractLsb' 1 2 = 2

theorem isMemory64_ofRegisters {regs : BitVec 6 → BitVec 32} {i : BitVec 6} :
    (Bar.ofRegisters regs i).isMemory64 = true ↔ StartsMemory64 (regs (4 + i)) := by
  simp only [Bar.ofRegisters, StartsMemory64]
  split_ifs with hio hty₀ hty₂
  · refine iff_of_false Bool.false_ne_true fun h ↦ ?_
    rw [h.1] at hio
    exact Bool.false_ne_true hio
  · refine iff_of_false Bool.false_ne_true fun h ↦ ?_
    rw [h.2] at hty₀
    exact absurd hty₀ (by decide)
  · exact iff_of_true rfl ⟨Bool.eq_false_of_not_eq_true hio, hty₂⟩
  · exact iff_of_false Bool.false_ne_true fun h ↦ hty₂ h.2

/-! ## When they are BARs -/

section Function

variable {cs : ConfigSpace} {bus : BitVec 8} {device : BitVec 5} {function : BitVec 3}

theorem registers_config :
    (functionDevice cs bus device function).config.registers cs =
      fun r ↦ cs ⟨bus, device, function, r⟩ := by
  funext r
  rw [PciConfig.registers]
  change cs ⟨bus, (device.setWidth 8).setWidth 5, (function.setWidth 8).setWidth 3, r⟩ = _
  rw [BitVec.setWidth_setWidth_of_le _ (by decide), BitVec.setWidth_setWidth_of_le _ (by decide),
    BitVec.setWidth_eq, BitVec.setWidth_eq]

/-- The statement about a record without the log: the offsets of each of its BARs are in range. -/
theorem barsFromBarRegisters_iff_offsets :
    BarsFromBarRegisters cs (functionDevice cs bus device function) ↔
      ∀ i < 6, upperHalf (fun r ↦ cs ⟨bus, device, function, r⟩) i = false →
        ∀ offset ∈ barOffsets (fun r ↦ cs ⟨bus, device, function, r⟩) i,
          offset < 0x10 + 4 * barRegisters (functionDevice cs bus device function).headerType := by
  have hread : ∀ i < 6,
      (functionDevice cs bus device function).config.readBarLogged cs (BitVec.ofNat 8 i) = _ :=
    fun i hi ↦ PciConfig.readBarLogged_eq cs _ hi
  rw [registers_config] at hread
  constructor
  · intro h i hi hlower offset hoffset
    obtain ⟨offsets, hlog, hrange⟩ := h ⟨i, hi⟩ _ (barAt_of_not_upper hlower)
    rw [hread i hi, Option.some.injEq, Prod.mk.injEq] at hlog
    rw [← hlog.2] at hrange
    obtain ⟨-, hlt⟩ := hrange _ (List.mem_map_of_mem hoffset)
    rwa [toNat_barOffset hi hoffset] at hlt
  · intro h i bar hbar
    change barAt (fun r ↦ cs ⟨bus, device, function, r⟩) i = some bar at hbar
    rcases hupper : upperHalf (fun r ↦ cs ⟨bus, device, function, r⟩) i with _ | _
    · rw [barAt_of_not_upper hupper, Option.some.injEq] at hbar
      refine ⟨_, (hread i i.isLt).trans (by rw [hbar]), fun b hb ↦ ?_⟩
      obtain ⟨offset, hoffset, rfl⟩ := List.mem_map.mp hb
      rw [toNat_barOffset i.isLt hoffset]
      refine ⟨?_, h i i.isLt hupper offset hoffset⟩
      rcases mem_barOffsets.mp hoffset with rfl | ⟨-, rfl⟩ <;> omega
    · rw [barAt_of_upper hupper] at hbar
      exact absurd hbar (Option.some_ne_none bar).symm

/-- Some BAR is always found at index 2 or 3, which no header type but 0 allows. -/
theorem headerType_eq_zero
    (h : BarsFromBarRegisters cs (functionDevice cs bus device function)) :
    (functionDevice cs bus device function).headerType &&& 0x7F = 0 := by
  rw [barsFromBarRegisters_iff_offsets] at h
  by_contra htype
  have hfew : barRegisters (functionDevice cs bus device function).headerType ≤ 2 := by
    rw [barRegisters]
    split_ifs <;> omega
  rcases hupper : upperHalf (fun r ↦ cs ⟨bus, device, function, r⟩) 2 with _ | _
  · have hlt := h 2 (by decide) hupper _ (mem_barOffsets.mpr (Or.inl rfl))
    omega
  · have hlt := h 3 (by decide) (upperHalf_succ_of_upper hupper) _ (mem_barOffsets.mpr (Or.inl rfl))
    omega

/-- **When a record is right.** The header type is 0, and the last of the six registers does not
start a 64-bit BAR, unless it is itself the upper half of one. -/
theorem barsFromBarRegisters_iff :
    BarsFromBarRegisters cs (functionDevice cs bus device function) ↔
      (functionDevice cs bus device function).headerType &&& 0x7F = 0 ∧
        (upperHalf (fun r ↦ cs ⟨bus, device, function, r⟩) 5 = false →
          ¬StartsMemory64 (cs ⟨bus, device, function, 9⟩)) := by
  constructor
  · intro h
    have htype := headerType_eq_zero h
    refine ⟨htype, fun hlower hstart ↦ ?_⟩
    rw [barsFromBarRegisters_iff_offsets] at h
    have hmem : 0x28 ∈ barOffsets (fun r ↦ cs ⟨bus, device, function, r⟩) 5 :=
      mem_barOffsets.mpr (Or.inr ⟨isMemory64_ofRegisters.mpr hstart, rfl⟩)
    have hlt := h 5 (by decide) hlower _ hmem
    rw [barRegisters, if_pos htype] at hlt
    exact absurd hlt (by decide)
  · rintro ⟨htype, hlast⟩
    rw [barsFromBarRegisters_iff_offsets, barRegisters, if_pos htype]
    intro i hi hlower offset hoffset
    rcases mem_barOffsets.mp hoffset with rfl | ⟨hwide, rfl⟩
    · omega
    · have hne : i ≠ 5 := by
        rintro rfl
        exact hlast hlower (isMemory64_ofRegisters.mp hwide)
      omega

end Function

/-! ## The scan -/

/-- A statement about every record that is returned, and about every function that is present. -/
theorem forall_enumerate_iff {cs : ConfigSpace} {P : Device → Prop} :
    (∃ devices, enumerate cs = some devices ∧ ∀ d ∈ devices, P d) ↔
      ∀ bus device function, Present cs bus device function →
        P (functionDevice cs bus device function) := by
  obtain ⟨devices, hscan, -, hmem⟩ := enumerate_exact cs
  constructor
  · rintro ⟨devices', hscan', h⟩ bus device function hpresent
    rw [hscan, Option.some.injEq] at hscan'
    subst hscan'
    exact h _ ((hmem _).mpr ⟨bus, device, function, hpresent, rfl⟩)
  · intro h
    refine ⟨devices, hscan, fun d hd ↦ ?_⟩
    obtain ⟨bus, device, function, hpresent, rfl⟩ := (hmem d).mp hd
    exact h bus device function hpresent

/-- **When the BARs come from BAR registers.** All BARs of all records that `enumerate` returns are
read from BAR registers if and only if every function has header type 0 and does not have the start
of a 64-bit BAR, itself no upper half, in the last of its six registers. -/
theorem bars_from_registers_iff (cs : ConfigSpace) :
    (∃ devices, enumerate cs = some devices ∧ ∀ d ∈ devices, BarsFromBarRegisters cs d) ↔
      ∀ bus device function, Present cs bus device function →
        (functionDevice cs bus device function).headerType &&& 0x7F = 0 ∧
          (upperHalf (fun r ↦ cs ⟨bus, device, function, r⟩) 5 = false →
            ¬StartsMemory64 (cs ⟨bus, device, function, 9⟩)) := by
  rw [forall_enumerate_iff]
  exact forall₃_congr fun _ _ _ ↦ imp_congr_right fun _ ↦ barsFromBarRegisters_iff

/-- PCI-to-PCI bridges in every slot. -/
def bridgeSpace : ConfigSpace := fun r ↦ if r.register = 3 then 0x00010000 else 0x12348086

/-- Devices of type 0 with the code of a 64-bit memory BAR in the last BAR register. -/
def lastBar64Space : ConfigSpace := fun r ↦
  if r.register = 3 then 0 else if r.register = 9 then 0xFEB00004 else 0x12348086

/-- The scan takes BARs from registers of a bridge that hold its bus numbers and windows, and the
upper half of a BAR from the register behind the last one. -/
theorem not_bars_from_registers :
    ¬(∃ devices, enumerate bridgeSpace = some devices ∧
        ∀ d ∈ devices, BarsFromBarRegisters bridgeSpace d) ∧
      ¬∃ devices, enumerate lastBar64Space = some devices ∧
        ∀ d ∈ devices, BarsFromBarRegisters lastBar64Space d := by
  rw [forall_enumerate_iff, forall_enumerate_iff]
  constructor
  · intro h
    have htype := headerType_eq_zero (h 0 0 0 (by decide))
    exact absurd htype (by decide)
  · intro h
    have hlast := (barsFromBarRegisters_iff.mp (h 0 0 0 (by decide))).2 (by decide)
    exact hlast (by unfold StartsMemory64; decide)

end Punkos.Pci
