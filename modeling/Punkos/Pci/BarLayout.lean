import Punkos.Pci.Scan

/-!
# The layout of the BARs

A function of header type 0 has six BAR registers. An I/O BAR and a 32-bit memory BAR take one of
them, a 64-bit memory BAR takes two, so where a BAR is depends on those before it. Here a list of
BARs that fills the six registers is written into them as the PCI format prescribes, and the loop
of `enumerate` is run on the result.

`bar_layout_round_trip` says that it finds every BAR again, in its place. The upper half of a 64-bit
BAR is any dword at all, and it is never taken for a BAR of its own.
-/

namespace Punkos.Pci

/-! ## Writing BARs into registers -/

/-- A BAR as a device has it. -/
inductive BarDescriptor where
  /-- An I/O port. -/
  | io (port : BitVec 16) (port_dvd : 4 ∣ port.toNat)
  /-- Memory below 4 GiB. -/
  | memory32 (base : BitVec 32) (base_dvd : 16 ∣ base.toNat) (prefetchable : Bool)
  /-- Memory anywhere. -/
  | memory64 (base : BitVec 64) (base_dvd : 16 ∣ base.toNat) (prefetchable : Bool)

/-- The dword of an I/O BAR: bit 0 is 1, bit 1 is reserved. -/
def ioWord (port : BitVec 16) : BitVec 32 := 0#16 ++ port.extractLsb' 2 14 ++ 0b01#2

/-- The first dword of a memory BAR: bits 31 to 4 of the base, the prefetchable bit, the type, and
0 in bit 0. -/
def memoryWord (base : BitVec 28) (prefetchable : Bool) (ty : BitVec 2) : BitVec 32 :=
  base ++ BitVec.ofBool prefetchable ++ ty ++ 0#1

namespace BarDescriptor

/-- The registers of a BAR. -/
def words : BarDescriptor → List (BitVec 32)
  | io port _ => [ioWord port]
  | memory32 base _ prefetchable => [memoryWord (base.extractLsb' 4 28) prefetchable 0]
  | memory64 base _ prefetchable =>
    [memoryWord (base.extractLsb' 4 28) prefetchable 2, base.extractLsb' 32 32]

/-- The BAR as the kernel is to see it. -/
def bar : BarDescriptor → Bar
  | io port _ => .io port
  | memory32 base _ prefetchable => .memory32 base prefetchable
  | memory64 base _ prefetchable => .memory64 base prefetchable

/-- The entries it is to have in `bars`: `Some` at its first register, `None` at its second. -/
def entries : BarDescriptor → List (Option Bar)
  | io port h => [some (io port h).bar]
  | memory32 base h prefetchable => [some (memory32 base h prefetchable).bar]
  | memory64 base h prefetchable => [some (memory64 base h prefetchable).bar, none]

end BarDescriptor

/-- The registers of a list of BARs. -/
def encodeBars (ds : List BarDescriptor) : List (BitVec 32) := ds.flatMap BarDescriptor.words

/-- The entries of a list of BARs. -/
def barEntries (ds : List BarDescriptor) : List (Option Bar) := ds.flatMap BarDescriptor.entries

/-! ## Reading one BAR back -/

section Words

theorem ioWord_bit (port : BitVec 16) : (ioWord port).getLsbD 0 = true := by
  change (0#16 ++ port.extractLsb' 2 14 ++ 0b01#2).getLsbD 0 = true
  rw [BitVec.getLsbD_append, if_pos (by decide)]
  rfl

theorem ioWord_port (port : BitVec 16) :
    (ioWord port).extractLsb' 2 14 = port.extractLsb' 2 14 := by
  change (0#16 ++ port.extractLsb' 2 14 ++ 0b01#2).extractLsb' 2 14 = _
  rw [BitVec.extractLsb'_append_eq_of_le (by decide),
    BitVec.extractLsb'_append_eq_of_add_le (by decide)]
  exact BitVec.extractLsb'_eq_self

variable (base : BitVec 28) (prefetchable : Bool) (ty : BitVec 2)

theorem memoryWord_bit : (memoryWord base prefetchable ty).getLsbD 0 = false := by
  change (base ++ BitVec.ofBool prefetchable ++ ty ++ 0#1).getLsbD 0 = false
  rw [BitVec.getLsbD_append, if_pos (by decide)]
  rfl

theorem memoryWord_type : (memoryWord base prefetchable ty).extractLsb' 1 2 = ty := by
  change (base ++ BitVec.ofBool prefetchable ++ ty ++ 0#1).extractLsb' 1 2 = ty
  rw [BitVec.extractLsb'_append_eq_of_le (by decide),
    BitVec.extractLsb'_append_eq_of_add_le (by decide)]
  exact BitVec.extractLsb'_eq_self

theorem memoryWord_prefetchable :
    (memoryWord base prefetchable ty).getLsbD 3 = prefetchable := by
  change (base ++ BitVec.ofBool prefetchable ++ ty ++ 0#1).getLsbD 3 = prefetchable
  rw [BitVec.getLsbD_append, if_neg (by decide), BitVec.getLsbD_append, if_neg (by decide),
    BitVec.getLsbD_append, if_pos (by decide)]
  exact BitVec.getLsbD_ofBool ..

theorem memoryWord_base : (memoryWord base prefetchable ty).extractLsb' 4 28 = base := by
  change (base ++ BitVec.ofBool prefetchable ++ ty ++ 0#1).extractLsb' 4 28 = base
  rw [BitVec.extractLsb'_append_eq_of_le (by decide),
    BitVec.extractLsb'_append_eq_of_le (by decide), BitVec.extractLsb'_append_eq_of_le (by decide)]
  exact BitVec.extractLsb'_eq_self

end Words

theorem port_eq {port : BitVec 16} (h : 4 ∣ port.toNat) :
    (port.extractLsb' 2 14).setWidth 16 <<< 2 = port :=
  BitField.shiftLeft_extractLsb'_of_dvd rfl h

theorem base32_eq {base : BitVec 32} (h : 16 ∣ base.toNat) :
    (base.extractLsb' 4 28).setWidth 32 <<< 4 = base :=
  BitField.shiftLeft_extractLsb'_of_dvd rfl h

theorem base64_eq {base : BitVec 64} (h : 16 ∣ base.toNat) :
    ((base.extractLsb' 4 28).setWidth 32 <<< 4).setWidth 64 |||
      (base.extractLsb' 32 32).setWidth 64 <<< 32 = base := by
  have hfield : base.extractLsb' 4 28 = (base.extractLsb' 0 32).extractLsb' 4 28 :=
    (BitVec.extractLsb'_extractLsb'_of_le (by decide)).symm
  have hlow : 16 ∣ (base.extractLsb' 0 32).toNat := by
    rw [BitVec.extractLsb'_toNat, Nat.shiftRight_zero, Nat.dvd_mod_iff (by decide)]
    exact h
  rw [hfield, base32_eq hlow, BitVec.or_comm, BitField.shiftLeft_or_setWidth,
    BitField.extractLsb'_append_extractLsb' (n := 32) (k := 32), BitVec.setWidth_eq]

/-! ### One BAR -/

section OfRegisters

variable {regs : BitVec 6 → BitVec 32} {i : BitVec 6}

theorem ofRegisters_ioWord {port : BitVec 16} (h : 4 ∣ port.toNat)
    (hlow : regs (4 + i) = ioWord port) : Bar.ofRegisters regs i = .io port := by
  simp only [Bar.ofRegisters, hlow]
  rw [if_pos (ioWord_bit port), ioWord_port, port_eq h]

theorem ofRegisters_memory32 {base : BitVec 32} (h : 16 ∣ base.toNat) {prefetchable : Bool}
    (hlow : regs (4 + i) = memoryWord (base.extractLsb' 4 28) prefetchable 0) :
    Bar.ofRegisters regs i = .memory32 base prefetchable := by
  simp only [Bar.ofRegisters, hlow, memoryWord_bit, memoryWord_type, memoryWord_base,
    memoryWord_prefetchable]
  rw [if_neg (by decide), if_pos trivial, base32_eq h]

theorem ofRegisters_memory64 {base : BitVec 64} (h : 16 ∣ base.toNat) {prefetchable : Bool}
    (hlow : regs (4 + i) = memoryWord (base.extractLsb' 4 28) prefetchable 2)
    (hhigh : regs (4 + i + 1) = base.extractLsb' 32 32) :
    Bar.ofRegisters regs i = .memory64 base prefetchable := by
  simp only [Bar.ofRegisters, hlow, hhigh, memoryWord_bit, memoryWord_type, memoryWord_base,
    memoryWord_prefetchable]
  rw [if_neg (by decide), if_neg (by decide), if_pos trivial, base64_eq h]

end OfRegisters

/-! ## Reading them all back -/

/-- The registers of the BARs from index `i` on. -/
def barWords (regs : BitVec 6 → BitVec 32) (i n : ℕ) : List (BitVec 32) :=
  (List.range' i n).map fun k ↦ regs (4 + BitVec.ofNat 6 k)

/-- What `barsOf` says at an index. -/
def barAt (regs : BitVec 6 → BitVec 32) (k : ℕ) : Option Bar :=
  if upperHalf regs k then none else some (Bar.ofRegisters regs (BitVec.ofNat 6 k))

section Layout

variable {regs : BitVec 6 → BitVec 32} {i n : ℕ} {w w' : BitVec 32} {ws : List (BitVec 32)}

/-- A register is taken from the front. -/
theorem barWords_eq_cons (h : barWords regs i n = w :: ws) :
    ∃ m, n = m + 1 ∧ regs (4 + BitVec.ofNat 6 i) = w ∧ barWords regs (i + 1) m = ws := by
  rcases n with _ | m
  · exact absurd h (List.cons_ne_nil w ws).symm
  · rw [barWords, List.range'_succ, List.map_cons, List.cons.injEq] at h
    exact ⟨m, rfl, h⟩

theorem barAt_of_not_upper (h : upperHalf regs i = false) :
    barAt regs i = some (Bar.ofRegisters regs (BitVec.ofNat 6 i)) := by
  rw [barAt, h]
  rfl

theorem barAt_of_upper (h : upperHalf regs i = true) : barAt regs i = none := by
  rw [barAt, h]
  rfl

/-- If the loop comes to index `i` and a list of BARs starts there, the entries from `i` on are
those of the list. By induction on the list: each BAR moves the index past its own registers. -/
theorem barAt_layout {ds : List BarDescriptor} (hstart : upperHalf regs i = false)
    (hregs : barWords regs i n = encodeBars ds) :
    (List.range' i n).map (barAt regs) = barEntries ds := by
  induction ds generalizing i n with
  | nil =>
    have hn : n = 0 := by simpa [barWords, encodeBars] using hregs
    rw [hn]
    rfl
  | cons d ds ih =>
    have htail : ∀ {bar : Bar} {m : ℕ},
        Bar.ofRegisters regs (BitVec.ofNat 6 i) = bar → bar.isMemory64 = false →
        barWords regs (i + 1) m = encodeBars ds →
        (List.range' i (m + 1)).map (barAt regs) = some bar :: barEntries ds := by
      intro bar m hbar hwidth hrest
      have hnext : upperHalf regs (i + 1) = false := by
        rw [upperHalf_succ_of_not_upper hstart, hbar, hwidth]
      rw [List.range'_succ, List.map_cons, barAt_of_not_upper hstart, hbar, ih hnext hrest]
    rcases d with ⟨port, hport⟩ | ⟨base, hbase, prefetchable⟩ | ⟨base, hbase, prefetchable⟩
    · obtain ⟨m, rfl, hlow, hrest⟩ := barWords_eq_cons hregs
      exact htail (ofRegisters_ioWord hport hlow) rfl hrest
    · obtain ⟨m, rfl, hlow, hrest⟩ := barWords_eq_cons hregs
      exact htail (ofRegisters_memory32 hbase hlow) rfl hrest
    · obtain ⟨m, rfl, hlow, hrest⟩ := barWords_eq_cons hregs
      obtain ⟨m, rfl, hhigh, hrest⟩ := barWords_eq_cons hrest
      have hbar : Bar.ofRegisters regs (BitVec.ofNat 6 i) = .memory64 base prefetchable := by
        apply ofRegisters_memory64 hbase hlow
        rw [← hhigh, BitVec.ofNat_add, BitVec.add_assoc]
        rfl
      -- the next register is an upper half, whatever it looks like
      have hupper : upperHalf regs (i + 1) = true := by
        rw [upperHalf_succ_of_not_upper hstart, hbar]
        rfl
      rw [List.range'_succ, List.map_cons, List.range'_succ, List.map_cons,
        barAt_of_not_upper hstart, hbar, barAt_of_upper hupper,
        ih (upperHalf_succ_of_upper hupper) hrest]
      rfl

end Layout

/-- Six registers that hold a list of BARs are read as that list. -/
theorem barsOf_layout {regs : BitVec 6 → BitVec 32} {ds : List BarDescriptor}
    (hregs : barWords regs 0 6 = encodeBars ds) : List.ofFn (barsOf regs) = barEntries ds :=
  barAt_layout (i := 0) rfl hregs

/-- The record is that of a function. -/
def Device.At (d : Device) (bus : BitVec 8) (device : BitVec 5) (function : BitVec 3) : Prop :=
  d.bus = bus ∧ d.device = device.setWidth 8 ∧ d.function = function.setWidth 8

/-- A record says whose it is. -/
theorem functionDevice_of_at {cs : ConfigSpace} {bus b : BitVec 8} {device d : BitVec 5}
    {function f : BitVec 3} (h : (functionDevice cs b d f).At bus device function) :
    functionDevice cs b d f = functionDevice cs bus device function := by
  obtain ⟨hbus, hdevice, hfunction⟩ := h
  have hb : b = bus := hbus
  have hd : d = device := (BitField.setWidth_inj_of_le (by decide)).mp hdevice
  have hf : f = function := (BitField.setWidth_inj_of_le (by decide)).mp hfunction
  rw [hb, hd, hf]

/-- **The layout round trip.** Take any list of BARs that fills the six registers. In every function
whose registers hold it, the loop over the BARs ends with the entries of the list, and the record
that `enumerate` returns for the function, be it function 0 or one of the others, has them too. -/
theorem bar_layout_round_trip (ds : List BarDescriptor) :
    (∀ cs (cfg : PciConfig) (d : Device),
      barWords (cfg.registers cs) 0 6 = encodeBars ds → d.bars = (fun _ ↦ none) →
      ∃ bars, readBars cs cfg 0 d = some { d with bars } ∧ List.ofFn bars = barEntries ds) ∧
    ∀ cs bus device function, Present cs bus device function →
      barWords (fun r ↦ cs ⟨bus, device, function, r⟩) 0 6 = encodeBars ds →
      ∃ devices, enumerate cs = some devices ∧
        (∃ d ∈ devices, d.At bus device function) ∧
        ∀ d ∈ devices, d.At bus device function → List.ofFn d.bars = barEntries ds := by
  constructor
  · intro cs cfg d hregs hd
    exact ⟨_, readBars_zero cs cfg hd, barsOf_layout hregs⟩
  · intro cs bus device function hpresent hregs
    obtain ⟨devices, hscan, -, hmem⟩ := enumerate_exact cs
    refine ⟨devices, hscan, ?_, ?_⟩
    · exact ⟨_, (hmem _).mpr ⟨bus, device, function, hpresent, rfl⟩, rfl, rfl, rfl⟩
    · intro d hd hat
      obtain ⟨b, dev, f, -, rfl⟩ := (hmem d).mp hd
      rw [functionDevice_of_at hat]
      exact barsOf_layout hregs

/-- Two 64-bit BARs, the upper halves of which look like an I/O BAR and like the start of another
64-bit BAR, and two BARs of one register between them. -/
def sampleBars : List BarDescriptor :=
  [.memory64 0x0000C001FE000000 (by decide) true, .io 0xC040 (by decide),
    .memory32 0xFEBF1000 (by decide) false, .memory64 0x0000000400000010 (by decide) false]

/-- Every function of every slot has these BARs. -/
def sampleSpace : ConfigSpace := fun r ↦
  if r.register = 3 then 0x00800000
  else ((encodeBars sampleBars)[r.register.toNat - 4]?).getD 0

theorem bar_layout_round_trip_sample :
    (∃ bars, readBars sampleSpace ⟨0, 3, 1⟩ 0
        { functionDevice sampleSpace 0 3 1 with bars := fun _ ↦ none } =
          some { functionDevice sampleSpace 0 3 1 with bars } ∧
        List.ofFn bars = barEntries sampleBars) ∧
      ∃ devices, enumerate sampleSpace = some devices ∧
        (∃ d ∈ devices, d.At 0 3 1) ∧
        ∀ d ∈ devices, d.At 0 3 1 → List.ofFn d.bars = barEntries sampleBars :=
  ⟨(bar_layout_round_trip sampleBars).1 sampleSpace ⟨0, 3, 1⟩ _ (by decide) rfl,
    (bar_layout_round_trip sampleBars).2 sampleSpace 0 3 1 (by decide) (by decide)⟩

end Punkos.Pci
