import Punkos.Xhci.Driver

/-!
# The capability registers

What a controller can do stands in six dwords at the start of its register window. The
specification packs several fields into each of them; `Capabilities.LaidOut` is that layout, with
every field that no accessor is about left arbitrary. The accessors of `Registers` take the dwords
apart again with shifts and masks.

They fit, with two exceptions. The count of scratchpad buffers is split into two fields of five
bits, and `max_scratchpad_bufs` takes each for the other. And `new` keeps the reserved bits of
RTSOFF, which `doorbell` removes from DBOFF. `capabilities_decoded_iff` says for which records
nothing of this shows.

Addresses are added modulo `2 ^ 64`. A build with overflow checks panics where a sum wraps around,
which it does not as long as the window ends below `2 ^ 64`.
-/

namespace Punkos

/-! ## The accessors -/

/-- The register window in memory: the dword at each address. -/
abbrev Window := BitVec 64 → BitVec 32

/-- `Registers`: where the window is, and two of its parts relative to it. -/
structure Registers where
  /-- The virtual address of the window. -/
  base : BitVec 64
  /-- The operational registers. -/
  opOffset : BitVec 64
  /-- The runtime registers. -/
  rtOffset : BitVec 64
  deriving DecidableEq, Repr

namespace Registers

/-- CAPLENGTH is read as a byte, RTSOFF as a dword. -/
def new (w : Window) (barPhys physOffset : BitVec 64) : Registers :=
  let base := physOffset + barPhys
  let caplength : BitVec 8 := (w base).setWidth 8
  let rtsoff := w (base + 0x18)
  { base := base, opOffset := caplength.setWidth 64, rtOffset := rtsoff.setWidth 64 }

variable (w : Window) (r : Registers)

/-- `read_cap`. -/
def readCap (offset : BitVec 64) : BitVec 32 := w (r.base + offset)

/-- The version, in the upper half of the first dword. -/
def hciversion : BitVec 16 := (r.readCap w 0x00 >>> 16).setWidth 16

/-- The number of device slots. -/
def maxSlots : BitVec 8 := (r.readCap w 4).setWidth 8

/-- The number of ports. -/
def maxPorts : BitVec 8 := (r.readCap w 4 >>> 24 &&& 0xFF).setWidth 8

/-- The number of scratchpad buffers. -/
def maxScratchpadBufs : BitVec 16 :=
  let v := r.readCap w 8
  let hi := v >>> 27 &&& 0x1F
  let lo := v >>> 21 &&& 0x1F
  (hi <<< 5 ||| lo).setWidth 16

/-- Whether contexts take 64 bytes. -/
def contextSize64 : Bool := r.readCap w 0x10 &&& 1 <<< 2 ≠ 0

/-- The address of a doorbell. -/
def doorbell (target : BitVec 32) : BitVec 64 :=
  let dboff := (r.readCap w 0x14 &&& ~~~0x3).setWidth 64
  r.base + dboff + target.setWidth 64 * 4

end Registers

/-! ## The layout -/

/-- What the accessors are about. -/
structure Capabilities where
  /-- The length of the capability registers. -/
  caplength : BitVec 8
  /-- The version. -/
  hciversion : BitVec 16
  /-- Device slots. -/
  maxSlots : BitVec 8
  /-- Ports. -/
  maxPorts : BitVec 8
  /-- Scratchpad buffers. -/
  maxScratchpadBufs : BitVec 10
  /-- Contexts take 64 bytes. -/
  csz : Bool
  /-- The offset of the doorbells. -/
  dboff : BitVec 32
  /-- Doorbells are dwords. -/
  dboff_dvd : 4 ∣ dboff.toNat
  /-- The offset of the runtime registers. -/
  rtsoff : BitVec 32
  /-- Interrupter register sets take 32 bytes. -/
  rtsoff_dvd : 32 ∣ rtsoff.toNat

/-- What else is in the six dwords. -/
structure OtherFields where
  /-- Bits 15:8 of the first dword. -/
  rsvd : BitVec 8
  /-- HCSPARAMS1, bits 18:8. -/
  maxIntrs : BitVec 11
  /-- HCSPARAMS1, bits 23:19. -/
  rsvd1 : BitVec 5
  /-- HCSPARAMS2, bits 3:0. -/
  ist : BitVec 4
  /-- HCSPARAMS2, bits 7:4. -/
  erstMax : BitVec 4
  /-- HCSPARAMS2, bits 20:8. -/
  rsvd2 : BitVec 13
  /-- HCSPARAMS2, bit 26. -/
  spr : BitVec 1
  /-- HCCPARAMS1, bits 1:0: AC64 and BNC. -/
  hcc1Low : BitVec 2
  /-- HCCPARAMS1, bits 31:3. -/
  hcc1High : BitVec 29
  /-- DBOFF, bits 1:0. -/
  dboffRsvd : BitVec 2
  /-- RTSOFF, bits 4:0. -/
  rtsoffRsvd : BitVec 5

namespace Capabilities

variable (c : Capabilities) (o : OtherFields)

/-- The upper half of the number of scratchpad buffers. -/
def scratchpadHi : BitVec 5 := c.maxScratchpadBufs.extractLsb' 5 5

/-- The lower half of the number of scratchpad buffers. -/
def scratchpadLo : BitVec 5 := c.maxScratchpadBufs.extractLsb' 0 5

/-- The first dword. -/
def capDword : BitVec 32 := c.hciversion ++ o.rsvd ++ c.caplength

/-- HCSPARAMS1. -/
def hcsparams1 : BitVec 32 := c.maxPorts ++ o.rsvd1 ++ o.maxIntrs ++ c.maxSlots

/-- HCSPARAMS2: Max Scratchpad Bufs Lo in bits 31:27, Hi in bits 25:21. -/
def hcsparams2 : BitVec 32 :=
  c.scratchpadLo ++ o.spr ++ c.scratchpadHi ++ o.rsvd2 ++ o.erstMax ++ o.ist

/-- HCCPARAMS1: CSZ in bit 2. -/
def hccparams1 : BitVec 32 := o.hcc1High ++ BitVec.ofBool c.csz ++ o.hcc1Low

/-- DBOFF. -/
def dboffDword : BitVec 32 := c.dboff.extractLsb' 2 30 ++ o.dboffRsvd

/-- RTSOFF. -/
def rtsoffDword : BitVec 32 := c.rtsoff.extractLsb' 5 27 ++ o.rtsoffRsvd

/-- The window at `base` shows the record. -/
structure LaidOut (w : Window) (base : BitVec 64) : Prop where
  /-- CAPLENGTH and HCIVERSION. -/
  cap : w base = c.capDword o
  /-- HCSPARAMS1. -/
  hcs1 : w (base + 4) = c.hcsparams1 o
  /-- HCSPARAMS2. -/
  hcs2 : w (base + 8) = c.hcsparams2 o
  /-- HCCPARAMS1. -/
  hcc1 : w (base + 0x10) = c.hccparams1 o
  /-- DBOFF. -/
  dboff : w (base + 0x14) = c.dboffDword o
  /-- RTSOFF. -/
  rtsoff : w (base + 0x18) = c.rtsoffDword o

/-- The accessors return what the record says. -/
structure Decoded (w : Window) (barPhys physOffset : BitVec 64) : Prop where
  /-- `new`: the window. -/
  base : (Registers.new w barPhys physOffset).base = physOffset + barPhys
  /-- `new`: CAPLENGTH. -/
  opOffset : (Registers.new w barPhys physOffset).opOffset = c.caplength.setWidth 64
  /-- `new`: RTSOFF. -/
  rtOffset : (Registers.new w barPhys physOffset).rtOffset = c.rtsoff.setWidth 64
  /-- `hciversion`. -/
  hciversion : (Registers.new w barPhys physOffset).hciversion w = c.hciversion
  /-- `max_slots`. -/
  maxSlots : (Registers.new w barPhys physOffset).maxSlots w = c.maxSlots
  /-- `max_ports`. -/
  maxPorts : (Registers.new w barPhys physOffset).maxPorts w = c.maxPorts
  /-- `max_scratchpad_bufs`. -/
  maxScratchpadBufs : (Registers.new w barPhys physOffset).maxScratchpadBufs w =
    c.maxScratchpadBufs.setWidth 16
  /-- `context_size_64`. -/
  contextSize64 : (Registers.new w barPhys physOffset).contextSize64 w = c.csz
  /-- `doorbell`. -/
  doorbell : ∀ target : BitVec 32, (Registers.new w barPhys physOffset).doorbell w target =
    physOffset + barPhys + c.dboff.setWidth 64 + 4 * target.setWidth 64

/-! ## The fields of the dwords -/

theorem extractLsb'_capDword_caplength : (c.capDword o).extractLsb' 0 8 = c.caplength := by
  change (c.hciversion ++ o.rsvd ++ c.caplength).extractLsb' 0 8 = _
  rw [BitVec.extractLsb'_append_eq_of_add_le (by decide), BitVec.extractLsb'_eq_self]

theorem extractLsb'_capDword_hciversion : (c.capDword o).extractLsb' 16 16 = c.hciversion := by
  change (c.hciversion ++ o.rsvd ++ c.caplength).extractLsb' 16 16 = _
  rw [BitVec.extractLsb'_append_eq_of_le (by decide),
    BitVec.extractLsb'_append_eq_of_le (by decide)]
  exact BitVec.extractLsb'_eq_self

theorem extractLsb'_hcsparams1_maxSlots : (c.hcsparams1 o).extractLsb' 0 8 = c.maxSlots := by
  change (c.maxPorts ++ o.rsvd1 ++ o.maxIntrs ++ c.maxSlots).extractLsb' 0 8 = _
  rw [BitVec.extractLsb'_append_eq_of_add_le (by decide), BitVec.extractLsb'_eq_self]

theorem extractLsb'_hcsparams1_maxPorts : (c.hcsparams1 o).extractLsb' 24 8 = c.maxPorts := by
  change (c.maxPorts ++ o.rsvd1 ++ o.maxIntrs ++ c.maxSlots).extractLsb' 24 8 = _
  rw [BitVec.extractLsb'_append_eq_of_le (by decide),
    BitVec.extractLsb'_append_eq_of_le (by decide),
    BitVec.extractLsb'_append_eq_of_le (by decide)]
  exact BitVec.extractLsb'_eq_self

theorem extractLsb'_hcsparams2_lo : (c.hcsparams2 o).extractLsb' 27 5 = c.scratchpadLo := by
  change (c.scratchpadLo ++ o.spr ++ c.scratchpadHi ++ o.rsvd2 ++ o.erstMax ++ o.ist).extractLsb'
    27 5 = _
  rw [BitVec.extractLsb'_append_eq_of_le (by decide),
    BitVec.extractLsb'_append_eq_of_le (by decide),
    BitVec.extractLsb'_append_eq_of_le (by decide),
    BitVec.extractLsb'_append_eq_of_le (by decide),
    BitVec.extractLsb'_append_eq_of_le (by decide)]
  exact BitVec.extractLsb'_eq_self

theorem extractLsb'_hcsparams2_hi : (c.hcsparams2 o).extractLsb' 21 5 = c.scratchpadHi := by
  change (c.scratchpadLo ++ o.spr ++ c.scratchpadHi ++ o.rsvd2 ++ o.erstMax ++ o.ist).extractLsb'
    21 5 = _
  rw [BitVec.extractLsb'_append_eq_of_le (by decide),
    BitVec.extractLsb'_append_eq_of_le (by decide),
    BitVec.extractLsb'_append_eq_of_le (by decide),
    BitVec.extractLsb'_append_eq_of_add_le (by decide)]
  exact BitVec.extractLsb'_eq_self

theorem getLsbD_hccparams1 : (c.hccparams1 o).getLsbD 2 = c.csz := by
  change (o.hcc1High ++ BitVec.ofBool c.csz ++ o.hcc1Low).getLsbD 2 = _
  rw [BitVec.getLsbD_append, if_neg (by decide), BitVec.getLsbD_append, if_pos (by decide)]
  exact BitVec.getLsbD_ofBool ..

theorem dboff_eq_append : c.dboff.extractLsb' 2 30 ++ 0#2 = c.dboff :=
  BitField.extractLsb'_append_zero_of_dvd (n := 30) (k := 2) c.dboff_dvd

theorem rtsoff_eq_append : c.rtsoff.extractLsb' 5 27 ++ 0#5 = c.rtsoff :=
  BitField.extractLsb'_append_zero_of_dvd (n := 27) (k := 5) c.rtsoff_dvd

/-- The mask of `doorbell` clears the reserved bits of DBOFF. -/
theorem dboffDword_and : c.dboffDword o &&& ~~~0x3 = c.dboff :=
  (BitField.append_and_not_low _ o.dboffRsvd).trans c.dboff_eq_append

/-- The reserved bits of RTSOFF stay. -/
theorem rtsoffDword_eq_iff : c.rtsoffDword o = c.rtsoff ↔ o.rtsoffRsvd = 0 := by
  have hlow : (c.rtsoffDword o).extractLsb' 0 5 = o.rtsoffRsvd := by
    change (c.rtsoff.extractLsb' 5 27 ++ o.rtsoffRsvd).extractLsb' 0 5 = _
    rw [BitVec.extractLsb'_append_eq_of_add_le (by decide), BitVec.extractLsb'_eq_self]
  constructor
  · intro h
    rw [← hlow, h, ← BitVec.setWidth_eq_extractLsb' (by decide)]
    exact BitField.setWidth_of_dvd (k := 5) c.rtsoff_dvd
  · intro h
    rw [rtsoffDword, h]
    exact c.rtsoff_eq_append

/-- The two halves of the count. -/
theorem scratchpad_append : c.scratchpadHi ++ c.scratchpadLo = c.maxScratchpadBufs :=
  BitField.extractLsb'_append_extractLsb' (n := 5) (k := 5) c.maxScratchpadBufs

/-- Swapping the halves of the count gives the count back if they are equal, and only then. -/
theorem scratchpad_swap_iff :
    c.scratchpadLo ++ c.scratchpadHi = c.maxScratchpadBufs ↔ c.scratchpadHi = c.scratchpadLo := by
  constructor
  · intro h
    have hlow : (c.scratchpadLo ++ c.scratchpadHi).extractLsb' 0 5 = c.scratchpadLo :=
      congrArg (·.extractLsb' 0 5) h
    rw [BitVec.extractLsb'_append_eq_of_add_le (by decide), BitVec.extractLsb'_eq_self] at hlow
    exact hlow
  · intro h
    rw [← scratchpad_append, h]

end Capabilities

/-! ## What the masks select -/

theorem port_mask_eq (x : BitVec 32) : (x >>> 24 &&& 0xFF).setWidth 8 = x.extractLsb' 24 8 :=
  BitField.setWidth_ushiftRight_and_low x 24 8

/-- What `max_scratchpad_bufs` puts together. -/
theorem scratchpad_mask_eq (x : BitVec 32) :
    ((x >>> 27 &&& 0x1F) <<< 5 ||| (x >>> 21 &&& 0x1F)).setWidth 16 =
      (x.extractLsb' 27 5 ++ x.extractLsb' 21 5).setWidth 16 := by
  have hfield : ∀ k, x >>> k &&& 0x1F = (x.extractLsb' k 5).setWidth 32 := fun k ↦
    BitField.ushiftRight_and_low x k 5
  rw [hfield, hfield, BitField.shiftLeft_or_setWidth, BitVec.setWidth_setWidth_of_le _ (by decide)]

/-! ## What the accessors return -/

namespace Capabilities

variable {c : Capabilities} {o : OtherFields} {w : Window} {barPhys physOffset : BitVec 64}

/-- `max_scratchpad_bufs` is right exactly if the halves of the count are equal. -/
theorem LaidOut.maxScratchpadBufs_iff (h : c.LaidOut o w (physOffset + barPhys)) :
    (Registers.new w barPhys physOffset).maxScratchpadBufs w = c.maxScratchpadBufs.setWidth 16 ↔
      c.scratchpadHi = c.scratchpadLo := by
  have hword : (Registers.new w barPhys physOffset).readCap w 8 = c.hcsparams2 o := h.hcs2
  rw [Registers.maxScratchpadBufs, hword]
  simp only [scratchpad_mask_eq, extractLsb'_hcsparams2_lo, extractLsb'_hcsparams2_hi]
  rw [BitField.setWidth_inj_of_le (by decide), scratchpad_swap_iff]

/-- The offset of the runtime registers is right exactly if the reserved bits are clear. -/
theorem LaidOut.rtOffset_iff (h : c.LaidOut o w (physOffset + barPhys)) :
    (Registers.new w barPhys physOffset).rtOffset = c.rtsoff.setWidth 64 ↔ o.rtsoffRsvd = 0 := by
  have hword : (Registers.new w barPhys physOffset).rtOffset = (c.rtsoffDword o).setWidth 64 :=
    congrArg (BitVec.setWidth 64) h.rtsoff
  rw [hword, BitField.setWidth_inj_of_le (by decide), rtsoffDword_eq_iff]

theorem LaidOut.opOffset (h : c.LaidOut o w (physOffset + barPhys)) :
    (Registers.new w barPhys physOffset).opOffset = c.caplength.setWidth 64 := by
  have hlow : (w (physOffset + barPhys)).setWidth 8 = c.caplength := by
    rw [h.cap, BitVec.setWidth_eq_extractLsb' (by decide), extractLsb'_capDword_caplength]
  exact congrArg (BitVec.setWidth 64) hlow

theorem LaidOut.hciversion (h : c.LaidOut o w (physOffset + barPhys)) :
    (Registers.new w barPhys physOffset).hciversion w = c.hciversion := by
  have hword : (Registers.new w barPhys physOffset).readCap w 0x00 = c.capDword o := by
    rw [← h.cap]
    exact congrArg w (BitVec.add_zero _)
  rw [Registers.hciversion, hword, BitVec.setWidth_ushiftRight_eq_extractLsb,
    extractLsb'_capDword_hciversion]

theorem LaidOut.maxSlots (h : c.LaidOut o w (physOffset + barPhys)) :
    (Registers.new w barPhys physOffset).maxSlots w = c.maxSlots := by
  have hword : (Registers.new w barPhys physOffset).readCap w 4 = c.hcsparams1 o := h.hcs1
  rw [Registers.maxSlots, hword, BitVec.setWidth_eq_extractLsb' (by decide),
    extractLsb'_hcsparams1_maxSlots]

theorem LaidOut.maxPorts (h : c.LaidOut o w (physOffset + barPhys)) :
    (Registers.new w barPhys physOffset).maxPorts w = c.maxPorts := by
  have hword : (Registers.new w barPhys physOffset).readCap w 4 = c.hcsparams1 o := h.hcs1
  rw [Registers.maxPorts, hword, port_mask_eq, extractLsb'_hcsparams1_maxPorts]

theorem LaidOut.contextSize64 (h : c.LaidOut o w (physOffset + barPhys)) :
    (Registers.new w barPhys physOffset).contextSize64 w = c.csz := by
  have hword : (Registers.new w barPhys physOffset).readCap w 0x10 = c.hccparams1 o := h.hcc1
  have hbit : (1 <<< 2 : BitVec 32) = BitVec.twoPow 32 2 := by decide
  rw [Registers.contextSize64, hword, hbit, ← Bool.coe_iff_coe, decide_eq_true_iff, ne_eq,
    BitField.and_twoPow_eq_zero_iff _ (by decide), getLsbD_hccparams1, Bool.not_eq_false]

theorem LaidOut.doorbell (h : c.LaidOut o w (physOffset + barPhys)) (target : BitVec 32) :
    (Registers.new w barPhys physOffset).doorbell w target =
      physOffset + barPhys + c.dboff.setWidth 64 + 4 * target.setWidth 64 := by
  have hword : (Registers.new w barPhys physOffset).readCap w 0x14 = c.dboffDword o := h.dboff
  rw [Registers.doorbell, hword, dboffDword_and, BitVec.mul_comm 4]
  rfl

end Capabilities

/-- What `init` reads first is what the accessors say, when the controller answers reads of its
capability registers out of a window. -/
theorem Controller.identify_eq {D : Device} {w : Window} {r : Registers}
    (hread : ∀ s off, D.read s (.cap off) = (w (r.base + BitVec.ofNat 64 off), s))
    (m : Machine D) : Controller.identify m = (r.maxSlots w, r.maxPorts w, m) := by
  simp only [Controller.identify, Machine.read, Reg.hcsparams1, hread]
  rfl

/-- **The accessors against the layout.** For every record laid out in a window, with whatever else
is in its dwords, all accessors return what the record says if and only if the two halves of the
number of scratchpad buffers are equal and the reserved bits of RTSOFF are clear. -/
theorem capabilities_decoded_iff {c : Capabilities} {o : OtherFields} {w : Window}
    {barPhys physOffset : BitVec 64} (h : c.LaidOut o w (physOffset + barPhys)) :
    c.Decoded w barPhys physOffset ↔ c.scratchpadHi = c.scratchpadLo ∧ o.rtsoffRsvd = 0 := by
  constructor
  · intro hdec
    exact ⟨h.maxScratchpadBufs_iff.mp hdec.maxScratchpadBufs, h.rtOffset_iff.mp hdec.rtOffset⟩
  · rintro ⟨hhalves, hrsvd⟩
    exact
      { base := rfl
        opOffset := h.opOffset
        rtOffset := h.rtOffset_iff.mpr hrsvd
        hciversion := h.hciversion
        maxSlots := h.maxSlots
        maxPorts := h.maxPorts
        maxScratchpadBufs := h.maxScratchpadBufs_iff.mpr hhalves
        contextSize64 := h.contextSize64
        doorbell := h.doorbell }

/-! ## One record -/

/-- All other fields zero. -/
def noOtherFields : OtherFields := ⟨0, 0, 0, 0, 0, 0, 0, 0, 0, 0, 0⟩

/-- A controller with 64 slots and 4 ports that wants `bufs` scratchpad buffers. -/
def sampleCapabilities (bufs : BitVec 10) : Capabilities where
  caplength := 0x40
  hciversion := 0x0110
  maxSlots := 64
  maxPorts := 4
  maxScratchpadBufs := bufs
  csz := true
  dboff := 0x2000
  dboff_dvd := by decide
  rtsoff := 0x1000
  rtsoff_dvd := by decide

/-- A window at address 0 that shows a record. -/
def Capabilities.window (c : Capabilities) (o : OtherFields) : Window := fun addr ↦
  if addr = 0 then c.capDword o
  else if addr = 4 then c.hcsparams1 o
  else if addr = 8 then c.hcsparams2 o
  else if addr = 0x10 then c.hccparams1 o
  else if addr = 0x14 then c.dboffDword o
  else if addr = 0x18 then c.rtsoffDword o
  else 0

theorem Capabilities.laidOut_window (c : Capabilities) (o : OtherFields) :
    c.LaidOut o (c.window o) (0 + 0) := ⟨rfl, rfl, rfl, rfl, rfl, rfl⟩

/-- 33 buffers: both halves of the count are 1. -/
theorem capabilities_decoded_sample :
    (sampleCapabilities 33).Decoded ((sampleCapabilities 33).window noOtherFields) 0 0 :=
  (capabilities_decoded_iff ((sampleCapabilities 33).laidOut_window noOtherFields)).mpr
    ⟨by decide, rfl⟩

/-- A controller that wants one buffer is taken to want 32. -/
theorem not_capabilities_decoded :
    (sampleCapabilities 1).LaidOut noOtherFields
        ((sampleCapabilities 1).window noOtherFields) (0 + 0) ∧
      (Registers.new ((sampleCapabilities 1).window noOtherFields) 0 0).maxScratchpadBufs
        ((sampleCapabilities 1).window noOtherFields) = 32 ∧
      ¬ (sampleCapabilities 1).Decoded ((sampleCapabilities 1).window noOtherFields) 0 0 := by
  refine ⟨(sampleCapabilities 1).laidOut_window noOtherFields, by decide, fun h ↦ ?_⟩
  exact absurd h.maxScratchpadBufs (by decide)

end Punkos
