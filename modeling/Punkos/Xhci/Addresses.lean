import Punkos.Xhci.BringUp
import Punkos.Xhci.Registers
import Punkos.Xhci.Simulation

/-!
# Where the registers are

`Driver` names a register by its block and the offset there. The code has addresses instead, which
it computes from what the controller says about itself: CAPLENGTH and RTSOFF when it starts, DBOFF
each time it rings a doorbell. `Registers.address` is that computation, `Bus.through` the driver's
view of a bus through it, and `Device.onBus` the bus with a controller on it, which looks at the
distance of an address from the BAR only.

`driver_reaches_registers` connects the two. The computed addresses are those of the registers
meant exactly if the reserved bits of RTSOFF read as zero; and then the driver does through its
addresses what it does on the registers themselves. As in `Driver`, the two accesses that are less
than a dword wide, to CAPLENGTH and ERSTSZ, count as accesses to the dword.
-/

namespace Punkos

/-! ## The code -/

namespace Registers

variable (w : Window) (r : Registers)

/-- `op_addr`. -/
def opAddr (offset : BitVec 64) : BitVec 64 := r.base + r.opOffset + offset

/-- `rt_addr`. -/
def rtAddr (offset : BitVec 64) : BitVec 64 := r.base + r.rtOffset + offset

/-- `portsc_addr`. -/
def portscAddr (port : BitVec 8) : BitVec 64 :=
  r.base + r.opOffset + 0x400 + (port.setWidth 64 - 1) * 0x10

/-- The address at which the code accesses a register. -/
def address : Mmio → BitVec 64
  | .cap offset => r.base + BitVec.ofNat 64 offset
  | .op offset => r.opAddr (BitVec.ofNat 64 offset)
  | .rt offset => r.rtAddr (BitVec.ofNat 64 offset)
  | .doorbell target => r.doorbell w (BitVec.ofNat 32 target)

/-- Ports are counted from 1. -/
theorem portscAddr_eq {port : BitVec 8} (h : 1 ≤ port.toNat) :
    r.portscAddr port = r.address w (Reg.portsc port.toNat) := by
  have hlt := port.isLt
  have hoffset : 0x400 + (port.setWidth 64 - 1) * 0x10 =
      BitVec.ofNat 64 (0x400 + (port.toNat - 1) * 0x10) := by
    apply BitVec.eq_of_toNat_eq
    simp only [BitVec.toNat_add, BitVec.toNat_mul, BitVec.toNat_sub, BitVec.toNat_setWidth,
      BitVec.toNat_ofNat, BitVec.reduceToNat]
    omega
  rw [portscAddr, BitVec.add_assoc, hoffset]
  rfl

end Registers

/-- What `kernel_main` does with a controller: bring it up, check its health, reset its ports. -/
def Controller.bringUp {D : Device} (P : Platform) (fuel : ℕ) (m : Machine D) :
    Option ((Controller × Bool × ℕ) × Machine D) := do
  let (c, m) ← init P fuel m
  let probe := c.noop m
  let (connected, m) ← probe.2.1.initialisePorts fuel probe.2.2
  return ((probe.2.1, probe.1, connected), m)

/-! ## The bus -/

/-- What is behind the addresses. -/
structure Bus where
  /-- The states. -/
  State : Type
  /-- Read at an address. -/
  read : State → BitVec 64 → BitVec 32 × State
  /-- Write at an address. -/
  write : (BitVec 64 → Option ErstEntry) → State → BitVec 64 → BitVec 32 → State
  /-- The blocks written to the event ring since the driver last looked. -/
  post : State → List (ℕ × Trb) × State

/-- The dwords that would be read. -/
def Bus.window (B : Bus) (s : B.State) : Window := fun addr ↦ (B.read s addr).1

/-- What the driver has of a bus: each register at its address. -/
def Bus.through (B : Bus) (w : Window) (r : Registers) : Device where
  State := B.State
  read s x := B.read s (r.address w x)
  write erst s x v := B.write erst s (r.address w x) v
  post := B.post

namespace Capabilities

variable (c : Capabilities) (o : OtherFields)

/-- The size of the operational registers. -/
def opSize : ℕ := 0x400 + 0x10 * c.maxPorts.toNat

/-- The size of the runtime registers. -/
def rtSize : ℕ := 0x20 + 0x20 * o.maxIntrs.toNat

/-- The size of the doorbells. -/
def doorbellSize : ℕ := 4 * (c.maxSlots.toNat + 1)

/-- The registers there are. -/
def Has : Mmio → Prop
  | .cap offset => offset < c.caplength.toNat
  | .op offset => offset < c.opSize
  | .rt offset => offset < rtSize o
  | .doorbell target => target ≤ c.maxSlots.toNat

/-- The register at a distance from the BAR. -/
def decode (d : ℕ) : Option Mmio :=
  if d < c.caplength.toNat then some (.cap d)
  else if d < c.caplength.toNat + c.opSize then some (.op (d - c.caplength.toNat))
  else if c.rtsoff.toNat ≤ d ∧ d < c.rtsoff.toNat + rtSize o then some (.rt (d - c.rtsoff.toNat))
  else if c.dboff.toNat ≤ d ∧ d < c.dboff.toNat + c.doorbellSize ∧ (d - c.dboff.toNat) % 4 = 0 then
    some (.doorbell ((d - c.dboff.toNat) / 4))
  else none

/-- The blocks are big enough and do not overlap. -/
structure Separate : Prop where
  /-- The capability registers. -/
  caplength : 0x20 ≤ c.caplength.toNat
  /-- There is an interrupter. -/
  maxIntrs : 1 ≤ o.maxIntrs.toNat
  /-- The operational registers are followed by the runtime registers … -/
  op_rt : c.caplength.toNat + c.opSize ≤ c.rtsoff.toNat
  /-- … and the doorbells, … -/
  op_doorbell : c.caplength.toNat + c.opSize ≤ c.dboff.toNat
  /-- … in either order. -/
  rt_doorbell : c.rtsoff.toNat + rtSize o ≤ c.dboff.toNat ∨
    c.dboff.toNat + c.doorbellSize ≤ c.rtsoff.toNat

end Capabilities

/-- The bus with a controller at `base`. -/
def Device.onBus (D : Device) (c : Capabilities) (o : OtherFields) (base : BitVec 64) : Bus where
  State := D.State
  read s addr :=
    match c.decode o (addr - base).toNat with
    | some x => D.read s x
    | none => (0xFFFF_FFFF, s)
  write erst s addr v :=
    match c.decode o (addr - base).toNat with
    | some x => D.write erst s x v
    | none => s
  post := D.post

/-- The capability registers of the controller show the record, in every state. -/
structure Device.Shows (D : Device) (c : Capabilities) (o : OtherFields) : Prop where
  /-- CAPLENGTH and HCIVERSION. -/
  cap : ∀ s, D.read s (.cap 0x00) = (c.capDword o, s)
  /-- HCSPARAMS1. -/
  hcs1 : ∀ s, D.read s (.cap 0x04) = (c.hcsparams1 o, s)
  /-- HCSPARAMS2. -/
  hcs2 : ∀ s, D.read s (.cap 0x08) = (c.hcsparams2 o, s)
  /-- HCCPARAMS1. -/
  hcc1 : ∀ s, D.read s (.cap 0x10) = (c.hccparams1 o, s)
  /-- DBOFF. -/
  dboff : ∀ s, D.read s (.cap 0x14) = (c.dboffDword o, s)
  /-- RTSOFF. -/
  rtsoff : ∀ s, D.read s (.cap 0x18) = (c.rtsoffDword o, s)

/-! ## Decoding -/

namespace Capabilities

variable {c : Capabilities} {o : OtherFields}

theorem decode_cap {k : ℕ} (h : c.Has o (.cap k)) : c.decode o k = some (.cap k) := if_pos h

theorem decode_op {k : ℕ} (h : c.Has o (.op k)) :
    c.decode o (c.caplength.toNat + k) = some (.op k) := by
  have hlt : k < c.opSize := h
  rw [decode, if_neg (by omega), if_pos (by omega), Nat.add_sub_cancel_left]

theorem decode_rt (hsep : c.Separate o) {k : ℕ} (h : c.Has o (.rt k)) :
    c.decode o (c.rtsoff.toNat + k) = some (.rt k) := by
  have hlt : k < rtSize o := h
  have hop := hsep.op_rt
  rw [decode, if_neg (by omega), if_neg (by omega), if_pos (by omega), Nat.add_sub_cancel_left]

theorem decode_doorbell (hsep : c.Separate o) {t : ℕ} (h : c.Has o (.doorbell t)) :
    c.decode o (c.dboff.toNat + 4 * t) = some (.doorbell t) := by
  have hle : t ≤ c.maxSlots.toNat := h
  have hop := hsep.op_doorbell
  have hrt := hsep.rt_doorbell
  rw [doorbellSize] at hrt
  rw [decode, doorbellSize, if_neg (by omega), if_neg (by omega), if_neg (by omega),
    if_pos (by omega), Nat.add_sub_cancel_left, Nat.mul_div_cancel_left _ (by decide)]

/-- Runtime registers are found nowhere else. -/
theorem eq_of_decode_eq_rt {d k : ℕ} (h : c.decode o d = some (.rt k)) :
    d = c.rtsoff.toNat + k := by
  rw [decode] at h
  split at h
  · cases h
  split at h
  · cases h
  split at h
  case isTrue hd =>
    obtain rfl := Mmio.rt.inj (Option.some.inj h)
    omega
  split at h
  · cases h
  · cases h

/-! ## What the accessors compute -/

section Address

variable {w : Window} {barPhys physOffset : BitVec 64}

/-- Distances add up as long as they are small. -/
theorem toNat_add_add_sub (base : BitVec 64) {a b : BitVec 64} (h : a.toNat + b.toNat < 2 ^ 64) :
    (base + a + b - base).toNat = a.toNat + b.toNat := by
  rw [BitVec.add_assoc, BitVec.add_comm, BitVec.add_sub_cancel, BitVec.toNat_add,
    Nat.mod_eq_of_lt h]

/-- The reserved bits of RTSOFF are added to the offset. -/
theorem LaidOut.toNat_rtOffset (h : c.LaidOut o w (physOffset + barPhys)) :
    (Registers.new w barPhys physOffset).rtOffset.toNat =
      c.rtsoff.toNat + o.rtsoffRsvd.toNat := by
  have hword : (Registers.new w barPhys physOffset).rtOffset = (c.rtsoffDword o).setWidth 64 :=
    congrArg (BitVec.setWidth 64) h.rtsoff
  -- the upper 27 bits are the offset in units of 32 bytes; the code does not mask off the others
  have hhigh : (c.rtsoff.extractLsb' 5 27).toNat = c.rtsoff.toNat / 2 ^ 5 := by
    rw [BitVec.extractLsb'_toNat, Nat.shiftRight_eq_div_pow]
    omega
  have hdvd := c.rtsoff_dvd
  rw [hword, BitVec.toNat_setWidth_of_le (by decide), rtsoffDword, BitVec.toNat_append,
    ← Nat.shiftLeft_add_eq_or_of_lt o.rtsoffRsvd.isLt, hhigh, Nat.shiftLeft_eq]
  omega

theorem address_cap (k : ℕ) (hk : k < 2 ^ 8) :
    ((Registers.new w barPhys physOffset).address w (.cap k) - (physOffset + barPhys)).toNat = k :=
  by
  change (physOffset + barPhys + BitVec.ofNat 64 k - (physOffset + barPhys)).toNat = k
  rw [BitVec.add_comm, BitVec.add_sub_cancel, BitVec.toNat_ofNat]
  omega

variable (h : c.LaidOut o w (physOffset + barPhys))
include h

theorem LaidOut.address_op (k : ℕ) (hk : k < 2 ^ 32) :
    ((Registers.new w barPhys physOffset).address w (.op k) - (physOffset + barPhys)).toNat =
      c.caplength.toNat + k := by
  have hlt := c.caplength.isLt
  change (physOffset + barPhys + (Registers.new w barPhys physOffset).opOffset +
    BitVec.ofNat 64 k - (physOffset + barPhys)).toNat = _
  rw [h.opOffset, toNat_add_add_sub, BitVec.toNat_setWidth, BitVec.toNat_ofNat]
  · omega
  · rw [BitVec.toNat_setWidth, BitVec.toNat_ofNat]
    omega

theorem LaidOut.address_rt (k : ℕ) (hk : k < 2 ^ 32) :
    ((Registers.new w barPhys physOffset).address w (.rt k) - (physOffset + barPhys)).toNat =
      c.rtsoff.toNat + o.rtsoffRsvd.toNat + k := by
  have hlt := c.rtsoff.isLt
  have hrsvd := o.rtsoffRsvd.isLt
  change (physOffset + barPhys + (Registers.new w barPhys physOffset).rtOffset +
    BitVec.ofNat 64 k - (physOffset + barPhys)).toNat = _
  rw [toNat_add_add_sub, h.toNat_rtOffset, BitVec.toNat_ofNat]
  · omega
  · rw [h.toNat_rtOffset, BitVec.toNat_ofNat]
    omega

theorem LaidOut.address_doorbell (t : ℕ) (ht : t < 2 ^ 8) :
    ((Registers.new w barPhys physOffset).address w (.doorbell t) -
      (physOffset + barPhys)).toNat = c.dboff.toNat + 4 * t := by
  have hlt := c.dboff.isLt
  change ((Registers.new w barPhys physOffset).doorbell w (BitVec.ofNat 32 t) -
    (physOffset + barPhys)).toNat = _
  have htarget : (4 * (BitVec.ofNat 32 t).setWidth 64 : BitVec 64).toNat = 4 * t := by
    simp only [BitVec.toNat_mul, BitVec.toNat_setWidth, BitVec.toNat_ofNat, BitVec.reduceToNat]
    omega
  rw [h.doorbell, toNat_add_add_sub, htarget, BitVec.toNat_setWidth]
  · omega
  · rw [htarget, BitVec.toNat_setWidth]
    omega

/-- **The computed addresses** are those of the registers meant exactly if the reserved bits of
RTSOFF read as zero. -/
theorem LaidOut.decode_address_iff (hsep : c.Separate o) :
    (∀ x, c.Has o x → c.decode o
      ((Registers.new w barPhys physOffset).address w x - (physOffset + barPhys)).toNat = some x) ↔
      o.rtsoffRsvd = 0 := by
  have hports := c.maxPorts.isLt
  have hslots := c.maxSlots.isLt
  have hintrs := o.maxIntrs.isLt
  constructor
  · intro hall
    -- the first runtime register is missed by just the reserved bits
    have hhas : c.Has o (.rt 0) := by
      change 0 < rtSize o
      rw [rtSize]
      omega
    have hrt := eq_of_decode_eq_rt (hall _ hhas)
    rw [h.address_rt 0 (by decide)] at hrt
    have hzero : o.rtsoffRsvd.toNat = 0 := by omega
    exact BitVec.eq_of_toNat_eq hzero
  · intro hrsvd x hx
    have hzero : o.rtsoffRsvd.toNat = 0 := congrArg BitVec.toNat hrsvd
    cases x with
    | cap k =>
      have hk : k < c.caplength.toNat := hx
      have hcap := c.caplength.isLt
      rw [address_cap k (by omega), decode_cap hx]
    | op k =>
      have hk : k < c.opSize := hx
      rw [opSize] at hk
      rw [h.address_op k (by omega), decode_op hx]
    | rt k =>
      have hk : k < rtSize o := hx
      rw [rtSize] at hk
      rw [h.address_rt k (by omega), hzero, Nat.add_zero, decode_rt hsep hx]
    | doorbell t =>
      have ht : t ≤ c.maxSlots.toNat := hx
      rw [h.address_doorbell t (by omega), decode_doorbell hsep hx]

end Address

end Capabilities

/-! ## The driver on the bus -/

section Reach

variable {D : Device} {c : Capabilities} {o : OtherFields}

/-- The capability registers are seen on the bus. -/
theorem Device.Shows.laidOut (h : D.Shows c o) (hsep : c.Separate o) (base : BitVec 64)
    (s : D.State) : c.LaidOut o ((D.onBus c o base).window s) base := by
  have hcap := hsep.caplength
  have hword : ∀ k < 0x20, (D.onBus c o base).window s (base + BitVec.ofNat 64 k) =
      (D.read s (.cap k)).1 := by
    intro k hk
    -- the capability registers come first, so they are found at any offset below CAPLENGTH
    have hd : (base + BitVec.ofNat 64 k - base).toNat = k := by
      rw [BitVec.add_comm, BitVec.add_sub_cancel, BitVec.toNat_ofNat]
      omega
    have hdecode : c.decode o k = some (.cap k) :=
      Capabilities.decode_cap (Nat.lt_of_lt_of_le hk hcap)
    change (match c.decode o (base + BitVec.ofNat 64 k - base).toNat with
      | some x => D.read s x
      | none => (0xFFFF_FFFF, s)).1 = _
    rw [hd, hdecode]
  constructor
  · have hzero := hword 0 (by decide)
    rw [BitVec.add_zero, h.cap] at hzero
    exact hzero
  · exact (hword 0x04 (by decide)).trans (congrArg Prod.fst (h.hcs1 s))
  · exact (hword 0x08 (by decide)).trans (congrArg Prod.fst (h.hcs2 s))
  · exact (hword 0x10 (by decide)).trans (congrArg Prod.fst (h.hcc1 s))
  · exact (hword 0x14 (by decide)).trans (congrArg Prod.fst (h.dboff s))
  · exact (hword 0x18 (by decide)).trans (congrArg Prod.fst (h.rtsoff s))

/-- Where the addresses are right, an access through them is one to the register. -/
theorem Device.through_simulates {base : BitVec 64} {w : Window} {r : Registers}
    (h : ∀ x, c.Has o x → c.decode o (r.address w x - base).toNat = some x) :
    Device.Simulates (D := D) (E := (D.onBus c o base).through w r) (c.Has o) id where
  read s x hx := by
    change (match c.decode o (r.address w x - base).toNat with
      | some x => D.read s x
      | none => (0xFFFF_FFFF, s)) = _
    rw [h x hx]
    rfl
  write erst s x v hx := by
    change (match c.decode o (r.address w x - base).toNat with
      | some x => D.write erst s x v
      | none => s) = _
    rw [h x hx]
    rfl
  post _ := rfl

/-- The registers that every controller has. -/
def Mmio.IsBasic : Mmio → Bool
  | .cap offset => offset < 0x20
  | .op offset => offset < 0x400
  | .rt offset => offset < 0x40
  | .doorbell target => target = 0

theorem Capabilities.Separate.has_of_isBasic (hsep : c.Separate o) {x : Mmio}
    (hx : x.IsBasic = true) : c.Has o x := by
  have hcap := hsep.caplength
  have hintrs := hsep.maxIntrs
  cases x with
  | cap k => exact Nat.lt_of_lt_of_le (of_decide_eq_true hx) hcap
  | op k => exact Nat.lt_add_right _ (of_decide_eq_true hx)
  | rt k =>
    have hk : k < 0x40 := of_decide_eq_true hx
    change k < Capabilities.rtSize o
    rw [Capabilities.rtSize]
    omega
  | doorbell t =>
    obtain rfl : t = 0 := of_decide_eq_true hx
    exact Nat.zero_le _

theorem Controller.isBasic_initRegs : ∀ x ∈ initRegs, x.IsBasic = true := by decide

/-- There are the registers of the ports. -/
theorem Capabilities.has_portsc {port : ℕ} (h : 1 ≤ port) (hle : port ≤ c.maxPorts.toNat) :
    c.Has o (Reg.portsc port) := by
  change 0x400 + (port - 1) * 0x10 < c.opSize
  rw [opSize]
  omega

/-- The number of ports is read off the record. -/
theorem Device.Shows.maxPorts_init (h : D.Shows c o) {P : Platform} {fuel : ℕ}
    {m m' : Machine D} {ctrl : Controller} (hinit : Controller.init P fuel m = some (ctrl, m')) :
    ctrl.maxPorts = c.maxPorts := by
  obtain ⟨_, _, m₂, m₃, _, -, -, hallocate, -, -⟩ := Controller.init_eq_some hinit
  obtain ⟨_, _, -, -, -, -, hports⟩ := Controller.allocate_eq_some hallocate
  rw [hports]
  simp only [Controller.identify, Machine.read, Reg.hcsparams1, h.cap, h.rtsoff, h.hcs1]
  rw [port_mask_eq, Capabilities.extractLsb'_hcsparams1_maxPorts]

end Reach

theorem Controller.bringUp_map {D E : Device} {S : Mmio → Prop} {f : D.State → E.State}
    (hf : Device.Simulates S f) (hbasic : ∀ x : Mmio, x.IsBasic = true → S x) {P : Platform}
    {fuel : ℕ} {m : Machine D}
    (hports : ∀ c m', init P fuel m = some (c, m') →
      ∀ p, 1 ≤ p → p ≤ c.maxPorts.toNat → S (Reg.portsc p)) :
    bringUp P fuel (m.map f) = Machine.mapResult f (bringUp P fuel m) := by
  have hinit := init_map hf (fun x hx ↦ hbasic x (isBasic_initRegs x hx)) P fuel m
  rw [bringUp, bringUp, hinit]
  rcases hup : init P fuel m with _ | ⟨c, m₁⟩
  · rfl
  · have hnoop := noop_map hf (hbasic _ (by decide)) (hbasic _ (by decide)) c m₁
    have hsame := initialisePorts_map hf (c.noop m₁).2.1 (hports c m₁ hup) fuel (c.noop m₁).2.2
    change ((c.noop (m₁.map f)).2.1.initialisePorts fuel (c.noop (m₁.map f)).2.2).bind
      (fun x ↦ some (((c.noop (m₁.map f)).2.1, (c.noop (m₁.map f)).1, x.1), x.2)) = _
    rw [hnoop]
    simp only [hsame]
    exact Machine.mapResult_bind fun _ _ ↦ rfl

/-- **The driver reaches the registers.** For a controller whose capability registers show a record
with separate blocks, at any place on the bus: the addresses that the code computes are those of
the registers meant exactly if the reserved bits of RTSOFF read as zero, those of `portsc_addr`
among them; and if they do, then all that `kernel_main` does with the controller through its
addresses comes out as on the registers themselves. -/
theorem driver_reaches_registers {D : Device} {c : Capabilities} {o : OtherFields}
    (hsep : c.Separate o) (hshows : D.Shows c o) (barPhys physOffset : BitVec 64)
    (m : Machine D) :
    let bus := D.onBus c o (physOffset + barPhys)
    let w := bus.window m.dev
    let r := Registers.new w barPhys physOffset
    let atAddresses : Machine D → Machine (bus.through w r) := Machine.map id
    ((∀ x, c.Has o x → c.decode o (r.address w x - (physOffset + barPhys)).toNat = some x) ↔
      o.rtsoffRsvd = 0) ∧
    (∀ port : BitVec 8, 1 ≤ port.toNat → r.portscAddr port = r.address w (Reg.portsc port.toNat)) ∧
    (o.rtsoffRsvd = 0 → ∀ (P : Platform) (fuel : ℕ),
      Controller.bringUp P fuel (atAddresses m) =
        (Controller.bringUp P fuel m).map (Prod.map id atAddresses)) := by
  intro bus w r atAddresses
  have hlaid := hshows.laidOut hsep (physOffset + barPhys) m.dev
  have haddress := hlaid.decode_address_iff hsep
  refine ⟨haddress, fun port hport ↦ r.portscAddr_eq w hport, fun hrsvd P fuel ↦ ?_⟩
  have hsim : Device.Simulates (D := D) (E := bus.through w r) (c.Has o) id :=
    Device.through_simulates (haddress.mpr hrsvd)
  apply Controller.bringUp_map hsim fun _ hx ↦ hsep.has_of_isBasic hx
  intro ctrl m' hinit p hone hle
  -- the ports that are gone through are those of the record
  rw [hshows.maxPorts_init hinit] at hle
  exact Capabilities.has_portsc hone hle

/-! ## One controller -/

/-- A controller that shows a record. -/
def Device.showing (D : Device) (c : Capabilities) (o : OtherFields) : Device where
  State := D.State
  read s x :=
    match x with
    | .cap offset => (c.window o (BitVec.ofNat 64 offset), s)
    | x => D.read s x
  write := D.write
  post := D.post

/-- It shows all six dwords. -/
theorem Device.showing_shows (D : Device) (c : Capabilities) (o : OtherFields) :
    (D.showing c o).Shows c o :=
  ⟨fun _ ↦ rfl, fun _ ↦ rfl, fun _ ↦ rfl, fun _ ↦ rfl, fun _ ↦ rfl, fun _ ↦ rfl⟩

/-- Eight interrupters. -/
def eightInterrupters : OtherFields := { noOtherFields with maxIntrs := 8 }

theorem separate_sample :
    (sampleCapabilities 33).Separate eightInterrupters where
  caplength := by decide
  maxIntrs := by decide
  op_rt := by decide
  op_doorbell := by decide
  rt_doorbell := Or.inl (by decide)

/-- The controller of `BringUp`, showing the record of `Registers`, with its BAR at 0xFEBF0000. -/
theorem driver_reaches_registers_sample :
    let D := xhciDevice.showing (sampleCapabilities 33) eightInterrupters
    let bus := D.onBus (sampleCapabilities 33) eightInterrupters (0x1800_0000_0000 + 0xFEBF_0000)
    let w := bus.window (firmwareState 64 4)
    let r := Registers.new w 0xFEBF_0000 0x1800_0000_0000
    let m : Machine D := ⟨firmwareState 64 4, [], fun _ ↦ none, []⟩
    let atAddresses : Machine D → Machine (bus.through w r) := Machine.map id
    ∀ P fuel, (Controller.bringUp P fuel (atAddresses m)).map Prod.fst =
      (Controller.bringUp P fuel m).map Prod.fst := by
  intro D bus w r m atAddresses P fuel
  have hreach := (driver_reaches_registers (D := D) separate_sample
    (xhciDevice.showing_shows _ _) 0xFEBF_0000 0x1800_0000_0000 m).2.2 rfl P fuel
  exact (congrArg (Option.map Prod.fst) hreach).trans (Option.map_map ..)

end Punkos
