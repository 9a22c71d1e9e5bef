import Punkos.Xhci.DmaLayout

/-!
# Bring-up and the event ring

A controller with the registers `Controller::init` touches: stopping, resetting and starting take
any number of polls, a reset clears the configuration, and the write of the high half of ERSTBA
makes the controller load its event ring, from the ERSTSZ and the segment table it finds at that
moment.

## What goes wrong

The comment in `write_erstba` says that the order matters, and it does: `init` writes ERSTBA first
and ERSTSZ afterwards. The reset has left ERSTSZ at 0, so the ring that is loaded has no segment,
and nothing makes the controller load it again. `init_not_handed_over` shows this for every
controller state and every delay, and `init_returns` that `init` notices nothing.
-/

namespace Punkos

/-! ## The controller -/

/-- How many polls see each transition still going on. -/
structure Delays where
  /-- From clearing RS to HCH = 1. -/
  halt : ℕ
  /-- From setting HCRST to HCRST = 0. -/
  reset : ℕ
  /-- From then to CNR = 0. -/
  ready : ℕ
  /-- From setting RS to HCH = 0. -/
  start : ℕ

/-- Where the controller stands, with the polls left in a transition. -/
inductive Phase where
  /-- HCH = 0. -/
  | running
  /-- RS has been cleared. -/
  | halting (polls : ℕ)
  /-- HCH = 1. -/
  | halted
  /-- HCRST = 1. -/
  | resetting (polls : ℕ)
  /-- CNR = 1. -/
  | notReady (polls : ℕ)
  /-- RS has been set. -/
  | starting (polls : ℕ)

/-- What a reset clears. -/
structure Config where
  /-- The registers other than USBCMD and USBSTS. -/
  regs : Mmio → BitVec 32
  /-- The event ring the controller has loaded, as a list of segments, if it is enabled. -/
  eventRing : Option (List ErstEntry)

/-- The state of the controller. -/
structure XhciState where
  /-- Its delays. -/
  delays : Delays
  /-- The capability registers. -/
  caps : ℕ → BitVec 32
  /-- The bits of USBSTS other than HCH and CNR. -/
  status : BitVec 32
  /-- USBCMD, HCRST apart. -/
  usbcmd : BitVec 32
  /-- Where it stands. -/
  phase : Phase
  /-- The configuration. -/
  config : Config

/-- After a reset. -/
def Config.zero : Config := ⟨fun _ ↦ 0, none⟩

/-- ERSTSZ. -/
def Config.erstsz (c : Config) : ℕ := ((c.regs Reg.erstsz).setWidth 16).toNat

/-- ERSTBA; its low bits are reserved. -/
def Config.erstba (c : Config) : BitVec 64 :=
  (c.regs Reg.erstbaHigh ++ c.regs Reg.erstbaLow) &&& ~~~0x3F

/-- The event ring as ERSTSZ and ERSTBA describe it. -/
def Config.load (c : Config) (erst : BitVec 64 → Option ErstEntry) : Option (List ErstEntry) :=
  if c.erstsz = 0 then none
  else (List.range c.erstsz).mapM fun i ↦ erst (c.erstba + BitVec.ofNat 64 (16 * i))

/-- What a register holds after a write. In IMAN, IP is cleared by a 1 and IE is stored. -/
def Config.stored (c : Config) (r : Mmio) (v : BitVec 32) : BitVec 32 :=
  if r = Reg.iman then (c.regs r &&& ~~~(v &&& 1) &&& ~~~2) ||| (v &&& 2) else v

/-- A write to a register other than USBCMD. -/
def Config.write (c : Config) (erst : BitVec 64 → Option ErstEntry) (r : Mmio) (v : BitVec 32) :
    Config :=
  let c := { c with regs := Function.update c.regs r (c.stored r v) }
  if r = Reg.erstbaHigh then { c with eventRing := c.load erst } else c

/-- One more poll. -/
def XhciState.tick (st : XhciState) : XhciState :=
  { st with phase := match st.phase with
      | .running => .running
      | .halting 0 => .halted
      | .halting (n + 1) => .halting n
      | .halted => .halted
      | .resetting 0 => .notReady st.delays.ready
      | .resetting (n + 1) => .resetting n
      | .notReady 0 => .halted
      | .notReady (n + 1) => .notReady n
      | .starting 0 => .running
      | .starting (n + 1) => .starting n }

/-- HCRST reads 1. -/
def Phase.isResetting : Phase → Bool
  | .resetting _ => true
  | _ => false

/-- CNR reads 1. -/
def Phase.isNotReady : Phase → Bool
  | .resetting _ => true
  | .notReady _ => true
  | _ => false

/-- HCH reads 1. -/
def Phase.isHalted : Phase → Bool
  | .running => false
  | .halting _ => false
  | _ => true

/-- The phase after RS has been cleared. -/
def Phase.stop (halt : ℕ) : Phase → Phase
  | .running => .halting halt
  | .halting _ => .halting halt
  | .starting _ => .halting halt
  | p => p

/-- The phase after RS has been set. -/
def Phase.start (start : ℕ) : Phase → Phase
  | .halted => .starting start
  | .halting _ => .running
  | p => p

/-- A write to USBCMD. -/
def XhciState.writeUsbcmd (st : XhciState) (v : BitVec 32) : XhciState :=
  if v &&& Usbcmd.hcrst ≠ 0 then
    { st with usbcmd := 0, phase := .resetting st.delays.reset, config := .zero }
  else if v &&& Usbcmd.rs ≠ 0 then { st with usbcmd := v, phase := st.phase.start st.delays.start }
  else { st with usbcmd := v, phase := st.phase.stop st.delays.halt }

/-- What USBCMD reads as. -/
def XhciState.readUsbcmd (st : XhciState) : BitVec 32 :=
  (st.usbcmd &&& ~~~Usbcmd.hcrst) ||| (if st.phase.isResetting then Usbcmd.hcrst else 0)

/-- What USBSTS reads as. -/
def XhciState.readUsbsts (st : XhciState) : BitVec 32 :=
  (st.status &&& ~~~(Usbsts.hch ||| Usbsts.cnr)) |||
    (if st.phase.isHalted then Usbsts.hch else 0) |||
    (if st.phase.isNotReady then Usbsts.cnr else 0)

/-- The controller. -/
def xhciDevice : Device where
  State := XhciState
  read st r :=
    if r = Reg.usbcmd then (st.tick.readUsbcmd, st.tick)
    else if r = Reg.usbsts then (st.tick.readUsbsts, st.tick)
    else match r with
      | .cap offset => (st.caps offset, st)
      | r => (st.config.regs r, st)
  write erst st r v :=
    if r = Reg.usbcmd then st.writeUsbcmd v else { st with config := st.config.write erst r v }
  post st := ([], st)

/-! ## Writes -/

/-- What a write stores, whether or not it loads the event ring. -/
theorem Config.regs_write (c : Config) (erst : BitVec 64 → Option ErstEntry) (r : Mmio)
    (v : BitVec 32) : (c.write erst r v).regs = Function.update c.regs r (c.stored r v) := by
  rw [Config.write]
  split
  · rfl
  · rfl

section Writes

variable (st : XhciState) {v : BitVec 32}

/-- HCRST starts a reset, which forgets the configuration. -/
theorem writeUsbcmd_reset (hreset : v &&& Usbcmd.hcrst ≠ 0) : st.writeUsbcmd v =
    { st with usbcmd := 0, phase := .resetting st.delays.reset, config := .zero } :=
  if_pos hreset

theorem writeUsbcmd_start (hreset : v &&& Usbcmd.hcrst = 0) (hrs : v &&& Usbcmd.rs ≠ 0) :
    st.writeUsbcmd v = { st with usbcmd := v, phase := st.phase.start st.delays.start } :=
  (if_neg (not_not.mpr hreset)).trans (if_pos hrs)

theorem writeUsbcmd_stop (hreset : v &&& Usbcmd.hcrst = 0) (hrs : v &&& Usbcmd.rs = 0) :
    st.writeUsbcmd v = { st with usbcmd := v, phase := st.phase.stop st.delays.halt } :=
  (if_neg (not_not.mpr hreset)).trans (if_neg (not_not.mpr hrs))

/-- Without HCRST a write to USBCMD is stored and leaves the configuration alone. -/
theorem writeUsbcmd_frame (hreset : v &&& Usbcmd.hcrst = 0) :
    (st.writeUsbcmd v).usbcmd = v ∧ (st.writeUsbcmd v).config = st.config := by
  by_cases hrs : v &&& Usbcmd.rs = 0
  · rw [writeUsbcmd_stop st hreset hrs]
    exact ⟨rfl, rfl⟩
  · rw [writeUsbcmd_start st hreset hrs]
    exact ⟨rfl, rfl⟩

/-- No write changes what the controller was built with. -/
theorem writeUsbcmd_fixed (v : BitVec 32) :
    (st.writeUsbcmd v).caps = st.caps ∧ (st.writeUsbcmd v).delays = st.delays := by
  by_cases hreset : v &&& Usbcmd.hcrst = 0
  · by_cases hrs : v &&& Usbcmd.rs = 0
    · rw [writeUsbcmd_stop st hreset hrs]
      exact ⟨rfl, rfl⟩
    · rw [writeUsbcmd_start st hreset hrs]
      exact ⟨rfl, rfl⟩
  · rw [writeUsbcmd_reset st hreset]
    exact ⟨rfl, rfl⟩

end Writes

/-! ## Reads -/

/-- The state of the controller. -/
def Machine.xhci (m : Machine xhciDevice) : XhciState := m.dev

section Reads

variable {m : Machine xhciDevice}

theorem xhci_read (r : Mmio) :
    (m.read r).2.xhci = m.xhci.tick ∨ (m.read r).2.xhci = m.xhci := by
  unfold Machine.read Machine.xhci xhciDevice
  simp only
  split
  · exact .inl rfl
  split
  · exact .inl rfl
  split
  · exact .inr rfl
  · exact .inr rfl

/-- Reads leave the configuration alone. -/
theorem config_read (r : Mmio) : (m.read r).2.xhci.config = m.xhci.config := by
  rcases xhci_read (m := m) r with h | h <;> rw [h]
  rfl

theorem config_pollUntil {r : Mmio} {p : BitVec 32 → Bool} {fuel : ℕ} {v : BitVec 32}
    {m' : Machine xhciDevice} (h : m.pollUntil r p fuel = some (v, m')) :
    m'.xhci.config = m.xhci.config :=
  (Machine.pollUntil_invariant (I := fun u ↦ u.xhci.config = m.xhci.config)
    (fun _ hu ↦ (config_read r).trans hu) rfl h).1

theorem xhci_write {r : Mmio} (hr : r ≠ Reg.usbcmd) (v : BitVec 32) :
    (m.write r v).xhci = { m.xhci with config := m.xhci.config.write m.erst r v } :=
  if_neg hr

theorem config_write {r : Mmio} (hr : r ≠ Reg.usbcmd) (v : BitVec 32) :
    (m.write r v).xhci.config = m.xhci.config.write m.erst r v := by
  rw [xhci_write hr]

theorem xhci_write_usbcmd (v : BitVec 32) :
    (m.write Reg.usbcmd v).xhci = m.xhci.writeUsbcmd v := rfl

end Reads

/-! ## The event ring is never loaded -/

section Unloaded

variable {m m' : Machine xhciDevice} {P : Platform}

/-- No event ring, and no segment to load. -/
structure Config.Unloaded (c : Config) : Prop where
  /-- The event ring is disabled. -/
  eventRing_eq : c.eventRing = none
  /-- ERSTSZ is 0. -/
  erstsz_eq : c.erstsz = 0

theorem Config.Unloaded.zero : Config.zero.Unloaded := ⟨rfl, rfl⟩

/-- As long as ERSTSZ is not written, nothing is loaded, not even by writing ERSTBA. -/
theorem Config.Unloaded.write {c : Config} (h : c.Unloaded) {r : Mmio} (hr : r ≠ Reg.erstsz)
    (erst : BitVec 64 → Option ErstEntry) (v : BitVec 32) : (c.write erst r v).Unloaded := by
  have hsz : Config.erstsz { c with regs := Function.update c.regs r (c.stored r v) } = 0 := by
    rw [Config.erstsz]
    simp only [Function.update_of_ne hr.symm]
    exact h.erstsz_eq
  rw [Config.write]
  by_cases hhigh : r = Reg.erstbaHigh
  · simp only [if_pos hhigh]
    exact ⟨if_pos hsz, hsz⟩
  · simp only [if_neg hhigh]
    exact ⟨h.eventRing_eq, hsz⟩

theorem unloaded_write (h : m.xhci.config.Unloaded) {r : Mmio} (hcmd : r ≠ Reg.usbcmd)
    (hsz : r ≠ Reg.erstsz) (v : BitVec 32) : (m.write r v).xhci.config.Unloaded := by
  rw [config_write hcmd]
  exact h.write hsz _ v

/-- Only ERSTBA makes the controller load its event ring. -/
theorem eventRing_write {r : Mmio} (hcmd : r ≠ Reg.usbcmd) (hhigh : r ≠ Reg.erstbaHigh)
    (v : BitVec 32) : (m.write r v).xhci.config.eventRing = m.xhci.config.eventRing := by
  rw [config_write hcmd, Config.write]
  simp only [if_neg hhigh]

theorem or_hcrst_and_hcrst (cmd : BitVec 32) : (cmd ||| Usbcmd.hcrst) &&& Usbcmd.hcrst ≠ 0 := by
  rw [BitVec.and_or_distrib_right]
  intro hzero
  exact absurd (BitVec.or_eq_zero_iff.mp hzero).2 (by decide)

theorem and_not_rs_and_rs (v : BitVec 32) : v &&& ~~~Usbcmd.rs &&& Usbcmd.rs = 0 := by
  have hmask : ~~~Usbcmd.rs &&& Usbcmd.rs = 0 := by decide
  rw [BitVec.and_assoc, hmask]
  exact BitVec.and_zero

theorem or_hcrst_and_rs (v : BitVec 32) :
    (v ||| Usbcmd.hcrst) &&& Usbcmd.rs = v &&& Usbcmd.rs := by
  have hmask : Usbcmd.hcrst &&& Usbcmd.rs = 0#32 := by decide
  rw [BitVec.and_or_distrib_right, hmask, BitVec.or_zero]

/-- A reset clears the configuration. -/
theorem config_reset {fuel : ℕ} {cmd : BitVec 32} (h : Controller.reset fuel cmd m = some m') :
    m'.xhci.config = .zero := by
  obtain ⟨v, m₁, v', hpoll, hpoll'⟩ := Controller.reset_eq_some h
  rw [config_pollUntil hpoll', config_pollUntil hpoll, xhci_write_usbcmd,
    writeUsbcmd_reset m.xhci (or_hcrst_and_hcrst cmd)]

theorem xhci_allocate {maxSlots maxPorts : BitVec 8} {c : Controller}
    (h : Controller.allocate P maxSlots maxPorts m = some (c, m')) : m'.xhci = m.xhci := by
  obtain ⟨m₁, m₂, hcmd, hevent, hdcbaa, -, -⟩ := Controller.allocate_eq_some h
  obtain ⟨_, _, _, _, _, rfl⟩ := Ring.new_eq_some hcmd
  obtain ⟨_, _, _, _, _, rfl⟩ := Ring.new_eq_some hevent
  obtain ⟨_, _, _, _, _, rfl⟩ := Dcbaa.new_eq_some hdcbaa
  rfl

/-- `configure` sets ERSTSZ only after ERSTBA, when it is too late. -/
theorem eventRing_configure {c : Controller} (hm : m.xhci.config.Unloaded)
    (h : Controller.configure P c m = some m') : m'.xhci.config.eventRing = none := by
  obtain ⟨segPhys, m₁, herst, rfl⟩ := Controller.configure_eq_some h
  have hcontexts : (c.writeContexts m).xhci.config.Unloaded := by
    have hregs : ∀ r ∈ Controller.contextRegs, r ≠ Reg.usbcmd ∧ r ≠ Reg.erstsz := by decide
    refine c.writeContexts_invariant (I := fun u ↦ u.xhci.config.Unloaded)
      (fun r hr u v hu ↦ ?_) hm
    exact unloaded_write hu (hregs r hr).1 (hregs r hr).2 v
  have hm₁ : m₁.xhci.config.Unloaded := by
    obtain ⟨_, _, _, rfl⟩ := allocateErst_eq_some herst
    exact hcontexts
  have herstba : (Controller.writeErstba segPhys m₁).xhci.config.Unloaded := by
    unfold Controller.writeErstba Machine.write64
    refine unloaded_write (unloaded_write hm₁ ?_ ?_ _) ?_ ?_ _ <;> decide
  unfold Controller.writeEventRing Controller.enableInterrupter Machine.write64
    Controller.writeErstsz
  rw [eventRing_write (by decide) (by decide), eventRing_write (by decide) (by decide),
    eventRing_write (by decide) (by decide), eventRing_write (by decide) (by decide),
    eventRing_write (by decide) (by decide)]
  exact herstba.eventRing_eq

/-- Starting does not load anything either. -/
theorem config_start {fuel : ℕ} (h : Controller.start fuel m = some m') :
    m'.xhci.config = m.xhci.config := by
  obtain ⟨v, hpoll⟩ := Controller.start_eq_some h
  rw [config_pollUntil hpoll, xhci_write_usbcmd]
  rfl

/-- Whenever `init` returns, the event ring is disabled. -/
theorem eventRing_init {fuel : ℕ} {c : Controller} (h : Controller.init P fuel m = some (c, m')) :
    m'.xhci.config.eventRing = none := by
  obtain ⟨cmd, m₁, m₂, m₃, m₄, -, hreset, hallocate, hconfigure, hstart⟩ :=
    Controller.init_eq_some h
  have hm₃ : m₃.xhci.config.Unloaded := by
    rw [xhci_allocate hallocate, config_reset hreset]
    exact .zero
  rw [config_start hstart, eventRing_configure hm₃ hconfigure]

end Unloaded

/-! ## But `init` returns -/

theorem hch_readUsbsts (st : XhciState) :
    st.readUsbsts &&& Usbsts.hch = 0 ↔ st.phase.isHalted = false := by
  refine (BitField.and_twoPow_eq_zero_iff _ (i := 0) (by decide)).trans ?_
  rw [XhciState.readUsbsts]
  simp only [BitVec.getLsbD_or, BitVec.getLsbD_and, BitVec.getLsbD_not]
  cases st.phase.isHalted <;> cases st.phase.isNotReady <;> simp [Usbsts.hch, Usbsts.cnr]

theorem cnr_readUsbsts (st : XhciState) :
    st.readUsbsts &&& Usbsts.cnr = 0 ↔ st.phase.isNotReady = false := by
  refine (BitField.and_twoPow_eq_zero_iff _ (i := 11) (by decide)).trans ?_
  rw [XhciState.readUsbsts]
  simp only [BitVec.getLsbD_or, BitVec.getLsbD_and, BitVec.getLsbD_not]
  cases st.phase.isHalted <;> cases st.phase.isNotReady <;> simp [Usbsts.hch, Usbsts.cnr]

theorem hcrst_readUsbcmd (st : XhciState) :
    st.readUsbcmd &&& Usbcmd.hcrst = 0 ↔ st.phase.isResetting = false := by
  refine (BitField.and_twoPow_eq_zero_iff _ (i := 1) (by decide)).trans ?_
  rw [XhciState.readUsbcmd]
  simp only [BitVec.getLsbD_or, BitVec.getLsbD_and, BitVec.getLsbD_not]
  cases st.phase.isResetting <;> simp [Usbcmd.hcrst]

section Returns

variable {m m' : Machine xhciDevice} {P : Platform} {d : Delays} {fuel : ℕ}

theorem delays_read (r : Mmio) : (m.read r).2.xhci.delays = m.xhci.delays := by
  rcases xhci_read (m := m) r with h | h <;> rw [h]
  rfl

/-- **Waiting.** Polling a register on which the test shows whether a countdown has ended. -/
theorem pollUntil_countdown {r : Mmio} {p : BitVec 32 → Bool} (test : Phase → Bool)
    (phases : ℕ → Phase) (last : Phase)
    (hstate : ∀ m : Machine xhciDevice, (m.read r).2.xhci = m.xhci.tick)
    (hvalue : ∀ m : Machine xhciDevice, p (m.read r).1 = test m.xhci.tick.phase)
    (hzero : ∀ st : XhciState, st.delays = d → st.phase = phases 0 → st.tick.phase = last)
    (hsucc : ∀ (st : XhciState) n, st.phase = phases (n + 1) → st.tick.phase = phases n)
    (htest : test last = true ∧ ∀ n, test (phases n) = false) {n : ℕ} (hd : m.xhci.delays = d)
    (hm : m.xhci.phase = phases n) (hfuel : n < fuel) :
    ∃ v m', m.pollUntil r p fuel = some (v, m') ∧ m'.xhci.delays = d ∧ m'.xhci.phase = last := by
  refine Machine.pollUntil_returns
    (I := fun m n ↦ m.xhci.delays = d ∧ m.xhci.phase = phases n) ?_ ⟨hd, hm⟩ hfuel
  rintro m n ⟨hd, hm⟩
  rw [hvalue, hstate]
  rcases n with _ | n
  · have hphase := hzero _ hd hm
    exact .inl ⟨hphase ▸ htest.1, hd, hphase⟩
  · have hphase := hsucc _ n hm
    exact .inr ⟨hphase ▸ htest.2 n, n, Nat.lt_succ_self n, hd, hphase⟩

theorem test_hch (m : Machine xhciDevice) :
    decide ((m.read Reg.usbsts).1 &&& Usbsts.hch ≠ 0) = m.xhci.tick.phase.isHalted := by
  have hiff := hch_readUsbsts m.xhci.tick
  change decide (m.xhci.tick.readUsbsts &&& Usbsts.hch ≠ 0) = _
  simp only [ne_eq, hiff, Bool.not_eq_false, Bool.decide_eq_true]

theorem test_not_hch (m : Machine xhciDevice) :
    decide ((m.read Reg.usbsts).1 &&& Usbsts.hch = 0) = !m.xhci.tick.phase.isHalted := by
  rw [← test_hch]
  simp only [ne_eq, decide_not, Bool.not_not]

theorem test_not_cnr (m : Machine xhciDevice) :
    decide ((m.read Reg.usbsts).1 &&& Usbsts.cnr = 0) = !m.xhci.tick.phase.isNotReady := by
  have hiff := cnr_readUsbsts m.xhci.tick
  change decide (m.xhci.tick.readUsbsts &&& Usbsts.cnr = 0) = _
  simp only [hiff, Bool.decide_eq_false]

theorem test_not_hcrst (m : Machine xhciDevice) :
    decide ((m.read Reg.usbcmd).1 &&& Usbcmd.hcrst = 0) = !m.xhci.tick.phase.isResetting := by
  have hiff := hcrst_readUsbcmd m.xhci.tick
  change decide (m.xhci.tick.readUsbcmd &&& Usbcmd.hcrst = 0) = _
  simp only [hiff, Bool.decide_eq_false]

/-- Waiting for HCH = 1. A controller that is neither running nor on its way shows it at once. -/
theorem pollUntil_halted (hd : m.xhci.delays = d)
    (hm : m.xhci.phase = .halting d.halt ∨ m.xhci.tick.phase.isHalted = true)
    (hfuel : d.halt < fuel) :
    ∃ v m', m.pollUntil Reg.usbsts (· &&& Usbsts.hch ≠ 0) fuel = some (v, m') ∧
      m'.xhci.delays = d := by
  rcases hm with hm | hm
  · obtain ⟨v, m', hpoll, hd', -⟩ := pollUntil_countdown (r := Reg.usbsts)
      (p := fun v ↦ v &&& Usbsts.hch ≠ 0) Phase.isHalted .halting .halted (fun _ ↦ rfl) test_hch
      (fun st _ h ↦ by simp only [XhciState.tick, h])
        (fun st n h ↦ by simp only [XhciState.tick, h])
      ⟨rfl, fun _ ↦ rfl⟩ hd hm hfuel
    exact ⟨v, m', hpoll, hd'⟩
  · obtain ⟨fuel, rfl⟩ := Nat.exists_eq_add_of_lt hfuel
    refine ⟨(m.read Reg.usbsts).1, (m.read Reg.usbsts).2, ?_, (delays_read Reg.usbsts).trans hd⟩
    rw [Machine.pollUntil]
    exact if_pos ((test_hch m).trans hm)

/-- After a write that clears RS the controller is on its way to HCH = 1, or shows it already. -/
theorem phase_writeUsbcmd (st : XhciState) {v : BitVec 32} (hrs : v &&& Usbcmd.rs = 0) :
    (st.writeUsbcmd v).phase = .halting st.delays.halt ∨
      (st.writeUsbcmd v).tick.phase.isHalted = true := by
  by_cases hreset : v &&& Usbcmd.hcrst = 0
  · rw [writeUsbcmd_stop st hreset hrs]
    rcases hphase : st.phase with _ | _ | _ | n | n | _
    · exact .inl rfl
    · exact .inl rfl
    · exact .inr rfl
    · rcases n with _ | n <;> exact .inr rfl
    · rcases n with _ | n <;> exact .inr rfl
    · exact .inl rfl
  · rw [writeUsbcmd_reset st hreset]
    rcases st.delays.reset with _ | n
    · exact .inr (by simp [XhciState.tick, Phase.isHalted])
    · exact .inr (by simp [XhciState.tick, Phase.isHalted])

theorem stop_returns (hd : m.xhci.delays = d) (hfuel : d.halt < fuel) :
    ∃ cmd m', Controller.stop fuel m = some (cmd, m') ∧ m'.xhci.delays = d := by
  set m₁ := (m.read Reg.usbcmd).2
  set cmd := (m.read Reg.usbcmd).1
  set m₂ := m₁.write Reg.usbcmd (cmd &&& ~~~Usbcmd.rs)
  have hd₂ : m₂.xhci.delays = d := by
    rw [xhci_write_usbcmd, (writeUsbcmd_fixed _ _).2, delays_read, hd]
  have hm₂ : m₂.xhci.phase = .halting d.halt ∨ m₂.xhci.tick.phase.isHalted = true := by
    rw [← hd, ← delays_read Reg.usbcmd]
    exact phase_writeUsbcmd m₁.xhci (and_not_rs_and_rs cmd)
  obtain ⟨v, m', hpoll, hd'⟩ := pollUntil_halted hd₂ hm₂ hfuel
  refine ⟨cmd, m', ?_, hd'⟩
  have hstop : Controller.stop fuel m = (m₂.pollUntil Reg.usbsts (· &&& Usbsts.hch ≠ 0) fuel).bind
      fun r ↦ some (cmd, r.2) := rfl
  rw [hstop, hpoll, Option.bind_some]

/-- A reset leaves the controller halted. -/
theorem reset_returns (cmd : BitVec 32) (hd : m.xhci.delays = d) (hreset : d.reset < fuel)
    (hready : d.ready < fuel) :
    ∃ m', Controller.reset fuel cmd m = some m' ∧ m'.xhci.delays = d ∧
      m'.xhci.phase = .halted := by
  set m₁ := m.write Reg.usbcmd (cmd ||| Usbcmd.hcrst)
  have hstate : m₁.xhci =
      { m.xhci with usbcmd := 0, phase := .resetting m.xhci.delays.reset, config := .zero } :=
    writeUsbcmd_reset m.xhci (or_hcrst_and_hcrst cmd)
  obtain ⟨v, m₂, hpoll, hd₂, hm₂⟩ := pollUntil_countdown (m := m₁) (d := d) (r := Reg.usbcmd)
    (p := fun v ↦ v &&& Usbcmd.hcrst = 0) (fun q ↦ !q.isResetting) .resetting (.notReady d.ready)
    (fun _ ↦ rfl) test_not_hcrst (fun st hst h ↦ by simp only [XhciState.tick, h, hst])
    (fun st n h ↦ by simp only [XhciState.tick, h]) ⟨rfl, fun _ ↦ rfl⟩ (hstate ▸ hd)
    (by rw [hstate, hd]) hreset
  obtain ⟨v', m₃, hpoll', hd₃, hm₃⟩ := pollUntil_countdown (m := m₂) (d := d) (r := Reg.usbsts)
    (p := fun v ↦ v &&& Usbsts.cnr = 0) (fun q ↦ !q.isNotReady) .notReady .halted (fun _ ↦ rfl)
    test_not_cnr (fun st _ h ↦ by simp only [XhciState.tick, h])
    (fun st n h ↦ by simp only [XhciState.tick, h]) ⟨rfl, fun _ ↦ rfl⟩ hd₂ hm₂ hready
  refine ⟨m₃, ?_, hd₃, hm₃⟩
  have hdo : Controller.reset fuel cmd m =
    (m₁.pollUntil Reg.usbcmd (· &&& Usbcmd.hcrst = 0) fuel).bind
      fun r ↦ (r.2.pollUntil Reg.usbsts (· &&& Usbsts.cnr = 0) fuel).bind fun r ↦ some r.2 := rfl
  rw [hdo, hpoll, Option.bind_some, hpoll', Option.bind_some]

theorem start_returns (hm : m.xhci.phase = .halted) (hd : m.xhci.delays = d)
    (hfuel : d.start < fuel) :
    ∃ m', Controller.start fuel m = some m' := by
  set m₁ := m.write Reg.usbcmd (Usbcmd.rs ||| Usbcmd.inte ||| Usbcmd.hsee)
  have hd₁ : m₁.xhci.delays = d := by
    rw [xhci_write_usbcmd, (writeUsbcmd_fixed _ _).2, hd]
  have hphase : m₁.xhci.phase = .starting d.start := by
    rw [xhci_write_usbcmd, writeUsbcmd_start m.xhci (by decide) (by decide), hm, hd]
    rfl
  obtain ⟨v, m₂, hpoll, -, -⟩ := pollUntil_countdown (m := m₁) (d := d) (r := Reg.usbsts)
    (p := fun v ↦ v &&& Usbsts.hch = 0) (fun q ↦ !q.isHalted) .starting .running (fun _ ↦ rfl)
    test_not_hch (fun st _ h ↦ by simp only [XhciState.tick, h])
    (fun st n h ↦ by simp only [XhciState.tick, h]) ⟨rfl, fun _ ↦ rfl⟩ hd₁ hphase hfuel
  refine ⟨m₂, ?_⟩
  have hdo : Controller.start fuel m = (m₁.pollUntil Reg.usbsts (· &&& Usbsts.hch = 0) fuel).bind
      fun r ↦ some r.2 := rfl
  rw [hdo, hpoll, Option.bind_some]

theorem phase_write {r : Mmio} (hr : r ≠ Reg.usbcmd) (v : BitVec 32) :
    (m.write r v).xhci.phase = m.xhci.phase ∧ (m.write r v).xhci.delays = m.xhci.delays := by
  rw [xhci_write hr]
  exact ⟨rfl, rfl⟩

/-- Configuring the controller does not make it move. -/
theorem phase_configure {c : Controller} (h : P.Serves m.live [16 + 64]) :
    ∃ m', Controller.configure P c m = some m' ∧ m'.xhci.phase = m.xhci.phase ∧
      m'.xhci.delays = m.xhci.delays := by
  set I : Machine xhciDevice → Prop :=
    fun u ↦ u.xhci.phase = m.xhci.phase ∧ u.xhci.delays = m.xhci.delays
  have hwrite : ∀ r, r ≠ Reg.usbcmd → ∀ (u : Machine xhciDevice) v, I u → I (u.write r v) :=
    fun r hr u v hu ↦ ⟨(phase_write hr v).1.trans hu.1, (phase_write hr v).2.trans hu.2⟩
  have hcontextRegs : ∀ r ∈ Controller.contextRegs, r ≠ Reg.usbcmd := by decide
  have heventRegs : ∀ r ∈ Controller.eventRegs, r ≠ Reg.usbcmd := by decide
  obtain ⟨segPhys, m₁, hconfigure, hdev⟩ := c.configure_of_serves h
  refine ⟨_, hconfigure, ?_⟩
  have hcontexts : I (c.writeContexts m) :=
    c.writeContexts_invariant (fun r hr ↦ hwrite r (hcontextRegs r hr)) ⟨rfl, rfl⟩
  have hm₁ : I m₁ := ⟨(congrArg XhciState.phase hdev).trans hcontexts.1,
    (congrArg XhciState.delays hdev).trans hcontexts.2⟩
  exact c.writeEventRing_invariant (fun r hr ↦ hwrite r (heventRegs r hr)) segPhys hm₁

theorem identify_xhci (m : Machine xhciDevice) : Controller.identify m =
    ((m.xhci.caps 4).setWidth 8, ((m.xhci.caps 4 >>> 24) &&& 0xFF).setWidth 8, m) := rfl

/-- **`init` returns**, whatever state the controller is in, once the loops are run long enough and
the heap has room. -/
theorem init_returns (m : Machine xhciDevice) {fuel : ℕ} (hhalt : m.xhci.delays.halt < fuel)
    (hreset : m.xhci.delays.reset < fuel) (hready : m.xhci.delays.ready < fuel)
    (hstart : m.xhci.delays.start < fuel)
    (hroom : P.Serves m.live (Controller.requests ((m.xhci.caps 4).setWidth 8))) :
    ∃ c m', Controller.init P fuel m = some (c, m') := by
  obtain ⟨cmd, m₁, hstop, hd₁⟩ := stop_returns (m := m) rfl hhalt
  obtain ⟨m₂, hreset, hd₂, hm₂⟩ := reset_returns (m := m₁) cmd hd₁ hreset hready
  have hlive : m₂.live = m.live := by
    rw [(Controller.reset_frame hreset).1, (Controller.stop_frame hstop).1]
  obtain ⟨c, live, hallocate, hserves⟩ := Controller.allocate_of_serves (m := m₂)
    ((m.xhci.caps 4).setWidth 8) (((m.xhci.caps 4 >>> 24) &&& 0xFF).setWidth 8)
    (by rw [hlive]; exact hroom)
  obtain ⟨m₃, hconfigure, hm₃, hd₃⟩ := phase_configure (m := { m₂ with live := live })
    (c := c) hserves
  obtain ⟨m₄, hstart⟩ := start_returns (hm₃.trans hm₂) (hd₃.trans hd₂) hstart
  refine ⟨c, m₄, ?_⟩
  rw [Controller.init, identify_xhci]
  simp only [Option.bind_eq_bind, hstop, hreset, hallocate, hconfigure, hstart, Option.bind_some]
  rfl

end Returns

/-- **The hand-over fails.** Whenever `init` returns, from any state of the controller and for any
delays, the event ring the controller has loaded is not the driver's. -/
theorem init_not_handed_over (P : Platform) (m : Machine xhciDevice) {fuel : ℕ} {c : Controller}
    {m' : Machine xhciDevice} (h : Controller.init P fuel m = some (c, m')) :
    m'.xhci.config.eventRing ≠ some [⟨c.eventRing.phys, 256⟩] := by
  rw [eventRing_init h]
  exact Option.some_ne_none _ |>.symm

/-! ## A heap with room -/

/-- An allocator that cuts the heap into slots of two pages and never reuses one. -/
def slotAlloc (live : List Block) (size align : ℕ) : Option ℕ :=
  let ptr := heapStart + 8192 * live.length
  if align ∣ ptr ∧ size ≤ 8192 ∧ live.length < 1024 ∧ ∀ b ∈ live,
    b.start + b.size ≤ ptr then some ptr
  else none

theorem slotAlloc_contract : AllocContract slotAlloc := by
  have hcond : ∀ {live : List Block} {size align ptr : ℕ}, slotAlloc live size align = some ptr →
      ptr = heapStart + 8192 * live.length ∧ align ∣ ptr ∧ size ≤ 8192 ∧ live.length < 1024 ∧
        ∀ b ∈ live, b.start + b.size ≤ ptr := by
    intro live size align ptr h
    obtain ⟨hcond, hptr⟩ := Option.ite_none_right_eq_some.mp h
    obtain rfl := Option.some.inj hptr
    exact ⟨rfl, hcond⟩
  refine ⟨fun live size align ptr h ↦ (hcond h).2.1, fun live size align ptr h ↦ ?_,
    fun live size align ptr h b hb v hv hnew ↦ ?_⟩
  · obtain ⟨rfl, -, hsize, hlen, -⟩ := hcond h
    refine ⟨Nat.le_add_right _ _, ?_⟩
    rw [heapSize]
    omega
  · have hend := (hcond h).2.2.2.2 b hb
    exact absurd (hv.2.trans_le hend) (not_lt.mpr hnew.1)

/-- One more block behind the ones that fill the first slots. -/
theorem serves_slotAlloc_cons {P : Platform} (hP : P.alloc = slotAlloc)
    (htranslate : ∀ k < 1024, ∃ phys, P.translate (heapStart + 8192 * k) = some phys)
    {live : List Block} (hlive : ∀ b ∈ live, b.start + b.size ≤ heapStart + 8192 * live.length)
    (hlen : live.length < 1024) {size : ℕ} (hsize : size ≤ 8192) {sizes : List ℕ}
    (hrest : P.Serves (⟨heapStart + 8192 * live.length, size⟩ :: live) sizes) :
    P.Serves live (size :: sizes) := by
  have hdvd : 64 ∣ heapStart + 8192 * live.length := by
    rw [heapStart]
    omega
  obtain ⟨phys, hphys⟩ := htranslate live.length hlen
  refine ⟨heapStart + 8192 * live.length, phys, ?_, ?_, hrest⟩
  · rw [hP]
    exact if_pos ⟨hdvd, hsize, hlen, hlive⟩
  · rwa [align64_of_dvd hdvd]

/-- Starting from an empty heap, the slots serve what `init` asks for. -/
theorem serves_slotAlloc {P : Platform} (hP : P.alloc = slotAlloc)
    (htranslate : ∀ k < 1024, ∃ phys, P.translate (heapStart + 8192 * k) = some phys)
    (maxSlots : BitVec 8) : P.Serves [] (Controller.requests maxSlots) := by
  have hslots := maxSlots.isLt
  have hcons : ∀ {live : List Block} {size : ℕ}, size ≤ 8192 →
      (∀ b ∈ live, b.start + b.size ≤ heapStart + 8192 * live.length) →
      ∀ b ∈ (⟨heapStart + 8192 * live.length, size⟩ :: live : List Block),
        b.start + b.size ≤ heapStart + 8192 * (live.length + 1) := by
    intro live size hsize hlive b hb
    rcases List.mem_cons.mp hb with rfl | hb
    · change heapStart + 8192 * live.length + size ≤ _
      omega
    · have := hlive b hb
      omega
  have h₀ : ∀ b ∈ ([] : List Block), b.start + b.size ≤ heapStart + 8192 * 0 :=
    fun b hb ↦ absurd hb List.not_mem_nil
  have hring : 256 * 16 + 64 ≤ 8192 := by decide
  have hdcbaa : (maxSlots.toNat + 1) * 8 + 64 ≤ 8192 := by omega
  have h₁ := hcons hring h₀
  have h₂ := hcons hring h₁
  have h₃ := hcons hdcbaa h₂
  exact serves_slotAlloc_cons hP htranslate h₀ (by decide) hring
    (serves_slotAlloc_cons hP htranslate h₁ (by decide) hring
      (serves_slotAlloc_cons hP htranslate h₂ (by decide) hdcbaa
        (serves_slotAlloc_cons hP htranslate h₃ (show 3 < 1024 by decide) (by decide) trivial)))

/-- A controller the firmware left running, without delays, with `maxSlots` slots and `maxPorts`
ports. -/
def firmwareState (maxSlots maxPorts : BitVec 8) : XhciState where
  delays := ⟨0, 0, 0, 0⟩
  caps _ := maxPorts.setWidth 32 <<< 24 ||| maxSlots.setWidth 32
  status := 0
  usbcmd := Usbcmd.rs
  phase := .running
  config := ⟨fun _ ↦ 0, none⟩

/-- That controller on a machine with an empty heap. -/
def firmwareMachine (maxSlots maxPorts : BitVec 8) : Machine xhciDevice :=
  ⟨firmwareState maxSlots maxPorts, [], fun _ ↦ none, []⟩

/-- The heap of the bare machine has room for what `init` asks for. -/
theorem bare_serves {s : MemoryState}
    (hsetUp : setUpMemory offsetMapTo bareCr3 bareMap 0x200000 bareMem =
    .ok (.ok (), s)) (maxSlots : BitVec 8) :
    (kernelPlatform s.mem bareCr3 slotAlloc).Serves [] (Controller.requests maxSlots) := by
  obtain ⟨c, s', -, hmem, hs⟩ := heapInv_of_setUpMemory offsetMapTo_contract bareMap_wellFormed.1
    bareMap_wellFormed.2 bareTables hsetUp
  refine serves_slotAlloc rfl (fun k hk ↦ ?_) maxSlots
  rw [hmem]
  refine exists_translate slotAlloc hs (show HeapBlock _ 1 from ⟨Nat.le_add_right _ _, ?_⟩)
    (by decide)
  rw [heapSize]
  omega

/-- On the bare machine `init` returns. -/
theorem bare_init_returns (maxSlots maxPorts : BitVec 8) :
    ∃ s, setUpMemory offsetMapTo bareCr3 bareMap 0x200000 bareMem = .ok (.ok (), s) ∧
      ∃ c m', Controller.init (kernelPlatform s.mem bareCr3 slotAlloc) 1
        (firmwareMachine maxSlots maxPorts) = some (c, m') := by
  obtain ⟨s, hsetUp⟩ := bare_setUp_succeeds
  refine ⟨s, hsetUp, init_returns _ Nat.zero_lt_one Nat.zero_lt_one Nat.zero_lt_one
    Nat.zero_lt_one ?_⟩
  exact bare_serves hsetUp _

/-- The hand-over fails on the bare machine with a controller of 64 slots and 4 ports. -/
theorem bare_init_not_handed_over :
    ∃ P fuel c m', Controller.init P fuel (firmwareMachine 64 4) = some (c, m') ∧
      m'.xhci.config.eventRing ≠ some [⟨c.eventRing.phys, 256⟩] := by
  obtain ⟨s, -, c, m', h⟩ := bare_init_returns 64 4
  exact ⟨_, _, c, m', h, init_not_handed_over _ _ h⟩

/-- So it is not true that `init` hands the event ring over. -/
theorem not_init_hands_over :
    ¬ ∀ P fuel c m', Controller.init P fuel (firmwareMachine 64 4) = some (c, m') →
      m'.xhci.config.eventRing = some [⟨c.eventRing.phys, 256⟩] := by
  intro h
  obtain ⟨s, -, c, m', hinit⟩ := bare_init_returns 64 4
  have hloaded := h _ _ c m' hinit
  rw [eventRing_init hinit] at hloaded
  cases hloaded

end Punkos
