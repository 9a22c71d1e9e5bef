import Punkos.Xhci.BringUp
import Punkos.Xhci.Observed

/-!
# The life cycle of a controller

What a driver may assume of an xHCI controller when it brings it up, for any controller: clearing
RS eventually halts it, setting HCRST eventually leaves it halted and ready, and setting RS
eventually makes it run. How long each takes is up to the controller, and so is everything else it
does meanwhile.

This is `XhciView.Lawful`, a set of laws about a *view* of a device: where it stands and what its
registers hold. The laws ask for no more than bring-up needs. A transition may be over at the write
that requests it or take any number of polls. A register may have bits that are reserved, that only
report a status or that read as something else: the laws are about the three registers a driver
reads and about values of the form it writes. `xhciView_lawful` and `emulatedView_lawful` show two
controllers that obey them, one at either end of this range. From the laws come two rules for the
polling loops of the driver, one for what holds when a loop ends and one (`poll_settles`) for that
it ends.
-/

namespace Punkos

open Command

/-! ## Stages -/

/-- Where a controller stands. -/
inductive Stage where
  /-- It runs. -/
  | running
  /-- RS has been cleared, and it has not halted yet. -/
  | halting
  /-- It has halted and is ready. -/
  | halted
  /-- It is being reset. -/
  | resetting
  /-- It has been reset and is not ready yet. -/
  | notReady
  /-- RS has been set, and it does not run yet. -/
  | starting
  deriving DecidableEq, Repr

/-- How a controller moves on by itself. After a reset it may be ready at once. -/
inductive Stage.Advances : Stage → Stage → Prop
  | halted : Advances halting halted
  | reset : Advances resetting notReady
  | resetReady : Advances resetting halted
  | ready : Advances notReady halted
  | started : Advances starting running

/-- The controller will move on. -/
def Stage.Transient (g : Stage) : Prop := g ≠ running ∧ g ≠ halted

/-- An upper bound for how often the controller will move on. -/
def Stage.rank : Stage → ℕ
  | running => 0
  | halted => 0
  | halting => 1
  | notReady => 1
  | starting => 1
  | resetting => 2

/-- It has been reset and not been stopped since, so that it stays as it was configured. -/
def Stage.Configured (g : Stage) : Prop := g = halted ∨ g = starting ∨ g = running

theorem Stage.Advances.rank_lt {g g' : Stage} (h : Advances g g') : g'.rank < g.rank := by
  rcases h with _ | _ | _ | _ | _ <;> decide

theorem Stage.Configured.advances {g g' : Stage} (hg : g.Configured) (h : g.Advances g') :
    g'.Configured := by
  rcases hg with rfl | rfl | rfl
  · rcases h with _ | _ | _ | _ | _
  · obtain _ | _ | _ | _ | _ := h
    exact .inr (.inr rfl)
  · rcases h with _ | _ | _ | _ | _

/-! ## Views and their laws -/

/-- The registers a driver reads before it has started the controller. -/
def statusRegs : List Mmio := [Reg.usbcmd, Reg.usbsts, Reg.hcsparams1]

/-- The registers a driver configures before it starts the controller. -/
def configRegs : List Mmio :=
  [Reg.config, Reg.dcbaapLow, Reg.dcbaapHigh, Reg.crcrLow, Reg.crcrHigh, Reg.erstbaLow,
    Reg.erstbaHigh, Reg.erstsz, Reg.erdpLow, Reg.erdpHigh]

/-- The register has room for the value: a number of slots, a pointer to a multiple of 64, with RCS
in CRCR, or one segment. -/
def Fits (r : Mmio) (v : BitVec 32) : Prop :=
  if r = Reg.config then v &&& ~~~0xFF = 0
  else if r = Reg.crcrLow then v &&& 0x3F = 1
  else if r = Reg.erstsz then v = 1
  else if r = Reg.dcbaapLow ∨ r = Reg.erstbaLow ∨ r = Reg.erdpLow then v &&& 0x3F = 0
  else True

/-- A view of a device as an xHCI controller. -/
structure XhciView (D : Device) where
  /-- Where it stands. -/
  stage : D.State → Stage
  /-- How many more polls may find it there. -/
  polls : D.State → ℕ
  /-- What a register holds, bits that only report a status apart. It need not be what the register
  reads as: CRCR reads as 0. -/
  reg : D.State → Mmio → BitVec 32

/-- The laws of the life cycle. -/
structure XhciView.Lawful {D : Device} (X : XhciView D) : Prop where
  /-- A read of USBCMD, USBSTS or HCSPARAMS1 returns what the register holds then. -/
  read_value : ∀ s, ∀ r ∈ statusRegs, (D.read s r).1 = X.reg (D.read s r).2 r
  /-- Between accesses the controller stays where it stands or moves on. -/
  read_stage : ∀ s r, X.stage (D.read s r).2 = X.stage s ∨
    (X.stage s).Advances (X.stage (D.read s r).2)
  /-- Polling does not go on for ever. -/
  read_polls : ∀ s r, r = Reg.usbcmd ∨ r = Reg.usbsts → (X.stage s).Transient →
    X.stage (D.read s r).2 = X.stage s → X.polls (D.read s r).2 < X.polls s
  /-- The number of slots does not change. -/
  read_slots : ∀ s r, X.reg (D.read s r).2 Reg.hcsparams1 = X.reg s Reg.hcsparams1
  /-- After the reset RS does not change by itself, nor does the configuration. -/
  read_config : ∀ s r, (X.stage s).Configured →
    X.reg (D.read s r).2 Reg.usbcmd &&& Usbcmd.rs = X.reg s Reg.usbcmd &&& Usbcmd.rs ∧
    ∀ r' ∈ configRegs, X.reg (D.read s r).2 r' = X.reg s r'
  /-- HCRST reads 1 while the controller is being reset. -/
  hcrst_eq_zero_iff : ∀ s, X.reg s Reg.usbcmd &&& Usbcmd.hcrst = 0 ↔ X.stage s ≠ .resetting
  /-- CNR reads 1 until it is ready. -/
  cnr_of_notReady : ∀ s, X.stage s = .notReady → X.reg s Reg.usbsts &&& Usbsts.cnr ≠ 0
  /-- And 0 once it is. -/
  cnr_of_halted : ∀ s, X.stage s = .halted → X.reg s Reg.usbsts &&& Usbsts.cnr = 0
  /-- HCH reads 1 when it has halted. -/
  hch_of_halted : ∀ s, X.stage s = .halted → X.reg s Reg.usbsts &&& Usbsts.hch ≠ 0
  /-- And 0 when it runs. -/
  hch_of_running : ∀ s, X.stage s = .running → X.reg s Reg.usbsts &&& Usbsts.hch = 0
  /-- Setting HCRST starts a reset, which may be over at once. -/
  write_reset : ∀ erst s v, v &&& Usbcmd.hcrst ≠ 0 →
    X.stage (D.write erst s Reg.usbcmd v) = .resetting ∨
    X.stage (D.write erst s Reg.usbcmd v) = .notReady ∨
    X.stage (D.write erst s Reg.usbcmd v) = .halted
  /-- After RS has been cleared, the controller neither runs nor is about to. -/
  write_stop : ∀ erst s v, v &&& Usbcmd.hcrst = 0 → v &&& Usbcmd.rs = 0 →
    X.stage (D.write erst s Reg.usbcmd v) ≠ .running ∧
    X.stage (D.write erst s Reg.usbcmd v) ≠ .starting
  /-- Setting RS, and no bit but INTE and HSEE with it, makes a controller that has halted start. It
  keeps its configuration. -/
  write_start : ∀ erst s v, v &&& ~~~(Usbcmd.rs ||| Usbcmd.inte ||| Usbcmd.hsee) = 0 →
    v &&& Usbcmd.rs ≠ 0 → X.stage s = .halted →
    (X.stage (D.write erst s Reg.usbcmd v) = .starting ∨
      X.stage (D.write erst s Reg.usbcmd v) = .running) ∧
    X.reg (D.write erst s Reg.usbcmd v) Reg.usbcmd &&& Usbcmd.rs ≠ 0 ∧
    ∀ r ∈ configRegs, X.reg (D.write erst s Reg.usbcmd v) r = X.reg s r
  /-- Configuring a controller that has halted does not move it. -/
  write_stage : ∀ erst s v, ∀ r ∈ Reg.iman :: configRegs, X.stage s = .halted →
    X.stage (D.write erst s r v) = .halted
  /-- A configuration register holds what was written to it, if it has room for that. -/
  write_self : ∀ erst s v, ∀ r ∈ configRegs, X.stage s = .halted → Fits r v →
    X.reg (D.write erst s r v) r = v
  /-- No other register of the configuration changes. -/
  write_other : ∀ erst s v, ∀ r ∈ Reg.iman :: configRegs, X.stage s = .halted →
    ∀ r' ∈ configRegs, r' ≠ r → X.reg (D.write erst s r v) r' = X.reg s r'

/-- RS changes when USBCMD is written, and not by itself, not even while the controller is being
reset. -/
def XhciView.RsWritten {D : Device} (X : XhciView D) : Prop :=
  ∀ s r, X.reg (D.read s r).2 Reg.usbcmd &&& Usbcmd.rs = X.reg s Reg.usbcmd &&& Usbcmd.rs

/-! ## One controller that obeys them -/

/-- The stage of a phase, without the count. -/
def Phase.stage : Phase → Stage
  | .running => .running
  | .halting _ => .halting
  | .halted => .halted
  | .resetting _ => .resetting
  | .notReady _ => .notReady
  | .starting _ => .starting

/-- The count. -/
def Phase.polls : Phase → ℕ
  | .halting n => n
  | .resetting n => n
  | .notReady n => n
  | .starting n => n
  | _ => 0

/-- What a register holds. -/
def XhciState.reg (st : XhciState) (r : Mmio) : BitVec 32 :=
  if r = Reg.usbcmd then st.readUsbcmd
  else if r = Reg.usbsts then st.readUsbsts
  else match r with
    | .cap offset => st.caps offset
    | r => st.config.regs r

/-- The controller of `BringUp.lean`, viewed. -/
def xhciView : XhciView xhciDevice where
  stage st := Phase.stage (XhciState.phase st)
  polls st := Phase.polls (XhciState.phase st)
  reg st r := XhciState.reg st r

section Instance

variable (st : XhciState)

theorem stage_tick : st.tick.phase.stage = st.phase.stage ∧ st.tick.phase.polls < st.phase.polls ∨
    st.tick.phase = st.phase ∧ ¬st.phase.stage.Transient ∨
    st.phase.stage.Advances st.tick.phase.stage := by
  rw [XhciState.tick]
  rcases st.phase with _ | (_ | n) | _ | (_ | n) | (_ | n) | (_ | n)
  · exact .inr (.inl ⟨rfl, fun h ↦ h.1 rfl⟩)
  · exact .inr (.inr .halted)
  · exact .inl ⟨rfl, Nat.lt_succ_self n⟩
  · exact .inr (.inl ⟨rfl, fun h ↦ h.2 rfl⟩)
  · exact .inr (.inr .reset)
  · exact .inl ⟨rfl, Nat.lt_succ_self n⟩
  · exact .inr (.inr .ready)
  · exact .inl ⟨rfl, Nat.lt_succ_self n⟩
  · exact .inr (.inr .started)
  · exact .inl ⟨rfl, Nat.lt_succ_self n⟩

/-- A read lets time pass if it is a poll, and does nothing else. -/
theorem read_xhciDevice (r : Mmio) :
    ((xhciDevice.read st r).2 = st.tick ∨
      (xhciDevice.read st r).2 = st ∧ r ≠ Reg.usbcmd ∧ r ≠ Reg.usbsts) ∧
      (xhciDevice.read st r).1 = XhciState.reg (xhciDevice.read st r).2 r := by
  unfold xhciDevice XhciState.reg
  by_cases hcmd : r = Reg.usbcmd
  · simp only [if_pos hcmd]
    exact ⟨.inl trivial, trivial⟩
  by_cases hsts : r = Reg.usbsts
  · simp only [if_neg hcmd, if_pos hsts]
    exact ⟨.inl trivial, trivial⟩
  simp only [if_neg hcmd, if_neg hsts]
  rcases r with o | o | o | o <;> exact ⟨.inr ⟨rfl, hcmd, hsts⟩, rfl⟩

theorem readUsbcmd_and_not_hcrst :
    st.readUsbcmd &&& ~~~Usbcmd.hcrst = st.usbcmd &&& ~~~Usbcmd.hcrst := by
  rw [XhciState.readUsbcmd, BitVec.and_or_distrib_right, BitVec.and_assoc, BitVec.and_self]
  rcases st.phase.isResetting with _ | _
  · simp
  · simp

/-- HCRST does not show in RS. -/
theorem readUsbcmd_and_rs : st.readUsbcmd &&& Usbcmd.rs = st.usbcmd &&& Usbcmd.rs := by
  have hmask : ~~~Usbcmd.hcrst &&& Usbcmd.rs = Usbcmd.rs := by decide
  rw [← hmask, ← BitVec.and_assoc, readUsbcmd_and_not_hcrst, BitVec.and_assoc]

theorem reg_config {r : Mmio} (hr : r ∈ configRegs) : st.reg r = st.config.regs r := by
  have hregs : ∀ r ∈ configRegs, r ≠ Reg.usbcmd ∧ r ≠ Reg.usbsts ∧ ∀ o, r ≠ .cap o := by
    simp [configRegs, Reg.config, Reg.dcbaapLow, Reg.dcbaapHigh, Reg.crcrLow, Reg.crcrHigh,
      Reg.erstbaLow, Reg.erstbaHigh, Reg.erstsz, Reg.erdpLow, Reg.erdpHigh, Reg.usbcmd, Reg.usbsts]
  obtain ⟨hcmd, hsts, hcap⟩ := hregs r hr
  unfold XhciState.reg
  rw [if_neg hcmd, if_neg hsts]
  rcases r with o | o | o | o
  · exact absurd rfl (hcap o)
  all_goals rfl

theorem write_xhciDevice (erst : BitVec 64 → Option ErstEntry) {r : Mmio} (hr : r ≠ Reg.usbcmd)
    (v : BitVec 32) :
    xhciDevice.write erst st r v = { st with config := st.config.write erst r v } :=
  if_neg hr

end Instance

/-- What a read leaves alone. -/
theorem read_frame (st : XhciState) (r : Mmio) :
    XhciState.usbcmd (xhciDevice.read st r).2 = st.usbcmd ∧
      XhciState.config (xhciDevice.read st r).2 = st.config ∧
      XhciState.caps (xhciDevice.read st r).2 = st.caps := by
  rcases (read_xhciDevice st r).1 with h | ⟨h, -⟩ <;> rw [h] <;> exact ⟨rfl, rfl, rfl⟩

theorem isResetting_eq_false_iff (p : Phase) : p.isResetting = false ↔ p.stage ≠ .resetting := by
  rcases p with _ | _ | _ | _ | _ | _ <;> simp [Phase.isResetting, Phase.stage]

theorem Phase.eq_halted {p : Phase} (h : p.stage = .halted) : p = .halted := by
  rcases p with _ | _ | _ | _ | _ | _ <;> simp_all [Phase.stage]

theorem Phase.eq_running {p : Phase} (h : p.stage = .running) : p = .running := by
  rcases p with _ | _ | _ | _ | _ | _ <;> simp_all [Phase.stage]

theorem Phase.eq_notReady {p : Phase} (h : p.stage = .notReady) : ∃ n, p = .notReady n := by
  rcases p with _ | _ | _ | _ | n | _ <;> simp_all [Phase.stage]

theorem phase_writeUsbcmd_stop (st : XhciState) {v : BitVec 32} (hreset : v &&& Usbcmd.hcrst = 0)
    (hrs : v &&& Usbcmd.rs = 0) :
    (st.writeUsbcmd v).phase.stage ≠ .running ∧ (st.writeUsbcmd v).phase.stage ≠ .starting := by
  rw [writeUsbcmd_stop st hreset hrs]
  rcases st.phase with _ | _ | _ | _ | _ | _ <;> simp [Phase.stop, Phase.stage]

theorem rsWritten_xhciView : xhciView.RsWritten := by
  intro st r
  refine (readUsbcmd_and_rs _).trans (Eq.trans ?_ (readUsbcmd_and_rs st).symm)
  rw [(read_frame st r).1]

/-- A poll that finds the controller where it was uses one of the polls up. -/
theorem polls_read_lt (st : XhciState) {r : Mmio} (hr : r = Reg.usbcmd ∨ r = Reg.usbsts)
    (htransient : st.phase.stage.Transient)
    (hsame : xhciView.stage (xhciDevice.read st r).2 = st.phase.stage) :
    xhciView.polls (xhciDevice.read st r).2 < st.phase.polls := by
  rcases (read_xhciDevice st r).1 with h | ⟨-, hcmd, hsts⟩
  · rw [h] at hsame ⊢
    rcases stage_tick st with ⟨-, hlt⟩ | ⟨-, hrest⟩ | hnext
    · exact hlt
    · exact absurd htransient hrest
    -- The stages are ranked, so the controller cannot both move on and stay.
    · have hlt : st.tick.phase.stage.rank < st.phase.stage.rank := hnext.rank_lt
      have hstage : st.tick.phase.stage = st.phase.stage := hsame
      rw [hstage] at hlt
      exact absurd hlt (lt_irrefl _)
  · exact absurd hr (not_or.mpr ⟨hcmd, hsts⟩)

/-- A write to the configuration, read back. -/
theorem reg_write_config (st : XhciState) (erst : BitVec 64 → Option ErstEntry) {r r' : Mmio}
    (v : BitVec 32) (hr : r ≠ Reg.usbcmd) (hr' : r' ∈ configRegs) :
    XhciState.reg (xhciDevice.write erst st r v) r' =
      Function.update st.config.regs r (st.config.stored r v) r' := by
  rw [write_xhciDevice st erst hr]
  exact (reg_config _ hr').trans (congrFun (Config.regs_write st.config erst r v) r')

/-- The bits that start the controller request no reset. -/
theorem and_hcrst_of_start {v : BitVec 32}
    (h : v &&& ~~~(Usbcmd.rs ||| Usbcmd.inte ||| Usbcmd.hsee) = 0) : v &&& Usbcmd.hcrst = 0 := by
  have hmask : ~~~(Usbcmd.rs ||| Usbcmd.inte ||| Usbcmd.hsee) &&& Usbcmd.hcrst = Usbcmd.hcrst := by
    decide
  rw [← hmask, ← BitVec.and_assoc, h]
  exact BitVec.zero_and

/-- The view obeys the laws. -/
theorem xhciView_lawful : xhciView.Lawful where
  read_value st r _ := (read_xhciDevice st r).2
  read_stage st r := by
    rcases (read_xhciDevice st r).1 with h | ⟨h, -⟩ <;> rw [h]
    · rcases stage_tick st with ⟨hsame, -⟩ | ⟨hsame, -⟩ | hnext
      · exact .inl hsame
      · exact .inl (congrArg Phase.stage hsame)
      · exact .inr hnext
    · exact .inl rfl
  read_polls st _ hr htransient hsame := polls_read_lt st hr htransient hsame
  read_slots st r := congrFun (read_frame st r).2.2 4
  read_config st r _ := by
    refine ⟨rsWritten_xhciView st r, fun r' hr' ↦ ?_⟩
    refine (reg_config _ hr').trans (Eq.trans ?_ (reg_config st hr').symm)
    rw [(read_frame st r).2.1]
  hcrst_eq_zero_iff st := (hcrst_readUsbcmd st).trans (isResetting_eq_false_iff _)
  cnr_of_notReady st h := by
    obtain ⟨n, hphase⟩ := Phase.eq_notReady h
    refine mt (cnr_readUsbsts st).mp ?_
    rw [hphase]
    exact Bool.noConfusion
  cnr_of_halted st h := by
    refine (cnr_readUsbsts st).mpr ?_
    rw [Phase.eq_halted h]
    rfl
  hch_of_halted st h := by
    refine mt (hch_readUsbsts st).mp ?_
    rw [Phase.eq_halted h]
    exact Bool.noConfusion
  hch_of_running st h := by
    refine (hch_readUsbsts st).mpr ?_
    rw [Phase.eq_running h]
    rfl
  write_reset erst st v hv := by
    have hstate : xhciDevice.write erst st Reg.usbcmd v = _ := writeUsbcmd_reset st hv
    rw [hstate]
    exact .inl rfl
  write_stop erst st v hv hrs := phase_writeUsbcmd_stop st hv hrs
  write_start erst st v hbits hrs h := by
    have hv := and_hcrst_of_start hbits
    obtain ⟨husbcmd, hconfig⟩ := writeUsbcmd_frame st hv
    refine ⟨.inl ?_, ?_, fun r hr ↦ ?_⟩
    · have hstate : xhciDevice.write erst st Reg.usbcmd v = _ := writeUsbcmd_start st hv hrs
      rw [hstate]
      change (st.phase.start st.delays.start).stage = _
      rw [Phase.eq_halted h]
      rfl
    · have hread : (st.writeUsbcmd v).readUsbcmd &&& Usbcmd.rs = v &&& Usbcmd.rs := by
        rw [readUsbcmd_and_rs, husbcmd]
      exact fun hzero ↦ hrs (hread.symm.trans hzero)
    · refine (reg_config _ hr).trans (Eq.trans ?_ (reg_config st hr).symm)
      exact congrFun (congrArg Config.regs hconfig) r
  write_stage erst st v r hr h := by
    have hregs : ∀ r ∈ Reg.iman :: configRegs, r ≠ Reg.usbcmd := by decide
    rw [write_xhciDevice st erst (hregs r hr)]
    exact h
  write_self erst st v r hr _ _ := by
    have hregs : ∀ r ∈ configRegs, r ≠ Reg.usbcmd ∧ r ≠ Reg.iman := by decide
    obtain ⟨hcmd, himan⟩ := hregs r hr
    apply (reg_write_config st erst v hcmd hr).trans
    rw [Function.update_self, Config.stored, if_neg himan]
  write_other erst st v r hr _ r' hr' hne := by
    have hregs : ∀ r ∈ Reg.iman :: configRegs, r ≠ Reg.usbcmd := by decide
    refine (reg_write_config st erst v (hregs r hr) hr').trans
      (Eq.trans ?_ (reg_config st hr').symm)
    exact Function.update_of_ne hne _ _

/-! ## One with nothing to wait for

An emulator carries out at once what a write requests, and its registers have only the bits that
mean something to it. -/

/-- The state of an emulated controller. -/
structure EmulatedState where
  /-- The capability registers. -/
  caps : ℕ → BitVec 32
  /-- USBCMD. -/
  usbcmd : BitVec 32
  /-- The other registers. -/
  regs : Mmio → BitVec 32

namespace EmulatedState

/-- The bits a register has. -/
def bits (r : Mmio) : BitVec 32 :=
  if r = Reg.config then 0xFF
  else if r = Reg.crcrLow then ~~~0x3E
  else if r = Reg.erstsz then 0xFFFF
  else if r = Reg.dcbaapLow ∨ r = Reg.erstbaLow ∨ r = Reg.erdpLow then ~~~0x3F
  else ~~~0

variable (st : EmulatedState)

/-- It runs, or has halted. -/
def stage : Stage := if st.usbcmd &&& Usbcmd.rs = 0 then .halted else .running

/-- What a register holds. -/
def reg (r : Mmio) : BitVec 32 :=
  if r = Reg.usbcmd then st.usbcmd &&& 0xC0D
  else if r = Reg.usbsts then if st.usbcmd &&& Usbcmd.rs = 0 then Usbsts.hch else 0
  else match r with
    | .cap offset => st.caps offset
    | r => st.regs r

/-- A write. -/
def write (r : Mmio) (v : BitVec 32) : EmulatedState :=
  if r ≠ Reg.usbcmd then { st with regs := Function.update st.regs r (v &&& bits r) }
  else if v &&& Usbcmd.hcrst ≠ 0 then { st with usbcmd := 0, regs := fun _ ↦ 0 }
  else { st with usbcmd := v &&& 0xC0D }

end EmulatedState

/-- An emulated controller. Reading changes nothing, and CRCR reads as 0. -/
def emulatedDevice : Device where
  State := EmulatedState
  read st r := (if r = Reg.crcrLow ∨ r = Reg.crcrHigh then 0 else EmulatedState.reg st r, st)
  write _ st r v := EmulatedState.write st r v
  post st := ([], st)

/-- The emulated controller, viewed. -/
def emulatedView : XhciView emulatedDevice where
  stage st := EmulatedState.stage st
  polls _ := 0
  reg st r := EmulatedState.reg st r

theorem and_not_of_clear {v m : BitVec 32} (h : v &&& m = 0) : v &&& ~~~m = v := by
  have hsplit : v &&& (m ||| ~~~m) = v := by rw [BitVec.or_not_self, BitVec.and_allOnes]
  rw [BitVec.and_or_distrib_left, h] at hsplit
  simpa using hsplit

/-- The bits are all that the driver needs. -/
theorem and_bits_of_fits {r : Mmio} {v : BitVec 32} (h : Fits r v) :
    v &&& EmulatedState.bits r = v := by
  rw [Fits] at h
  rw [EmulatedState.bits]
  split_ifs at h ⊢
  · have hclear := and_not_of_clear h
    rwa [BitVec.not_not] at hclear
  · refine and_not_of_clear ?_
    have hmask : (0x3F : BitVec 32) &&& 0x3E = 0x3E := by decide
    rw [← hmask, ← BitVec.and_assoc, h]
    decide
  · rw [h]
    decide
  · exact and_not_of_clear h
  · exact and_not_of_clear BitVec.and_zero

section Emulated

variable (st : EmulatedState) (erst : BitVec 64 → Option ErstEntry) (v : BitVec 32)

theorem emulated_reg_config {r : Mmio} (hr : r ∈ configRegs) : st.reg r = st.regs r := by
  simp only [configRegs, List.mem_cons, List.not_mem_nil, or_false] at hr
  rcases hr with rfl | rfl | rfl | rfl | rfl | rfl | rfl | rfl | rfl | rfl <;> rfl

theorem emulated_write_config {r : Mmio} (hr : r ∈ Reg.iman :: configRegs) : st.write r v =
    { st with regs := Function.update st.regs r (v &&& EmulatedState.bits r) } := by
  have hregs : ∀ r ∈ Reg.iman :: configRegs, r ≠ Reg.usbcmd := by decide
  exact if_pos (hregs r hr)

theorem emulated_write_reset (hv : v &&& Usbcmd.hcrst ≠ 0) :
    st.write Reg.usbcmd v = { st with usbcmd := 0, regs := fun _ ↦ 0 } :=
  (if_neg (not_not.mpr rfl)).trans (if_pos hv)

theorem emulated_write_usbcmd (hv : v &&& Usbcmd.hcrst = 0) :
    st.write Reg.usbcmd v = { st with usbcmd := v &&& 0xC0D } :=
  (if_neg (not_not.mpr rfl)).trans (if_neg (not_not.mpr hv))

theorem and_usbcmd_and_rs : v &&& 0xC0D &&& Usbcmd.rs = v &&& Usbcmd.rs := by
  have hmask : (0xC0D : BitVec 32) &&& Usbcmd.rs = Usbcmd.rs := by decide
  rw [BitVec.and_assoc, hmask]

theorem emulated_stage_eq_halted {st : EmulatedState} (h : st.stage = .halted) :
    st.usbcmd &&& Usbcmd.rs = 0 := by
  by_contra hrs
  rw [EmulatedState.stage, if_neg hrs] at h
  exact Stage.noConfusion h

theorem emulated_stage_eq_running {st : EmulatedState} (h : st.stage = .running) :
    st.usbcmd &&& Usbcmd.rs ≠ 0 := by
  intro hrs
  rw [EmulatedState.stage, if_pos hrs] at h
  exact Stage.noConfusion h

theorem emulated_not_transient : ¬st.stage.Transient := by
  rw [EmulatedState.stage]
  rintro ⟨hrunning, hhalted⟩
  split at hhalted
  · exact hhalted rfl
  · rename_i hrs
    exact hrunning (if_neg hrs)

end Emulated

/-- Its view obeys the laws too. -/
theorem emulatedView_lawful : emulatedView.Lawful where
  read_value st r hr := by
    have hregs : ∀ r ∈ statusRegs, ¬(r = Reg.crcrLow ∨ r = Reg.crcrHigh) := by decide
    exact if_neg (hregs r hr)
  read_stage _ _ := .inl rfl
  read_polls st _ _ htransient _ := absurd htransient (emulated_not_transient st)
  read_slots _ _ := rfl
  read_config _ _ _ := ⟨rfl, fun _ _ ↦ rfl⟩
  hcrst_eq_zero_iff st := by
    have hmask : (0xC0D : BitVec 32) &&& Usbcmd.hcrst = 0 := by decide
    have hclear : st.usbcmd &&& 0xC0D &&& Usbcmd.hcrst = 0 := by
      rw [BitVec.and_assoc, hmask]
      exact BitVec.and_zero
    refine iff_of_true hclear fun h ↦ emulated_not_transient st ?_
    rw [show st.stage = .resetting from h]
    exact ⟨Stage.noConfusion, Stage.noConfusion⟩
  cnr_of_notReady st h := by
    refine absurd ?_ (emulated_not_transient st)
    rw [show st.stage = .notReady from h]
    exact ⟨Stage.noConfusion, Stage.noConfusion⟩
  cnr_of_halted st h := by
    have hreg : st.reg Reg.usbsts = Usbsts.hch := if_pos (emulated_stage_eq_halted h)
    rw [show emulatedView.reg st Reg.usbsts = _ from hreg]
    decide
  hch_of_halted st h := by
    have hreg : st.reg Reg.usbsts = Usbsts.hch := if_pos (emulated_stage_eq_halted h)
    rw [show emulatedView.reg st Reg.usbsts = _ from hreg]
    decide
  hch_of_running st h := by
    have hreg : st.reg Reg.usbsts = 0 := if_neg (emulated_stage_eq_running h)
    rw [show emulatedView.reg st Reg.usbsts = _ from hreg]
    exact BitVec.zero_and
  write_reset erst st v hv := by
    have hstate : emulatedDevice.write erst st Reg.usbcmd v = _ := emulated_write_reset st v hv
    rw [hstate]
    exact .inr (.inr (if_pos BitVec.zero_and))
  write_stop erst st v hv hrs := by
    have hstate : emulatedDevice.write erst st Reg.usbcmd v = _ := emulated_write_usbcmd st v hv
    have hstage : emulatedView.stage (emulatedDevice.write erst st Reg.usbcmd v) = .halted := by
      rw [hstate]
      exact if_pos ((and_usbcmd_and_rs v).trans hrs)
    rw [hstage]
    exact ⟨Stage.noConfusion, Stage.noConfusion⟩
  write_start erst st v hbits hrs _ := by
    have hstate : emulatedDevice.write erst st Reg.usbcmd v = _ :=
      emulated_write_usbcmd st v (and_hcrst_of_start hbits)
    have hset : v &&& 0xC0D &&& Usbcmd.rs ≠ 0 := (and_usbcmd_and_rs v).symm ▸ hrs
    rw [hstate]
    refine ⟨.inr (if_neg hset), ?_, fun r hr ↦ ?_⟩
    · have hreg : v &&& 0xC0D &&& 0xC0D &&& Usbcmd.rs = v &&& 0xC0D &&& Usbcmd.rs :=
        and_usbcmd_and_rs _
      exact fun hzero ↦ hset (hreg.symm.trans hzero)
    · exact (emulated_reg_config _ hr).trans (emulated_reg_config st hr).symm
  write_stage erst st v r hr h := by
    rw [show emulatedDevice.write erst st r v = _ from emulated_write_config st v hr]
    exact h
  write_self erst st v r hr _ hfits := by
    rw [show emulatedDevice.write erst st r v = _ from
      emulated_write_config st v (List.mem_cons_of_mem _ hr)]
    refine (emulated_reg_config _ hr).trans ?_
    exact (Function.update_self _ _ _).trans (and_bits_of_fits hfits)
  write_other erst st v r hr _ r' hr' hne := by
    rw [show emulatedDevice.write erst st r v = _ from emulated_write_config st v hr]
    refine (emulated_reg_config _ hr').trans (Eq.trans ?_ (emulated_reg_config st hr').symm)
    exact Function.update_of_ne hne _ _

theorem rsWritten_emulatedView : emulatedView.RsWritten := fun _ _ ↦ rfl

/-! ## Polling a lawful controller -/

namespace Observed

variable {D : Device} (X : XhciView D)

/-- Where the controller stands. -/
def stage (s : Observed D) : Stage := X.stage s.machine.dev

/-- What a register holds. -/
def reg (s : Observed D) (r : Mmio) : BitVec 32 := X.reg s.machine.dev r

/-- From `s` to `t` nothing has happened, except that the controller may have moved on. -/
structure Quiet (s t : Observed D) : Prop where
  /-- Nothing was written to a register. -/
  log : t.log = s.log
  /-- Nor to memory. -/
  mem : t.mem = s.mem
  /-- Nothing was allocated. -/
  live : t.machine.live = s.machine.live
  /-- The number of slots is the same. -/
  slots : t.reg X Reg.hcsparams1 = s.reg X Reg.hcsparams1
  /-- A controller that was configured still is, with the same RS and the same configuration. -/
  config : (s.stage X).Configured → (t.stage X).Configured ∧
    t.reg X Reg.usbcmd &&& Usbcmd.rs = s.reg X Reg.usbcmd &&& Usbcmd.rs ∧
    ∀ r ∈ configRegs, t.reg X r = s.reg X r

variable {X}

theorem Quiet.refl (s : Observed D) : Quiet X s s :=
  ⟨rfl, rfl, rfl, rfl, fun h ↦ ⟨h, rfl, fun _ _ ↦ rfl⟩⟩

theorem Quiet.trans {s t u : Observed D} (h : Quiet X s t) (h' : Quiet X t u) : Quiet X s u where
  log := h'.log.trans h.log
  mem := h'.mem.trans h.mem
  live := h'.live.trans h.live
  slots := h'.slots.trans h.slots
  config hs := by
    obtain ⟨ht, hrs, hconfig⟩ := h.config hs
    obtain ⟨hu, hrs', hconfig'⟩ := h'.config ht
    exact ⟨hu, hrs'.trans hrs, fun r hr ↦ (hconfig' r hr).trans (hconfig r hr)⟩

section Polls

variable (hX : X.Lawful) {s : Observed D} {r : Mmio}
include hX

/-- What a read does. -/
theorem read_eq (s : Observed D) (r : Mmio) : ∃ v t, read r s = (some v, t) ∧ Quiet X s t ∧
    t.machine.dev = (D.read s.machine.dev r).2 ∧ (r ∈ statusRegs → v = t.reg X r) := by
  refine ⟨_, _, rfl, ⟨rfl, rfl, rfl, hX.read_slots _ r, fun hs ↦ ?_⟩, rfl, hX.read_value _ r⟩
  refine ⟨?_, hX.read_config _ r hs⟩
  change (X.stage (D.read s.machine.dev r).2).Configured
  -- the configured stages are closed under moving on
  rcases hX.read_stage s.machine.dev r with hsame | hnext
  · rw [hsame]
    exact hs
  · exact hs.advances hnext

theorem read_ensures {S : Observed D → Prop} (s : Observed D) (r : Mmio) :
    (read r).Ensures s (fun v t ↦ Quiet X s t ∧ (r ∈ statusRegs → v = t.reg X r)) S := by
  obtain ⟨v, t, hread, hquiet, -, hvalue⟩ := read_eq hX s r
  exact .of_eq hread ⟨hquiet, hvalue⟩

/-- **When a polling loop ends**, the last value passes the test, and the controller is at a stage
it can have moved on to. -/
theorem poll_ensures (hr : r ∈ statusRegs) {I : Stage → Prop}
    (hI : ∀ g g', I g → g.Advances g' → I g') (p : BitVec 32 → Bool) (hs : I (s.stage X))
    (fuel : ℕ) :
    (pollUntil r p fuel).Ensures s
      (fun _ t ↦ Quiet X s t ∧ I (t.stage X) ∧ p (t.reg X r) = true) (Quiet X s) := by
  have hbody : ∀ u, Quiet X s u ∧ I (u.stage X) → (read r).Ensures u
      (fun v t ↦ (Quiet X s t ∧ I (t.stage X)) ∧ v = t.reg X r)
        (fun t ↦ Quiet X s t ∧ I (t.stage X)) := by
    rintro u ⟨hu, hIu⟩
    obtain ⟨v, t, hread, hquiet, hdev, hvalue⟩ := read_eq hX u r
    refine .of_eq hread ⟨⟨hu.trans hquiet, ?_⟩, hvalue hr⟩
    have hstage := hX.read_stage u.machine.dev r
    rw [← hdev] at hstage
    rcases hstage with hsame | hnext
    · rw [stage, hsame]
      exact hIu
    · exact hI _ _ hIu hnext
  refine (Ensures.untilPasses hbody ⟨.refl s, hs⟩ fuel).mono ?_ fun t ht ↦ ht.1
  rintro v t ⟨⟨hquiet, hIt⟩, rfl, hpass⟩
  exact ⟨hquiet, hIt, hpass⟩

/-- **A polling loop ends**, if the test passes at every stage at which the controller can come to
rest. -/
theorem poll_settles (hr : r = Reg.usbcmd ∨ r = Reg.usbsts) {I : Stage → Prop}
    (hI : ∀ g g', I g → g.Advances g' → I g') {p : BitVec 32 → Bool}
    (hrest : ∀ t : Observed D, I (t.stage X) → ¬(t.stage X).Transient → p (t.reg X r) = true)
    (hs : I (s.stage X)) : ∃ v t, Settles (pollUntil r p) s v t := by
  have hwf : WellFounded (InvImage (Prod.Lex (· < ·) (· < ·)) fun t : Observed D ↦
      ((t.stage X).rank, X.polls t.machine.dev)) :=
    InvImage.wf _ (WellFounded.prod_lex Nat.lt_wfRel.wf Nat.lt_wfRel.wf)
  refine Settles.untilPasses (I := fun t : Observed D ↦ I (t.stage X)) hwf (fun u hu ↦ ?_) hs
  obtain ⟨v, t, hread, -, hdev, hvalue⟩ := read_eq hX u r
  have hregs : r ∈ statusRegs := by rcases hr with rfl | rfl <;> decide
  obtain rfl := hvalue hregs
  have hstage := hX.read_stage u.machine.dev r
  rw [← hdev] at hstage
  rcases hstage with hsame | hnext
  · have hIt : I (t.stage X) := by
      rw [stage, hsame]
      exact hu
    refine ⟨_, t, hread, hIt, ?_⟩
    by_cases htransient : (u.stage X).Transient
    · have hpolls := hX.read_polls u.machine.dev r hr htransient (hdev ▸ hsame)
      rw [← hdev] at hpolls
      right
      refine Prod.lex_def.mpr (.inr ⟨?_, hpolls⟩)
      exact congrArg Stage.rank hsame
    · left
      apply hrest t hIt
      rwa [stage, hsame]
  · exact ⟨_, t, hread, hI _ _ hu hnext, .inr (Prod.Lex.left _ _ hnext.rank_lt)⟩

end Polls

end Observed

end Punkos
