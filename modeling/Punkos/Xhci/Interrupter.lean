import Punkos.Xhci.Discipline

/-!
# The interrupter

`Registers::enable_interrupter` means to clear the pending bit of IMAN and then to enable
interrupter 0. In IMAN bit 0 is IP, which a written 1 clears, and bit 1 is IE, which holds what is
written. The two writes are `1 << 1` and `1 << 0`: the first enables the interrupter, the second
clears IP and *disables* it.

## What goes wrong

When `init` returns, IE is 0, with every controller and whatever events it raises meanwhile
(`interrupter_armed_iff`). The comment in the source, "Write 1 to IP (bit 1) to clear pending, then
set IE (bit 0)", has the bits the wrong way round. The driver polls its event ring, so nothing
shows it.
-/

namespace Punkos

open Command

namespace Iman

/-- Interrupt pending. -/
def ip : BitVec 32 := 1 <<< 0

/-- Interrupt enable. -/
def ie : BitVec 32 := 1 <<< 1

end Iman

/-- IMAN and INTE as the controller implements them. Events may set IP at any time. -/
structure XhciView.Interrupting {D : Device} (X : XhciView D) : Prop where
  /-- After the reset IE does not change by itself. -/
  read_ie : ∀ s r, (X.stage s).Configured →
    X.reg (D.read s r).2 Reg.iman &&& Iman.ie = X.reg s Reg.iman &&& Iman.ie
  /-- Nor does INTE. -/
  read_inte : ∀ s r, (X.stage s).Configured →
    X.reg (D.read s r).2 Reg.usbcmd &&& Usbcmd.inte = X.reg s Reg.usbcmd &&& Usbcmd.inte
  /-- A written 1 clears IP. -/
  write_ip : ∀ erst s v, (X.stage s).Configured →
    X.reg (D.write erst s Reg.iman v) Reg.iman &&& Iman.ip = X.reg s Reg.iman &&& ~~~v &&& Iman.ip
  /-- IE is stored. -/
  write_ie : ∀ erst s v, (X.stage s).Configured →
    X.reg (D.write erst s Reg.iman v) Reg.iman &&& Iman.ie = v &&& Iman.ie
  /-- So is INTE. -/
  write_inte : ∀ erst s v, (X.stage s).Configured → v &&& Usbcmd.hcrst = 0 →
    X.reg (D.write erst s Reg.usbcmd v) Reg.usbcmd &&& Usbcmd.inte = v &&& Usbcmd.inte
  /-- Other writes leave IE alone, unless they reset the controller. -/
  write_other : ∀ erst s r v, (X.stage s).Configured → r ≠ Reg.iman →
    (r = Reg.usbcmd → v &&& Usbcmd.hcrst = 0) →
    X.reg (D.write erst s r v) Reg.iman &&& Iman.ie = X.reg s Reg.iman &&& Iman.ie

/-- Interrupter 0 is enabled, and so are interrupts. -/
def XhciView.Armed {D : Device} (X : XhciView D) (s : D.State) : Prop :=
  X.reg s Reg.iman &&& Iman.ie ≠ 0 ∧ X.reg s Reg.usbcmd &&& Usbcmd.inte ≠ 0

namespace Observed

variable {D : Device} {X : XhciView D}

/-- IE is 0, and the controller stays as it was configured. -/
def IeClear (X : XhciView D) (t : Observed D) : Prop :=
  (t.stage X).Configured ∧ t.reg X Reg.iman &&& Iman.ie = 0

/-- `enable_interrupter` disables the interrupter. -/
theorem ImanLast.ieClear (hX : X.Lawful) (hI : X.Interrupting) {t : Observed D}
    (h : ImanLast X t) : IeClear X t := by
  obtain ⟨u, hhalted, rfl⟩ := h
  constructor
  · exact .inl (hX.write_stage u.machine.erst u.machine.dev _ _ List.mem_cons_self hhalted)
  · have hwrite := hI.write_ie u.machine.erst u.machine.dev (1 <<< 0) (.inl hhalted)
    exact hwrite.trans (by decide)

/-- **Step 5** enables interrupts, and leaves IE at 0. -/
theorem start_interrupts (hX : X.Lawful) (hI : X.Interrupting) {s : Observed D}
    (hs : IeClear X s) (hhalted : s.stage X = .halted) (fuel : ℕ) :
    (start fuel).Ensures s
      (fun _ t ↦ t.reg X Reg.iman &&& Iman.ie = 0 ∧ t.reg X Reg.usbcmd &&& Usbcmd.inte ≠ 0)
      (fun _ ↦ True) := by
  set cmd := Usbcmd.rs ||| Usbcmd.inte ||| Usbcmd.hsee
  set I : Observed D → Prop := fun t ↦ IeClear X t ∧ t.reg X Reg.usbcmd &&& Usbcmd.inte ≠ 0
  have hwrite : I (Observed.write Reg.usbcmd cmd s).2 := by
    obtain ⟨hstage, -, -⟩ := hX.write_start s.machine.erst s.machine.dev cmd (by decide)
      (by decide) hhalted
    have hie := hI.write_other s.machine.erst s.machine.dev Reg.usbcmd cmd hs.1 (by decide)
      fun _ ↦ by decide
    have hinte := hI.write_inte s.machine.erst s.machine.dev cmd hs.1 (by decide)
    refine ⟨⟨.inr hstage, hie.trans hs.2⟩, fun hzero ↦ ?_⟩
    exact absurd (hinte.symm.trans hzero) (by decide)
  have hread : ∀ r, (read r).Preserves I := by
    rintro r t ⟨⟨hstage, hie⟩, hinte⟩
    obtain ⟨v, u, hrun, hquiet, hdev, -⟩ := read_eq hX t r
    have hie' := hI.read_ie t.machine.dev r hstage
    have hinte' := hI.read_inte t.machine.dev r hstage
    rw [← hdev] at hie' hinte'
    exact .of_eq hrun ⟨⟨(hquiet.config hstage).1, hie'.trans hie⟩,
      fun hzero ↦ hinte (hinte'.symm.trans hzero)⟩
  refine Ensures.bind (Q := fun _ t ↦ I t) (.of_eq rfl hwrite) fun _ t ht ↦ ?_
  refine (((hread _).untilPasses _ fuel t ht).mono (fun _ _ h ↦ h) fun _ _ ↦ trivial).bind ?_
  exact fun _ u hu ↦ .pure ⟨hu.1.2, hu.2⟩

end Observed

section Interrupter

variable {D : Device} {X : XhciView D} {P : Platform} {m m' : Machine D}

/-- When `init` returns, interrupts are enabled and interrupter 0 is not. -/
theorem init_interrupts (hX : X.Lawful) (hI : X.Interrupting) (hP : AllocContract P.alloc)
    {fuel : ℕ} {c : Controller} (h : Controller.init P fuel m = some (c, m')) :
    X.reg m'.dev Reg.iman &&& Iman.ie = 0 ∧ X.reg m'.dev Reg.usbcmd &&& Usbcmd.inte ≠ 0 := by
  obtain ⟨t, hrun, rfl⟩ := (Observed.simulates_init (P := P) fuel).exists_of_eq_some
    (s := Observed.begin m fun _ ↦ none) h
  have hinit : (Observed.init P fuel).Ensures (Observed.begin m fun _ ↦ none)
      (fun _ t ↦ t.reg X Reg.iman &&& Iman.ie = 0 ∧ t.reg X Reg.usbcmd &&& Usbcmd.inte ≠ 0)
      (fun _ ↦ True) := by
    have hany : ∀ (slots : BitVec 8) (t : Observed D), Orderly X P slots t.log → True :=
      fun _ _ _ ↦ trivial
    refine (Observed.identify_ensures hX _).bind ?_
    rintro ⟨slots, ports⟩ t₁ ⟨hquiet, -⟩
    have hs₁ : Orderly X P slots t₁.log := hquiet.log ▸ orderly_nil
    refine ((Observed.stop_ensures hX hs₁ fuel).mono (fun _ _ h ↦ h) (hany slots)).bind ?_
    intro cmd t₂ hs₂
    refine ((Observed.reset_ensures hX hs₂ fuel cmd).mono (fun _ _ h ↦ h) (hany slots)).bind ?_
    intro _ t₃ hs₃
    refine ((Observed.allocate_ensures hP hs₃ ports).mono (fun _ _ h ↦ h) (hany slots)).bind ?_
    rintro c t₄ ⟨hs₄, hready⟩
    refine ((Observed.configure_ensures hX hP hs₄ hready).mono (fun _ _ h ↦ h) (hany slots)).bind ?_
    rintro - t₅ ⟨⟨_, hs₅⟩, -, himan⟩
    refine (Observed.start_interrupts hX hI (himan.ieClear hX hI) hs₅.stage_eq fuel).bind ?_
    exact fun _ _ h ↦ .pure h
  exact hinit.returns c t hrun

end Interrupter

/-! ## One such controller -/

section Instance

variable (st : XhciState)

/-- HCRST does not show in INTE. -/
theorem readUsbcmd_and_inte : st.readUsbcmd &&& Usbcmd.inte = st.usbcmd &&& Usbcmd.inte := by
  have hmask : ~~~Usbcmd.hcrst &&& Usbcmd.inte = Usbcmd.inte := by decide
  rw [← hmask, ← BitVec.and_assoc, readUsbcmd_and_not_hcrst, BitVec.and_assoc]

theorem reg_iman_write (erst : BitVec 64 → Option ErstEntry) (v : BitVec 32) :
    XhciState.reg (xhciDevice.write erst st Reg.iman v) Reg.iman =
      (st.reg Reg.iman &&& ~~~(v &&& 1) &&& ~~~2) ||| (v &&& 2) := by
  rw [write_xhciDevice st erst (by decide)]
  exact (congrFun (Config.regs_write st.config erst Reg.iman v) _).trans
    (Function.update_self _ _ _)

/-- The controller of `BringUp.lean` implements them so. -/
theorem xhciView_interrupting : xhciView.Interrupting where
  read_ie st r _ := by
    have hconfig := congrArg Config.regs (read_frame st r).2.1
    exact congrArg (· &&& Iman.ie) (congrFun hconfig Reg.iman)
  read_inte st r _ := by
    refine (readUsbcmd_and_inte _).trans (Eq.trans ?_ (readUsbcmd_and_inte st).symm)
    rw [(read_frame st r).1]
  write_ip erst st v _ := by
    refine (congrArg (· &&& Iman.ip) (reg_iman_write st erst v)).trans ?_
    ext i hi
    rcases i with _ | i
    · simp [Iman.ip, xhciView]
    · simp [Iman.ip]
  write_ie erst st v _ := by
    refine (congrArg (· &&& Iman.ie) (reg_iman_write st erst v)).trans ?_
    have hmask : ~~~2 &&& Iman.ie = 0#32 ∧ 2 &&& Iman.ie = Iman.ie := by decide
    rw [BitVec.and_or_distrib_right, BitVec.and_assoc, hmask.1, BitVec.and_zero, BitVec.zero_or,
      BitVec.and_assoc, hmask.2]
  write_inte erst st v _ hv := by
    have husbcmd := (writeUsbcmd_frame st hv).1
    refine (readUsbcmd_and_inte _).trans ?_
    exact congrArg (· &&& Usbcmd.inte) husbcmd
  write_other erst st r v _ hr hreset := by
    have hregs : XhciState.reg (xhciDevice.write erst st r v) Reg.iman = st.reg Reg.iman := by
      by_cases hcmd : r = Reg.usbcmd
      · obtain ⟨-, hconfig⟩ := writeUsbcmd_frame st (hreset hcmd)
        rw [hcmd]
        exact congrFun (congrArg Config.regs hconfig) Reg.iman
      · rw [write_xhciDevice st erst hcmd]
        exact (congrFun (Config.regs_write st.config erst r v) _).trans
          (Function.update_of_ne hr.symm _ _)
    exact congrArg (· &&& Iman.ie) hregs

end Instance

/-! ## The main result -/

theorem identify_slots {D : Device} {X : XhciView D} (hX : X.Lawful) (m : Machine D) :
    (Controller.identify m).1 = (X.reg m.dev Reg.hcsparams1).setWidth 8 := by
  have hidentify := Observed.identify_ensures (S := fun _ ↦ True) hX
    (Observed.begin m fun _ ↦ none)
  exact (hidentify.returns _ _ rfl).2

/-- **Interrupter 0 is never armed.** For every lawful controller, in any state and whatever events
it raises: that the controller is armed when `init` returns holds only if `init` cannot return,
because the heap does not serve what it asks for. -/
theorem interrupter_armed_iff {D : Device} {X : XhciView D} (hX : X.Lawful) (hI : X.Interrupting)
    {P : Platform} (hP : AllocContract P.alloc) (m : Machine D) :
    (∀ fuel c m', Controller.init P fuel m = some (c, m') → X.Armed m'.dev) ↔
      ¬P.Serves m.live (Controller.requests ((X.reg m.dev Reg.hcsparams1).setWidth 8)) := by
  constructor
  · intro harmed hroom
    obtain ⟨c, t, n, hn⟩ := Observed.init_settles hX hP m (fun _ ↦ none) hroom
    have hinit := (Observed.simulates_init n).eq_some (hn n (Nat.le_refl n))
    exact (harmed n c t.machine hinit).1 (init_interrupts hX hI hP hinit).1
  · intro hroom fuel c m' hinit
    have hserves := Controller.serves_of_init hinit
    rw [identify_slots hX] at hserves
    exact absurd hserves hroom

/-- The controller that the firmware left running on the bare machine is not armed. -/
theorem interrupter_armed_bare :
    ∃ P : Platform, AllocContract P.alloc ∧ P.Serves [] (Controller.requests 64) ∧
      ¬∀ fuel c m', Controller.init P fuel (firmwareMachine 64 4) = some (c, m') →
        xhciView.Armed m'.dev := by
  obtain ⟨s, hsetUp⟩ := bare_setUp_succeeds
  have hroom := bare_serves hsetUp 64
  refine ⟨_, slotAlloc_contract, hroom, fun harmed ↦ ?_⟩
  exact (interrupter_armed_iff xhciView_lawful xhciView_interrupting slotAlloc_contract
    (firmwareMachine 64 4)).mp harmed hroom

/-- A run that returns and leaves IE at 0. -/
theorem not_interrupter_armed :
    ¬∀ P fuel c m', Controller.init P fuel (firmwareMachine 64 4) = some (c, m') →
      xhciView.Armed m'.dev := by
  intro h
  obtain ⟨s, -, c, m', hinit⟩ := bare_init_returns 64 4
  exact (h _ _ c m' hinit).1
    (init_interrupts xhciView_lawful xhciView_interrupting slotAlloc_contract hinit).1

end Punkos
