import Punkos.Xhci.Discipline

/-!
# Stopping and resetting

A controller must be stopped before it is reset. `Controller::init` reads USBCMD once, clears RS in
what it has read and writes that back, waits for HCH, and then sets HCRST *in what it had read* and
writes it.

## What goes wrong

If RS was set when `init` was entered, it is set again in the write that requests the reset. By
`stays_stopped_iff` no run does this precisely when the firmware left RS clear. The controller of
an emulator starts that way, so the slip does not show there.
-/

namespace Punkos

open Command

/-- RS is clear in every write to USBCMD between the first and the last, and in those that request
a reset. -/
def StaysStopped {D : Device} (log : List (Access D)) : Prop :=
  ∀ newer a older, log = newer ++ a :: older → a.reg = Reg.usbcmd →
    (((∃ b ∈ newer, b.reg = Reg.usbcmd) ∧ ∃ b ∈ older, b.reg = Reg.usbcmd) ∨
      a.value &&& Usbcmd.hcrst ≠ 0) → a.value &&& Usbcmd.rs = 0

/-- RS is clear in every write to USBCMD. -/
def AllClear {D : Device} (log : List (Access D)) : Prop :=
  ∀ a ∈ log, a.reg = Reg.usbcmd → a.value &&& Usbcmd.rs = 0

/-- Some write requests a reset with RS set. -/
def ResetsRunning {D : Device} (log : List (Access D)) : Prop :=
  ∃ a ∈ log, a.reg = Reg.usbcmd ∧ a.value &&& Usbcmd.hcrst ≠ 0 ∧ a.value &&& Usbcmd.rs ≠ 0

section Logs

variable {D : Device} {log : List (Access D)}

theorem AllClear.staysStopped (h : AllClear log) : StaysStopped log := by
  intro newer a older heq hcmd _
  refine h a ?_ hcmd
  rw [heq]
  exact List.mem_append_right _ List.mem_cons_self

/-- The start write is the last one, and requests no reset. -/
theorem AllClear.staysStopped_cons (h : AllClear log) {a : Access D}
    (ha : a.value &&& Usbcmd.hcrst = 0) : StaysStopped (a :: log) := by
  intro newer b older heq hcmd hwhere
  rcases newer with _ | ⟨c, newer⟩
  · obtain ⟨rfl, rfl⟩ := List.cons.inj heq
    rcases hwhere with ⟨⟨b, hb, -⟩, -⟩ | hreset
    · exact absurd hb List.not_mem_nil
    · exact absurd ha hreset
  · obtain ⟨-, rfl⟩ := List.cons.inj heq
    exact h b (List.mem_append_right _ List.mem_cons_self) hcmd

theorem AllClear.cons (h : AllClear log) {a : Access D}
    (ha : a.reg = Reg.usbcmd → a.value &&& Usbcmd.rs = 0) : AllClear (a :: log) := by
  intro b hb hcmd
  rcases List.mem_cons.mp hb with rfl | hb
  · exact ha hcmd
  · exact h b hb hcmd

theorem ResetsRunning.not_staysStopped (h : ResetsRunning log) : ¬StaysStopped log := by
  obtain ⟨a, ha, hcmd, hreset, hrs⟩ := h
  obtain ⟨newer, older, rfl⟩ := List.append_of_mem ha
  exact fun hstays ↦ hrs (hstays newer a older rfl hcmd (.inr hreset))

theorem ResetsRunning.cons (h : ResetsRunning log) (a : Access D) : ResetsRunning (a :: log) := by
  obtain ⟨b, hb, hreset⟩ := h
  exact ⟨b, List.mem_cons_of_mem _ hb, hreset⟩

end Logs

namespace Observed

variable {D : Device} {X : XhciView D} {P : Platform} {L : List (Access D) → Prop}

/-! ## What leaves the log alone -/

theorem poll_preserves (r : Mmio) (p : BitVec 32 → Bool) (fuel : ℕ) :
    (pollUntil r p fuel).Preserves fun s : Observed D ↦ L s.log :=
  Preserves.untilPasses (c := read r) (fun _ hs ↦ .of_eq rfl hs) p fuel

theorem store_preserves (v : ℕ) (word : BitVec 64) :
    (store v word).Preserves fun s : Observed D ↦ L s.log :=
  fun _ hs ↦ .of_eq rfl hs

theorem zeroWords_preserves (base n : ℕ) :
    (zeroWords base n).Preserves fun s : Observed D ↦ L s.log := by
  induction n with
  | zero => exact .pure ()
  | succ n ih => exact ih.bind fun _ ↦ store_preserves _ _

theorem alloc_preserves (size align : ℕ) :
    (alloc P size align).Preserves fun s : Observed D ↦ L s.log := by
  intro s hs
  rcases hm : s.machine.alloc P size align with _ | ⟨ptr, m⟩
  · exact .of_stuck (by rw [alloc, hm]) hs
  · exact .of_eq (t := { s with machine := m, mem := s.mem.forget ptr size })
      (by rw [alloc, hm]) hs

theorem translate_preserves (v : ℕ) :
    (translate P v).Preserves fun s : Observed D ↦ L s.log := by
  intro s hs
  rcases hphys : P.translate v with _ | phys
  · exact .of_stuck (by rw [translate, hphys]) hs
  · exact .of_eq (by rw [translate, hphys]) hs

theorem newRing_preserves (count : ℕ) (hcount : ∃ k, count = 2 ^ k) :
    (newRing P count hcount).Preserves fun s : Observed D ↦ L s.log :=
  (alloc_preserves _ _).bind fun _ ↦ (zeroWords_preserves _ _).bind fun _ ↦
    (translate_preserves _).bind fun _ ↦ .pure _

theorem newDcbaa_preserves (maxSlots : BitVec 8) :
    (newDcbaa P maxSlots).Preserves fun s : Observed D ↦ L s.log :=
  (alloc_preserves _ _).bind fun _ ↦ (zeroWords_preserves _ _).bind fun _ ↦
    (translate_preserves _).bind fun _ ↦ .pure _

theorem allocateErst_preserves (ring : Ring) :
    (allocateErst P ring).Preserves fun s : Observed D ↦ L s.log := by
  refine (alloc_preserves _ _).bind fun _ ↦ Preserves.bind ?_ fun _ ↦
    (translate_preserves _).bind fun _ ↦ Preserves.bind (fun _ hs ↦ .of_eq rfl hs) fun _ ↦ .pure _
  exact (store_preserves _ _).bind fun _ ↦ store_preserves _ _

/-- **Step 3** leaves the log alone. -/
theorem allocate_preserves (maxSlots maxPorts : BitVec 8) :
    (allocate P maxSlots maxPorts).Preserves fun s : Observed D ↦ L s.log :=
  (newRing_preserves _ _).bind fun _ ↦ (newRing_preserves _ _).bind fun _ ↦
    (newDcbaa_preserves _).bind fun _ ↦ .pure _

/-- **Step 4** adds nothing about USBCMD to the log. -/
theorem configure_preserves (hL : ∀ a log, a.reg ≠ Reg.usbcmd → L log → L (a :: log))
    (c : Controller) : (configure P c).Preserves fun s : Observed D ↦ L s.log := by
  have hwrite : ∀ {r : Mmio} (v : BitVec 32), r ≠ Reg.usbcmd →
      (write r v).Preserves fun s : Observed D ↦ L s.log :=
    fun v hr s hs ↦ .of_eq rfl (hL _ _ hr hs)
  have hwrite64 : ∀ {low high : Mmio} (v : BitVec 64), low ≠ Reg.usbcmd → high ≠ Reg.usbcmd →
      (write64 low high v).Preserves fun s : Observed D ↦ L s.log :=
    fun v hlow hhigh ↦ (hwrite _ hlow).bind fun _ ↦ hwrite _ hhigh
  have hcontexts : (writeContexts c).Preserves fun s : Observed D ↦ L s.log :=
    (hwrite _ (by decide)).bind fun _ ↦ (hwrite64 _ (by decide) (by decide)).bind fun _ ↦
      hwrite64 _ (by decide) (by decide)
  refine hcontexts.bind fun _ ↦ (allocateErst_preserves _).bind fun segPhys ↦ ?_
  refine (hwrite64 _ (by decide) (by decide)).bind fun _ ↦ (hwrite _ (by decide)).bind fun _ ↦ ?_
  refine (hwrite64 _ (by decide) (by decide)).bind fun _ ↦ ?_
  exact (hwrite _ (by decide)).bind fun _ ↦ hwrite _ (by decide)

/-! ## The writes to USBCMD -/

section Runs

variable {s : Observed D}

/-- What is read before anything is written leaves RS as it was. -/
theorem identify_preserves (hR : X.RsWritten) (b : BitVec 32) :
    identify.Preserves fun t : Observed D ↦
      AllClear t.log ∧ t.reg X Reg.usbcmd &&& Usbcmd.rs = b := by
  have hread : ∀ r, (read r).Preserves fun t : Observed D ↦
      AllClear t.log ∧ t.reg X Reg.usbcmd &&& Usbcmd.rs = b :=
    fun r s hs ↦ .of_eq rfl ⟨hs.1, (hR s.machine.dev r).trans hs.2⟩
  exact (hread _).bind fun _ ↦ (hread _).bind fun _ ↦ (hread _).bind fun _ ↦
    (hread _).bind fun _ ↦ (hread _).bind fun _ ↦ .pure _

/-- **Step 1.** What it returns has the RS bit that USBCMD had, and what it writes has none. -/
theorem stop_allClear (hX : X.Lawful) (hR : X.RsWritten) (hs : AllClear s.log) (fuel : ℕ) :
    (stop fuel).Ensures s
      (fun cmd t ↦ AllClear t.log ∧ cmd &&& Usbcmd.rs = s.reg X Reg.usbcmd &&& Usbcmd.rs)
      (fun t ↦ AllClear t.log) := by
  obtain ⟨cmd, t₁, hread, hquiet, hdev, hvalue⟩ := read_eq hX s Reg.usbcmd
  have hrs : cmd &&& Usbcmd.rs = s.reg X Reg.usbcmd &&& Usbcmd.rs := by
    rw [hvalue (by decide), reg, hdev]
    exact hR s.machine.dev Reg.usbcmd
  refine Ensures.bind (Q := fun v t ↦ v = cmd ∧ t = t₁) (.of_eq hread ⟨rfl, rfl⟩) ?_
  rintro _ _ ⟨rfl, rfl⟩
  refine Ensures.bind (Q := fun _ t ↦ AllClear t.log) (.of_eq rfl ?_) fun _ t₂ ht₂ ↦ ?_
  · refine AllClear.cons (hquiet.log ▸ hs) fun _ ↦ ?_
    exact and_not_rs_and_rs _
  · refine (poll_preserves _ _ fuel t₂ ht₂).bind fun _ t₃ ht₃ ↦ ?_
    exact .pure ⟨ht₃, hrs⟩

/-- **Step 2**, if RS was clear when USBCMD was read. -/
theorem reset_allClear (hs : AllClear s.log) (fuel : ℕ) {cmd : BitVec 32}
    (hcmd : cmd &&& Usbcmd.rs = 0) :
    (reset fuel cmd).Ensures s (fun _ t ↦ AllClear t.log) (fun t ↦ AllClear t.log) := by
  refine Ensures.bind (Q := fun _ t ↦ AllClear t.log) (.of_eq rfl ?_) fun _ t₁ ht₁ ↦ ?_
  · apply hs.cons
    intro _
    exact (or_hcrst_and_rs cmd).trans hcmd
  · refine (poll_preserves _ _ fuel t₁ ht₁).bind fun _ t₂ ht₂ ↦ ?_
    exact (poll_preserves _ _ fuel t₂ ht₂).bind fun _ t₃ ht₃ ↦ .pure ht₃

/-- **Step 2**, if it was set. -/
theorem reset_resetsRunning (fuel : ℕ) {cmd : BitVec 32} (hcmd : cmd &&& Usbcmd.rs ≠ 0) :
    (reset fuel cmd).Ensures s (fun _ t ↦ ResetsRunning t.log) (fun t ↦ ResetsRunning t.log) := by
  refine Ensures.bind (Q := fun _ t ↦ ResetsRunning t.log) (.of_eq rfl ?_) fun _ t₁ ht₁ ↦ ?_
  · refine ⟨_, List.mem_cons_self, rfl, or_hcrst_and_hcrst cmd, ?_⟩
    exact fun h ↦ hcmd ((or_hcrst_and_rs cmd).symm.trans h)
  · refine (poll_preserves _ _ fuel t₁ ht₁).bind fun _ t₂ ht₂ ↦ ?_
    exact (poll_preserves _ _ fuel t₂ ht₂).bind fun _ t₃ ht₃ ↦ .pure ht₃

/-- **Step 5** writes RS, and writes USBCMD last. -/
theorem start_staysStopped (hs : AllClear s.log) (fuel : ℕ) :
    (start fuel).Ensures s (fun _ t ↦ StaysStopped t.log) (fun t ↦ StaysStopped t.log) := by
  refine Ensures.bind (Q := fun _ t ↦ StaysStopped t.log) (.of_eq rfl ?_) fun _ t₁ ht₁ ↦ ?_
  · exact hs.staysStopped_cons
      (show (Usbcmd.rs ||| Usbcmd.inte ||| Usbcmd.hsee) &&& Usbcmd.hcrst = 0
      by decide)
  · exact (poll_preserves _ _ fuel t₁ ht₁).bind fun _ t₂ ht₂ ↦ .pure ht₂

theorem init_staysStopped (hX : X.Lawful) (hR : X.RsWritten) (m : Machine D) (mem : Words)
    (hrs : X.reg m.dev Reg.usbcmd &&& Usbcmd.rs = 0) (fuel : ℕ) :
    (init P fuel).Ensures (begin m mem) (fun _ t ↦ StaysStopped t.log)
      (fun t ↦ StaysStopped t.log) := by
  have hstuck : ∀ t : Observed D, AllClear t.log → StaysStopped t.log := fun _ ht ↦ ht.staysStopped
  have hbegin : AllClear (begin m mem).log := fun a ha ↦ absurd ha List.not_mem_nil
  refine ((identify_preserves hR 0 (begin m mem) ⟨hbegin, hrs⟩).mono (fun _ _ h ↦ h)
    fun t h ↦ hstuck t h.1).bind ?_
  rintro ids t₁ ⟨hs₁, hrs₁⟩
  refine ((stop_allClear hX hR hs₁ fuel).mono (fun _ _ h ↦ h) hstuck).bind ?_
  rintro cmd t₂ ⟨hs₂, hcmd⟩
  have hcmd₀ : cmd &&& Usbcmd.rs = 0 := hcmd.trans hrs₁
  refine ((reset_allClear hs₂ fuel hcmd₀).mono (fun _ _ h ↦ h) hstuck).bind fun _ t₃ hs₃ ↦ ?_
  refine ((allocate_preserves ids.1 ids.2 t₃ hs₃).mono (fun _ _ h ↦ h) hstuck).bind fun c t₄
    hs₄ ↦ ?_
  have hconfigure := configure_preserves (P := P) (fun a log ha h ↦ h.cons fun h ↦ absurd h ha)
    c t₄ hs₄
  refine (hconfigure.mono (fun _ _ h ↦ h) hstuck).bind fun _ t₅ hs₅ ↦ ?_
  exact (start_staysStopped hs₅ fuel).bind fun _ t₆ hs₆ ↦ .pure hs₆

/-- With RS set, a run long enough to see the controller halt goes wrong. -/
theorem exists_resetsRunning (hX : X.Lawful) (hR : X.RsWritten) (P : Platform) (m : Machine D)
    (mem : Words) (hrs : X.reg m.dev Reg.usbcmd &&& Usbcmd.rs ≠ 0) :
    ∃ fuel, ResetsRunning (init P fuel (begin m mem)).2.log := by
  obtain ⟨ids, t₁, hidentify⟩ : ∃ ids t₁, identify (begin m mem) = (some ids, t₁) := ⟨_, _, rfl⟩
  have hbegin : AllClear (begin m mem).log := fun a ha ↦ absurd ha List.not_mem_nil
  obtain ⟨hs₁, hrs₁⟩ := (identify_preserves hR (X.reg m.dev Reg.usbcmd &&& Usbcmd.rs) (begin m mem)
    ⟨hbegin, rfl⟩).returns _ _ hidentify
  obtain ⟨cmd, t₂, hstop⟩ := stop_settles hX t₁
  have hcmd := (hstop.ensures fun fuel ↦ stop_allClear hX hR hs₁ fuel).2
  have hcmd₀ : cmd &&& Usbcmd.rs ≠ 0 := by
    rw [hcmd, hrs₁]
    exact hrs
  obtain ⟨n, hn⟩ := hstop
  refine ⟨n, Ensures.after (c := init P n) (I := fun t ↦ ResetsRunning t.log) ?_⟩
  refine Ensures.bind (Q := fun a t ↦ a = ids ∧ t = t₁) (.of_eq hidentify ⟨rfl, rfl⟩) ?_
  rintro _ _ ⟨rfl, rfl⟩
  refine Ensures.bind (Q := fun a t ↦ a = cmd ∧ t = t₂)
    (.of_eq (hn n (Nat.le_refl n)) ⟨rfl, rfl⟩) ?_
  rintro _ _ ⟨rfl, rfl⟩
  -- from here on nothing is taken back
  refine (reset_resetsRunning n hcmd₀).bind fun _ t₃ hs₃ ↦ ?_
  refine (allocate_preserves _ _ t₃ hs₃).bind fun c t₄ hs₄ ↦ ?_
  refine (configure_preserves (fun a log _ h ↦ h.cons a) c t₄ hs₄).bind fun _ t₅ hs₅ ↦ ?_
  refine Ensures.bind (Q := fun _ t ↦ ResetsRunning t.log) ?_ fun _ _ h ↦ .pure h
  refine Ensures.bind (Q := fun _ t ↦ ResetsRunning t.log) (.of_eq rfl (hs₅.cons _)) fun _ t₆
    hs₆ ↦ ?_
  exact (poll_preserves _ _ n t₆ hs₆).bind fun _ _ h ↦ .pure h

end Runs

end Observed

open Observed in
/-- **Stop means stopped, if RS was clear.** For every lawful controller whose RS does not change by
itself, in any state and however long it takes: no run of `init` sets RS between the first and the
last write to USBCMD, or in a write that requests a reset, if and only if RS is clear when `init`
is entered. -/
theorem stays_stopped_iff {D : Device} {X : XhciView D} (hX : X.Lawful) (hR : X.RsWritten)
    (P : Platform) (m : Machine D) (mem : Words) :
    (∀ fuel, StaysStopped (init P fuel (begin m mem)).2.log) ↔
      X.reg m.dev Reg.usbcmd &&& Usbcmd.rs = 0 := by
  constructor
  · intro hstays
    by_contra hrs
    obtain ⟨fuel, hbad⟩ := exists_resetsRunning hX hR P m mem hrs
    exact hbad.not_staysStopped (hstays fuel)
  · intro hrs fuel
    exact (init_staysStopped hX hR m mem hrs fuel).after

/-- A controller at power-on: halted, with RS clear. -/
def powerOnMachine : Machine xhciDevice :=
  ⟨{ firmwareState 64 4 with usbcmd := 0, phase := .halted }, [], fun _ ↦ none, []⟩

open Observed in
/-- On the bare machine, a controller at power-on stays stopped until it is started. -/
theorem stays_stopped_power_on :
    ∃ P : Platform, (∃ c t, init P 1 (begin powerOnMachine fun _ ↦ none) = (some c, t)) ∧
      ∀ fuel, StaysStopped (init P fuel (begin powerOnMachine fun _ ↦ none)).2.log := by
  obtain ⟨s, hsetUp⟩ := bare_setUp_succeeds
  have hroom := bare_serves hsetUp 64
  set P := kernelPlatform s.mem bareCr3 slotAlloc
  refine ⟨P, ?_, (stays_stopped_iff xhciView_lawful rsWritten_xhciView P powerOnMachine _).mpr
    (by decide)⟩
  obtain ⟨c, m', hinit⟩ := init_returns (P := P) powerOnMachine Nat.zero_lt_one Nat.zero_lt_one
    Nat.zero_lt_one Nat.zero_lt_one hroom
  obtain ⟨t, ht, -⟩ := (simulates_init (P := P) 1).exists_of_eq_some
    (s := begin powerOnMachine fun _ ↦ none) hinit
  exact ⟨c, t, ht⟩

open Observed in
/-- With a controller that the firmware left running, RS is set in the write that requests the
reset. -/
theorem not_stays_stopped :
    ¬∀ P fuel, StaysStopped (init P fuel (begin (firmwareMachine 64 4) fun _ ↦ none)).2.log := by
  intro h
  obtain ⟨s, -⟩ := bare_setUp_succeeds
  obtain ⟨fuel, hbad⟩ := exists_resetsRunning xhciView_lawful rsWritten_xhciView
    (kernelPlatform s.mem bareCr3 slotAlloc) (firmwareMachine 64 4) (fun _ ↦ none) (by decide)
  exact hbad.not_staysStopped (h _ fuel)

end Punkos
