import Punkos.Xhci.Driver

/-!
# Port initialisation

`initialise_ports` reads PORTSC, sets a bit and writes the result back. PORTSC mixes bits of four
kinds, and the ones that are neither read-only nor plain read/write give a different meaning to a 1
that is merely written back: it disables the port (PED), or it acknowledges a change that nobody
has looked at (bits 17 to 23).

Here the controller is a bank of ports with those write semantics. `Port.settle` is what
`initialise_ports` does to one port, and `portLoop_spec` says that this is all it does.
`ports_kept_iff` then reads off which ports survive: those that need no reset, and those whose
reset fails without any change other than its own being reported.
-/

namespace Punkos

/-! ## Ports -/

namespace Portsc

/-- The change bits: CSC, PEC, WRC, OCC, PRC, PLC and CEC. -/
def changes : BitVec 32 := 0x7F <<< 17

/-- The change bits other than PRC. -/
def otherChanges : BitVec 32 := changes &&& ~~~prc

theorem getLsbD_one_shiftLeft {k : ℕ} (hk : k < 32) (i : ℕ) :
    ((1 : BitVec 32) <<< k).getLsbD i = decide (i = k) := by
  have htwoPow : (1 : BitVec 32) <<< k = BitVec.twoPow 32 k := by
    rw [BitVec.twoPow]
    rfl
  rw [htwoPow, BitVec.getLsbD_twoPow, decide_eq_true hk, Bool.true_and]
  exact decide_eq_decide.mpr eq_comm

theorem getLsbD_ped (i : ℕ) : ped.getLsbD i = decide (i = 1) :=
  getLsbD_one_shiftLeft (by decide) i

theorem getLsbD_pr (i : ℕ) : pr.getLsbD i = decide (i = 4) :=
  getLsbD_one_shiftLeft (by decide) i

theorem getLsbD_pp (i : ℕ) : pp.getLsbD i = decide (i = 9) :=
  getLsbD_one_shiftLeft (by decide) i

theorem getLsbD_prc (i : ℕ) : prc.getLsbD i = decide (i = 21) :=
  getLsbD_one_shiftLeft (by decide) i

theorem getLsbD_changes (i : ℕ) : changes.getLsbD i = decide (17 ≤ i ∧ i < 24) := by
  by_cases hi : i < 32
  · revert i
    decide
  · rw [BitVec.getLsbD_of_ge _ _ (by omega), decide_eq_false (by omega)]

theorem getLsbD_otherChanges (i : ℕ) :
    otherChanges.getLsbD i = decide (17 ≤ i ∧ i < 24 ∧ i ≠ 21) := by
  rw [otherChanges, BitVec.getLsbD_and, BitVec.getLsbD_not, getLsbD_changes, getLsbD_prc]
  grind

end Portsc

/-- What a port does when it is reset. -/
structure PortBehaviour where
  /-- How many polls see the reset still going on. -/
  delay : ℕ
  /-- Whether the port ends up enabled. -/
  success : Bool
  /-- The change bits reported by the time so many polls are left. -/
  raise : ℕ → BitVec 32

/-- A port of the controller. -/
structure Port where
  /-- What it does when it is reset. -/
  behaviour : PortBehaviour
  /-- PORTSC. -/
  sc : BitVec 32
  /-- The polls left before a reset in progress completes. -/
  pending : Option ℕ
  /-- The change bits other than PRC, as the hardware has set them. -/
  asSet : BitVec 32
  /-- Whether a reset has completed with the port enabled. -/
  enabledByReset : Bool

namespace Port

/-- A port that powers up with this value. -/
def powerUp (b : PortBehaviour) (sc : BitVec 32) : Port :=
  ⟨b, sc, none, sc &&& Portsc.otherChanges, false⟩

/-- What happens before a read: a reset makes progress, and in the end sets PRC, and PED if it was
successful. -/
def tick (p : Port) : Port :=
  match p.pending with
  | none => p
  | some 0 =>
    { p with
      sc := (p.sc &&& ~~~Portsc.pr) ||| Portsc.prc |||
        (if p.behaviour.success then Portsc.ped else 0)
        ||| (p.behaviour.raise 0 &&& Portsc.otherChanges)
      pending := none
      asSet := p.asSet ||| (p.behaviour.raise 0 &&& Portsc.otherChanges)
      enabledByReset := p.behaviour.success }
  | some (k + 1) =>
    { p with
      sc := p.sc ||| (p.behaviour.raise (k + 1) &&& Portsc.otherChanges)
      pending := some k
      asSet := p.asSet ||| (p.behaviour.raise (k + 1) &&& Portsc.otherChanges) }

/-- A write to PORTSC: a 1 clears a change bit, disables the port (PED) or starts a reset (PR); PP
is stored; everything else is read-only. -/
def write (p : Port) (v : BitVec 32) : Port :=
  { p with
    sc := (p.sc &&& ~~~(v &&& (Portsc.changes ||| Portsc.ped)) &&& ~~~Portsc.pp) |||
      (v &&& (Portsc.pp ||| Portsc.pr))
    pending := if v &&& Portsc.pr = 0 then p.pending else some p.behaviour.delay }

/-- The port is as the hardware left it: enabled if a reset enabled it, and no change bit other
than PRC has been lost. -/
def Kept (p : Port) : Prop :=
  (p.enabledByReset = true → p.sc &&& Portsc.ped ≠ 0) ∧ p.sc &&& Portsc.otherChanges = p.asSet

/-- What `initialise_ports` does to a port. -/
def settle (p : Port) : Port :=
  if p.sc &&& Portsc.ccs = 0 then p
  else if p.sc &&& Portsc.ped = 0 then
    let done := tick^[p.behaviour.delay + 1] (p.write (p.sc ||| Portsc.pp ||| Portsc.pr))
    done.write (done.sc ||| Portsc.prc)
  else p

end Port

/-- The port a register belongs to. -/
def portOf : Mmio → Option ℕ
  | .op offset =>
    if 0x400 ≤ offset ∧ (offset - 0x400) % 0x10 = 0 then some ((offset - 0x400) / 0x10 + 1)
      else none
  | _ => none

/-- A controller of which only the ports answer. -/
def portDevice : Device where
  State := ℕ → Port
  read st r := match portOf r with
    | some port => ((st port).tick.sc, Function.update st port (st port).tick)
    | none => (0, st)
  write _ st r v := match portOf r with
    | some port => Function.update st port ((st port).write v)
    | none => st
  post st := ([], st)

theorem portOf_portsc {port : ℕ} (h : 1 ≤ port) : portOf (Reg.portsc port) = some port := by
  have hmod : (0x400 + (port - 1) * 0x10 - 0x400) % 0x10 = 0 := by omega
  unfold Reg.portsc portOf
  simp only
  rw [if_pos ⟨Nat.le_add_right _ _, hmod⟩]
  exact congrArg some (by omega)

/-! ## Single bits -/

namespace Portsc

theorem and_ped_eq_zero_iff (x : BitVec 32) : x &&& ped = 0 ↔ x.getLsbD 1 = false :=
  BitField.and_twoPow_eq_zero_iff x (by decide)

theorem and_pr_eq_zero_iff (x : BitVec 32) : x &&& pr = 0 ↔ x.getLsbD 4 = false :=
  BitField.and_twoPow_eq_zero_iff x (by decide)

theorem and_prc_eq_zero_iff (x : BitVec 32) : x &&& prc = 0 ↔ x.getLsbD 21 = false :=
  BitField.and_twoPow_eq_zero_iff x (by decide)

end Portsc

/-! ## What the driver does to a port -/

/-- The ports of the machine. -/
def Machine.ports (m : Machine portDevice) : ℕ → Port := m.dev

section Settle

variable {m : Machine portDevice} {port : ℕ}

theorem read_portsc (h : 1 ≤ port) :
    (m.read (Reg.portsc port)).1 = (m.ports port).tick.sc ∧
      (m.read (Reg.portsc port)).2.ports = Function.update m.ports port (m.ports port).tick := by
  simp [Machine.read, Machine.ports, portDevice, portOf_portsc h]

theorem ports_write_portsc (h : 1 ≤ port) (v : BitVec 32) : (m.write (Reg.portsc port) v).ports =
    Function.update m.ports port ((m.ports port).write v) := by
  simp [Machine.write, Machine.ports, portDevice, portOf_portsc h]

theorem pollUntil_portsc_succ (h : 1 ≤ port) (fuel : ℕ) :
    m.pollUntil (Reg.portsc port) (· &&& Portsc.prc ≠ 0) (fuel + 1) =
      if (m.ports port).tick.sc.getLsbD 21 = true then some (m.read (Reg.portsc port))
      else (m.read (Reg.portsc port)).2.pollUntil (Reg.portsc port) (· &&& Portsc.prc ≠ 0)
        fuel := by
  rw [Machine.pollUntil, (read_portsc h).1]
  simp only [ne_eq, Portsc.and_prc_eq_zero_iff, Bool.not_eq_false, decide_eq_true_eq]

/-- A reset in progress is polled to its end. -/
theorem pollUntil_portsc (h : 1 ≤ port) {k fuel : ℕ} (hk : (m.ports port).pending = some k)
    (hprc : (m.ports port).sc.getLsbD 21 = false) (hfuel : k < fuel) :
    ∃ m', m.pollUntil (Reg.portsc port) (· &&& Portsc.prc ≠ 0) fuel =
        some ((Port.tick^[k + 1] (m.ports port)).sc, m') ∧
      m'.ports = Function.update m.ports port (Port.tick^[k + 1] (m.ports port)) := by
  obtain ⟨fuel, rfl⟩ : ∃ n, fuel = n + 1 := ⟨fuel - 1, by omega⟩
  obtain ⟨hvalue, hports⟩ := read_portsc (m := m) h
  induction k generalizing m fuel with
  | zero =>
    have hdone : (m.ports port).tick.sc.getLsbD 21 = true := by
      simp only [Port.tick, hk, BitVec.getLsbD_or, Portsc.getLsbD_prc, decide_true, Bool.or_true,
        Bool.true_or]
    refine ⟨(m.read (Reg.portsc port)).2, ?_, hports⟩
    rw [pollUntil_portsc_succ h, if_pos hdone]
    exact congrArg some (Prod.ext hvalue rfl)
  | succ k ih =>
    have hpending : (m.ports port).tick.pending = some k := by simp [Port.tick, hk]
    -- PRC is not among the bits raised on the way
    have hprc' : (m.ports port).tick.sc.getLsbD 21 = false := by
      simp only [Port.tick, hk, BitVec.getLsbD_or, BitVec.getLsbD_and, hprc,
        Portsc.getLsbD_otherChanges]
      simp
    have hself : (m.read (Reg.portsc port)).2.ports port = (m.ports port).tick := by
      rw [hports, Function.update_self]
    obtain ⟨n, rfl⟩ : ∃ n, fuel = n + 1 := ⟨fuel - 1, by omega⟩
    obtain ⟨hvalue', hports'⟩ := read_portsc (m := (m.read (Reg.portsc port)).2) h
    obtain ⟨m', hpoll, hm'⟩ := ih (by rw [hself, hpending]) (by rw [hself, hprc']) n
      (Nat.lt_of_succ_lt_succ hfuel) hvalue' hports'
    refine ⟨m', ?_, ?_⟩
    · rw [pollUntil_portsc_succ h, hprc', if_neg Bool.noConfusion, hpoll, hself]
      rfl
    · rw [hm', hself, hports, Function.update_idem]
      rfl

/-- Writing PR starts a reset, and acknowledges whatever changes had been reported. -/
theorem Port.write_reset (p : Port) :
    (p.write (p.sc ||| Portsc.pp ||| Portsc.pr)).pending = some p.behaviour.delay ∧
      (p.write (p.sc ||| Portsc.pp ||| Portsc.pr)).sc.getLsbD 21 = false := by
  constructor
  · apply if_neg
    rw [Portsc.and_pr_eq_zero_iff, BitVec.getLsbD_or, Portsc.getLsbD_pr]
    simp
  · simp only [Port.write, BitVec.getLsbD_or, BitVec.getLsbD_and, BitVec.getLsbD_not,
      Portsc.getLsbD_pp, Portsc.getLsbD_pr, Portsc.getLsbD_ped, Portsc.getLsbD_changes]
    rcases p.sc.getLsbD 21 <;> simp

/-- What a reset leaves behind once it is over. -/
theorem Port.tick_iterate {p : Port} {k : ℕ} (hk : p.pending = some k) :
    (Port.tick^[k + 1] p).pending = none ∧ (Port.tick^[k + 1] p).sc.getLsbD 4 = false ∧
      (Port.tick^[k + 1] p).enabledByReset = p.behaviour.success ∧
      ((Port.tick^[k + 1] p).asSet = 0 ↔
        p.asSet = 0 ∧ ∀ i ≤ k, p.behaviour.raise i &&& Portsc.otherChanges = 0) := by
  induction k generalizing p with
  | zero =>
    have hped : (if p.behaviour.success then Portsc.ped else 0).getLsbD 4 = false := by
      cases p.behaviour.success <;> rfl
    have hpr : p.tick.sc.getLsbD 4 = false := by
      simp only [Port.tick, hk, BitVec.getLsbD_or, BitVec.getLsbD_and, BitVec.getLsbD_not, hped,
        Portsc.getLsbD_pr, Portsc.getLsbD_prc, Portsc.getLsbD_otherChanges]
      simp
    refine ⟨by simp [Port.tick, hk], hpr, by simp [Port.tick, hk], ?_⟩
    simp [Port.tick, hk, BitVec.or_eq_zero_iff]
  | succ k ih =>
    rw [Function.iterate_succ_apply]
    have hbehaviour : p.tick.behaviour = p.behaviour := by simp [Port.tick, hk]
    obtain ⟨hpending, hpr, henabled, hasSet⟩ := ih (p := p.tick) (by simp [Port.tick, hk])
    rw [hbehaviour] at henabled hasSet
    refine ⟨hpending, hpr, henabled, hasSet.trans ?_⟩
    have hstep : p.tick.asSet = 0 ↔
        p.asSet = 0 ∧ p.behaviour.raise (k + 1) &&& Portsc.otherChanges = 0 := by
      simp [Port.tick, hk, BitVec.or_eq_zero_iff]
    rw [hstep, and_assoc, and_congr_right_iff]
    intro _
    constructor
    · rintro ⟨hlast, hbefore⟩ i hi
      rcases Nat.le_succ_iff.mp hi with hi | rfl
      · exact hbefore i hi
      · exact hlast
    · intro hall
      exact ⟨hall _ le_rfl, fun i hi ↦ hall i (Nat.le_succ_of_le hi)⟩

/-- Acknowledging the end of a reset starts no new one. -/
theorem Port.tick_write_idle {p : Port} (hidle : p.pending = none) (hpr : p.sc.getLsbD 4 = false) :
    (p.write (p.sc ||| Portsc.prc)).tick = p.write (p.sc ||| Portsc.prc) := by
  have hpending : (p.write (p.sc ||| Portsc.prc)).pending = none := by
    rw [← hidle]
    apply if_pos
    rw [Portsc.and_pr_eq_zero_iff, BitVec.getLsbD_or, hpr]
    rfl
  simp [Port.tick, hpending]

/-- **One port.** The body of the loop does to the port what `settle` says, and touches no other.
-/
theorem initialisePort_spec (h : 1 ≤ port) {fuel : ℕ} (hidle : (m.ports port).pending = none)
    (hfuel : (m.ports port).behaviour.delay < fuel) :
    ∃ b m', Controller.initialisePort fuel port m = some (b, m') ∧
      m'.ports = Function.update m.ports port (m.ports port).settle := by
  have htick : (m.ports port).tick = m.ports port := by simp [Port.tick, hidle]
  obtain ⟨hvalue, hports⟩ := read_portsc (m := m) h
  rw [htick] at hvalue hports
  rw [Function.update_eq_self] at hports
  unfold Controller.initialisePort Port.settle
  simp only [hvalue]
  by_cases hccs : (m.ports port).sc &&& Portsc.ccs = 0
  · rw [if_pos hccs, if_pos hccs, Function.update_eq_self]
    exact ⟨_, _, rfl, hports⟩
  by_cases hped : (m.ports port).sc &&& Portsc.ped = 0
  · rw [if_neg hccs, if_neg hccs, if_pos hped, if_pos hped]
    obtain ⟨hpending, hprc⟩ := (m.ports port).write_reset
    have hstart := ports_write_portsc (m := (m.read (Reg.portsc port)).2) h
      ((m.ports port).sc ||| Portsc.pp ||| Portsc.pr)
    rw [hports] at hstart
    have hself := congrFun hstart port
    rw [Function.update_self] at hself
    obtain ⟨m₁, hpoll, hm₁⟩ := pollUntil_portsc h (by rw [hself, hpending])
      (by rw [hself, hprc]) hfuel
    rw [hself] at hpoll hm₁
    rw [hstart, Function.update_idem] at hm₁
    have hself₁ := congrFun hm₁ port
    rw [Function.update_self] at hself₁
    rw [hpoll]
    refine ⟨true, _, rfl, ?_⟩
    -- the value written back is the one just read, and the last read finds no reset in progress
    have hwrite := ports_write_portsc (m := m₁) h ((m₁.ports port).sc ||| Portsc.prc)
    rw [hself₁, hm₁, Function.update_idem] at hwrite
    rw [(read_portsc h).2, hwrite, Function.update_idem, Function.update_self,
      Port.tick_write_idle]
    · exact (Port.tick_iterate hpending).1
    · exact (Port.tick_iterate hpending).2.1
  · rw [if_neg hccs, if_neg hccs, if_neg hped, if_neg hped, Function.update_eq_self]
    exact ⟨_, _, rfl, hports⟩

/-- **The loop.** Exactly the listed ports are settled. -/
theorem portLoop_spec {fuel : ℕ} {ports : List ℕ} (hnodup : ports.Nodup)
    (hpos : ∀ q ∈ ports, 1 ≤ q) (hidle : ∀ q ∈ ports, (m.ports q).pending = none)
    (hfuel : ∀ q ∈ ports, (m.ports q).behaviour.delay < fuel) (n : ℕ) :
    ∃ n' m', Controller.portLoop fuel ports n m = some (n', m') ∧
      ∀ q, m'.ports q = if q ∈ ports then (m.ports q).settle else m.ports q := by
  induction ports generalizing m n with
  | nil => exact ⟨n, m, rfl, fun q ↦ rfl⟩
  | cons port ports ih =>
    obtain ⟨hnotMem, hnodup⟩ := List.nodup_cons.mp hnodup
    rw [List.forall_mem_cons] at hpos hidle hfuel
    obtain ⟨b, m₁, hbody, hm₁⟩ := initialisePort_spec hpos.1 hidle.1 hfuel.1
    have hrest : ∀ q ∈ ports, m₁.ports q = m.ports q := fun q hq ↦ by
      rw [hm₁]
      exact Function.update_of_ne (fun heq : q = port ↦ hnotMem (heq ▸ hq)) _ _
    obtain ⟨n', m', hloop, hm'⟩ := ih (m := m₁) hnodup hpos.2
      (fun q hq ↦ by rw [hrest q hq, hidle.2 q hq])
        (fun q hq ↦ by rw [hrest q hq]; exact hfuel.2 q hq)
      (if b then n + 1 else n)
    refine ⟨n', m', by rw [Controller.portLoop, hbody]; exact hloop, fun q ↦ ?_⟩
    rw [hm']
    by_cases hq : q ∈ ports
    · rw [if_pos hq, if_pos (List.mem_cons_of_mem _ hq), hrest q hq]
    · rw [if_neg hq, hm₁]
      by_cases heq : q = port
      · rw [heq, Function.update_self, if_pos List.mem_cons_self]
      · rw [Function.update_of_ne heq, if_neg]
        rw [List.mem_cons, not_or]
        exact ⟨heq, hq⟩

end Settle

/-! ## What is left of a port -/

/-- Writing back what was read disables the port and acknowledges every change. -/
theorem Port.write_back (p : Port) :
    (p.write (p.sc ||| Portsc.prc)).sc &&& Portsc.ped = 0 ∧
      (p.write (p.sc ||| Portsc.prc)).sc &&& Portsc.otherChanges = 0 := by
  constructor
  · rw [Portsc.and_ped_eq_zero_iff]
    simp only [Port.write, BitVec.getLsbD_or, BitVec.getLsbD_and, BitVec.getLsbD_not,
      Portsc.getLsbD_pp, Portsc.getLsbD_pr, Portsc.getLsbD_ped, Portsc.getLsbD_prc]
    rcases p.sc.getLsbD 1 <;> simp
  · apply BitVec.eq_of_getLsbD_eq
    intro i hi
    rw [BitVec.getLsbD_and, Portsc.getLsbD_otherChanges]
    -- a change bit is neither PP nor PR, and what was read of it is written back
    by_cases hother : 17 ≤ i ∧ i < 24 ∧ i ≠ 21
    · have hpp : i ≠ 9 := by omega
      have hpr : i ≠ 4 := by omega
      simp only [Port.write, BitVec.getLsbD_or, BitVec.getLsbD_and, BitVec.getLsbD_not,
        Portsc.getLsbD_pp, Portsc.getLsbD_pr, Portsc.getLsbD_prc, Portsc.getLsbD_changes, hpp, hpr,
        hother]
      rcases p.sc.getLsbD i <;> simp
    · rw [decide_eq_false hother, Bool.and_false]
      exact BitVec.getLsbD_zero.symm

/-- **One port's fate.** -/
theorem Port.kept_settle_iff (b : PortBehaviour) (sc : BitVec 32) :
    (Port.powerUp b sc).settle.Kept ↔
      (sc &&& Portsc.ccs ≠ 0 → sc &&& Portsc.ped = 0 → b.success = false ∧
        sc &&& Portsc.otherChanges = 0 ∧ ∀ k ≤ b.delay, b.raise k &&& Portsc.otherChanges = 0) :=
          by
  have huntouched : (Port.powerUp b sc).Kept := ⟨Bool.noConfusion, rfl⟩
  have hsc : (Port.powerUp b sc).sc = sc := rfl
  rw [Port.settle, hsc]
  by_cases hccs : sc &&& Portsc.ccs = 0
  · rw [if_pos hccs]
    exact iff_of_true huntouched fun h ↦ absurd hccs h
  by_cases hped : sc &&& Portsc.ped = 0
  · rw [if_neg hccs, if_pos hped]
    obtain ⟨-, -, henabled, hasSet⟩ := Port.tick_iterate (Port.powerUp b sc).write_reset.1
    rw [hsc] at henabled hasSet
    generalize Port.tick^[(Port.powerUp b sc).behaviour.delay + 1]
      ((Port.powerUp b sc).write (sc ||| Portsc.pp ||| Portsc.pr)) = done at henabled hasSet ⊢
    obtain ⟨hdisabled, hlost⟩ := done.write_back
    have hkept : (done.write (done.sc ||| Portsc.prc)).Kept ↔
        done.enabledByReset = false ∧ done.asSet = 0 := by
      rw [Port.Kept, hdisabled, hlost]
      change (done.enabledByReset = true → (0 : BitVec 32) ≠ 0) ∧ 0 = done.asSet ↔ _
      rw [eq_comm (b := done.asSet)]
      simp
    rw [hkept, henabled, hasSet]
    exact ⟨fun h _ _ ↦ h, fun h ↦ h hccs hped⟩
  · rw [if_neg hccs, if_neg hped]
    exact iff_of_true huntouched fun _ h ↦ absurd h hped

/-- A machine whose ports power up as given. -/
def portMachine (b : ℕ → PortBehaviour) (sc : ℕ → BitVec 32) : Machine portDevice :=
  ⟨fun q ↦ Port.powerUp (b q) (sc q), [], fun _ ↦ none, []⟩

/-- What `initialise_ports` leaves of each port. -/
theorem initialisePorts_spec (c : Controller) (b : ℕ → PortBehaviour) (sc : ℕ → BitVec 32)
    (fuel : ℕ) (hfuel : ∀ q, 1 ≤ q → q ≤ c.maxPorts.toNat → (b q).delay < fuel) :
    ∃ n m', c.initialisePorts fuel (portMachine b sc) = some (n, m') ∧
      ∀ q, 1 ≤ q → q ≤ c.maxPorts.toNat → m'.ports q = (Port.powerUp (b q) (sc q)).settle := by
  have hmem : ∀ q, q ∈ List.range' 1 c.maxPorts.toNat ↔ 1 ≤ q ∧ q ≤ c.maxPorts.toNat := by
    intro q
    rw [List.mem_range'_1]
    omega
  obtain ⟨n, m', hloop, hports⟩ := portLoop_spec (m := portMachine b sc)
    (List.nodup_range' 1 (by decide)) (fun q hq ↦ ((hmem q).mp hq).1) (fun _ _ ↦ rfl)
    (fun q hq ↦ hfuel q ((hmem q).mp hq).1 ((hmem q).mp hq).2) 0
  refine ⟨n, m', hloop, fun q h₁ h₂ ↦ ?_⟩
  rw [hports, if_pos ((hmem q).mpr ⟨h₁, h₂⟩)]
  rfl

/-- **Which ports survive.** For every number of ports, every initial PORTSC of each and every way
the resets may go, `initialise_ports` returns, and every port is then as the hardware left it if
and only if each port that was connected and not enabled fails its reset and had no change reported
other than the end of the reset, neither before nor during it. -/
theorem ports_kept_iff (c : Controller) (b : ℕ → PortBehaviour) (sc : ℕ → BitVec 32) (fuel : ℕ)
    (hfuel : ∀ q, 1 ≤ q → q ≤ c.maxPorts.toNat → (b q).delay < fuel) :
    ∃ n m', c.initialisePorts fuel (portMachine b sc) = some (n, m') ∧
      ((∀ q, 1 ≤ q → q ≤ c.maxPorts.toNat → (m'.ports q).Kept) ↔
        ∀ q, 1 ≤ q → q ≤ c.maxPorts.toNat → sc q &&& Portsc.ccs ≠ 0 → sc q &&& Portsc.ped = 0 →
          (b q).success = false ∧ sc q &&& Portsc.otherChanges = 0 ∧
            ∀ k ≤ (b q).delay, (b q).raise k &&& Portsc.otherChanges = 0) := by
  obtain ⟨n, m', hrun, hports⟩ := initialisePorts_spec c b sc fuel hfuel
  refine ⟨n, m', hrun, ?_⟩
  refine forall_congr' fun q ↦ forall_congr' fun h₁ ↦ forall_congr' fun h₂ ↦ ?_
  rw [hports q h₁ h₂, Port.kept_settle_iff]

/-- A controller with so many ports; nothing else about it matters here. -/
def portController (maxPorts : BitVec 8) : Controller :=
  ⟨.fresh 0 0 1 ⟨0, rfl⟩, .fresh 0 0 1 ⟨0, rfl⟩, ⟨0, [], 0⟩, 0, maxPorts⟩

/-- Ports that complete a reset at the first poll, enabled, and report nothing else. -/
def promptPort : PortBehaviour := ⟨0, true, fun _ ↦ 0⟩

/-- Ports whose reset fails at the second poll, with nothing else to report. -/
def failingPort : PortBehaviour := ⟨1, false, fun _ ↦ 0⟩

/-- Four ports with devices attached: the first one is enabled and needs no reset, and the others
fail it. -/
theorem ports_kept_connected :
    ∃ n m', (portController 4).initialisePorts 2 (portMachine (fun _ ↦ failingPort) fun q ↦
        if q = 1 then Portsc.ccs ||| Portsc.ped ||| Portsc.pp else Portsc.ccs ||| Portsc.pp) =
          some (n, m') ∧
      ∀ q, 1 ≤ q → q ≤ 4 → (m'.ports q).Kept := by
  obtain ⟨n, m', hrun, hiff⟩ := ports_kept_iff (portController 4) (fun _ ↦ failingPort)
    (fun q ↦ if q = 1 then Portsc.ccs ||| Portsc.ped ||| Portsc.pp else Portsc.ccs ||| Portsc.pp)
    2 fun _ _ _ ↦ Nat.one_lt_two
  refine ⟨n, m', hrun, hiff.mpr fun q _ _ _ hped ↦ ⟨rfl, ?_, fun _ _ ↦ BitVec.zero_and⟩⟩
  by_cases hq : q = 1
  · rw [if_pos hq] at hped
    exact absurd hped (by decide)
  · rw [if_neg hq]
    decide

/-- A device attached to a port that is not enabled: the reset enables the port, and the driver
disables it again. -/
theorem not_ports_kept :
    ∃ n m', (portController 1).initialisePorts 1
        (portMachine (fun _ ↦ promptPort) fun _ ↦ Portsc.ccs ||| Portsc.pp) = some (n, m') ∧
      (m'.ports 1).enabledByReset = true ∧ ¬ (m'.ports 1).Kept := by
  obtain ⟨n, m', hrun, hports⟩ := initialisePorts_spec (portController 1) (fun _ ↦ promptPort)
    (fun _ ↦ Portsc.ccs ||| Portsc.pp) 1 fun _ _ _ ↦ Nat.zero_lt_one
  refine ⟨n, m', hrun, ?_, ?_⟩
  · rw [hports 1 le_rfl le_rfl]
    rfl
  · rw [hports 1 le_rfl le_rfl, Port.kept_settle_iff]
    exact fun h ↦ Bool.noConfusion (h (by decide) (by decide)).1

end Punkos
