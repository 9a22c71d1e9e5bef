import Mathlib.Data.List.Forall2
import Punkos.Xhci.Simulation

/-!
# What `initialise_ports` says to a controller

The accesses of `initialise_ports`, seen from the bus. A port has a *session* of one of three kinds:
nothing is connected, the port is enabled, or it is reset; and all the ports have one, in order.
`ports_sessions` says that these are exactly the sequences of accesses there are: nothing else ever
happens, whatever the controller answers, and each of them does happen with some controller.

To see them, the controller is given a log of the accesses to it (`Device.recorded`), which the
driver cannot tell (`erase_initialisePorts`).
-/

namespace Punkos

/-! ## The log -/

/-- An access to a register. -/
inductive IoAccess where
  /-- A read, with the answer. -/
  | read (r : Mmio) (v : BitVec 32)
  /-- A write. -/
  | write (r : Mmio) (v : BitVec 32)
  deriving DecidableEq, Repr

/-- A controller with a log of the accesses to it. -/
def Device.recorded (D : Device) : Device where
  State := D.State × List IoAccess
  read st r := ((D.read st.1 r).1, (D.read st.1 r).2, st.2 ++ [.read r (D.read st.1 r).1])
  write erst st r v := (D.write erst st.1 r v, st.2 ++ [.write r v])
  post st := ((D.post st.1).1, (D.post st.1).2, st.2)

/-- The log makes no difference to what the controller does. -/
theorem Device.recorded_simulates (D : Device) :
    Device.Simulates (D := D.recorded) (E := D) (fun _ ↦ True) Prod.fst where
  read _ _ _ := rfl
  write _ _ _ _ _ := rfl
  post _ := rfl

namespace Machine

variable {D : Device}

/-- The machine with a log, still empty. -/
def recorded (m : Machine D) : Machine D.recorded where
  dev := (m.dev, [])
  live := m.live
  erst := m.erst
  writes := m.writes

/-- The machine without the log. -/
def erase (m : Machine D.recorded) : Machine D where
  dev := m.dev.1
  live := m.live
  erst := m.erst
  writes := m.writes

/-- The log. -/
def log (m : Machine D.recorded) : List IoAccess := m.dev.2

variable {m m' : Machine D.recorded} {r : Mmio} {v : BitVec 32}

theorem log_recorded (m : Machine D) : m.recorded.log = [] := rfl

theorem log_read_snd (m : Machine D.recorded) (r : Mmio) :
    (m.read r).2.log = m.log ++ [.read r (m.read r).1] := rfl

theorem log_read (h : m.read r = (v, m')) : m'.log = m.log ++ [.read r v] := by
  obtain ⟨rfl, rfl⟩ := Prod.mk.inj h
  rfl

theorem log_write (m : Machine D.recorded) (r : Mmio) (v : BitVec 32) :
    (m.write r v).log = m.log ++ [.write r v] := rfl

/-- The log of a polling loop. -/
theorem log_pollUntil {p : BitVec 32 → Bool} {fuel : ℕ} (h : m.pollUntil r p fuel = some (v, m')) :
    ∃ vs : List (BitVec 32), (∀ u ∈ vs, p u = false) ∧ p v = true ∧
      m'.log = m.log ++ vs.map (.read r) ++ [.read r v] := by
  induction fuel generalizing m with
  | zero => cases h
  | succ fuel ih =>
    rw [pollUntil] at h
    -- on the fuel: the first answer either ends the loop or is one of `vs`
    rcases hp : p (m.read r).1 with _ | _
    · rw [hp, if_neg Bool.noConfusion] at h
      obtain ⟨vs, hvs, hv, hlog⟩ := ih h
      refine ⟨(m.read r).1 :: vs, List.forall_mem_cons.mpr ⟨hp, hvs⟩, hv, ?_⟩
      rw [hlog, log_read_snd, List.map_cons]
      simp only [List.append_assoc, List.singleton_append]
    · rw [hp, if_pos rfl, Option.some.injEq] at h
      refine ⟨[], List.forall_mem_nil _, ?_, ?_⟩
      · rw [h] at hp
        exact hp
      · rw [log_read h, List.map_nil, List.append_nil]

end Machine

/-! ## Sessions -/

/-- The accesses to a port, and whether something is connected there. -/
inductive Session (port : ℕ) : Bool × List IoAccess → Prop
  /-- Nothing is connected. -/
  | empty {sc : BitVec 32} : sc &&& Portsc.ccs = 0 →
      Session port (false, [.read (Reg.portsc port) sc])
  /-- The port is enabled. -/
  | enabled {sc : BitVec 32} : sc &&& Portsc.ccs ≠ 0 → sc &&& Portsc.ped ≠ 0 →
      Session port (true, [.read (Reg.portsc port) sc])
  /-- The port is powered and reset, polled until the reset is over, and that is acknowledged. -/
  | reset {sc v last : BitVec 32} {vs : List (BitVec 32)} : sc &&& Portsc.ccs ≠ 0 →
      sc &&& Portsc.ped = 0 → (∀ u ∈ vs, u &&& Portsc.prc = 0) → v &&& Portsc.prc ≠ 0 →
      Session port (true,
        [.read (Reg.portsc port) sc, .write (Reg.portsc port) (sc ||| Portsc.pp ||| Portsc.pr)] ++
          vs.map (.read (Reg.portsc port)) ++
          [.read (Reg.portsc port) v, .write (Reg.portsc port) (v ||| Portsc.prc),
            .read (Reg.portsc port) last])

/-- A session for each port. -/
def Sessions (ports : List ℕ) (ss : List (Bool × List IoAccess)) : Prop :=
  List.Forall₂ Session ports ss

namespace Controller

section Log

variable {D : Device} {m m' : Machine D.recorded}

/-- The driver cannot tell that there is a log. -/
theorem erase_initialisePorts (fuel : ℕ) (c : Controller) (m : Machine D) :
    c.initialisePorts fuel m = (c.initialisePorts fuel m.recorded).map (Prod.map id .erase) :=
  initialisePorts_map (Device.recorded_simulates D) c (fun _ _ _ ↦ trivial) fuel m.recorded

theorem session_of_initialisePort {fuel port : ℕ} {b : Bool}
    (h : initialisePort fuel port m = some (b, m')) :
    ∃ l, Session port (b, l) ∧ m'.log = m.log ++ l := by
  have hread := Machine.log_read_snd m (Reg.portsc port)
  rw [initialisePort] at h
  simp only at h
  split at h
  -- CCS clear
  case isTrue hccs =>
    obtain ⟨rfl, rfl⟩ := Prod.mk.inj (Option.some.inj h)
    exact ⟨_, .empty hccs, hread⟩
  split at h
  -- PED clear
  case isTrue hccs hped =>
    obtain ⟨⟨v, u⟩, hpoll, h⟩ := Option.bind_eq_some_iff.mp h
    obtain ⟨rfl, rfl⟩ := Prod.mk.inj (Option.some.inj h)
    obtain ⟨vs, hvs, hv, hlog⟩ := Machine.log_pollUntil hpoll
    have hvs' : ∀ x ∈ vs, x &&& Portsc.prc = 0 := fun x hx ↦
      not_not.mp (of_decide_eq_false (hvs x hx))
    refine ⟨_, @Session.reset port _ v
      ((u.write (Reg.portsc port) (v ||| Portsc.prc)).read (Reg.portsc port)).1 vs hccs hped hvs'
      (of_decide_eq_true hv), ?_⟩
    rw [Machine.log_read_snd, Machine.log_write, hlog, Machine.log_write, hread]
    simp only [List.append_assoc, List.cons_append, List.nil_append]
  case isFalse hccs hped =>
    obtain ⟨rfl, rfl⟩ := Prod.mk.inj (Option.some.inj h)
    exact ⟨_, .enabled hccs hped, hread⟩

theorem sessions_of_portLoop {fuel n n' : ℕ} {ports : List ℕ}
    (h : portLoop fuel ports n m = some (n', m')) :
    ∃ ss, Sessions ports ss ∧ m'.log = m.log ++ ss.flatMap Prod.snd ∧
      n' = n + ss.countP Prod.fst := by
  induction ports generalizing n m with
  | nil =>
    obtain ⟨rfl, rfl⟩ := Prod.mk.inj (Option.some.inj h)
    exact ⟨[], .nil, (List.append_nil _).symm, rfl⟩
  | cons port ports ih =>
    obtain ⟨⟨b, u⟩, hbody, hloop⟩ := Option.bind_eq_some_iff.mp h
    obtain ⟨l, hl, hlog⟩ := session_of_initialisePort hbody
    obtain ⟨ss, hss, hrest, rfl⟩ := ih hloop
    refine ⟨(b, l) :: ss, .cons hl hss, ?_, ?_⟩
    · rw [hrest, hlog, List.flatMap_cons, List.append_assoc]
    · rcases b with _ | _
      · rfl
      · simp only [List.countP_cons, if_true]
        omega

end Log

end Controller

/-! ## A controller for every sequence of sessions -/

/-- A controller that gives these answers, one after the other. -/
def scripted : Device where
  State := List (BitVec 32)
  read st _ := (st.headD 0, st.tail)
  write _ st _ _ := st
  post st := ([], st)

/-- The answers in a sequence of accesses. -/
def answers (l : List IoAccess) : List (BitVec 32) :=
  l.filterMap fun
    | .read _ v => some v
    | .write _ _ => none

section Scripted

variable {m : Machine scripted.recorded} {r : Mmio} {v : BitVec 32} {rest : List (BitVec 32)}

/-- The answers that are left. -/
def Machine.script (m : Machine scripted.recorded) : List (BitVec 32) := m.dev.1

theorem read_scripted (h : m.script = v :: rest) : ∃ m', m.read r = (v, m') ∧ m'.script = rest := by
  refine ⟨(m.read r).2, Prod.ext ?_ rfl, ?_⟩
  · change m.script.headD 0 = v
    rw [h]
    rfl
  · change m.script.tail = rest
    rw [h]
    rfl

theorem pollUntil_scripted {p : BitVec 32 → Bool} {vs : List (BitVec 32)} {fuel : ℕ}
    (h : m.script = vs ++ v :: rest) (hvs : ∀ u ∈ vs, p u = false) (hv : p v = true)
    (hfuel : vs.length < fuel) :
    ∃ m', m.pollUntil r p fuel = some (v, m') ∧ m'.script = rest ∧
      m'.log = m.log ++ vs.map (.read r) ++ [.read r v] := by
  induction vs generalizing m fuel with
  | nil =>
    obtain ⟨fuel, rfl⟩ := Nat.exists_eq_add_one_of_ne_zero (Nat.ne_of_gt hfuel)
    obtain ⟨m', hread, hrest⟩ := read_scripted (r := r) h
    refine ⟨m', ?_, hrest, ?_⟩
    · rw [Machine.pollUntil, hread, if_pos hv]
    · rw [Machine.log_read hread, List.map_nil, List.append_nil]
  | cons u vs ih =>
    obtain ⟨fuel, rfl⟩ := Nat.exists_eq_add_one_of_ne_zero (Nat.ne_zero_of_lt hfuel)
    obtain ⟨hu, hvs⟩ := List.forall_mem_cons.mp hvs
    obtain ⟨m₁, hread, hrest⟩ := read_scripted (r := r) h
    obtain ⟨m', hpoll, hscript, hlog⟩ := ih hrest hvs (Nat.lt_of_succ_lt_succ hfuel)
    refine ⟨m', ?_, hscript, ?_⟩
    · rw [Machine.pollUntil, hread, hu, if_neg Bool.noConfusion]
      exact hpoll
    · rw [hlog, Machine.log_read hread, List.map_cons]
      simp only [List.append_assoc, List.singleton_append]

theorem initialisePort_scripted {port fuel : ℕ} {b : Bool} {l : List IoAccess}
    (hl : Session port (b, l)) (h : m.script = answers l ++ rest) (hfuel : l.length ≤ fuel) :
    ∃ m', Controller.initialisePort fuel port m = some (b, m') ∧ m'.script = rest ∧
      m'.log = m.log ++ l := by
  rw [Controller.initialisePort]
  rcases hl with hccs | ⟨hccs, hped⟩ | ⟨hccs, hped, hvs, hv⟩
  · obtain ⟨m', hread, hrest⟩ := read_scripted (r := Reg.portsc port) h
    refine ⟨m', ?_, hrest, Machine.log_read hread⟩
    simp only [hread, if_pos hccs]
  · obtain ⟨m', hread, hrest⟩ := read_scripted (r := Reg.portsc port) h
    refine ⟨m', ?_, hrest, Machine.log_read hread⟩
    simp only [hread, if_neg hccs, if_neg hped]
  · rename_i sc v last vs
    have hanswers : answers ([.read (Reg.portsc port) sc,
        .write (Reg.portsc port) (sc ||| Portsc.pp ||| Portsc.pr)] ++
          vs.map (.read (Reg.portsc port)) ++ [.read (Reg.portsc port) v,
            .write (Reg.portsc port) (v ||| Portsc.prc), .read (Reg.portsc port) last]) =
        sc :: (vs ++ [v, last]) := by
      rw [answers, List.filterMap_append, List.filterMap_append, List.filterMap_map]
      simp
    rw [hanswers] at h
    obtain ⟨m₁, hread, hrest⟩ := read_scripted (r := Reg.portsc port) h
    have hscript : (m₁.write (Reg.portsc port) (sc ||| Portsc.pp ||| Portsc.pr)).script =
        vs ++ v :: (last :: rest) := by
      change m₁.script = _
      rw [hrest]
      exact List.append_assoc vs [v, last] rest
    -- the session has a read for each turn of the loop, so the fuel lasts
    have hlen : vs.length < fuel := by
      simp only [List.length_append, List.length_map, List.length_cons] at hfuel
      omega
    obtain ⟨m₂, hpoll, hrest₂, hlog⟩ := pollUntil_scripted (r := Reg.portsc port)
      (p := (· &&& Portsc.prc ≠ 0)) hscript (fun u hu ↦ decide_eq_false (not_not.mpr (hvs u hu)))
      (decide_eq_true hv) hlen
    obtain ⟨m', hread', hrest'⟩ := read_scripted
      (m := m₂.write (Reg.portsc port) (v ||| Portsc.prc)) (r := Reg.portsc port) hrest₂
    refine ⟨m', ?_, hrest', ?_⟩
    · simp only [hread, if_neg hccs, if_pos hped, hpoll, Option.bind_eq_bind, Option.bind_some,
        hread']
      rfl
    · rw [Machine.log_read hread', Machine.log_write, hlog, Machine.log_write,
        Machine.log_read hread]
      simp only [List.append_assoc, List.cons_append, List.nil_append]

theorem portLoop_scripted {ports : List ℕ} {ss : List (Bool × List IoAccess)}
    (hss : Sessions ports ss) {fuel n : ℕ} (h : m.script = answers (ss.flatMap Prod.snd) ++ rest)
    (hfuel : (ss.flatMap Prod.snd).length ≤ fuel) :
    ∃ m', Controller.portLoop fuel ports n m = some (n + ss.countP Prod.fst, m') ∧
      m'.log = m.log ++ ss.flatMap Prod.snd := by
  induction hss generalizing m n with
  | nil => exact ⟨m, rfl, (List.append_nil _).symm⟩
  | @cons port s ports ss hs _ ih =>
    obtain ⟨b, l⟩ := s
    rw [List.flatMap_cons, List.length_append] at hfuel
    rw [List.flatMap_cons, answers, List.filterMap_append, List.append_assoc] at h
    obtain ⟨m₁, hbody, hrest, hlog⟩ := initialisePort_scripted hs h
      (Nat.le_of_add_right_le hfuel)
    obtain ⟨m', hloop, hlog'⟩ := ih (n := if b then n + 1 else n) hrest
      (Nat.le_of_add_left_le hfuel)
    refine ⟨m', ?_, ?_⟩
    · rw [Controller.portLoop, hbody, Option.bind_some, hloop]
      rcases b with _ | _
      · rfl
      · simp only [List.countP_cons, if_true]
        congr 2
        omega
    · rw [hlog', hlog, List.flatMap_cons, List.append_assoc]

end Scripted

/-- **What happens on the bus.** The accesses of `initialise_ports` are a session for each port, in
order, and all such sequences occur; what is returned is the number of sessions with a port to
which something is connected. That there is a log makes no difference to the driver. -/
theorem ports_sessions (c : Controller) :
    (∀ n l, (∃ (D : Device) (fuel : ℕ) (m : Machine D) (m' : Machine D.recorded),
      c.initialisePorts fuel m.recorded = some (n, m') ∧ m'.log = l) ↔
        ∃ ss, Sessions (List.range' 1 c.maxPorts.toNat) ss ∧ l = ss.flatMap Prod.snd ∧
          n = ss.countP Prod.fst) ∧
    ∀ (D : Device) (fuel : ℕ) (m : Machine D),
      c.initialisePorts fuel m = (c.initialisePorts fuel m.recorded).map (Prod.map id .erase) := by
  refine ⟨fun n l ↦ ⟨?_, ?_⟩, fun D fuel m ↦ Controller.erase_initialisePorts fuel c m⟩
  · rintro ⟨D, fuel, m, m', h, rfl⟩
    obtain ⟨ss, hss, hlog, hn⟩ := Controller.sessions_of_portLoop h
    rw [Machine.log_recorded, List.nil_append] at hlog
    exact ⟨ss, hss, hlog, by rw [hn, Nat.zero_add]⟩
  · rintro ⟨ss, hss, rfl, rfl⟩
    -- the controller that gives just the answers in the sessions
    let m : Machine scripted := ⟨answers (ss.flatMap Prod.snd), [], fun _ ↦ none, []⟩
    obtain ⟨m', hloop, hlog⟩ := portLoop_scripted (m := m.recorded) (n := 0) hss
      (List.append_nil _).symm (Nat.le_refl _)
    rw [Nat.zero_add] at hloop
    exact ⟨scripted, _, m, m', hloop, hlog⟩

end Punkos
