import Punkos.Foundation.Run
import Punkos.Xhci.Ring

/-!
# `noop` and the event ring

`Controller::noop` issues a No-Op and polls for its completion. The driver makes any number of
calls one after the other, and between any two of its steps the controller may post events:
completions of commands issued so far, with any delay, and Port Status Change events. The
controller posts at its own enqueue position, starting at slot 0 and flipping its cycle bit at each
wrap.

## What goes wrong

`noop` looks at slot 0 only and compares its cycle bit with that of the *command* ring, which never
changes. So of the events the controller posts it can see only those whose number is a multiple of
512: slot 0, on an even lap. It also never asks which command a completion is for. The first defect
makes it miss completions, the second makes it take a late completion of an earlier call for its
own.

## How it is argued

Everything `noop` learns goes through `NoopSystem.answer`, the verdict of one look at slot 0, and
`answer_post` says how a posted event changes it. Both main results are inductions over runs that
use nothing else about the ring.
-/

namespace Punkos

open Transition

/-! ## One look at the event ring -/

/-- The completion code of a Command Completion event. -/
def Trb.completionCode (t : Trb) : BitVec 8 := (t.status >>> 24).setWidth 8

/-- The number of times `noop` looks. -/
def noopPolls : ℕ := 1000000

/-- One iteration of the polling loop of `noop`: the value to return and the event ring with the
block cleared, or nothing. -/
def checkEvent (cmdRing eventRing : Ring) : Option (Bool × Ring) :=
  if eventRing.first.cycleBit = cmdRing.cycle ∧
      eventRing.first.trbType = TrbType.commandCompletion then
    some (eventRing.first.completionCode = 1, eventRing.store 0 Trb.zero)
  else none

/-- What is seen is cleared. -/
theorem checkEvent_eq_some {cmdRing eventRing eventRing' : Ring} {b : Bool}
    (h : checkEvent cmdRing eventRing = some (b, eventRing')) :
    eventRing' = eventRing.store 0 Trb.zero := by
  rw [checkEvent] at h
  split at h
  · exact (Prod.mk.inj (Option.some.inj h)).2.symm
  · exact nomatch h

/-! ## The system -/

/-- The rings both sides share, the call in progress, and what has happened so far. -/
structure NoopSystem where
  /-- The command ring. -/
  cmdRing : Ring
  /-- The event ring. -/
  eventRing : Ring
  /-- How often the call in progress may still look; zero when there is none. -/
  budget : ℕ
  /-- The physical addresses of the No-Ops pushed, one for each call. -/
  commands : List (BitVec 64)
  /-- What the finished calls returned. -/
  results : List Bool
  /-- How many events the controller has posted. -/
  posted : ℕ
  /-- The completions posted, each with the number of its call. -/
  completions : List (ℕ × Trb)

namespace NoopSystem

/-- What the call in progress would return on its next look. -/
def answer (s : NoopSystem) : Option Bool := (checkEvent s.cmdRing s.eventRing).map Prod.fst

/-- `noop` up to its polling loop: push the No-Op and ring the doorbell. -/
def call (s : NoopSystem) : NoopSystem :=
  { s with
    cmdRing := s.cmdRing.push noOpTrb
    budget := noopPolls
    commands := s.commands ++ [s.cmdRing.phys + BitVec.ofNat 64 (16 * s.cmdRing.enqueue)] }

/-- `noop` returns `b`. -/
def finish (s : NoopSystem) (b : Bool) : NoopSystem :=
  { s with budget := 0, results := s.results ++ [b] }

/-- One iteration of the polling loop, with the return after the last one. -/
def poll (s : NoopSystem) : NoopSystem :=
  match checkEvent s.cmdRing s.eventRing with
  | some (b, ring) => { s with eventRing := ring }.finish b
  | none => if s.budget = 1 then s.finish false else { s with budget := s.budget - 1 }

/-- The controller posts an event at its enqueue position. -/
def post (s : NoopSystem) (t : Trb) : NoopSystem :=
  { s with
    eventRing := s.eventRing.store (s.posted % s.eventRing.trbs.length)
      (t.stamp (s.posted / s.eventRing.trbs.length % 2 = 0))
    posted := s.posted + 1 }

/-- The controller posts the completion of command `i`. -/
def complete (s : NoopSystem) (i : ℕ) (t : Trb) : NoopSystem :=
  { s.post t with completions := s.completions ++ [(i, t)] }

/-- Command `i` has been completed. -/
def Completed (s : NoopSystem) (i : ℕ) : Prop := ∃ t, (i, t) ∈ s.completions

/-- Command `i` has been completed with code 1. -/
def Succeeded (s : NoopSystem) (i : ℕ) : Prop := ∃ t, (i, t) ∈ s.completions ∧ t.completionCode = 1

/-- What `Controller::init` hands over: two rings of 256 blocks. -/
def start (cmdBase eventBase : ℕ) (cmdPhys eventPhys : BitVec 64) : NoopSystem where
  cmdRing := .fresh cmdBase cmdPhys 256 exists_pow_256
  eventRing := .fresh eventBase eventPhys 256 exists_pow_256
  budget := 0
  commands := []
  results := []
  posted := 0
  completions := []

end NoopSystem

/-- Who moves. -/
inductive NoopAction where
  /-- The driver calls `noop`. -/
  | call
  /-- The driver looks at the event ring. -/
  | poll
  /-- The controller posts a Port Status Change event. -/
  | portEvent (t : Trb)
  /-- The controller posts the completion of command `i`. -/
  | complete (i : ℕ) (t : Trb)

/-- One step. A command is completed at most once, and by an event that points to it. -/
inductive NoopStep : NoopSystem → NoopAction → NoopSystem → Prop
  | call {s : NoopSystem} : s.budget = 0 → NoopStep s .call s.call
  | poll {s : NoopSystem} : 0 < s.budget → NoopStep s .poll s.poll
  | portEvent {s : NoopSystem} {t : Trb} : t.trbType = TrbType.portStatusChange →
      NoopStep s (.portEvent t) (s.post t)
  | complete {s : NoopSystem} {i : ℕ} {t : Trb} : t.trbType = TrbType.commandCompletion →
      s.commands[i]? = some t.parameter → ¬ s.Completed i →
        NoopStep s (.complete i t) (s.complete i t)

theorem NoopStep.deterministic (s : NoopSystem) (a : NoopAction) (t t' : NoopSystem)
    (h : NoopStep s a t) (h' : NoopStep s a t') : t = t' := by
  rcases h with _ | _ | _ | _ <;> rcases h' with _ | _ | _ | _ <;> rfl

/-! ## What a look reveals -/

/-- The facts every run keeps: both rings are what `init` made them, calls and results are in step,
and only commands that were issued are completed. -/
structure NoopSystem.Wired (s : NoopSystem) : Prop where
  /-- 256 slots. -/
  length_eq : s.eventRing.trbs.length = 256
  /-- Nothing flips the driver's cycle bit. -/
  cycle_eq : s.cmdRing.cycle = true
  /-- Each call has returned, except the one in progress. -/
  commands_eq : s.commands.length = s.results.length + if s.budget = 0 then 0 else 1
  /-- Completions are of issued commands. -/
  completed_lt : ∀ i, s.Completed i → i < s.commands.length

namespace NoopSystem

variable {s : NoopSystem}

theorem completed_complete {i j : ℕ} {t : Trb} :
    (s.complete i t).Completed j ↔ s.Completed j ∨ j = i := by
  unfold Completed complete
  constructor
  · rintro ⟨u, hu⟩
    rcases List.mem_append.mp hu with hu | hu
    · exact .inl ⟨u, hu⟩
    · exact .inr (Prod.mk.inj (List.mem_singleton.mp hu)).1
  · rintro (⟨u, hu⟩ | rfl)
    · exact ⟨u, List.mem_append_left _ hu⟩
    · exact ⟨t, List.mem_append_right _ (List.mem_singleton_self _)⟩

theorem succeeded_complete_of_succeeded {i j : ℕ} {t : Trb} (h : s.Succeeded j) :
    (s.complete i t).Succeeded j := by
  obtain ⟨u, hu, hcode⟩ := h
  exact ⟨u, List.mem_append_left _ hu, hcode⟩

theorem answer_eq (h : s.Wired) : s.answer =
    if s.eventRing.first.cycleBit = true ∧
        s.eventRing.first.trbType = TrbType.commandCompletion then
      some (decide (s.eventRing.first.completionCode = 1)) else none := by
  unfold answer checkEvent
  rw [h.cycle_eq]
  exact apply_ite (Option.map Prod.fst) _ _ _

/-- **What an event reveals.** An event changes the verdict only if it lands in slot 0, and then it
is seen only if it is a completion and the lap is even. -/
theorem answer_post (h : s.Wired) (t : Trb) : (s.post t).answer =
    if s.posted % 256 = 0 then
      if t.trbType = TrbType.commandCompletion ∧ s.posted % 512 = 0 then
        some (decide (t.completionCode = 1)) else none
    else s.answer := by
  have hw : (s.post t).Wired := by
    refine ⟨?_, h.cycle_eq, h.commands_eq, h.completed_lt⟩
    exact (List.length_set ..).trans h.length_eq
  have hfirst : (s.post t).eventRing.first =
      if s.posted % 256 = 0 then t.stamp (s.posted / 256 % 2 = 0) else s.eventRing.first := by
    rw [post, Ring.first_store, h.length_eq]
  rw [answer_eq hw, hfirst]
  by_cases hslot : s.posted % 256 = 0
  · have hlap : s.posted / 256 % 2 = 0 ↔ s.posted % 512 = 0 := by omega
    rw [if_pos hslot, if_pos hslot, Trb.cycleBit_stamp, Trb.trbType_stamp]
    simp only [decide_eq_true_eq, hlap, and_comm]
    rfl
  · rw [if_neg hslot, if_neg hslot, answer_eq h]

/-- A Port Status Change event can only hide what was there. -/
theorem answer_portEvent (h : s.Wired) {t : Trb} (ht : t.trbType = TrbType.portStatusChange) :
    (s.post t).answer = if s.posted % 256 = 0 then none else s.answer := by
  have hother : ¬ (t.trbType = TrbType.commandCompletion ∧ s.posted % 512 = 0) := by
    rw [ht]
    exact fun h ↦ absurd h.1 (by decide)
  rw [answer_post h, if_neg hother]

/-- A completion is seen on even laps, and hides what was there on odd ones. -/
theorem answer_complete (h : s.Wired) {i : ℕ} {t : Trb}
    (ht : t.trbType = TrbType.commandCompletion) : (s.complete i t).answer =
      if s.posted % 512 = 0 then some (decide (t.completionCode = 1))
      else if s.posted % 256 = 0 then none else s.answer := by
  have hpost := answer_post h t
  rw [show (s.complete i t).answer = (s.post t).answer from rfl, hpost]
  by_cases hlap : s.posted % 512 = 0
  · rw [if_pos (show s.posted % 256 = 0 by omega), if_pos ⟨ht, hlap⟩, if_pos hlap]
  · have hother : ¬ (t.trbType = TrbType.commandCompletion ∧ s.posted % 512 = 0) := fun h ↦
      hlap h.2
    rw [if_neg hother, if_neg hlap]

theorem poll_of_answer_some {b : Bool} (h : s.answer = some b) :
    s.poll = { s with eventRing := s.eventRing.store 0 Trb.zero }.finish b := by
  obtain ⟨⟨_, cleared⟩, hseen, rfl⟩ := Option.map_eq_some_iff.mp h
  obtain rfl := checkEvent_eq_some hseen
  rw [poll, hseen]

theorem poll_of_answer_none (h : s.answer = none) :
    s.poll = if s.budget = 1 then s.finish false else { s with budget := s.budget - 1 } := by
  have hnone : checkEvent s.cmdRing s.eventRing = none := Option.map_eq_none_iff.mp h
  rw [poll, hnone]

theorem answer_cleared (h : s.Wired) :
    { s with eventRing := s.eventRing.store 0 Trb.zero }.answer = none := by
  unfold answer checkEvent
  rw [Ring.first_store, if_pos rfl, h.cycle_eq, if_neg (by simp)]
  rfl

end NoopSystem

/-! ## What every run keeps -/

section Wired

variable {s t : NoopSystem} {a : NoopAction}

theorem NoopSystem.Wired.start (cmdBase eventBase : ℕ) (cmdPhys eventPhys : BitVec 64) :
    (NoopSystem.start cmdBase eventBase cmdPhys eventPhys).Wired := by
  refine ⟨List.length_replicate, rfl, rfl, ?_⟩
  rintro i ⟨t, ht⟩
  exact absurd ht List.not_mem_nil

theorem NoopSystem.answer_start (cmdBase eventBase : ℕ) (cmdPhys eventPhys : BitVec 64) :
    (NoopSystem.start cmdBase eventBase cmdPhys eventPhys).answer = none := by
  have hfirst : (NoopSystem.start cmdBase eventBase cmdPhys eventPhys).eventRing.first =
    Trb.zero :=
    List.getElem_replicate ..
  rw [NoopSystem.answer_eq (.start ..), hfirst, if_neg (by simp)]

/-- The three ways a look can end. -/
theorem NoopSystem.poll_cases (hb : 0 < s.budget) :
    (∃ b, s.answer = some b ∧
      s.poll = { s with eventRing := s.eventRing.store 0 Trb.zero }.finish b) ∨
    (s.answer = none ∧ s.budget = 1 ∧ s.poll = s.finish false) ∨
    (s.answer = none ∧ 1 < s.budget ∧ s.poll = { s with budget := s.budget - 1 }) := by
  rcases hans : s.answer with _ | b
  · rw [poll_of_answer_none hans]
    by_cases hone : s.budget = 1
    · exact .inr (.inl ⟨rfl, hone, if_pos hone⟩)
    · exact .inr (.inr ⟨rfl, by omega, if_neg hone⟩)
  · exact .inl ⟨b, rfl, poll_of_answer_some hans⟩

/-- After a look slot 0 shows nothing: what it showed has been taken. -/
theorem NoopSystem.answer_poll (hw : s.Wired) (hb : 0 < s.budget) : s.poll.answer = none := by
  rcases s.poll_cases hb with ⟨b, -, heq⟩ | ⟨hans, -, heq⟩ | ⟨hans, -, heq⟩
  · rw [heq]
    exact NoopSystem.answer_cleared hw
  · rw [heq]
    exact hans
  · rw [heq]
    exact hans

/-- An answer that a Port Status Change event leaves was there before. -/
theorem NoopSystem.answer_of_portEvent (hw : s.Wired) {u : Trb}
    (hport : u.trbType = TrbType.portStatusChange) {b : Bool} (hans : (s.post u).answer = some b) :
    s.answer = some b := by
  rw [NoopSystem.answer_portEvent hw hport] at hans
  split_ifs at hans
  exact hans

/-- An answer after a completion is the completion's own, or was there before. -/
theorem NoopSystem.answer_of_complete (hw : s.Wired) {i : ℕ} {u : Trb}
    (hcc : u.trbType = TrbType.commandCompletion) {b : Bool}
    (hans : (s.complete i u).answer = some b) :
    (s.posted % 512 = 0 ∧ decide (u.completionCode = 1) = b) ∨ s.answer = some b := by
  rw [NoopSystem.answer_complete hw hcc] at hans
  split_ifs at hans with hlap
  · exact .inl ⟨hlap, Option.some.inj hans⟩
  · exact .inr hans

theorem NoopSystem.Wired.step (h : s.Wired) (hstep : NoopStep s a t) : t.Wired := by
  have hcommands := h.commands_eq
  rcases hstep with hb | hb | _ | ⟨_, hi, _⟩
  · refine ⟨h.length_eq, h.cycle_eq, ?_, ?_⟩
    · rw [if_pos hb] at hcommands
      simp [NoopSystem.call, hcommands, noopPolls]
    · intro i hi
      have := h.completed_lt i hi
      simp only [NoopSystem.call, List.length_append]
      omega
  · rw [if_neg hb.ne'] at hcommands
    rcases s.poll_cases hb with ⟨b, _, heq⟩ | ⟨_, _, heq⟩ | ⟨_, hb', heq⟩ <;> rw [heq]
    · refine ⟨?_, h.cycle_eq, ?_, h.completed_lt⟩
      · exact (List.length_set ..).trans h.length_eq
      · simp [NoopSystem.finish, hcommands]
    · refine ⟨h.length_eq, h.cycle_eq, ?_, h.completed_lt⟩
      simp [NoopSystem.finish, hcommands]
    · refine ⟨h.length_eq, h.cycle_eq, ?_, h.completed_lt⟩
      simp only [hcommands]
      rw [if_neg (by omega)]
  · refine ⟨?_, h.cycle_eq, hcommands, h.completed_lt⟩
    exact (List.length_set ..).trans h.length_eq
  · refine ⟨?_, h.cycle_eq, hcommands, ?_⟩
    · exact (List.length_set ..).trans h.length_eq
    · intro j hj
      rcases NoopSystem.completed_complete.mp hj with hj | rfl
      · exact h.completed_lt j hj
      · exact (List.getElem?_eq_some_iff.mp hi).1

theorem NoopSystem.Wired.run {as : List NoopAction} (h : s.Wired) (hrun : Run NoopStep s as t) :
    t.Wired :=
  hrun.invariant (fun _ _ _ ↦ NoopSystem.Wired.step) h

end Wired

/-! ## Giving up -/

/-- While slot 0 shows nothing, a call looks until its budget is used up and returns false. The
guard `C` is whatever else is asked of the steps. -/
theorem run_giveUp {C : NoopSystem → NoopAction → Prop} {n : ℕ} {s : NoopSystem}
    (hb : s.budget = n + 1) (hans : s.answer = none) (hC : ∀ k, C { s with budget := k } .poll) :
    Run (Guarded NoopStep C) s (List.replicate (n + 1) .poll) (s.finish false) := by
  induction n generalizing s with
  | zero =>
    have hpoll : s.poll = s.finish false := by rw [s.poll_of_answer_none hans, if_pos hb]
    have hstep : NoopStep s .poll (s.finish false) := hpoll ▸ .poll (by omega)
    exact Run.single ⟨hstep, hC s.budget⟩
  | succ n ih =>
    have hpoll : s.poll = { s with budget := n + 1 } := by
      rw [s.poll_of_answer_none hans, if_neg (by omega), hb]
      rfl
    have hstep : NoopStep s .poll { s with budget := n + 1 } := hpoll ▸ .poll (by omega)
    have hrest := ih (s := { s with budget := n + 1 }) rfl hans hC
    have hrun := (Run.single (r := Guarded NoopStep C) ⟨hstep, hC s.budget⟩).append hrest
    rwa [List.singleton_append, ← List.replicate_succ] at hrun

/-! ## Answers that are not the call's own -/

/-- The call in progress. -/
def NoopSystem.current (s : NoopSystem) : ℕ := s.results.length

theorem NoopSystem.current_finish (s : NoopSystem) (b : Bool) :
    (s.finish b).current = s.current + 1 := List.length_append

/-- A call that returned true had its command completed with code 1. -/
def NoopSystem.Honest (s : NoopSystem) : Prop :=
  ∀ i, s.results[i]? = some true → s.Succeeded i

/-- A completion with code 1 that will be seen (slot 0, even lap) arrives while a call is polling,
and is for the command of this call, unless that one has already been completed with code 1. -/
def Timely (s : NoopSystem) : NoopAction → Prop
  | .complete i t => s.posted % 512 = 0 → t.completionCode = 1 →
      0 < s.budget ∧ (i = s.current ∨ s.Succeeded s.current)
  | _ => True

/-- Slot 0 shows a completion with code 1, with the cycle bit that the driver looks for. -/
def NoopSystem.ShowsSuccess (s : NoopSystem) : Prop :=
  s.eventRing.first.cycleBit = true ∧ s.eventRing.first.trbType = TrbType.commandCompletion ∧
    s.eventRing.first.completionCode = 1

/-- A look at a completion with code 1 comes from a call whose command has been completed with code
1. -/
def TakesOwn (s : NoopSystem) : NoopAction → Prop
  | .poll => s.ShowsSuccess → s.Succeeded s.current
  | _ => True

/-- Honest so far, and a good answer in slot 0 is for the call in progress. -/
structure NoopSystem.Own (s : NoopSystem) : Prop where
  /-- The past. -/
  honest : s.Honest
  /-- The next look. -/
  answer : s.answer = some true → 0 < s.budget ∧ s.Succeeded s.current

section Honest

variable {s t : NoopSystem} {a : NoopAction}

/-- Returning keeps honesty if a true answer is earned. -/
theorem NoopSystem.Honest.finish (h : s.Honest) {b : Bool}
    (hb : b = true → s.Succeeded s.current) :
    (s.finish b).Honest := by
  intro i hi
  rcases Nat.lt_trichotomy i s.results.length with hlt | rfl | hgt
  · exact h i (by rwa [NoopSystem.finish, List.getElem?_append_left hlt] at hi)
  · apply hb
    simpa [NoopSystem.finish] using hi
  · have hlen : (s.finish b).results.length ≤ i := by
      rw [NoopSystem.finish, List.length_append]
      exact hgt
    rw [List.getElem?_eq_none hlen] at hi
    cases hi

theorem NoopSystem.answer_eq_true_iff (hw : s.Wired) : s.answer = some true ↔ s.ShowsSuccess := by
  rw [NoopSystem.answer_eq hw, NoopSystem.ShowsSuccess]
  split_ifs with hseen
  · simp [hseen]
  · exact iff_of_false not_false fun h ↦ hseen ⟨h.1, h.2.1⟩

/-- A true answer that the call in progress has not earned makes it dishonest at its next look. -/
theorem NoopSystem.not_honest_poll (hans : s.answer = some true)
    (hsucc : ¬ s.Succeeded s.current) :
    ¬ s.poll.Honest := by
  intro h
  rw [s.poll_of_answer_some hans] at h
  exact hsucc (h s.current (by simp [NoopSystem.finish, NoopSystem.current]))

/-- **Only a look can make a call dishonest**, one that takes what is not its own. -/
theorem NoopSystem.Honest.step_iff (hw : s.Wired) (h : s.Honest) (hstep : NoopStep s a t) :
    t.Honest ↔ TakesOwn s a := by
  rcases hstep with hb | hb | hport | ⟨hcc, hi, hnot⟩
  · exact iff_of_true h trivial
  · constructor
    · intro hhonest hshows
      by_contra hsucc
      exact NoopSystem.not_honest_poll ((NoopSystem.answer_eq_true_iff hw).mpr hshows) hsucc hhonest
    · intro hown
      rcases s.poll_cases hb with ⟨b, hans, heq⟩ | ⟨-, -, heq⟩ | ⟨-, -, heq⟩ <;> rw [heq]
      · apply NoopSystem.Honest.finish h
        rintro rfl
        exact hown ((NoopSystem.answer_eq_true_iff hw).mp hans)
      · exact NoopSystem.Honest.finish h (by simp)
      · exact h
  · exact iff_of_true h trivial
  · exact iff_of_true (fun j hj ↦ NoopSystem.succeeded_complete_of_succeeded (h j hj)) trivial

theorem NoopSystem.Own.start (cmdBase eventBase : ℕ) (cmdPhys eventPhys : BitVec 64) :
    (NoopSystem.start cmdBase eventBase cmdPhys eventPhys).Own := by
  refine ⟨fun i hi ↦ (by cases hi), fun hans ↦ ?_⟩
  rw [NoopSystem.answer_start] at hans
  exact absurd hans.symm (Option.some_ne_none true)

/-- What the next look shows is still for the call in progress. -/
theorem NoopSystem.Own.takesOwn (hw : s.Wired) (h : s.Own) (a : NoopAction) : TakesOwn s a := by
  rcases a with _ | _ | _ | _
  · trivial
  · exact fun hshows ↦ (h.answer ((NoopSystem.answer_eq_true_iff hw).mpr hshows)).2
  · trivial
  · trivial

theorem NoopSystem.Own.step (hw : s.Wired) (h : s.Own) (hstep : NoopStep s a t)
    (htimely : Timely s a) : t.Own := by
  refine ⟨(h.honest.step_iff hw hstep).mpr (h.takesOwn hw a), fun hans ↦ ?_⟩
  rcases hstep with hb | hb | hport | ⟨hcc, hi, _⟩
  · have hpos := (h.answer hans).1
    omega
  · exact absurd hans (by simp [NoopSystem.answer_poll hw hb])
  · exact h.answer (NoopSystem.answer_of_portEvent hw hport hans)
  · rcases NoopSystem.answer_of_complete hw hcc hans with ⟨hlap, hcode⟩ | hans
    · obtain ⟨hb, rfl | hsucc⟩ := htimely hlap (of_decide_eq_true hcode)
      · exact ⟨hb, _, List.mem_append_right _ (List.mem_singleton_self _), of_decide_eq_true hcode⟩
      · exact ⟨hb, NoopSystem.succeeded_complete_of_succeeded hsucc⟩
    · obtain ⟨hb, hsucc⟩ := h.answer hans
      exact ⟨hb, NoopSystem.succeeded_complete_of_succeeded hsucc⟩

/-- In a timely run every call is honest. -/
theorem NoopSystem.Own.run {as : List NoopAction} (hw : s.Wired) (h : s.Own)
    (hrun : Run (Guarded NoopStep Timely) s as t) : t.Own := by
  have hboth : t.Wired ∧ t.Own := by
    refine hrun.invariant (I := fun s ↦ s.Wired ∧ s.Own) ?_ ⟨hw, h⟩
    rintro u a v ⟨hw, h⟩ ⟨hstep, htimely⟩
    exact ⟨hw.step hstep, h.step hw hstep htimely⟩
  exact hboth.2

end Honest

/-- The driver's own steps. -/
def NoopAction.IsDriver : NoopAction → Prop
  | .call => True
  | .poll => True
  | .portEvent _ => False
  | .complete _ _ => False

/-- After an untimely completion, at most a call and a look are needed for a false claim. -/
theorem exists_not_honest {s : NoopSystem} (hw : s.Wired) {i : ℕ} {t : Trb}
    (hstep : NoopStep s (.complete i t) (s.complete i t)) (hlate : ¬ Timely s (.complete i t)) :
    ∃ acts u, (∀ a ∈ acts, a.IsDriver) ∧ Run NoopStep (s.complete i t) acts u ∧ ¬ u.Honest := by
  obtain ⟨hcc, hi, hnot⟩ : t.trbType = TrbType.commandCompletion ∧
      s.commands[i]? = some t.parameter ∧ ¬ s.Completed i := by
    rcases hstep with _ | _ | _ | ⟨hcc, hi, hnot⟩
    exact ⟨hcc, hi, hnot⟩
  simp only [Timely, not_forall, not_and, not_or] at hlate
  obtain ⟨hlap, hcode, hlate⟩ := hlate
  have hans : (s.complete i t).answer = some true := by
    rw [NoopSystem.answer_complete hw hcc, if_pos hlap, hcode]
    rfl
  have hwired : (s.complete i t).Wired := hw.step hstep
  -- the completion just posted is not the one of the call that will see it
  have hsucc : ∀ j, j ≠ i → ¬ s.Succeeded j → ¬ (s.complete i t).Succeeded j := by
    rintro j hne hj ⟨u, hu, hucode⟩
    rcases List.mem_append.mp hu with hu | hu
    · exact hj ⟨u, hu, hucode⟩
    · exact hne (Prod.mk.inj (List.mem_singleton.mp hu)).1
  by_cases hb : 0 < s.budget
  · obtain ⟨hne, hown⟩ := hlate hb
    refine ⟨[.poll], _, by simp [NoopAction.IsDriver], Run.single (.poll hb), ?_⟩
    exact NoopSystem.not_honest_poll hans (hsucc _ (Ne.symm hne) hown)
  · have hb : s.budget = 0 := by omega
    have hlen : s.commands.length = s.current := by
      simpa [hb, NoopSystem.current] using hw.commands_eq
    have hcall : NoopStep (s.complete i t) .call (s.complete i t).call := .call hb
    have hpoll : NoopStep (s.complete i t).call .poll (s.complete i t).call.poll :=
      .poll (show 0 < noopPolls by decide)
    refine ⟨[.call, .poll], _, by simp [NoopAction.IsDriver], (Run.single hcall).snoc hpoll, ?_⟩
    refine NoopSystem.not_honest_poll (s := (s.complete i t).call) hans ?_
    intro ⟨u, hu, _⟩
    have := hwired.completed_lt s.current ⟨u, hu⟩
    exact absurd this (by rw [← hlen]; exact lt_irrefl _)

/-- **When `noop` reports its own completion.** A run makes no false claim, at none of its states,
if and only if no call looks at a completion with code 1 before its own command has been completed
with code 1. And it leads to none, by no further steps of the driver either, if and only if no
completion with code 1 arrives late at a position where the driver will see it. -/
theorem noop_honest_iff {cmdBase eventBase : ℕ} {cmdPhys eventPhys : BitVec 64}
    {acts : List NoopAction} {s : NoopSystem}
    (hrun : Run NoopStep (.start cmdBase eventBase cmdPhys eventPhys) acts s) :
    ((∀ pre u, pre <+: acts →
        Run NoopStep (.start cmdBase eventBase cmdPhys eventPhys) pre u → u.Honest) ↔
      Run (Guarded NoopStep TakesOwn) (.start cmdBase eventBase cmdPhys eventPhys) acts s) ∧
    ((∀ pre post u, pre <+: acts → (∀ a ∈ post, a.IsDriver) →
        Run NoopStep (.start cmdBase eventBase cmdPhys eventPhys) (pre ++ post) u → u.Honest) ↔
      Run (Guarded NoopStep Timely) (.start cmdBase eventBase cmdPhys eventPhys) acts s) := by
  have hstart := NoopSystem.Wired.start cmdBase eventBase cmdPhys eventPhys
  have hown := NoopSystem.Own.start cmdBase eventBase cmdPhys eventPhys
  refine ⟨?_, ?_⟩
  · exact hrun.forall_prefix_iff_guarded NoopStep.deterministic (fun _ _ _ hw ↦ hw.step)
      (fun _ _ _ hw h ↦ h.step_iff hw) ⟨hstart, hown.honest⟩
  constructor
  · intro h
    apply hrun.guarded
    intro pre a u v hpre hu hstep
    by_contra hlate
    rcases hstep with _ | _ | _ | ⟨hcc, hi, hnot⟩
    · exact hlate trivial
    · exact hlate trivial
    · exact hlate trivial
    · obtain ⟨post, w, hdriver, hw, hbad⟩ :=
        exists_not_honest (hstart.run hu) (.complete hcc hi hnot) hlate
      exact hbad (h _ post w hpre hdriver ((hu.snoc (.complete hcc hi hnot)).append hw))
  · rintro hguarded pre post u ⟨rest, rfl⟩ hdriver hu
    obtain ⟨v, hpre, _⟩ := run_append_iff.mp hguarded
    obtain ⟨v', hpre', hpost⟩ := run_append_iff.mp hu
    obtain rfl := Run.deterministic NoopStep.deterministic hpre' hpre.of_guarded
    have hpost : Run (Guarded NoopStep Timely) v' post u := by
      apply hpost.guarded
      intro pre a _ _ hmem _ _
      have ha := hdriver a (hmem.subset (by simp))
      rcases a with _ | _ | _ | _
      · trivial
      · trivial
      · exact ha.elim
      · exact ha.elim
    exact (NoopSystem.Own.run hstart hown (hpre.append hpost)).honest

/-- A completion event with code 1 for the command at `address`. -/
def successEvent (address : BitVec 64) : Trb :=
  ⟨address, 1 <<< 24, TrbType.commandCompletion.setWidth 32 <<< 10⟩

/-- The rings of the examples below lie at address 0. -/
def NoopSystem.boot : NoopSystem := .start 0 0 0 0

/-- The first call can be completed right after it has been made. -/
theorem step_first_complete (s : NoopSystem) (hcommands : s.commands = [0])
    (hcompletions : s.completions = []) :
    NoopStep s (.complete 0 (successEvent 0)) (s.complete 0 (successEvent 0)) := by
  refine .complete (by decide) (by rw [hcommands]; rfl) ?_
  rintro ⟨t, ht⟩
  rw [hcompletions] at ht
  exact absurd ht List.not_mem_nil

/-- One call, completed at once. -/
theorem run_first_call (C : NoopSystem → NoopAction → Prop) (hcall : C .boot .call)
    (hcomplete : C NoopSystem.boot.call (.complete 0 (successEvent 0)))
    (hpoll : C (NoopSystem.boot.call.complete 0 (successEvent 0)) .poll) :
    Run (Guarded NoopStep C) .boot [.call, .complete 0 (successEvent 0), .poll]
      (NoopSystem.boot.call.complete 0 (successEvent 0)).poll := by
  have h₁ : Guarded NoopStep C .boot .call NoopSystem.boot.call := ⟨.call rfl, hcall⟩
  have h₂ : Guarded NoopStep C NoopSystem.boot.call (.complete 0 (successEvent 0))
      (NoopSystem.boot.call.complete 0 (successEvent 0)) :=
    ⟨step_first_complete _ rfl rfl, hcomplete⟩
  have h₃ : Guarded NoopStep C (NoopSystem.boot.call.complete 0 (successEvent 0)) .poll
      (NoopSystem.boot.call.complete 0 (successEvent 0)).poll :=
    ⟨.poll (show 0 < noopPolls by decide), hpoll⟩
  exact ((Run.single h₁).snoc h₂).snoc h₃

/-- One call that is completed at once leads to no false claim. -/
theorem noop_honest_first_call :
    Run (Guarded NoopStep Timely) .boot [.call, .complete 0 (successEvent 0), .poll]
      (NoopSystem.boot.call.complete 0 (successEvent 0)).poll ∧
    ∀ pre post u, pre <+: [.call, .complete 0 (successEvent 0), .poll] →
      (∀ a ∈ post, NoopAction.IsDriver a) → Run NoopStep .boot (pre ++ post) u → u.Honest := by
  have hrun := run_first_call Timely trivial
    (fun _ _ ↦ ⟨show 0 < noopPolls by decide, .inl rfl⟩) trivial
  exact ⟨hrun, (noop_honest_iff hrun.of_guarded).2.mpr hrun⟩

/-- The first call gives up, its completion arrives late, and the second call takes it for its
own. -/
theorem not_noop_honest : ¬ ∀ acts s, Run NoopStep .boot acts s → s.Honest := by
  intro h
  have hw : NoopSystem.boot.Wired := .start ..
  have hcall : Run NoopStep .boot [.call] NoopSystem.boot.call := Run.single (.call rfl)
  have hquiet : NoopSystem.boot.call.answer = none := NoopSystem.answer_start 0 0 0 0
  have hgiveUp := run_giveUp (C := fun _ _ ↦ True) (n := 999999) rfl hquiet fun _ ↦ trivial
  have hrun := hcall.append hgiveUp.of_guarded
  have hstep := step_first_complete (NoopSystem.boot.call.finish false) rfl rfl
  have hlate : ¬ Timely (NoopSystem.boot.call.finish false) (.complete 0 (successEvent 0)) :=
    fun htimely ↦ absurd (htimely rfl (by decide)).1 (lt_irrefl 0)
  obtain ⟨acts, u, -, hu, hbad⟩ := exists_not_honest (hw.run hrun) hstep hlate
  exact hbad (h _ u ((hrun.snoc hstep).append hu))

/-! ## Completions that are missed -/

/-- The controller keeps its side: completions carry code 1, and a call does not make its last look
before its command has been completed. -/
def Prompt (s : NoopSystem) : NoopAction → Prop
  | .complete _ t => t.completionCode = 1
  | .poll => s.budget = 1 → s.Completed s.current
  | _ => True

/-- Completions are posted where they are seen, and nothing is posted over one before it has been
seen. -/
def Seen (s : NoopSystem) : NoopAction → Prop
  | .complete _ _ => s.posted % 512 = 0
  | .portEvent _ => s.posted % 256 = 0 → ¬ (0 < s.budget ∧ s.Completed s.current)
  | _ => True

/-- The state in a run that keeps `Prompt`: finished calls were completed, an answer is good, and
there is one only if the call in progress has been completed. -/
structure NoopSystem.OnTime (s : NoopSystem) : Prop where
  /-- Every finished call has been completed. -/
  completed : ∀ i < s.current, s.Completed i
  /-- What slot 0 shows is the completion of the call in progress. -/
  answer : ∀ b, s.answer = some b → b = true ∧ 0 < s.budget ∧ s.Completed s.current

/-- No call has returned false, and the one in progress will not. -/
def NoopSystem.Good (s : NoopSystem) : Prop :=
  (∀ b ∈ s.results, b = true) ∧ (0 < s.budget → s.Completed s.current → s.answer ≠ none)

section OnTime

variable {s t : NoopSystem} {a : NoopAction}

/-- On time, only the command of the call in progress can be completed. -/
theorem NoopSystem.OnTime.eq_current (hw : s.Wired) (h : s.OnTime) {i : ℕ}
    (hi : i < s.commands.length) (hnot : ¬ s.Completed i) : 0 < s.budget ∧ i = s.current := by
  have hge : s.current ≤ i := not_lt.mp fun hlt ↦ hnot (h.completed i hlt)
  have hcommands := hw.commands_eq
  have hcurrent : s.results.length = s.current := rfl
  split at hcommands <;> omega

theorem NoopSystem.OnTime.step (hw : s.Wired) (h : s.OnTime) (hstep : NoopStep s a t)
    (hprompt : Prompt s a) : t.OnTime := by
  rcases hstep with hb | hb | hport | ⟨hcc, hi, hnot⟩
  · refine ⟨h.completed, fun b hans ↦ ?_⟩
    have hpos := (h.answer b hans).2.1
    omega
  · refine ⟨?_, fun b hans ↦ absurd hans (by simp [NoopSystem.answer_poll hw hb])⟩
    have hfinish : s.Completed s.current → ∀ i < s.current + 1, s.Completed i := by
      intro hcurrent i hi
      rcases Nat.lt_succ_iff_lt_or_eq.mp hi with hi | rfl
      · exact h.completed i hi
      · exact hcurrent
    rcases s.poll_cases hb with ⟨b, hans, heq⟩ | ⟨-, hlast, heq⟩ | ⟨-, -, heq⟩ <;> rw [heq]
    · rw [NoopSystem.current_finish]
      exact hfinish (h.answer b hans).2.2
    · rw [NoopSystem.current_finish]
      exact hfinish (hprompt hlast)
    · exact h.completed
  · exact ⟨h.completed, fun b hans ↦ h.answer b (NoopSystem.answer_of_portEvent hw hport hans)⟩
  · obtain ⟨hb, rfl⟩ := h.eq_current hw (List.getElem?_eq_some_iff.mp hi).1 hnot
    refine ⟨fun j hj ↦ NoopSystem.completed_complete.mpr (.inl (h.completed j hj)),
      fun b hans ↦ ?_⟩
    refine ⟨?_, hb, NoopSystem.completed_complete.mpr (.inr rfl)⟩
    rcases NoopSystem.answer_of_complete hw hcc hans with ⟨-, hcode⟩ | hans
    · exact hcode.symm.trans (decide_eq_true hprompt)
    · exact (h.answer b hans).1

theorem NoopSystem.forall_mem_concat (s : NoopSystem) (b : Bool) :
    (∀ b' ∈ s.results ++ [b], b' = true) ↔ (∀ b' ∈ s.results, b' = true) ∧ b = true := by
  simp [or_imp, forall_and]

/-- A new call's command has not been completed, so nothing is asked of it yet. -/
theorem NoopSystem.good_call_iff (hw : s.Wired) (hb : s.budget = 0) : s.call.Good ↔ s.Good := by
  have hnew : ¬ s.call.Completed s.call.current := by
    intro hcompleted
    have hlt : s.current < s.commands.length := hw.completed_lt _ hcompleted
    have hlen := hw.commands_eq
    rw [if_pos hb] at hlen
    exact absurd hlt (by rw [hlen]; exact lt_irrefl _)
  constructor
  · intro hgood
    exact ⟨hgood.1, fun hpos ↦ absurd hb hpos.ne'⟩
  · intro hgood
    exact ⟨hgood.1, fun _ hcompleted ↦ absurd hcompleted hnew⟩

/-- A look returns true if there is an answer, and false only if it is the last one. -/
theorem NoopSystem.OnTime.good_poll_iff (h : s.OnTime) (hb : 0 < s.budget)
    (hprompt : Prompt s .poll) : s.poll.Good ↔ s.Good := by
  rcases s.poll_cases hb with ⟨b, hans, heq⟩ | ⟨hans, hlast, heq⟩ | ⟨hans, hb', heq⟩ <;> rw [heq]
  · obtain ⟨rfl, -, -⟩ := h.answer b hans
    constructor
    · intro hgood
      exact ⟨((s.forall_mem_concat true).mp hgood.1).1, fun _ _ ↦ by simp [hans]⟩
    · intro hgood
      exact ⟨(s.forall_mem_concat true).mpr ⟨hgood.1, rfl⟩, fun hpos ↦ absurd hpos (lt_irrefl 0)⟩
  · constructor
    · intro hgood
      exact absurd ((s.forall_mem_concat false).mp hgood.1).2 Bool.false_ne_true
    · intro hgood
      exact absurd hans (hgood.2 hb (hprompt hlast))
  · constructor
    · intro hgood
      exact ⟨hgood.1, fun _ ↦ hgood.2 (show 0 < s.budget - 1 by omega)⟩
    · intro hgood
      exact ⟨hgood.1, fun _ ↦ hgood.2 hb⟩

/-- A Port Status Change event does harm exactly if it lands on a completion not yet seen. -/
theorem NoopSystem.good_portEvent_iff (hw : s.Wired) {t : Trb}
    (hport : t.trbType = TrbType.portStatusChange) :
    (s.post t).Good ↔ s.Good ∧ Seen s (.portEvent t) := by
  have hans := NoopSystem.answer_portEvent hw hport
  by_cases hslot : s.posted % 256 = 0
  · rw [if_pos hslot] at hans
    constructor
    · intro hgood
      have hfree : ¬ (0 < s.budget ∧ s.Completed s.current) :=
        fun hwait ↦ hgood.2 hwait.1 hwait.2 hans
      exact ⟨⟨hgood.1, fun hpos hcompleted ↦ absurd ⟨hpos, hcompleted⟩ hfree⟩, fun _ ↦ hfree⟩
    · intro hgood
      exact ⟨hgood.1.1, fun hpos hcompleted ↦ absurd ⟨hpos, hcompleted⟩ (hgood.2 hslot)⟩
  · rw [if_neg hslot] at hans
    constructor
    · intro hgood
      exact ⟨⟨hgood.1, fun hpos hcompleted ↦ hans ▸ hgood.2 hpos hcompleted⟩,
        fun hslot' ↦ absurd hslot' hslot⟩
    · intro hgood
      exact ⟨hgood.1.1, fun hpos hcompleted ↦ hans ▸ hgood.1.2 hpos hcompleted⟩

/-- A completion does its work exactly if its number is a multiple of 512. -/
theorem NoopSystem.OnTime.good_complete_iff (hw : s.Wired) (h : s.OnTime) (hb : 0 < s.budget)
    (hnot : ¬ s.Completed s.current) {t : Trb} (hcc : t.trbType = TrbType.commandCompletion) :
    (s.complete s.current t).Good ↔ s.Good ∧ s.posted % 512 = 0 := by
  have hnone : s.answer = none := by
    rcases hans : s.answer with _ | b
    · rfl
    · exact absurd (h.answer b hans).2.2 hnot
  have hans : (s.complete s.current t).answer =
      if s.posted % 512 = 0 then some (decide (t.completionCode = 1)) else none := by
    rw [NoopSystem.answer_complete hw hcc, hnone, ite_self]
  constructor
  · intro hgood
    have hsome := hgood.2 hb (NoopSystem.completed_complete.mpr (.inr rfl))
    refine ⟨⟨hgood.1, fun _ hcompleted ↦ absurd hcompleted hnot⟩, ?_⟩
    by_contra hlap
    exact hsome (hans.trans (if_neg hlap))
  · rintro ⟨hgood, hlap⟩
    refine ⟨hgood.1, fun _ _ ↦ ?_⟩
    rw [hans, if_pos hlap]
    simp

/-- **One step decides.** On time, a step leads to a good state exactly if it starts in one and
meets `Seen`. -/
theorem NoopSystem.OnTime.good_iff (hw : s.Wired) (h : s.OnTime) (hstep : NoopStep s a t)
    (hprompt : Prompt s a) : t.Good ↔ s.Good ∧ Seen s a := by
  rcases hstep with hb | hb | hport | ⟨hcc, hi, hnot⟩
  · rw [NoopSystem.good_call_iff hw hb]
    exact (and_iff_left trivial).symm
  · rw [h.good_poll_iff hb hprompt]
    exact (and_iff_left trivial).symm
  · exact NoopSystem.good_portEvent_iff hw hport
  · obtain ⟨hb, rfl⟩ := h.eq_current hw (List.getElem?_eq_some_iff.mp hi).1 hnot
    exact h.good_complete_iff hw hb hnot hcc

end OnTime

section Missed

variable {cmdBase eventBase : ℕ} {cmdPhys eventPhys : BitVec 64} {acts : List NoopAction}
  {s : NoopSystem}

theorem NoopSystem.OnTime.start :
    (NoopSystem.start cmdBase eventBase cmdPhys eventPhys).OnTime := by
  refine ⟨fun i hi ↦ absurd hi (Nat.not_lt_zero i), fun b hans ↦ ?_⟩
  cases hans.symm.trans (NoopSystem.answer_start cmdBase eventBase cmdPhys eventPhys)

theorem onTime_of_run
    (hrun : Run (Guarded NoopStep Prompt) (.start cmdBase eventBase cmdPhys eventPhys) acts s) :
    s.Wired ∧ s.OnTime := by
  refine hrun.invariant (I := fun s ↦ s.Wired ∧ s.OnTime) ?_ ⟨.start .., .start⟩
  rintro u a v ⟨hw, h⟩ ⟨hstep, hprompt⟩
  exact ⟨hw.step hstep, h.step hw hstep hprompt⟩

/-- Along a prompt run the state is good exactly if every step met `Seen`. -/
theorem good_iff_run_seen
    (hrun : Run (Guarded NoopStep Prompt) (.start cmdBase eventBase cmdPhys eventPhys) acts s) :
    s.Good ↔ Run (Guarded NoopStep Seen) (.start cmdBase eventBase cmdPhys eventPhys) acts s := by
  induction hrun with
  | nil =>
    refine iff_of_true ⟨fun b hb ↦ absurd hb List.not_mem_nil, fun hpos ↦ ?_⟩ (Run.nil _)
    exact absurd hpos (lt_irrefl 0)
  | @snoc t u acts a hrun hstep ih =>
    obtain ⟨hw, hontime⟩ := onTime_of_run hrun
    rw [hontime.good_iff hw hstep.1 hstep.2, ih, run_concat_iff]
    constructor
    · rintro ⟨hseen, ha⟩
      exact ⟨t, hseen, hstep.1, ha⟩
    · rintro ⟨t', hseen, -, ha⟩
      obtain rfl := Run.deterministic NoopStep.deterministic hrun.of_guarded hseen.of_guarded
      exact ⟨hseen, ha⟩

/-- **When `noop` sees its completion.** Let the controller complete every No-Op with code 1 before
the call makes its last look. Then in a run that ends between calls every call has returned true if
and only if each completion was posted as an event whose number is a multiple of 512, and no other
event was posted to slot 0 before the call had seen it. -/
theorem noop_true_iff
    (hrun : Run (Guarded NoopStep Prompt) (.start cmdBase eventBase cmdPhys eventPhys) acts s)
    (hidle : s.budget = 0) :
    s.results = List.replicate s.commands.length true ↔
      Run (Guarded NoopStep Seen) (.start cmdBase eventBase cmdPhys eventPhys) acts s := by
  obtain ⟨hw, -⟩ := onTime_of_run hrun
  have hlen : s.results.length = s.commands.length := by
    rw [hw.commands_eq, if_pos hidle]
    rfl
  rw [← good_iff_run_seen hrun, List.eq_replicate_iff]
  constructor
  · rintro ⟨-, htrue⟩
    exact ⟨htrue, fun hpos ↦ absurd hidle hpos.ne'⟩
  · intro hgood
    exact ⟨hlen, hgood.1⟩

end Missed

/-- One call that is completed at once returns true. -/
theorem noop_true_first_call :
    (NoopSystem.boot.call.complete 0 (successEvent 0)).poll.results = [true] := by
  have hbusy : NoopSystem.boot.call.budget ≠ 1 := by decide
  have hcode : (successEvent 0).completionCode = 1 := by decide
  have hrun := run_first_call Prompt trivial hcode (fun hlast ↦ absurd hlast hbusy)
  have hseen := run_first_call Seen trivial rfl trivial
  have hans : (NoopSystem.boot.call.complete 0 (successEvent 0)).answer = some true := by
    have hw : NoopSystem.boot.call.Wired := .step (.start 0 0 0 0) (.call rfl)
    have hcc : (successEvent 0).trbType = TrbType.commandCompletion := by decide
    rw [NoopSystem.answer_complete hw hcc, hcode]
    rfl
  have hidle : (NoopSystem.boot.call.complete 0 (successEvent 0)).poll.budget = 0 := by
    rw [NoopSystem.poll_of_answer_some hans]
    rfl
  have hlen : (NoopSystem.boot.call.complete 0 (successEvent 0)).poll.commands.length = 1 := by
    rw [NoopSystem.poll_of_answer_some hans]
    rfl
  rw [(noop_true_iff hrun hidle).mpr hseen, hlen]
  rfl

/-- A Port Status Change event. -/
def portEventTrb : Trb := ⟨0, 0, TrbType.portStatusChange.setWidth 32 <<< 10⟩

/-- One Port Status Change event before the first call is enough to make it fail. -/
theorem not_noop_true :
    ¬ ∀ acts s, Run (Guarded NoopStep Prompt) .boot acts s → s.budget = 0 →
      s.results = List.replicate s.commands.length true := by
  intro h
  have hport : portEventTrb.trbType = TrbType.portStatusChange := by decide
  have hcc : (successEvent 0).trbType = TrbType.commandCompletion := by decide
  have hcode : (successEvent 0).completionCode = 1 := by decide
  let s := (NoopSystem.boot.post portEventTrb).call
  have h₁ : Guarded NoopStep Prompt .boot (.portEvent portEventTrb)
    (NoopSystem.boot.post portEventTrb) :=
    ⟨.portEvent hport, trivial⟩
  have h₂ : Guarded NoopStep Prompt (NoopSystem.boot.post portEventTrb) .call s :=
    ⟨.call rfl, trivial⟩
  have h₃ : Guarded NoopStep Prompt s (.complete 0 (successEvent 0))
    (s.complete 0 (successEvent 0)) :=
    ⟨step_first_complete s rfl rfl, hcode⟩
  have hrun := ((Run.single h₁).snoc h₂).snoc h₃
  -- the completion is in slot 1, and slot 0 holds the event of the port
  have hquiet : (s.complete 0 (successEvent 0)).answer = none := by
    have hw : NoopSystem.boot.Wired := .start 0 0 0 0
    have hw' : s.Wired := (hw.step h₁.1).step h₂.1
    rw [NoopSystem.answer_complete hw' hcc, if_neg (by decide), if_neg (by decide)]
    exact (NoopSystem.answer_portEvent hw hport).trans (if_pos rfl)
  have hcompleted : (s.complete 0 (successEvent 0)).Completed 0 :=
    NoopSystem.completed_complete.mpr (.inr rfl)
  have hbudget : (s.complete 0 (successEvent 0)).budget = 999999 + 1 := rfl
  have hgiveUp := run_giveUp (C := Prompt) hbudget hquiet fun _ _ ↦ hcompleted
  have hresults := h _ _ (hrun.append hgiveUp) rfl
  exact absurd hresults (by decide)

end Punkos
