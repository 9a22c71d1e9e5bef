import Punkos.Foundation.Run
import Punkos.Xhci.Ring

/-!
# The command ring as a protocol

The driver pushes commands, the controller fetches them, in any interleaving. The controller
follows the ring discipline of the xHCI specification: it starts at slot 0 with cycle state 1,
takes the block at its dequeue slot only if the cycle bit agrees with its state, follows a Link
block, and otherwise advances by one slot.

## What goes wrong

`Ring::push` wraps its own index with a mask, but it neither leaves a Link block in the last slot
nor flips its cycle bit, so nothing tells the controller to wrap as well. After as many commands as
the ring has slots the controller stands one past the end and reads memory that is not the ring's.
On the first lap everything is right, and `Lap` is the invariant that says so;
`commandRing_faithful_iff` shows that the first lap is all there is.
-/

namespace Punkos

open Transition

/-! ## The system -/

/-- The driver's ring, the controller's position in it, and what has happened so far. -/
structure CommandRing where
  /-- The ring in memory. -/
  ring : Ring
  /-- The slot the controller reads next. -/
  dequeue : ℕ
  /-- The controller's cycle state. -/
  consumerCycle : Bool
  /-- The blocks given to `push`, in order. -/
  pushed : List Trb
  /-- The blocks the controller took, in order. -/
  fetched : List Trb
  /-- Whether the controller has read a slot outside the ring. -/
  strayed : Bool
  /-- Whether the controller has found nothing although a block was outstanding. -/
  missed : Bool

namespace CommandRing

/-- How many blocks have been pushed and not yet fetched. -/
def outstanding (s : CommandRing) : ℕ := s.pushed.length - s.fetched.length

/-- `Ring::push` by the driver. -/
def push (s : CommandRing) (t : Trb) : CommandRing :=
  { s with ring := s.ring.push t, pushed := s.pushed ++ [t] }

/-- One fetch attempt of the controller. -/
def fetch (s : CommandRing) : CommandRing :=
  match s.ring.trbs[s.dequeue]? with
  | none => { s with strayed := true }
  | some t =>
    if t.cycleBit = s.consumerCycle then
      if t.trbType = TrbType.link then
        -- the parameter points to the next slot; bit 1 of the control word asks for a toggle
        { s with
          dequeue := (t.parameter - s.ring.phys).toNat / 16
          consumerCycle := xor s.consumerCycle (t.control.getLsbD 1) }
      else { s with dequeue := s.dequeue + 1, fetched := s.fetched ++ [t] }
    else { s with missed := s.missed || decide (0 < s.outstanding) }

/-- The ring as `Ring::new` leaves it, and the controller as `write_crcr` with RCS = 1 leaves it.
-/
def start (base : ℕ) (phys : BitVec 64) (count : ℕ) (hcount : ∃ k, count = 2 ^ k) :
    CommandRing where
  ring := .fresh base phys count hcount
  dequeue := 0
  consumerCycle := true
  pushed := []
  fetched := []
  strayed := false
  missed := false

end CommandRing

/-- Who moves. -/
inductive RingAction where
  /-- The driver pushes a block. -/
  | push (t : Trb)
  /-- The controller tries to fetch one. -/
  | fetch

/-- The blocks pushed in a list of actions. -/
def pushes (acts : List RingAction) : List Trb :=
  acts.filterMap fun
    | .push t => some t
    | .fetch => none

/-- One step. The driver pushes only blocks that are not Links, and only while fewer than `limit`
are outstanding: `count - 1` in the discipline of the specification, but the exact bound turns out
to be irrelevant. -/
inductive RingStep (limit : ℕ) : CommandRing → RingAction → CommandRing → Prop
  | push {s : CommandRing} {t : Trb} : t.trbType ≠ TrbType.link → s.outstanding < limit →
      RingStep limit s (.push t) (s.push t)
  | fetch {s : CommandRing} : RingStep limit s .fetch s.fetch

/-- What the protocol promises of a state: the controller has stayed inside the ring, it has never
overlooked an outstanding block, and what it took is what was pushed, in order, each once. -/
structure Faithful (s : CommandRing) : Prop where
  /-- Every slot read was a slot of the ring. -/
  inRange : s.strayed = false
  /-- An outstanding block was always found. -/
  complete : s.missed = false
  /-- The blocks taken are the first blocks pushed. -/
  inOrder : s.fetched.map Trb.payload <+: s.pushed.map Trb.payload

/-! ## The first lap -/

/-- The state during the first lap, after `n ≤ count` pushes: the slots below `n` hold the pushed
blocks with cycle bit 1 and the others are still zero, and the controller is where it has fetched
to. -/
structure Lap (count : ℕ) (s : CommandRing) : Prop where
  /-- No more blocks than slots. -/
  le_count : s.pushed.length ≤ count
  /-- Only commands were pushed. -/
  not_link : ∀ t ∈ s.pushed, t.trbType ≠ TrbType.link
  /-- The slots. -/
  trbs_eq : s.ring.trbs =
    s.pushed.map (Trb.stamp true) ++ List.replicate (count - s.pushed.length) Trb.zero
  /-- The producer. -/
  enqueue_eq : s.ring.enqueue = s.pushed.length % count
  /-- The producer never changes its cycle bit. -/
  cycle_eq : s.ring.cycle = true
  /-- The consumer has not been asked to change its own. -/
  consumerCycle_eq : s.consumerCycle = true
  /-- The consumer has not run ahead. -/
  dequeue_le : s.dequeue ≤ s.pushed.length
  /-- What has been fetched. -/
  fetched_eq : s.fetched = (s.pushed.take s.dequeue).map (Trb.stamp true)
  /-- No stray read. -/
  strayed_eq : s.strayed = false
  /-- No missed block. -/
  missed_eq : s.missed = false

section FirstLap

variable {count : ℕ} {s : CommandRing}

theorem Lap.start (base : ℕ) (phys : BitVec 64) (hcount : ∃ k, count = 2 ^ k) :
    Lap count (.start base phys count hcount) := by
  refine ⟨?_, ?_, ?_, ?_, rfl, rfl, ?_, rfl, rfl, rfl⟩ <;>
    simp [CommandRing.start, Ring.fresh]

theorem Lap.length_trbs (h : Lap count s) : s.ring.trbs.length = count := by
  have := h.le_count
  rw [h.trbs_eq, List.length_append, List.length_map, List.length_replicate]
  omega

theorem Lap.length_fetched (h : Lap count s) : s.fetched.length = s.dequeue := by
  rw [h.fetched_eq, List.length_map, List.length_take]
  exact Nat.min_eq_left h.dequeue_le

theorem Lap.faithful (h : Lap count s) : Faithful s where
  inRange := h.strayed_eq
  complete := h.missed_eq
  inOrder := by
    have hpay : (Trb.payload ∘ Trb.stamp true) = Trb.payload := funext fun t ↦
      Trb.payload_stamp true t
    rw [h.fetched_eq, List.map_map, hpay, List.map_take]
    exact List.take_prefix _ _

/-- A push on the first lap fills the first empty slot. -/
theorem Lap.push (h : Lap count s) {t : Trb} (ht : t.trbType ≠ TrbType.link)
    (hlt : s.pushed.length < count) : Lap count (s.push t) := by
  have henq : s.ring.enqueue = s.pushed.length := by rw [h.enqueue_eq, Nat.mod_eq_of_lt hlt]
  have hlen : (s.pushed ++ [t]).length = s.pushed.length + 1 := by simp
  refine ⟨?_, ?_, ?_, ?_, h.cycle_eq, h.consumerCycle_eq, ?_, ?_, h.strayed_eq, h.missed_eq⟩
  · rw [CommandRing.push, hlen]
    omega
  · intro u hu
    rcases List.mem_append.mp hu with hu | hu
    · exact h.not_link u hu
    · rwa [List.mem_singleton.mp hu]
  · change s.ring.trbs.set s.ring.enqueue (t.stamp s.ring.cycle) = _
    rw [h.trbs_eq, henq, h.cycle_eq, List.set_append_right _ _ (by simp), List.length_map,
      Nat.sub_self, show count - s.pushed.length = count - (s.pushed.length + 1) + 1 by omega,
      List.replicate_succ, List.set_cons_zero, CommandRing.push, hlen, List.map_append,
      List.append_assoc]
    rfl
  · change (s.ring.enqueue + 1) &&& (s.ring.trbs.length - 1) = _
    rw [Ring.and_length_sub_one, h.length_trbs, henq, CommandRing.push, hlen]
  · have := h.dequeue_le
    change s.dequeue ≤ (s.pushed ++ [t]).length
    omega
  · change s.fetched = ((s.pushed ++ [t]).take s.dequeue).map (Trb.stamp true)
    rw [List.take_append_of_le_length h.dequeue_le, h.fetched_eq]

/-- While a block is outstanding, a fetch takes it. -/
theorem Lap.fetch_eq (h : Lap count s) (hd : s.dequeue < s.pushed.length) :
    s.fetch = { s with
      dequeue := s.dequeue + 1
      fetched := s.fetched ++ [s.pushed[s.dequeue].stamp true] } := by
  have hslot : s.ring.trbs[s.dequeue]? = some (s.pushed[s.dequeue].stamp true) := by
    rw [h.trbs_eq, List.getElem?_append_left (by rwa [List.length_map]), List.getElem?_map,
      List.getElem?_eq_getElem hd]
    rfl
  have hlink := h.not_link _ (List.getElem_mem hd)
  rw [CommandRing.fetch, hslot]
  simp [h.consumerCycle_eq, hlink]

/-- Once the controller has caught up, and is not at the end of a full ring, a fetch finds a zero
block and changes nothing. -/
theorem Lap.fetch_eq_self (h : Lap count s) (hd : s.dequeue = s.pushed.length)
    (hlt : s.dequeue < count) : s.fetch = s := by
  have hslot : s.ring.trbs[s.dequeue]? = some Trb.zero := by
    rw [h.trbs_eq, List.getElem?_append_right (by rw [List.length_map, hd]),
      List.getElem?_replicate,
      List.length_map, if_pos (by omega)]
  have hnone : ¬ 0 < s.outstanding := by
    rw [CommandRing.outstanding, h.length_fetched, hd, Nat.sub_self]
    exact Nat.lt_irrefl 0
  have hcycle : Trb.zero.cycleBit ≠ s.consumerCycle := by simp [h.consumerCycle_eq]
  rw [CommandRing.fetch, hslot]
  simp only [if_neg hcycle, decide_eq_false hnone, Bool.or_false]

/-- A fetch keeps the invariant, unless the controller stands at the end of a full ring. -/
theorem Lap.fetch (h : Lap count s) (hlt : s.dequeue < count) : Lap count s.fetch := by
  rcases h.dequeue_le.lt_or_eq with hd | hd
  · rw [h.fetch_eq hd]
    refine ⟨h.le_count, h.not_link, h.trbs_eq, h.enqueue_eq, h.cycle_eq,
      h.consumerCycle_eq, hd, ?_,
      h.strayed_eq, h.missed_eq⟩
    change s.fetched ++ [s.pushed[s.dequeue].stamp true] = _
    rw [h.fetched_eq, List.take_succ_eq_append_getElem hd, List.map_append]
    rfl
  · rwa [h.fetch_eq_self hd hlt]

/-- At the end of a full ring a fetch reads the slot after the last one. -/
theorem Lap.strayed_fetch (h : Lap count s) (hd : s.dequeue = count) : s.fetch.strayed = true := by
  have hslot : s.ring.trbs[s.dequeue]? = none := by
    rw [List.getElem?_eq_none_iff, h.length_trbs, hd]
  rw [CommandRing.fetch, hslot]

end FirstLap

/-! ## Whole runs -/

@[simp] theorem pushes_concat (acts : List RingAction) (a : RingAction) :
    pushes (acts ++ [a]) = pushes acts ++ pushes [a] := List.filterMap_append

theorem CommandRing.pushed_fetch (s : CommandRing) : s.fetch.pushed = s.pushed := by
  rw [CommandRing.fetch]
  repeat' split
  all_goals rfl

section Runs

variable {count limit : ℕ} (base : ℕ) (phys : BitVec 64) (hcount : ∃ k, count = 2 ^ k)

/-- Before the ring has been filled once, every state is a first-lap state. -/
theorem lap_of_run {acts : List RingAction} {s : CommandRing}
    (h : Run (RingStep limit) (.start base phys count hcount) acts s)
    (hlt : (pushes acts).length < count) : Lap count s ∧ s.pushed = pushes acts := by
  induction h with
  | nil => exact ⟨Lap.start base phys hcount, rfl⟩
  | @snoc t u acts a _ hstep ih =>
    rw [pushes_concat, List.length_append] at hlt
    obtain ⟨hlap, hpushed⟩ := ih (by omega)
    have hfull : t.pushed.length < count := by rw [hpushed]; omega
    rw [pushes_concat, ← hpushed]
    rcases hstep with ⟨hlink, _⟩ | _
    · exact ⟨hlap.push hlink hfull, rfl⟩
    · refine ⟨hlap.fetch (hlap.dequeue_le.trans_lt hfull), ?_⟩
      rw [CommandRing.pushed_fetch]
      exact (List.append_nil _).symm

/-- With no room for an outstanding block there are no pushes. -/
theorem pushes_eq_nil_of_run {acts : List RingAction} {s t : CommandRing}
    (h : Run (RingStep 0) s acts t) : pushes acts = [] := by
  induction h with
  | nil => rfl
  | snoc _ hstep ih =>
    rw [pushes_concat, ih]
    rcases hstep with ⟨_, hroom⟩ | _
    · exact absurd hroom (Nat.not_lt_zero _)
    · rfl

/-- Each block pushed and fetched at once. -/
def lockstep (ts : List Trb) : List RingAction := ts.flatMap fun t ↦ [.push t, .fetch]

theorem pushes_lockstep (ts : List Trb) : pushes (lockstep ts) = ts := by
  induction ts with
  | nil => rfl
  | cons t ts ih => exact congrArg (t :: ·) ih

/-- Lockstep brings the controller as far as the producer, for as long as there are slots. -/
theorem run_lockstep (hlimit : 0 < limit) (ts : List Trb)
    (hts : ∀ t ∈ ts, t.trbType ≠ TrbType.link) (hlen : ts.length ≤ count) :
    ∃ s, Run (RingStep limit) (.start base phys count hcount) (lockstep ts) s ∧ Lap count s ∧
      s.pushed.length = ts.length ∧ s.dequeue = ts.length := by
  induction ts using List.reverseRecOn with
  | nil => exact ⟨_, Run.nil _, Lap.start base phys hcount, rfl, rfl⟩
  | append_singleton ts t ih =>
    rw [List.length_append, List.length_singleton] at hlen
    obtain ⟨s, hrun, hlap, hpushed, hdequeue⟩ :=
      ih (fun u hu ↦ hts u (List.mem_append_left _ hu)) (by omega)
    have hlink : t.trbType ≠ TrbType.link := hts t (by simp)
    have hroom : s.outstanding < limit := by
      rw [CommandRing.outstanding, hlap.length_fetched]
      omega
    have hlap' : Lap count (s.push t) := hlap.push hlink (by omega)
    have hout : (s.push t).dequeue < (s.push t).pushed.length := by
      change s.dequeue < (s.pushed ++ [t]).length
      rw [List.length_append]
      exact Nat.lt_succ_of_le (by omega)
    refine ⟨(s.push t).fetch, ?_, hlap'.fetch (show s.dequeue < count by omega), ?_, ?_⟩
    · have hpush : RingStep limit s (.push t) (s.push t) := .push hlink hroom
      have hsteps := hrun.append ((Run.single hpush).snoc .fetch)
      simpa [lockstep] using hsteps
    · rw [CommandRing.pushed_fetch]
      simp [CommandRing.push, hpushed]
    · rw [hlap'.fetch_eq hout]
      simp [CommandRing.push, hdequeue]

/-- Any sequence of commands as long as the ring can drive the controller off its end. -/
theorem exists_strayed_run (hlimit : 0 < limit) (ts : List Trb)
    (hts : ∀ t ∈ ts, t.trbType ≠ TrbType.link) (hlen : ts.length = count) :
    ∃ acts s, pushes acts = ts ∧ Run (RingStep limit) (.start base phys count hcount) acts s ∧
      s.strayed = true := by
  obtain ⟨s, hrun, hlap, -, hdequeue⟩ := run_lockstep base phys hcount hlimit ts hts hlen.le
  refine ⟨lockstep ts ++ [.fetch], s.fetch, ?_, hrun.snoc .fetch, ?_⟩
  · rw [pushes_concat, pushes_lockstep]
    exact List.append_nil ts
  · exact hlap.strayed_fetch (hdequeue.trans hlen)

end Runs

/-- **The command ring works for one lap.** For every sequence `ts` of commands, the controller
fetches them faithfully under every interleaving with the pushes if and only if there are fewer of
them than the ring has slots, so that the enqueue index never wraps. (The other way out is an
outstanding limit that lets nothing be pushed at all.) -/
theorem commandRing_faithful_iff (base : ℕ) (phys : BitVec 64) {count : ℕ}
    (hcount : ∃ k, count = 2 ^ k) (limit : ℕ) (ts : List Trb)
    (hts : ∀ t ∈ ts, t.trbType ≠ TrbType.link) :
    (∀ acts s, pushes acts <+: ts → Run (RingStep limit) (.start base phys count hcount) acts s →
      Faithful s) ↔ ts.length < count ∨ limit = 0 := by
  constructor
  · intro h
    by_contra! hlong
    obtain ⟨acts, s, hacts, hrun, hstray⟩ :=
      exists_strayed_run base phys hcount (Nat.pos_of_ne_zero hlong.2) (ts.take count)
        (fun t ht ↦ hts t (List.mem_of_mem_take ht))
        (by rw [List.length_take]; exact Nat.min_eq_left hlong.1)
    have hfaithful := h acts s (hacts ▸ List.take_prefix _ _) hrun
    exact absurd hfaithful.inRange (by simp [hstray])
  · rintro (hshort | rfl) acts s hpre hrun
    · exact (lap_of_run base phys hcount hrun (hpre.length_le.trans_lt hshort)).1.faithful
    · refine (lap_of_run base phys hcount hrun ?_).1.faithful
      obtain ⟨k, rfl⟩ := hcount
      rw [pushes_eq_nil_of_run hrun]
      exact Nat.two_pow_pos k

/-- A ring of four slots passes three commands on. -/
theorem commandRing_faithful_three :
    (∃ k, 4 = 2 ^ k) ∧ ∀ acts s, pushes acts <+: List.replicate 3 noOpTrb →
      Run (RingStep (4 - 1)) (.start 0 0 4 ⟨2, rfl⟩) acts s → Faithful s := by
  refine ⟨⟨2, rfl⟩, (commandRing_faithful_iff 0 0 ⟨2, rfl⟩ 3 (List.replicate 3 noOpTrb) ?_).mpr ?_⟩
  · intro t ht
    rw [List.eq_of_mem_replicate ht]
    decide
  · exact .inl (by simp)

/-- The driver's ring of 256 slots does not survive 256 No-Ops. -/
theorem not_commandRing_faithful :
    ¬ ∀ acts s, (∀ t ∈ pushes acts, t.trbType ≠ TrbType.link) →
      Run (RingStep (256 - 1)) (.start 0 0 256 ⟨8, rfl⟩) acts s → Faithful s := by
  intro h
  have hlink : ∀ t ∈ List.replicate 256 noOpTrb, t.trbType ≠ TrbType.link := by
    intro t ht
    rw [List.eq_of_mem_replicate ht]
    decide
  have hlimit : 0 < 256 - 1 := by decide
  obtain ⟨acts, s, hacts, hrun, hstray⟩ :=
    exists_strayed_run 0 0 ⟨8, rfl⟩ hlimit (List.replicate 256 noOpTrb) hlink List.length_replicate
  have hfaithful := h acts s (hacts ▸ hlink) hrun
  exact absurd hfaithful.inRange (by simp [hstray])

end Punkos
