import Punkos.Foundation.Lap
import Punkos.Xhci.DmaLayout

/-!
# What a ring holds

`push` writes one block, stamped with the cycle flag, and moves on; `toggle_cycle` flips the flag.
The ring is a lap of the log of all blocks ever pushed, so a slot shows the last block that was
pushed at its index modulo the number of slots, with the flag the ring had at that moment.

`ring_contents` says so for a ring as `Ring::new` returns it and any history after that.
-/

namespace Punkos

/-- A call that changes the ring. -/
inductive RingOp where
  /-- `push`. -/
  | push (t : Trb)
  /-- `toggle_cycle`. -/
  | toggleCycle
  deriving DecidableEq, Repr

/-- `u` says what `t` says, and its cycle bit is `c`. -/
structure Trb.IsStamped (t : Trb) (c : Bool) (u : Trb) : Prop where
  /-- The parameter is kept. -/
  parameter : u.parameter = t.parameter
  /-- The status is kept. -/
  status : u.status = t.status
  /-- The control bits from 1 on are kept. -/
  control : ∀ b, 1 ≤ b → u.control.getLsbD b = t.control.getLsbD b
  /-- Bit 0 is the flag. -/
  cycle : u.control.getLsbD 0 = c

/-- `push` stores a block that says what it was given. -/
theorem Trb.isStamped_stamp (t : Trb) (c : Bool) : t.IsStamped c (t.stamp c) where
  parameter := rfl
  status := rfl
  control b hb := by
    have hone : (1 : BitVec 32).getLsbD b = false := by
      rw [show (1 : BitVec 32) = 1#32 from rfl, BitVec.getLsbD_one]
      simp [Nat.ne_of_gt hb]
    have hflag : (if c then 1 else 0 : BitVec 32).getLsbD b = false := by
      cases c
      · exact BitVec.getLsbD_zero
      · exact hone
    rw [Trb.stamp, BitVec.getLsbD_or, BitVec.getLsbD_and, BitVec.getLsbD_not, hone, hflag]
    by_cases hlt : b < 32
    · simp [hlt]
    · rw [BitVec.getLsbD_of_ge _ _ (not_lt.mp hlt)]
      simp
  cycle := by rw [← Trb.cycleBit_eq, Trb.cycleBit_stamp]

namespace Ring

/-- The ring after one call. -/
def apply (r : Ring) : RingOp → Ring
  | .push t => r.push t
  | .toggleCycle => r.toggleCycle

/-- The ring after a history. -/
def after (r : Ring) (ops : List RingOp) : Ring := ops.foldl apply r

/-- The blocks pushed in a history, in order, each with the ring's cycle flag when it was pushed. -/
def pushed (r : Ring) : List RingOp → List (Trb × Bool)
  | [] => []
  | .push t :: ops => (t, r.cycle) :: (r.push t).pushed ops
  | .toggleCycle :: ops => r.toggleCycle.pushed ops

@[simp] theorem after_cons (r : Ring) (op : RingOp) (ops : List RingOp) :
    r.after (op :: ops) = (r.apply op).after ops := rfl

@[simp] theorem length_trbs_push (r : Ring) (t : Trb) :
    (r.push t).trbs.length = r.trbs.length := List.length_set

theorem enqueue_push (r : Ring) (t : Trb) :
    (r.push t).enqueue = (r.enqueue + 1) % r.trbs.length := r.and_length_sub_one _

theorem length_pos (r : Ring) : 0 < r.trbs.length := Nat.zero_lt_of_lt r.enqueue_lt

/-- The blocks as the slots show them. -/
def stamped (log : List (Trb × Bool)) : List Trb := log.map fun e ↦ e.1.stamp e.2

/-- **The ring is a lap of its log.** If the ring is where push number `start` goes, a history
writes its log from there. -/
theorem after_eq_lap (r : Ring) (ops : List RingOp) (start : ℕ)
    (hstart : r.enqueue = start % r.trbs.length) :
    (r.after ops).trbs = Lap.write start r.trbs (stamped (r.pushed ops)) ∧
      (r.after ops).enqueue = (start + (r.pushed ops).length) % r.trbs.length := by
  induction ops generalizing r start with
  | nil => exact ⟨rfl, hstart⟩
  | cons op ops ih =>
    cases op with
    | push t =>
      have hnext : (r.push t).enqueue = (start + 1) % (r.push t).trbs.length := by
        rw [enqueue_push, length_trbs_push, hstart, Nat.mod_add_mod]
      have hslots : (r.push t).trbs =
          r.trbs.set (start % r.trbs.length) (t.stamp r.cycle) := by rw [← hstart]; rfl
      obtain ⟨htrbs, hidx⟩ := ih (r.push t) (start + 1) hnext
      constructor
      · rw [after_cons, apply, htrbs, hslots]
        rfl
      · rw [after_cons, apply, hidx, length_trbs_push, pushed, List.length_cons,
          Nat.add_assoc, Nat.add_comm 1]
    | toggleCycle => exact ih r.toggleCycle start hstart

end Ring

section Contents

variable {D : Device} {P : Platform}

/-- **What a ring holds.** Take a ring as `Ring::new` returns it and any history of pushes and
toggles. The next slot is the number of pushes modulo the number of slots. A slot that no push
number is congruent to is zero; any other says what the last such push said, with the cycle flag
the ring had at that push. -/
theorem ring_contents {count : ℕ} (hcount : ∃ k, count = 2 ^ k) {m m' : Machine D} {r : Ring}
    (hnew : Ring.new P count hcount m = some (r, m')) (ops : List RingOp) :
    (r.after ops).trbs.length = count ∧
      (r.after ops).enqueue = (r.pushed ops).length % count ∧
      (r.after ops).enqueue < (r.after ops).trbs.length ∧
      ∀ j < count,
        ((∀ i < (r.pushed ops).length, i % count ≠ j) → (r.after ops).trbs[j]? = some Trb.zero) ∧
        ∀ (i : ℕ) (t : Trb) (c : Bool), (r.pushed ops)[i]? = some (t, c) → i % count = j →
          (∀ i', i < i' → i' < (r.pushed ops).length → i' % count ≠ j) →
          ∃ u, (r.after ops).trbs[j]? = some u ∧ t.IsStamped c u := by
  obtain ⟨ptr, phys, -, -, rfl, -⟩ := Ring.new_eq_some hnew
  set r := Ring.fresh (align64 ptr) phys count hcount
  have hlen : r.trbs.length = count := List.length_replicate
  have hpos : 0 < r.trbs.length := r.length_pos
  obtain ⟨htrbs, hidx⟩ := r.after_eq_lap ops 0 (Nat.zero_mod _).symm
  have hlog : (Ring.stamped (r.pushed ops)).length = (r.pushed ops).length := List.length_map _
  refine ⟨by rw [htrbs, Lap.length_write, hlen], by rw [hidx, Nat.zero_add, hlen],
    (r.after ops).enqueue_lt, fun j hj ↦ ⟨fun hnone ↦ ?_, fun i t c hi hij hlast ↦ ?_⟩⟩
  · have hzero : r.trbs[j]? = some Trb.zero := by
      rw [show r.trbs = List.replicate count Trb.zero from rfl, List.getElem?_replicate, if_pos hj]
    rw [htrbs, Lap.getElem?_write_of_forall_ne, hzero]
    intro i hi
    rw [Nat.zero_add, hlen]
    exact hnone i (hlog ▸ hi)
  · obtain ⟨hlt, hget⟩ := List.getElem?_eq_some_iff.mp hi
    refine ⟨t.stamp c, ?_, t.isStamped_stamp c⟩
    rw [htrbs, Lap.getElem?_write_of_last hpos (hlog ▸ hlt) (by rwa [Nat.zero_add, hlen])]
    · simp only [Ring.stamped, List.getElem_map, hget]
    · intro i' hii' hi'
      rw [Nat.zero_add, hlen]
      exact hlast i' hii' (hlog ▸ hi')

/-- A ring of two slots after three pushes, the flag flipped before the last one, which is the
second push to slot 0. -/
theorem ring_contents_two_slots :
    ∃ r m', Ring.new ⟨fun v ↦ some (BitVec.ofNat 64 v), fun _ _ _ ↦ some 0⟩ 2 ⟨1, rfl⟩ deadMachine =
        some (r, m') ∧
      (r.after [.push noOpTrb, .push noOpTrb, .toggleCycle, .push ⟨4, 5, 7⟩]).enqueue = 1 ∧
      ∃ u, (r.after [.push noOpTrb, .push noOpTrb, .toggleCycle, .push ⟨4, 5, 7⟩]).trbs[0]? =
          some u ∧ Trb.IsStamped ⟨4, 5, 7⟩ false u := by
  refine ⟨_, _, rfl, ?_⟩
  obtain ⟨-, hidx, -, hslots⟩ := ring_contents (m := deadMachine)
    (P := ⟨fun v ↦ some (BitVec.ofNat 64 v), fun _ _ _ ↦ some 0⟩)
    (show ∃ k, 2 = 2 ^ k from ⟨1, rfl⟩) rfl
    [.push noOpTrb, .push noOpTrb, .toggleCycle, .push ⟨4, 5, 7⟩]
  refine ⟨hidx, (hslots 0 (by decide)).2 2 ⟨4, 5, 7⟩ false rfl rfl fun i' hlt hi' ↦ ?_⟩
  exact absurd hi' (Nat.not_lt.mpr hlt)

end Contents

end Punkos
