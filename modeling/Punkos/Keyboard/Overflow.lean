import Punkos.Foundation.Run
import Punkos.Keyboard.Delivery

/-!
# What a full keyboard buffer drops

The comment in `push` says "Drop the oldest if full". The code returns without storing anything, so
it is the new character that is dropped. Here the buffer is compared with the queue the comment
describes, over all sequences of `push` and `pop`.

`overflow_policy_iff` says when no difference has shown up yet: every push so far found a free
place, or found nothing but copies of its own character.
-/

namespace Punkos.Keyboard

open BoundedQueue (Op slide slideAfter slideTaken)
open Transition

namespace RingBuffer

variable {N : ℕ}

/-- The buffer after a sequence of `push` and `pop`. -/
def after : RingBuffer N → List (Op Char) → RingBuffer N
  | b, [] => b
  | b, .put c :: ops => (b.push c).after ops
  | b, .take :: ops => b.pop.2.after ops

/-- What the `pop`s of a sequence return. -/
def popped : RingBuffer N → List (Op Char) → List (Option Char)
  | _, [] => []
  | b, .put c :: ops => (b.push c).popped ops
  | b, .take :: ops => b.pop.1 :: b.pop.2.popped ops

/-- After the sequence the buffer is, to its user, the queue that drops its oldest character. -/
def Slides (b : RingBuffer N) (ops : List (Op Char)) : Prop :=
  b.popped ops = slideTaken (N - 1) b.pending ops ∧
    (b.after ops).pending = slideAfter (N - 1) b.pending ops

/-- Every push of the sequence finds a free place, or only copies of its character. -/
def NothingToDrop (b : RingBuffer N) (ops : List (Op Char)) : Prop :=
  ∀ pre c, pre ++ [.put c] <+: ops →
    (b.after pre).count + 1 < N ∨ ∀ x ∈ (b.after pre).pending, x = c

theorem slides_cons_put {b : RingBuffer N} {c : Char}
    (h : (b.push c).pending = slide (N - 1) b.pending c) (ops : List (Op Char)) :
    b.Slides (.put c :: ops) ↔ (b.push c).Slides ops := by
  rw [Slides, Slides, popped, after, slideTaken, slideAfter, h]

theorem slides_cons_take (b : RingBuffer N) (ops : List (Op Char)) :
    b.Slides (.take :: ops) ↔ b.pop.2.Slides ops := by
  obtain ⟨hhead, htail⟩ := b.pop_eq
  rw [Slides, Slides, popped, after, slideTaken, slideAfter, hhead, htail, List.cons.injEq,
    and_iff_right rfl]

/-- One `push` keeps up with the queue exactly if it finds a free place or only copies. -/
theorem pending_push_eq_slide_iff (hN : 2 ≤ N) (b : RingBuffer N) (c : Char) :
    (b.push c).pending = slide (N - 1) b.pending c ↔ b.count + 1 < N ∨ ∀ x ∈ b.pending, x = c := by
  have hlt : b.pending.length < N - 1 ↔ b.count + 1 < N := by
    rw [length_pending]
    omega
  rw [pending_push, BoundedQueue.put_eq_slide_iff (by omega), hlt]

theorem slides_nil (b : RingBuffer N) : b.Slides [] := ⟨rfl, rfl⟩

theorem nothingToDrop_nil (b : RingBuffer N) : b.NothingToDrop [] := by
  intro pre c hpre
  have := hpre.length_le
  simp at this

theorem nothingToDrop_cons_put (b : RingBuffer N) (c : Char) (ops : List (Op Char)) :
    b.NothingToDrop (.put c :: ops) ↔
      (b.count + 1 < N ∨ ∀ x ∈ b.pending, x = c) ∧ (b.push c).NothingToDrop ops := by
  constructor
  · intro h
    exact ⟨h [] c ⟨ops, rfl⟩, fun pre d hpre ↦
      h (.put c :: pre) d (concat_prefix_cons_iff.mpr (Or.inr ⟨pre, rfl, hpre⟩))⟩
  · rintro ⟨hhead, hrest⟩ pre d hpre
    rcases concat_prefix_cons_iff.mp hpre with ⟨rfl, hd⟩ | ⟨pre, rfl, htail⟩
    · cases hd
      exact hhead
    · exact hrest pre d htail

theorem nothingToDrop_cons_take (b : RingBuffer N) (ops : List (Op Char)) :
    b.NothingToDrop (.take :: ops) ↔ b.pop.2.NothingToDrop ops := by
  constructor
  · intro h pre d hpre
    exact h (.take :: pre) d (concat_prefix_cons_iff.mpr (Or.inr ⟨pre, rfl, hpre⟩))
  · intro h pre d hpre
    rcases concat_prefix_cons_iff.mp hpre with ⟨-, hd⟩ | ⟨pre, rfl, htail⟩
    · cases hd
    · exact h pre d htail

/-- The buffer keeps up with the queue from any state, as long as there is nothing to drop. -/
theorem slides_iff (hN : 2 ≤ N) (b : RingBuffer N) (ops : List (Op Char)) :
    (∀ pre, pre <+: ops → b.Slides pre) ↔ b.NothingToDrop ops := by
  induction ops generalizing b with
  | nil =>
    refine iff_of_true (fun pre hpre ↦ ?_) b.nothingToDrop_nil
    rw [List.prefix_nil.mp hpre]
    exact b.slides_nil
  | cons op ops ih =>
    rw [forall_prefix_cons_iff, and_iff_right b.slides_nil]
    cases op with
    | take =>
      simp only [slides_cons_take]
      rw [ih, nothingToDrop_cons_take]
    | put c =>
      rw [nothingToDrop_cons_put, ← ih, ← pending_push_eq_slide_iff hN]
      constructor
      · intro h
        -- right after the push the contents already tell
        have hpush : (b.push c).pending = slide (N - 1) b.pending c :=
          (h [] List.nil_prefix).2
        exact ⟨hpush, fun pre hpre ↦ (slides_cons_put hpush pre).mp (h pre hpre)⟩
      · rintro ⟨hpush, hrest⟩ pre hpre
        exact (slides_cons_put hpush pre).mpr (hrest pre hpre)

end RingBuffer

/-- What the comment promises of a sequence of calls on a new buffer. -/
structure DropsOldest (N : ℕ) [NeZero N] (ops : List (Op Char)) : Prop where
  /-- The `pop`s return what the queue that drops its oldest character returns. -/
  popped : (RingBuffer.new N).popped ops = slideTaken (N - 1) [] ops
  /-- The buffer holds what that queue holds. -/
  pending : ((RingBuffer.new N).after ops).pending = slideAfter (N - 1) [] ops
  /-- Without `pop`s these are the newest `N - 1` characters. -/
  newest : ∀ cs : List Char, ops = cs.map .put →
    ((RingBuffer.new N).after ops).pending = cs.drop (cs.length - (N - 1))

theorem dropsOldest_iff {N : ℕ} [NeZero N] (hN : 2 ≤ N) (ops : List (Op Char)) :
    DropsOldest N ops ↔ (RingBuffer.new N).Slides ops := by
  constructor
  · intro h
    exact ⟨h.popped, h.pending⟩
  · rintro ⟨hpopped, hpending⟩
    refine ⟨hpopped, hpending, ?_⟩
    rintro cs rfl
    rw [hpending, RingBuffer.pending_new,
      BoundedQueue.slideAfter_put (by omega) (Nat.zero_le _), List.nil_append]

/-- **The overflow policy.** For every size and every sequence of calls: the buffer has behaved as
the comment says all along if and only if every push found a free place, or nothing but copies of
the pushed character. -/
theorem overflow_policy_iff (N : ℕ) [NeZero N] (hN : 2 ≤ N) (ops : List (Op Char)) :
    (∀ pre, pre <+: ops → DropsOldest N pre) ↔
      ∀ pre c, pre ++ [.put c] <+: ops →
        ((RingBuffer.new N).after pre).count + 1 < N ∨
          ∀ x ∈ ((RingBuffer.new N).after pre).pending, x = c := by
  simp only [dropsOldest_iff hN]
  exact RingBuffer.slides_iff hN _ ops

/-- A buffer of two slots has room for one character. -/
theorem overflow_policy_two :
    2 ≤ 2 ∧ ∀ pre, pre <+: [Op.put 'a', .take, .put 'b'] → DropsOldest 2 pre := by
  refine ⟨le_rfl, (overflow_policy_iff 2 le_rfl _).mpr ?_⟩
  change (RingBuffer.new 2).NothingToDrop _
  rw [RingBuffer.nothingToDrop_cons_put, RingBuffer.nothingToDrop_cons_take,
    RingBuffer.nothingToDrop_cons_put]
  exact ⟨Or.inl (by decide), Or.inl (by decide), RingBuffer.nothingToDrop_nil _⟩

/-- The policy fails: `b` does not find room for a new `a`, and `a` stays. -/
theorem not_overflow_policy :
    ¬∀ (N : ℕ) [NeZero N], 2 ≤ N → ∀ ops, DropsOldest N ops := by
  intro h
  have hpopped := (h 2 le_rfl [.put 'a', .put 'b', .take]).popped
  exact absurd hpopped (by decide)

end Punkos.Keyboard
