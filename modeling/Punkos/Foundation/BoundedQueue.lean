import Mathlib.Data.List.Basic

/-!
# Bounded queues

A first-in first-out queue with room for `cap` items that drops what arrives when it is full. The
queue is the list of its items, oldest first, and a history is a list of puts and takes in the
order in which they happen.

What a client can rely on are three facts about histories: the queue never holds more than `cap`
items; what has been taken followed by what is still queued is a sublist of what has arrived, so
nothing is reordered, repeated or made up; and it is all of it as long as each item finds room.

The other policy, to make room by dropping the oldest item, is `slide`. Without takes such a queue
holds the newest `cap` items. The two policies differ on an arrival exactly when the queue is full
of anything but copies of the new item.
-/

namespace BoundedQueue

variable {α : Type*} {cap : ℕ}

/-- One event in the history of a queue. -/
inductive Op (α : Type*) where
  /-- An item arrives. -/
  | put (a : α)
  /-- The oldest item is asked for. -/
  | take

/-- The queue after an item has arrived. -/
def put (cap : ℕ) (q : List α) (a : α) : List α := if q.length < cap then q ++ [a] else q

/-- The queue after a history. -/
def after (cap : ℕ) : List α → List (Op α) → List α
  | q, [] => q
  | q, .put a :: ops => after cap (put cap q a) ops
  | q, .take :: ops => after cap q.tail ops

/-- The items taken during a history. -/
def taken (cap : ℕ) : List α → List (Op α) → List α
  | _, [] => []
  | q, .put a :: ops => taken cap (put cap q a) ops
  | q, .take :: ops => q.head?.toList ++ taken cap q.tail ops

/-- The items that arrive during a history. -/
def arrivals : List (Op α) → List α
  | [] => []
  | .put a :: ops => a :: arrivals ops
  | .take :: ops => arrivals ops

/-- Every item of the history finds room. -/
def Room (cap : ℕ) : List α → List (Op α) → Prop
  | _, [] => True
  | q, .put a :: ops => q.length < cap ∧ Room cap (put cap q a) ops
  | q, .take :: ops => Room cap q.tail ops

/-! ## One event -/

theorem put_of_lt {q : List α} (h : q.length < cap) (a : α) : put cap q a = q ++ [a] := if_pos h

theorem put_of_le {q : List α} (h : cap ≤ q.length) (a : α) : put cap q a = q :=
  if_neg (Nat.not_lt_of_le h)

theorem length_put_le {q : List α} (h : q.length ≤ cap) (a : α) : (put cap q a).length ≤ cap := by
  by_cases hlt : q.length < cap
  · rw [put_of_lt hlt, List.length_append]
    exact hlt
  · rw [put_of_le (Nat.le_of_not_lt hlt)]
    exact h

theorem put_sublist (cap : ℕ) (q : List α) (a : α) : (put cap q a).Sublist (q ++ [a]) := by
  by_cases hlt : q.length < cap
  · rw [put_of_lt hlt]
  · rw [put_of_le (Nat.le_of_not_lt hlt)]
    exact List.sublist_append_left q [a]

theorem head?_toList_append_tail (q : List α) : q.head?.toList ++ q.tail = q := by
  rcases q with _ | ⟨a, q⟩ <;> rfl

/-! ## Histories -/

/-- The queue never outgrows its capacity. -/
theorem length_after_le {q : List α} (h : q.length ≤ cap) (ops : List (Op α)) :
    (after cap q ops).length ≤ cap := by
  induction ops generalizing q with
  | nil => exact h
  | cons op ops ih =>
    rcases op with a | _
    · exact ih (length_put_le h a)
    · apply ih
      rw [List.length_tail]
      exact Nat.le_trans (Nat.sub_le _ _) h

/-- **Nothing is reordered, repeated or made up.** -/
theorem taken_append_after_sublist (q : List α) (ops : List (Op α)) :
    (taken cap q ops ++ after cap q ops).Sublist (q ++ arrivals ops) := by
  induction ops generalizing q with
  | nil => exact List.sublist_append_left q []
  | cons op ops ih =>
    rcases op with a | _
    · have hput := (put_sublist cap q a).append_right (arrivals ops)
      rw [List.append_assoc] at hput
      exact (ih (put cap q a)).trans hput
    · have htake := (ih q.tail).append_left q.head?.toList
      rw [← List.append_assoc, ← List.append_assoc, head?_toList_append_tail] at htake
      exact htake

/-- **Nothing is lost**, as long as every item finds room. -/
theorem taken_append_after_eq {q : List α} {ops : List (Op α)} (h : Room cap q ops) :
    taken cap q ops ++ after cap q ops = q ++ arrivals ops := by
  induction ops generalizing q with
  | nil => exact (List.append_nil q).symm
  | cons op ops ih =>
    rcases op with a | _
    · obtain ⟨hlt, hroom⟩ := h
      have hall := ih hroom
      rw [put_of_lt hlt, List.append_assoc] at hall
      rw [after, taken, put_of_lt hlt]
      exact hall
    · have hall := ih (q := q.tail) h
      rw [taken, after, List.append_assoc, hall, ← List.append_assoc, head?_toList_append_tail]
      rfl

/-- What is queued is taken in its turn, whatever else arrives. -/
theorem isPrefix_taken_append_after (q : List α) (ops : List (Op α)) :
    q <+: taken cap q ops ++ after cap q ops := by
  induction ops generalizing q with
  | nil => exact List.prefix_refl q
  | cons op ops ih =>
    rcases op with a | _
    · refine List.IsPrefix.trans ?_ (ih (put cap q a))
      by_cases hlt : q.length < cap
      · rw [put_of_lt hlt]
        exact List.prefix_append q [a]
      · exact ⟨[], by rw [List.append_nil, put_of_le (Nat.le_of_not_lt hlt)]⟩
    · have htake := (List.prefix_append_right_inj q.head?.toList).mpr (ih q.tail)
      rw [← List.append_assoc, head?_toList_append_tail] at htake
      exact htake

/-! ## Dropping the oldest -/

/-- The queue after an item has arrived, if the oldest item makes room for it. -/
def slide (cap : ℕ) (q : List α) (a : α) : List α :=
  if q.length < cap then q ++ [a] else q.tail ++ [a]

/-- The queue after a history, if the oldest items make room. -/
def slideAfter (cap : ℕ) : List α → List (Op α) → List α
  | q, [] => q
  | q, .put a :: ops => slideAfter cap (slide cap q a) ops
  | q, .take :: ops => slideAfter cap q.tail ops

/-- The answers to the takes of a history, if the oldest items make room. -/
def slideTaken (cap : ℕ) : List α → List (Op α) → List (Option α)
  | _, [] => []
  | q, .put a :: ops => slideTaken cap (slide cap q a) ops
  | q, .take :: ops => q.head? :: slideTaken cap q.tail ops

theorem slide_of_lt {q : List α} (h : q.length < cap) (a : α) : slide cap q a = q ++ [a] :=
  if_pos h

theorem slide_of_le {q : List α} (h : cap ≤ q.length) (a : α) : slide cap q a = q.tail ++ [a] :=
  if_neg (Nat.not_lt_of_le h)

/-- Moving up by one place changes nothing exactly if all places hold the same. -/
theorem cons_eq_append_singleton_iff {x a : α} {q : List α} :
    x :: q = q ++ [a] ↔ ∀ y ∈ x :: q, y = a := by
  induction q generalizing x with
  | nil => simp
  | cons y q ih =>
    rw [List.cons_append, List.cons.injEq, ih, List.forall_mem_cons (a := x)]
    apply and_congr_left
    intro h
    rw [h y List.mem_cons_self]

/-- **Where the policies differ.** -/
theorem put_eq_slide_iff (hcap : 0 < cap) {q : List α} {a : α} :
    put cap q a = slide cap q a ↔ q.length < cap ∨ ∀ x ∈ q, x = a := by
  by_cases hlt : q.length < cap
  · rw [put_of_lt hlt, slide_of_lt hlt]
    exact iff_of_true rfl (Or.inl hlt)
  · have hle := Nat.le_of_not_lt hlt
    rw [put_of_le hle, slide_of_le hle, or_iff_right hlt]
    rcases q with _ | ⟨x, q⟩
    · exact absurd hcap hlt
    · exact cons_eq_append_singleton_iff

/-- **Without takes** the queue holds the newest `cap` items. -/
theorem slideAfter_put (hcap : 0 < cap) {q : List α} (hq : q.length ≤ cap) (as : List α) :
    slideAfter cap q (as.map .put) = (q ++ as).drop ((q ++ as).length - cap) := by
  induction as generalizing q with
  | nil =>
    rw [List.append_nil, Nat.sub_eq_zero_of_le hq]
    rfl
  | cons a as ih =>
    rw [List.map_cons, slideAfter]
    by_cases hlt : q.length < cap
    · have hnext : (q ++ [a]).length ≤ cap := by rwa [List.length_append]
      rw [slide_of_lt hlt, ih hnext, List.append_assoc, List.singleton_append]
    · -- the oldest item is in front, and it is not among the newest `cap`
      rcases q with _ | ⟨x, q⟩
      · exact absurd hcap hlt
      · have hle := Nat.le_of_not_lt hlt
        have hnext : (q ++ [a]).length ≤ cap := by simpa using hq
        rw [slide_of_le hle, List.tail_cons, ih hnext, List.append_assoc, List.singleton_append,
          List.cons_append, List.length_cons,
          show (q ++ a :: as).length + 1 - cap = (q ++ a :: as).length - cap + 1 by
            simp only [List.length_append, List.length_cons] at hle ⊢
            omega,
          List.drop_succ_cons]

end BoundedQueue
