import Mathlib.Logic.Function.Basic

/-!
# Spin locks and their owners

A table of locks records for each lock who holds it. The table is *accurate* if it agrees with what
the owners themselves believe; each owner holds at most one lock at a time. The three rules say
that taking, releasing and leaving the locks alone keep a table accurate, so that a development
only has to say what each step of each owner does.
-/

namespace SpinLock

variable {L O : Type*}

/-- The table says of each lock who holds it, and each owner knows the lock it holds. -/
def Accurate (table : L → Option O) (held : O → Option L) : Prop :=
  ∀ l o, table l = some o ↔ held o = some l

variable {table : L → Option O} {held held' : O → Option L}

theorem Accurate.congr (h : Accurate table held) (hheld : ∀ o, held' o = held o) :
    Accurate table held' := by
  rw [funext hheld]
  exact h

variable [DecidableEq L] [DecidableEq O]

/-- One lock and one owner change together, and nobody else notices. -/
theorem Accurate.update (h : Accurate table held) {l : L} {o : O} {x : Option O} {y : Option L}
    (hxy : x = some o ↔ y = some l) (hx : ∀ o', o' ≠ o → (x = some o' ↔ table l = some o'))
    (hy : ∀ l', l' ≠ l → (held o = some l' ↔ y = some l')) :
    Accurate (Function.update table l x) (Function.update held o y) := by
  intro l' o'
  by_cases hl : l' = l
  · subst hl
    rw [Function.update_self]
    by_cases ho : o' = o
    · subst ho
      rwa [Function.update_self]
    · rw [Function.update_of_ne ho, hx o' ho]
      exact h l' o'
  · rw [Function.update_of_ne hl]
    by_cases ho : o' = o
    · subst ho
      rw [Function.update_self, h l' o']
      exact hy l' hl
    · rw [Function.update_of_ne ho]
      exact h l' o'

/-- A free lock is taken by somebody who holds none. -/
theorem Accurate.acquire (h : Accurate table held) {l : L} {o : O} (hfree : table l = none)
    (hnone : held o = none) (hheld : held' = Function.update held o (some l)) :
    Accurate (Function.update table l (some o)) held' := by
  rw [hheld]
  refine h.update (iff_of_true rfl rfl) (fun o' ho ↦ ?_) (fun l' hl ↦ ?_)
  · simp [hfree, ho.symm]
  · simp [hnone, hl.symm]

/-- The owner of a lock releases it. -/
theorem Accurate.release (h : Accurate table held) {l : L} {o : O} (hown : held o = some l)
    (hheld : held' = Function.update held o none) :
    Accurate (Function.update table l none) held' := by
  have htable : table l = some o := (h l o).mpr hown
  rw [hheld]
  refine h.update (by simp) (fun o' ho ↦ ?_) (fun l' hl ↦ ?_)
  · simp [htable, ho.symm]
  · simp [hown, hl.symm]

end SpinLock
