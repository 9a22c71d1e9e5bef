import Mathlib.Data.List.Basic
import Mathlib.Data.List.Induction
import Mathlib.Logic.Relation

/-!
# Erasing the item before

A list in which one item, the eraser, means "remove what comes before me". As a rewriting system:
an item that is no eraser goes together with an eraser right behind it, and an eraser at the very
front goes alone. The rules say nothing about the order in which they are applied.

`typed` applies them from left to right, with what is left so far at hand. It is what every order
leads to: each list has exactly one normal form, and `typed` computes it (`isNormalForm_iff`). The
proof needs no confluence. `typed` does not change under a rule, and it leaves a list without
erasers as it is.
-/

namespace Cancellation

open Relation (ReflTransGen)

variable {α : Type*} {b : α}

/-- One application of a rule, `b` being the eraser. -/
inductive Step (b : α) : List α → List α → Prop
  /-- An item and an eraser right behind it. -/
  | pair {c : α} (hc : c ≠ b) (l r : List α) : Step b (l ++ c :: b :: r) (l ++ r)
  /-- An eraser at the front. -/
  | front (r : List α) : Step b (b :: r) r

/-- `l` can be rewritten to `m`, and `m` no further. -/
def IsNormalForm (b : α) (l m : List α) : Prop := ReflTransGen (Step b) l m ∧ ∀ n, ¬Step b m n

/-- A rule applies as long as there is an eraser: the first one has no eraser before it. -/
theorem exists_step_of_mem {l : List α} (h : b ∈ l) : ∃ m, Step b l m := by
  classical
  obtain ⟨pre, r, rfl, hpre⟩ := List.eq_append_cons_of_mem h
  rcases List.eq_nil_or_concat' pre with rfl | ⟨init, c, rfl⟩
  · exact ⟨r, Step.front r⟩
  · have hc : c ≠ b := by
      rintro rfl
      exact hpre (by simp)
    rw [List.append_assoc, List.singleton_append]
    exact ⟨init ++ r, Step.pair hc init r⟩

/-- Without an eraser no rule applies. -/
theorem Step.mem {l m : List α} (h : Step b l m) : b ∈ l := by
  rcases h with ⟨-, l, r⟩ | r
  · simp
  · exact List.mem_cons_self

variable [DecidableEq α]

/-- The next item is taken in. -/
def type (b : α) (line : List α) (c : α) : List α := if c = b then line.dropLast else line ++ [c]

/-- All items are taken in, from left to right. -/
def typed (b : α) (l : List α) : List α := l.foldl (type b) []

theorem type_eraser (line : List α) : type b line b = line.dropLast := if_pos rfl

theorem type_of_ne {c : α} (hc : c ≠ b) (line : List α) : type b line c = line ++ [c] := if_neg hc

@[simp] theorem typed_concat (l : List α) (c : α) : typed b (l ++ [c]) = type b (typed b l) c :=
  List.foldl_concat ..

/-- A rule does not change the result. -/
theorem Step.typed_eq {l m : List α} (h : Step b l m) : typed b l = typed b m := by
  rcases h with ⟨hc, l, r⟩ | r
  · rw [typed, typed, List.foldl_append, List.foldl_append, List.foldl_cons, List.foldl_cons,
      type_of_ne hc, type_eraser, List.dropLast_concat]
  · rw [typed, List.foldl_cons, type_eraser]
    rfl

/-- The items are taken in by applications of the rules. -/
theorem reflTransGen_foldl {line : List α} (hline : b ∉ line) (l : List α) :
    ReflTransGen (Step b) (line ++ l) (l.foldl (type b) line) ∧ b ∉ l.foldl (type b) line := by
  induction l generalizing line with
  | nil =>
    rw [List.append_nil]
    exact ⟨ReflTransGen.refl, hline⟩
  | cons c l ih =>
    rw [List.foldl_cons]
    by_cases hc : c = b
    · subst hc
      have hdrop : c ∉ line.dropLast := fun hmem ↦ hline (List.dropLast_subset line hmem)
      obtain ⟨hrest, hnormal⟩ := ih hdrop
      rw [type_eraser]
      refine ⟨ReflTransGen.head ?_ hrest, hnormal⟩
      rcases List.eq_nil_or_concat' line with rfl | ⟨init, d, rfl⟩
      · exact Step.front l
      · have hd : d ≠ c := by
          rintro rfl
          exact hline (by simp)
        rw [List.dropLast_concat, List.append_assoc, List.singleton_append]
        exact Step.pair hd init l
    · rw [type_of_ne hc]
      have hsnoc : b ∉ line ++ [c] := by
        simp [hline, Ne.symm hc]
      have hstep := ih hsnoc
      rwa [List.append_assoc, List.singleton_append] at hstep

/-- The normal form of a list without erasers is the list. -/
theorem typed_of_notMem {l : List α} (h : b ∉ l) : typed b l = l := by
  induction l using List.reverseRecOn with
  | nil => rfl
  | append_singleton l c ih =>
    rw [List.mem_append, not_or, List.mem_singleton] at h
    rw [typed_concat, ih h.1, type_of_ne (Ne.symm h.2)]

/-- **The normal form.** There is exactly one, and it is found from left to right. -/
theorem isNormalForm_iff {l m : List α} : IsNormalForm b l m ↔ m = typed b l := by
  constructor
  · rintro ⟨hsteps, hnormal⟩
    have hm : b ∉ m := fun hmem ↦ (exists_step_of_mem hmem).elim hnormal
    rw [← typed_of_notMem hm]
    clear hnormal hm
    induction hsteps with
    | refl => rfl
    | tail _ hstep ih => exact hstep.typed_eq.symm.trans ih
  · rintro rfl
    obtain ⟨hsteps, hmem⟩ := reflTransGen_foldl (b := b) List.not_mem_nil l
    exact ⟨hsteps, fun n hstep ↦ hmem hstep.mem⟩

end Cancellation
