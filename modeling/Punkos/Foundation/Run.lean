import Mathlib.Logic.Basic
import Mathlib.Data.List.Basic
import Mathlib.Data.List.Induction
import Mathlib.Data.Nat.Init

/-!
# Finite runs of a labelled transition system

A run is a list of labels together with the two states it connects, built by adding steps at the
far end. That direction is the one safety arguments need: the states a run passes through are the
end points of its prefixes, so a property of every reachable state is proved by looking at the last
step only.

A *guarded* relation keeps the steps whose source state and label satisfy a condition. Running the
guarded relation is how "every step of the run meets the condition" is said here; no separate
predicate on runs is needed.

Where steps are computed, a run is its list of labels, and a property of all states it passes
through is one of all prefixes. `forall_prefix_cons_iff` takes such properties apart from the
front.

What is seen of a run is put together from what is seen of its steps (`Trace`). A relation between
what has been seen and the state reached is proved like an invariant, and a machine that answers as
another one would is such a relation.

A run that never ends is a schedule, which says what happens at each time. What is bound to happen
in it follows from what happens again and again (`Recurs.leadsTo`). Its finite stretches are runs
(`Endless.trace`). That there is such a run is shown by one that goes round in the end (`lasso`).
-/

namespace Transition

variable {σ α : Type*}

/-- A finite run of the labelled step relation `r`, extended at its end. -/
inductive Run (r : σ → α → σ → Prop) : σ → List α → σ → Prop
  /-- The empty run stays where it is. -/
  | nil (s : σ) : Run r s [] s
  /-- One more step at the end. -/
  | snoc {s t u : σ} {as : List α} {a : α} : Run r s as t → r t a u → Run r s (as ++ [a]) u

/-- The steps of `r` whose source state and label meet `C`. -/
def Guarded (r : σ → α → σ → Prop) (C : σ → α → Prop) : σ → α → σ → Prop :=
  fun s a t ↦ r s a t ∧ C s a

variable {r r' : σ → α → σ → Prop}

/-- **The invariant rule.** What holds at the start and is kept by every step holds at the end of
every run. -/
theorem Run.invariant {I : σ → Prop} {s t : σ} {as : List α}
    (hstep : ∀ t a u, I t → r t a u → I u) (hs : I s) (h : Run r s as t) : I t := by
  induction h with
  | nil => exact hs
  | snoc _ hr ih => exact hstep _ _ _ ih hr

theorem Run.mono {s t : σ} {as : List α} (hr : ∀ s a t, r s a t → r' s a t)
    (h : Run r s as t) : Run r' s as t := by
  induction h with
  | nil => exact Run.nil _
  | snoc _ hs ih => exact ih.snoc (hr _ _ _ hs)

theorem Run.append {s t u : σ} {as bs : List α} (h₁ : Run r s as t) (h₂ : Run r t bs u) :
    Run r s (as ++ bs) u := by
  induction h₂ with
  | nil => rwa [List.append_nil]
  | snoc _ hr ih =>
    rw [← List.append_assoc]
    exact ih.snoc hr

theorem Run.single {s t : σ} {a : α} (h : r s a t) : Run r s [a] t := (Run.nil s).snoc h

theorem run_nil_iff {s t : σ} : Run r s [] t ↔ s = t := by
  constructor
  · intro h
    generalize hl : ([] : List α) = l at h
    cases h with
    | nil => rfl
    | snoc => simp at hl
  · rintro rfl
    exact Run.nil s

/-- The last step of a run, separated from what comes before it. -/
theorem run_concat_iff {s u : σ} {as : List α} {a : α} :
    Run r s (as ++ [a]) u ↔ ∃ t, Run r s as t ∧ r t a u := by
  constructor
  · intro h
    generalize hl : as ++ [a] = l at h
    cases h with
    | nil => simp at hl
    | snoc h hr =>
      obtain ⟨rfl, rfl⟩ : as = _ ∧ a = _ := by simpa using hl
      exact ⟨_, h, hr⟩
  · rintro ⟨t, h, hr⟩
    exact h.snoc hr

theorem run_append_iff {s u : σ} {as bs : List α} :
    Run r s (as ++ bs) u ↔ ∃ t, Run r s as t ∧ Run r t bs u := by
  constructor
  · intro h
    induction bs using List.reverseRecOn generalizing u with
    | nil => exact ⟨u, by simpa using h, Run.nil u⟩
    | append_singleton bs b ih =>
      rw [← List.append_assoc, run_concat_iff] at h
      obtain ⟨t, ht, hr⟩ := h
      obtain ⟨v, hv, hvt⟩ := ih ht
      exact ⟨v, hv, hvt.snoc hr⟩
  · rintro ⟨t, h₁, h₂⟩
    exact h₁.append h₂

/-- A program that computes steps computes runs. -/
theorem run_of_foldlM {next : σ → α → Option σ} (hnext : ∀ s a t, next s a = some t → r s a t)
    {s t : σ} {as : List α} (h : as.foldlM next s = some t) : Run r s as t := by
  induction as generalizing s with
  | nil =>
    obtain rfl := Option.some.inj h
    exact Run.nil s
  | cons a as ih =>
    rw [List.foldlM_cons] at h
    obtain ⟨u, hu, h⟩ := Option.bind_eq_some_iff.mp h
    exact (Run.single (hnext s a u hu)).append (ih h)

/-- Where a step is determined by its label, so is a run by its labels. -/
theorem Run.deterministic {s t t' : σ} {as : List α}
    (hdet : ∀ s a t t', r s a t → r s a t' → t = t')
    (h : Run r s as t) (h' : Run r s as t') : t = t' := by
  induction h generalizing t' with
  | nil => exact run_nil_iff.mp h'
  | snoc _ hr ih =>
    obtain ⟨u, hu, hr'⟩ := run_concat_iff.mp h'
    obtain rfl := ih hu
    exact hdet _ _ _ _ hr hr'

/-- A run of a guarded relation is a run of the relation itself. -/
theorem Run.of_guarded {C : σ → α → Prop} {s t : σ} {as : List α}
    (h : Run (Guarded r C) s as t) : Run r s as t :=
  h.mono fun _ _ _ hr ↦ hr.1

/-- A run each of whose steps meets `C` is a run of the guarded relation. -/
theorem Run.guarded {C : σ → α → Prop} {s t : σ} {as : List α} (h : Run r s as t)
    (hC : ∀ pre a u v, pre ++ [a] <+: as → Run r s pre u → r u a v → C u a) :
    Run (Guarded r C) s as t := by
  induction h with
  | nil => exact Run.nil _
  | snoc h hr ih =>
    have hpre := ih fun pre a u v hpre ↦ hC pre a u v (hpre.trans (List.prefix_append _ _))
    exact hpre.snoc ⟨hr, hC _ _ _ _ (List.prefix_refl _) h hr⟩

/-- **The rule of the exact condition.** If a step from a state with `I` leads to one with `I`
precisely when it meets `C`, then a run has `I` in every state precisely when all its steps meet
`C`. -/
theorem Run.forall_prefix_iff_guarded {W I : σ → Prop} {C : σ → α → Prop} {s t : σ} {as : List α}
    (hdet : ∀ s a t t', r s a t → r s a t' → t = t') (hW : ∀ s a t, W s → r s a t → W t)
    (hstep : ∀ s a t, W s → I s → r s a t → (I t ↔ C s a)) (hs : W s ∧ I s) (h : Run r s as t) :
    (∀ pre u, pre <+: as → Run r s pre u → I u) ↔ Run (Guarded r C) s as t := by
  constructor
  · intro hI
    refine h.guarded fun pre a u v hpre hu hr ↦ ?_
    have hWu : W u := hu.invariant (fun _ _ _ hw hr ↦ hW _ _ _ hw hr) hs.1
    have hIu := hI pre u ((List.prefix_append _ _).trans hpre) hu
    exact (hstep u a v hWu hIu hr).mp (hI _ v hpre (hu.snoc hr))
  · rintro hguarded pre u ⟨rest, rfl⟩ hu
    obtain ⟨v, hpre, -⟩ := run_append_iff.mp hguarded
    obtain rfl := Run.deterministic hdet hu hpre.of_guarded
    have hboth : W u ∧ I u := by
      refine hpre.invariant (I := fun u ↦ W u ∧ I u) ?_ hs
      rintro x a y ⟨hw, hi⟩ ⟨hr, hC⟩
      exact ⟨hW x a y hw hr, (hstep x a y hw hi hr).mpr hC⟩
    exact hboth.2

/-! ## Prefixes -/

/-- A property of all prefixes, taken apart at the first label. -/
theorem forall_prefix_cons_iff {P : List α → Prop} {a : α} {as : List α} :
    (∀ pre, pre <+: a :: as → P pre) ↔ P [] ∧ ∀ pre, pre <+: as → P (a :: pre) := by
  constructor
  · intro h
    exact ⟨h [] List.nil_prefix, fun pre hpre ↦ h _ ((List.prefix_cons_inj a).mpr hpre)⟩
  · rintro ⟨hnil, hcons⟩ pre hpre
    rcases List.prefix_cons_iff.mp hpre with rfl | ⟨pre, rfl, htail⟩
    · exact hnil
    · exact hcons pre htail

/-- A label and what comes before it: it is the first one, or it comes after the first one. -/
theorem concat_prefix_cons_iff {pre as : List α} {a b : α} :
    pre ++ [b] <+: a :: as ↔
      pre = [] ∧ b = a ∨ ∃ pre', pre = a :: pre' ∧ pre' ++ [b] <+: as := by
  rcases pre with _ | ⟨c, pre⟩
  · rw [List.nil_append, List.cons_prefix_cons, and_iff_left List.nil_prefix]
    simp
  · rw [List.cons_append, List.cons_prefix_cons]
    simp

/-! ## Traces -/

section Traces

variable {β : Type*} {obs : σ → α → List β}

/-- A run, with what is seen of it. -/
inductive Trace (r : σ → α → σ → Prop) (obs : σ → α → List β) : σ → List α → List β → σ → Prop
  /-- Nothing is seen of the empty run. -/
  | nil (s : σ) : Trace r obs s [] [] s
  /-- One more step at the end. -/
  | snoc {s t u : σ} {as : List α} {l : List β} {a : α} : Trace r obs s as l t → r t a u →
      Trace r obs s (as ++ [a]) (l ++ obs t a) u

theorem Trace.run {s t : σ} {as : List α} {l : List β} (h : Trace r obs s as l t) :
    Run r s as t := by
  induction h with
  | nil => exact Run.nil _
  | snoc _ hr ih => exact ih.snoc hr

/-- Something is seen of every run. -/
theorem Run.exists_trace (obs : σ → α → List β) {s t : σ} {as : List α} (h : Run r s as t) :
    ∃ l, Trace r obs s as l t := by
  induction h with
  | nil => exact ⟨[], Trace.nil _⟩
  | snoc _ hr ih =>
    obtain ⟨l, hl⟩ := ih
    exact ⟨_, hl.snoc hr⟩

/-- **The invariant rule for traces.** What relates the state to what has been done and seen, and is
kept by every step, holds at the end of every trace. -/
theorem Trace.invariant {I : List α → List β → σ → Prop} {s t : σ} {as : List α} {l : List β}
    (hstep : ∀ as l t a u, I as l t → r t a u → I (as ++ [a]) (l ++ obs t a) u) (hs : I [] [] s)
    (h : Trace r obs s as l t) : I as l t := by
  induction h with
  | nil => exact hs
  | snoc _ hr ih => exact hstep _ _ _ _ _ ih hr

/-- A program that computes steps computes traces. -/
theorem trace_of_foldlM {next : σ → α → Option σ} (hnext : ∀ s a t, next s a = some t → r s a t)
    {s t : σ} {as : List α} {l : List β}
    (h : as.foldlM (fun p a ↦ (next p.2 a).map fun u ↦ (p.1 ++ obs p.2 a, u)) ([], s) =
      some (l, t)) : Trace r obs s as l t := by
  induction as using List.reverseRecOn generalizing l t with
  | nil =>
    obtain ⟨rfl, rfl⟩ := Prod.mk.inj (Option.some.inj h)
    exact Trace.nil s
  | append_singleton as a ih =>
    rw [List.foldlM_append] at h
    obtain ⟨⟨m, u⟩, hinit, hlast⟩ := Option.bind_eq_some_iff.mp h
    rw [List.foldlM_cons] at hlast
    obtain ⟨p, hp, hpure⟩ := Option.bind_eq_some_iff.mp hlast
    obtain ⟨v, hv, rfl⟩ := Option.map_eq_some_iff.mp hp
    obtain ⟨rfl, rfl⟩ := Prod.mk.inj (Option.some.inj hpure)
    exact (ih hinit).snoc (hnext u a v hv)

theorem Trace.mono {s t : σ} {as : List α} {l : List β} (hr : ∀ s a t, r s a t → r' s a t)
    (h : Trace r obs s as l t) : Trace r' obs s as l t := by
  induction h with
  | nil => exact Trace.nil _
  | snoc _ hs ih => exact ih.snoc (hr _ _ _ hs)

end Traces

/-! ## Schedules -/

/-- It happens again and again. -/
def Recurs (e : ℕ → Prop) : Prop := ∀ n, ∃ m ≥ n, e m

/-- After `P` comes `Q`, some time later. -/
def LeadsTo (P Q : ℕ → Prop) : Prop := ∀ n, P n → ∃ m > n, Q m

theorem LeadsTo.trans {P Q R : ℕ → Prop} (h : LeadsTo P Q) (h' : LeadsTo Q R) : LeadsTo P R := by
  intro n hn
  obtain ⟨m, hm, hq⟩ := h n hn
  obtain ⟨k, hk, hr⟩ := h' m hq
  exact ⟨k, Nat.lt_trans hm hk, hr⟩

theorem LeadsTo.exists {ι : Type*} {P : ι → ℕ → Prop} {Q : ℕ → Prop} (h : ∀ i, LeadsTo (P i) Q) :
    LeadsTo (fun n ↦ ∃ i, P i n) Q := by
  rintro n ⟨i, hi⟩
  exact h i n hi

/-- **The progress rule.** If `P` is only ever left for `Q`, and something that happens again and
again takes `P` to `Q`, then `P` leads to `Q`. -/
theorem Recurs.leadsTo {e P Q : ℕ → Prop} (he : Recurs e)
    (hstay : ∀ n, P n → P (n + 1) ∨ Q (n + 1)) (hgo : ∀ n, P n → e n → Q (n + 1)) :
    LeadsTo P Q := by
  intro n hn
  by_contra hnever
  have hnot : ∀ m > n, ¬Q m := fun m hm hq ↦ hnever ⟨m, hm, hq⟩
  have hforever : ∀ m ≥ n, P m := by
    intro m hm
    induction m, hm using Nat.le_induction with
    | base => exact hn
    | succ m hm ih => exact (hstay m ih).resolve_right (hnot _ (Nat.lt_succ_of_le hm))
  obtain ⟨m, hm, hem⟩ := he n
  exact hnot _ (Nat.lt_succ_of_le hm) (hgo m (hforever m hm) hem)

/-! ## Runs without an end -/

section Endless

variable {β : Type*} {obs : σ → α → List β} {s : ℕ → σ} {a : ℕ → α}

/-- A run that goes on for ever: the states, and the labels of the steps between them. -/
def Endless (r : σ → α → σ → Prop) (s : ℕ → σ) (a : ℕ → α) : Prop := ∀ n, r (s n) (a n) (s (n + 1))

/-- The labels of `k` steps from time `n` on. -/
def labels (a : ℕ → α) (n k : ℕ) : List α := (List.range' n k).map a

/-- What is seen of these steps. -/
def seen (obs : σ → α → List β) (s : ℕ → σ) (a : ℕ → α) (n k : ℕ) : List β :=
  (List.range' n k).flatMap fun i ↦ obs (s i) (a i)

theorem labels_succ (a : ℕ → α) (n k : ℕ) : labels a n (k + 1) = labels a n k ++ [a (n + k)] := by
  rw [labels, List.range'_1_concat, List.map_append]
  rfl

theorem seen_succ (obs : σ → α → List β) (s : ℕ → σ) (a : ℕ → α) (n k : ℕ) :
    seen obs s a n (k + 1) = seen obs s a n k ++ obs (s (n + k)) (a (n + k)) := by
  rw [seen, List.range'_1_concat, List.flatMap_append, List.flatMap_singleton]
  rfl

theorem labels_add (a : ℕ → α) (n j k : ℕ) :
    labels a n (j + k) = labels a n j ++ labels a (n + j) k := by
  rw [labels, labels, labels, ← List.map_append, List.range'_append_1]

theorem seen_add (obs : σ → α → List β) (s : ℕ → σ) (a : ℕ → α) (n j k : ℕ) :
    seen obs s a n (j + k) = seen obs s a n j ++ seen obs s a (n + j) k := by
  rw [seen, seen, seen, ← List.flatMap_append, List.range'_append_1]

/-- Any stretch of it is a run. -/
theorem Endless.trace (h : Endless r s a) (obs : σ → α → List β) (n k : ℕ) :
    Trace r obs (s n) (labels a n k) (seen obs s a n k) (s (n + k)) := by
  induction k with
  | zero => exact Trace.nil _
  | succ k ih =>
    rw [labels_succ, seen_succ]
    exact ih.snoc (h (n + k))

/-- What happens again and again happens any number of times. -/
theorem Recurs.exists_count [DecidableEq α] {x : α} (h : Recurs fun n ↦ a n = x) (n k : ℕ) :
    ∃ m, k ≤ (labels a n m).count x := by
  induction k with
  | zero => exact ⟨0, Nat.zero_le _⟩
  | succ k ih =>
    obtain ⟨m, hm⟩ := ih
    obtain ⟨j, hj, hx⟩ := h (n + m)
    obtain ⟨d, rfl⟩ := Nat.exists_eq_add_of_le hj
    refine ⟨m + (d + 1), ?_⟩
    rw [labels_add, labels_succ, List.count_append, List.count_append, hx,
      List.count_singleton_self]
    omega

/-- A program that never gets stuck on a list of labels, however long, makes a run without an end.
-/
theorem exists_endless_of_foldlM {next : σ → α → Option σ} {s₀ : σ}
    (h : ∀ n, ∃ k ≥ n, (labels a 0 k).foldlM next s₀ ≠ none) :
    ∃ s : ℕ → σ, s 0 = s₀ ∧ ∀ n, next (s n) (a n) = some (s (n + 1)) := by
  -- what does not get stuck later has not got stuck before
  have hsome : ∀ n, ∃ t, (labels a 0 n).foldlM next s₀ = some t := by
    intro n
    obtain ⟨k, hk, hne⟩ := h n
    obtain ⟨d, rfl⟩ := Nat.exists_eq_add_of_le hk
    rw [labels_add, List.foldlM_append] at hne
    rcases hfold : (labels a 0 n).foldlM next s₀ with _ | t
    · rw [hfold] at hne
      exact absurd rfl hne
    · exact ⟨t, rfl⟩
  choose s hs using hsome
  refine ⟨s, (Option.some.inj (hs 0)).symm, fun n ↦ ?_⟩
  have hlast := hs (n + 1)
  rw [labels_succ, List.foldlM_append, hs n, Nat.zero_add] at hlast
  rcases hnext : next (s n) (a n) with _ | t
  · simp [hnext] at hlast
  · simpa [hnext] using hlast

theorem foldlM_labels {next : σ → α → Option σ} (h : ∀ n, next (s n) (a n) = some (s (n + 1)))
    (n : ℕ) : (labels a 0 n).foldlM next (s 0) = some (s n) := by
  induction n with
  | zero => rfl
  | succ n ih =>
    rw [labels_succ, List.foldlM_append, ih, Nat.zero_add]
    change (next (s n) (a n)).bind some = _
    rw [h]
    rfl

/-! ### Lassos -/

/-- The labels of `pre`, and then those of `cyc` over and over. -/
def lasso (pre cyc : List α) (h : 0 < cyc.length) (n : ℕ) : α :=
  if hn : n < pre.length then pre[n] else cyc.get ⟨(n - pre.length) % cyc.length, Nat.mod_lt _ h⟩

section Lasso

variable {pre cyc : List α} (hcyc : 0 < cyc.length)
include hcyc

/-- Where the lasso is in a round. -/
theorem lasso_round (k : ℕ) {i : ℕ} (hi : i < cyc.length) :
    lasso pre cyc hcyc (pre.length + k * cyc.length + i) = cyc[i] := by
  have hround : (pre.length + k * cyc.length + i - pre.length) % cyc.length = i := by
    rw [Nat.add_assoc, Nat.add_sub_cancel_left, Nat.mul_add_mod_self_right, Nat.mod_eq_of_lt hi]
  rw [lasso, dif_neg (by omega)]
  simp only [hround, List.get_eq_getElem]

theorem labels_lasso (k : ℕ) :
    labels (lasso pre cyc hcyc) 0 (pre.length + k * cyc.length) =
      pre ++ (List.replicate k cyc).flatten := by
  induction k with
  | zero =>
    refine List.ext_getElem (by simp [labels]) fun i hi _ ↦ ?_
    have hpre : i < pre.length := by simpa [labels] using hi
    simp [labels, lasso, hpre]
  | succ k ih =>
    rw [Nat.succ_mul, ← Nat.add_assoc, labels_add, ih, List.replicate_succ', List.flatten_concat,
      List.append_assoc, Nat.zero_add]
    congr 2
    refine List.ext_getElem (by simp [labels]) fun i hi hi' ↦ ?_
    simp [labels, lasso_round hcyc k hi']

/-- What is in the cycle comes again and again. -/
theorem recurs_lasso {x : α} (hx : x ∈ cyc) : Recurs fun n ↦ lasso pre cyc hcyc n = x := by
  intro n
  obtain ⟨i, hi, rfl⟩ := List.getElem_of_mem hx
  have hle : n ≤ n * cyc.length := Nat.le_mul_of_pos_right n hcyc
  exact ⟨pre.length + n * cyc.length + i, by omega, lasso_round hcyc n hi⟩

/-- **The lasso rule.** What a program can run through from any state in which it may come round
again it can go on with for ever. -/
theorem exists_endless_lasso {next : σ → α → Option σ} {I : σ → Prop} {s₀ t₀ : σ}
    (hpre : pre.foldlM next s₀ = some t₀) (h₀ : I t₀)
    (hround : ∀ t, I t → ∃ u, cyc.foldlM next t = some u ∧ I u) :
    ∃ s : ℕ → σ, s 0 = s₀ ∧ ∀ n, next (s n) (lasso pre cyc hcyc n) = some (s (n + 1)) := by
  -- any number of rounds can be run through
  have hrounds : ∀ k t, I t → (List.replicate k cyc).flatten.foldlM next t ≠ none := by
    intro k
    induction k with
    | zero => exact fun t _ ↦ Option.some_ne_none t
    | succ k ih =>
      intro t ht
      obtain ⟨u, hu, hI⟩ := hround t ht
      rw [List.replicate_succ, List.flatten_cons, List.foldlM_append, hu]
      exact ih u hI
  refine exists_endless_of_foldlM fun n ↦ ⟨pre.length + n * cyc.length, ?_, ?_⟩
  · exact Nat.le_trans (Nat.le_mul_of_pos_right n hcyc) (Nat.le_add_left _ _)
  · rw [labels_lasso, List.foldlM_append, hpre]
    exact hrounds n t₀ h₀

end Lasso

end Endless

end Transition
