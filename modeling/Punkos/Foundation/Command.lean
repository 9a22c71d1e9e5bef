import Mathlib.Order.WellFounded

/-!
# Commands that may get stuck

A command transforms a state and returns a value, or gets stuck: it panics, or a loop in it runs
out of fuel. Either way there is a state to look at afterwards. That is what tells `Command` from a
function into `Option`: a statement about *every* run, such as that no access ever happens in the
wrong order, is also about the runs that do not come to an end.

Three ways of reasoning are set up. `Ensures` is a pair of postconditions, one for the runs that
return and one for those that get stuck; `Preserves` is the case of an invariant. `Settles` says
that a command with fuel returns the same result for all large enough fuel. `Simulates` compares a
command with a function into `Option` on a smaller state, and `Reads` is the case of a command that
leaves that smaller state alone.
-/

/-- A command on states `σ` with results in `α`. -/
def Command (σ α : Type) : Type := σ → Option α × σ

namespace Command

variable {σ τ α β γ : Type}

/-- Return a value. -/
def ret (a : α) : Command σ α := fun s ↦ (some a, s)

/-- Run one command, then another one that depends on its result. -/
def andThen (c : Command σ α) (k : α → Command σ β) : Command σ β := fun s ↦
  match c s with
  | (some a, t) => k a t
  | (none, t) => (none, t)

instance : Monad (Command σ) where
  pure := ret
  bind := andThen

/-- Get stuck. -/
def stuck : Command σ α := fun s ↦ (none, s)

/-- Repeat a command until its result passes a test. -/
def untilPasses (c : Command σ α) (p : α → Bool) : ℕ → Command σ α
  | 0 => stuck
  | fuel + 1 => do
    let a ← c
    if p a then return a else untilPasses c p fuel

section Steps

variable {c : Command σ α} {k : α → Command σ β} {s t : σ} {a : α}

theorem pure_apply (a : α) (s : σ) : (pure a : Command σ α) s = (some a, s) := rfl

theorem bind_of_some (h : c s = (some a, t)) : (c >>= k) s = k a t := by
  change andThen c k s = _
  rw [andThen, h]

theorem bind_of_none (h : c s = (none, t)) : (c >>= k) s = (none, t) := by
  change andThen c k s = _
  rw [andThen, h]

theorem ret_bind (a : α) (k : α → Command σ β) : (pure a : Command σ α) >>= k = k a := rfl

theorem bind_bind (c : Command σ α) (k : α → Command σ β) (l : β → Command σ γ) :
    c >>= k >>= l = c >>= fun a ↦ k a >>= l := by
  funext s
  rcases h : c s with ⟨_ | a, t⟩
  · rw [bind_of_none h, bind_of_none (bind_of_none h)]
  · rw [bind_of_some h]
    change andThen (andThen c k) l s = andThen (k a) l t
    rw [andThen, andThen, andThen, h]

theorem untilPasses_of_pass {p : α → Bool} (h : c s = (some a, t)) (hp : p a = true) (fuel : ℕ) :
    untilPasses c p (fuel + 1) s = (some a, t) := by
  rw [untilPasses, bind_of_some h, if_pos hp]
  rfl

theorem untilPasses_of_fail {p : α → Bool} (h : c s = (some a, t)) (hp : p a = false) (fuel : ℕ) :
    untilPasses c p (fuel + 1) s = untilPasses c p fuel t := by
  rw [untilPasses, bind_of_some h, hp, if_neg Bool.noConfusion]

end Steps

/-! ## Postconditions -/

/-- Started in `s`, the command returns with `Q` or gets stuck with `S`. -/
structure Ensures (c : Command σ α) (s : σ) (Q : α → σ → Prop) (S : σ → Prop) : Prop where
  /-- The runs that return. -/
  returns : ∀ a t, c s = (some a, t) → Q a t
  /-- The runs that get stuck. -/
  stuck : ∀ t, c s = (none, t) → S t

section Ensures

variable {c : Command σ α} {k : α → Command σ β} {s t : σ} {a : α} {Q Q' : α → σ → Prop}
  {R : β → σ → Prop} {S S' : σ → Prop}

theorem Ensures.of_eq (h : c s = (some a, t)) (hQ : Q a t) : c.Ensures s Q S where
  returns b u hb := by
    obtain ⟨rfl, rfl⟩ : a = b ∧ t = u := by simpa using h.symm.trans hb
    exact hQ
  stuck u hu := by simp [h] at hu

theorem Ensures.of_stuck (h : c s = (none, t)) (hS : S t) : c.Ensures s Q S where
  returns b u hb := by simp [h] at hb
  stuck u hu := by
    obtain rfl : t = u := by simpa using h.symm.trans hu
    exact hS

theorem Ensures.pure (h : Q a s) : (Pure.pure a : Command σ α).Ensures s Q S :=
  .of_eq (pure_apply a s) h

theorem Ensures.mono (h : c.Ensures s Q S) (hQ : ∀ a t, Q a t → Q' a t) (hS : ∀ t, S t → S' t) :
    c.Ensures s Q' S' :=
  ⟨fun a t ht ↦ hQ a t (h.returns a t ht), fun t ht ↦ hS t (h.stuck t ht)⟩

/-- The state after a run, whether it returns or not. -/
theorem Ensures.after {I : σ → Prop} (h : c.Ensures s (fun _ t ↦ I t) I) : I (c s).2 := by
  rcases hrun : c s with ⟨_ | a, t⟩
  · exact h.stuck t hrun
  · exact h.returns a t hrun

/-- **The rule of sequence.** -/
theorem Ensures.bind (hc : c.Ensures s Q S) (hk : ∀ a t, Q a t → (k a).Ensures t R S) :
    (c >>= k).Ensures s R S := by
  rcases hrun : c s with ⟨_ | a, t⟩
  · exact .of_stuck (bind_of_none hrun) (hc.stuck t hrun)
  · have hcont := hk a t (hc.returns a t hrun)
    constructor
    · intro b u hb
      exact hcont.returns b u (by rwa [bind_of_some hrun] at hb)
    · intro u hu
      exact hcont.stuck u (by rwa [bind_of_some hrun] at hu)

/-- **The loop rule.** What the body keeps, the loop keeps, and the last result passes the test. -/
theorem Ensures.untilPasses {I : σ → Prop} {p : α → Bool}
    (hbody : ∀ s, I s → c.Ensures s (fun a t ↦ I t ∧ Q a t) I) (hs : I s) (fuel : ℕ) :
    (untilPasses c p fuel).Ensures s (fun a t ↦ I t ∧ Q a t ∧ p a = true) I := by
  induction fuel generalizing s with
  | zero => exact .of_stuck rfl hs
  | succ fuel ih =>
    refine (hbody s hs).bind fun a t hat ↦ ?_
    rcases hp : p a with _ | _
    · rw [if_neg Bool.noConfusion]
      exact ih hat.1
    · rw [if_pos rfl]
      exact .pure ⟨hat.1, hat.2, hp⟩

end Ensures

/-- The command keeps an invariant, also when it gets stuck. -/
def Preserves (c : Command σ α) (I : σ → Prop) : Prop :=
  ∀ s, I s → c.Ensures s (fun _ t ↦ I t) I

section Preserves

variable {c : Command σ α} {k : α → Command σ β} {I : σ → Prop}

theorem Preserves.pure (a : α) : (Pure.pure a : Command σ α).Preserves I :=
  fun _ hs ↦ .pure hs

theorem Preserves.bind (hc : c.Preserves I) (hk : ∀ a, (k a).Preserves I) :
    (c >>= k).Preserves I :=
  fun s hs ↦ (hc s hs).bind fun a t ht ↦ hk a t ht

theorem Preserves.untilPasses (hc : c.Preserves I) (p : α → Bool) (fuel : ℕ) :
    (untilPasses c p fuel).Preserves I := by
  intro s hs
  have hloop := Ensures.untilPasses (c := c) (Q := fun _ _ ↦ True) (p := p)
    (fun t ht ↦ (hc t ht).mono (fun _ _ hu ↦ ⟨hu, trivial⟩) fun _ hu ↦ hu) hs fuel
  exact hloop.mono (fun _ _ ht ↦ ht.1) fun _ ht ↦ ht

end Preserves

/-! ## Enough fuel -/

/-- With enough fuel the command returns `a` in state `t`, and more fuel changes nothing. -/
def Settles (c : ℕ → Command σ α) (s : σ) (a : α) (t : σ) : Prop :=
  ∃ n, ∀ fuel, n ≤ fuel → c fuel s = (some a, t)

section Settles

variable {c : ℕ → Command σ α} {k : ℕ → α → Command σ β} {s t u : σ} {a : α} {b : β}

theorem Settles.of_eq {c : Command σ α} (h : c s = (some a, t)) : Settles (fun _ ↦ c) s a t :=
  ⟨0, fun _ _ ↦ h⟩

theorem Settles.bind (hc : Settles c s a t) (hk : Settles (fun fuel ↦ k fuel a) t b u) :
    Settles (fun fuel ↦ c fuel >>= k fuel) s b u := by
  obtain ⟨n, hn⟩ := hc
  obtain ⟨n', hn'⟩ := hk
  refine ⟨max n n', fun fuel hfuel ↦ ?_⟩
  have hfirst := hn fuel (Nat.le_trans (Nat.le_max_left n n') hfuel)
  exact (bind_of_some hfirst).trans (hn' fuel (Nat.le_trans (Nat.le_max_right n n') hfuel))

/-- What all runs ensure, the settled one does. -/
theorem Settles.ensures {Q : α → σ → Prop} {S : σ → Prop} (hc : Settles c s a t)
    (h : ∀ fuel, (c fuel).Ensures s Q S) : Q a t := by
  obtain ⟨n, hn⟩ := hc
  exact (h n).returns a t (hn n (Nat.le_refl n))

/-- **The termination rule for loops.** Each turn either passes the test or goes down in a
well-founded order. -/
theorem Settles.untilPasses {c : Command σ α} {I : σ → Prop} {p : α → Bool} {r : σ → σ → Prop}
    (hr : WellFounded r)
    (hbody : ∀ s, I s → ∃ a t, c s = (some a, t) ∧ I t ∧ (p a = true ∨ r t s)) (hs : I s) :
    ∃ a t, Settles (untilPasses c p) s a t := by
  induction s using hr.induction with
  | _ s ih =>
    obtain ⟨a, t, hrun, ht, hstep⟩ := hbody s hs
    rcases hp : p a with _ | _
    · have hlt : r t s := hstep.resolve_left (by rw [hp]; exact Bool.noConfusion)
      obtain ⟨b, u, n, hn⟩ := ih t hlt ht
      refine ⟨b, u, n + 1, fun fuel hfuel ↦ ?_⟩
      obtain ⟨fuel, rfl⟩ := Nat.exists_eq_add_of_le' (Nat.le_of_add_left_le hfuel)
      rw [untilPasses_of_fail hrun hp]
      exact hn fuel (Nat.le_of_add_le_add_right hfuel)
    · refine ⟨a, t, 1, fun fuel hfuel ↦ ?_⟩
      obtain ⟨fuel, rfl⟩ := Nat.exists_eq_add_of_le' hfuel
      exact untilPasses_of_pass hrun hp fuel

end Settles

/-! ## Simulation -/

/-- Seen through `π`, the command is the function `f`. -/
def Simulates (π : σ → τ) (c : Command σ α) (f : τ → Option (α × τ)) : Prop :=
  ∀ s, f (π s) = (c s).1.map fun a ↦ (a, π (c s).2)

section Simulates

variable {π : σ → τ} {c : Command σ α} {k : α → Command σ β} {f : τ → Option (α × τ)}
  {g : α → τ → Option (β × τ)}

theorem Simulates.pure (π : σ → τ) (a : α) :
    Simulates π (Pure.pure a : Command σ α) fun t ↦ some (a, t) :=
  fun _ ↦ rfl

theorem Simulates.bind (hc : Simulates π c f) (hk : ∀ a, Simulates π (k a) (g a)) :
    Simulates π (c >>= k) fun t ↦ (f t).bind fun r ↦ g r.1 r.2 := by
  intro s
  change (f (π s)).bind _ = _
  rw [hc s]
  rcases hrun : c s with ⟨_ | a, t⟩
  · rw [bind_of_none hrun]
    rfl
  · rw [bind_of_some hrun]
    exact hk a t

theorem Simulates.congr {f' : τ → Option (α × τ)} (h : Simulates π c f) (heq : ∀ t, f' t = f t) :
    Simulates π c f' :=
  fun s ↦ (heq _).trans (h s)

/-- What a simulated command returns, read off the function. -/
theorem Simulates.eq_some (h : Simulates π c f) {s s' : σ} {a : α} (hrun : c s = (some a, s')) :
    f (π s) = some (a, π s') := by
  rw [h s, hrun]
  rfl

/-- And the other way round. -/
theorem Simulates.exists_of_eq_some (h : Simulates π c f) {s : σ} {t : τ} {a : α}
    (hrun : f (π s) = some (a, t)) : ∃ s', c s = (some a, s') ∧ π s' = t := by
  have hmap := (h s).symm.trans hrun
  obtain ⟨b, hb, heq⟩ := Option.map_eq_some_iff.mp hmap
  obtain ⟨rfl, rfl⟩ := Prod.mk.inj heq
  exact ⟨(c s).2, Prod.ext hb rfl, rfl⟩

end Simulates

/-- Seen through `π`, the command only reads: it returns what `f` says of that part of the state,
and leaves the part as it was. -/
def Reads (π : σ → τ) (c : Command σ α) (f : τ → Option α) : Prop :=
  Simulates π c fun t ↦ (f t).map (·, t)

section Reads

variable {π : σ → τ} {c : Command σ α} {k : α → Command σ β} {f : τ → Option α}
  {g : α → τ → Option β}

theorem Reads.pure (π : σ → τ) (a : α) : Reads π (Pure.pure a : Command σ α) fun _ ↦ some a :=
  fun _ ↦ rfl

theorem Reads.bind (hc : Reads π c f) (hk : ∀ a, Reads π (k a) (g a)) :
    Reads π (c >>= k) fun t ↦ f t >>= fun a ↦ g a t := by
  refine (Simulates.bind hc hk).congr fun t ↦ ?_
  dsimp only
  rcases f t with _ | a
  · rfl
  · rfl

/-- A loop that only reads. -/
theorem Reads.foldlM {ι : Type} {step : β → ι → Command σ β} {step' : τ → β → ι → Option β}
    (h : ∀ b i, Reads π (step b i) fun t ↦ step' t b i) (is : List ι) (b : β) :
    Reads π (is.foldlM step b) fun t ↦ is.foldlM (step' t) b := by
  induction is generalizing b with
  | nil => exact Reads.pure π b
  | cons i is ih =>
    simp only [List.foldlM_cons]
    exact (h b i).bind ih

/-- What is read does not depend on the rest of the state. -/
theorem Reads.exists_of_eq_some (h : Reads π c f) {s : σ} {a : α} (hf : f (π s) = some a) :
    ∃ s', c s = (some a, s') ∧ π s' = π s :=
  Simulates.exists_of_eq_some h (congrArg (Option.map (·, π s)) hf)

end Reads

end Command
