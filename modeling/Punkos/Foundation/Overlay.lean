import Mathlib.Data.List.Basic
import Mathlib.Logic.Function.Basic

/-!
# Overlays

Layers put on top of each other: each says what it puts at the places it covers, and the last one
that covers a place wins. The fact that makes incremental drawing possible is `overlay_overlay`:
what is put on top of an older overlay hides it, if it covers all that the older one covers.

The second half is about loops that draw. Such a loop is *oblivious* if what it draws does not
depend on what is there already; then it can be run in two passes (`foldlM_eq_map_mapM`), one that
decides and may fail, and one that draws and cannot.
-/

/-- What is put at the places that are covered. -/
def Layer (ι α : Type) : Type := ι → Option α

namespace Layer

variable {ι α : Type}

/-- A layer on top of a picture. -/
def onto (l : Layer ι α) (f : ι → α) : ι → α := fun i ↦ (l i).getD (f i)

/-- Layers on top of a picture, the last one uppermost. -/
def overlay (ls : List (Layer ι α)) (f : ι → α) : ι → α := ls.foldl (fun f l ↦ l.onto f) f

/-- Some layer covers the place. -/
def Covers (ls : List (Layer ι α)) (i : ι) : Prop := ∃ l ∈ ls, (l i).isSome = true

section Overlay

variable {ls ls' : List (Layer ι α)} {l : Layer ι α} {f g : ι → α} {i : ι}

theorem onto_of_none (h : l i = none) : l.onto f i = f i := by
  rw [onto, h]
  rfl

theorem onto_of_some {a : α} (h : l i = some a) : l.onto f i = a := by
  rw [onto, h]
  rfl

theorem overlay_cons (l : Layer ι α) (ls : List (Layer ι α)) (f : ι → α) :
    overlay (l :: ls) f = overlay ls (l.onto f) := rfl

theorem overlay_append (ls ls' : List (Layer ι α)) (f : ι → α) :
    overlay (ls ++ ls') f = overlay ls' (overlay ls f) := by
  unfold overlay
  rw [List.foldl_append]

theorem covers_cons : Covers (l :: ls) i ↔ (l i).isSome = true ∨ Covers ls i := by
  unfold Covers
  simp

/-- Where nothing covers it, the picture shows through. -/
theorem overlay_of_not_covers (h : ¬Covers ls i) : overlay ls f i = f i := by
  induction ls generalizing f with
  | nil => rfl
  | cons l ls ih =>
    obtain ⟨hl, hls⟩ := not_or.mp (mt covers_cons.mpr h)
    rw [overlay_cons, ih hls]
    exact onto_of_none (Option.not_isSome_iff_eq_none.mp hl)

/-- Where something covers it, the picture does not matter. -/
theorem overlay_of_covers (h : Covers ls i) : overlay ls f i = overlay ls g i := by
  induction ls generalizing f g with
  | nil =>
    obtain ⟨l, hl, -⟩ := h
    exact absurd hl List.not_mem_nil
  | cons l ls ih =>
    rw [overlay_cons, overlay_cons]
    by_cases hls : Covers ls i
    · exact ih hls
    · obtain ⟨a, ha⟩ := Option.isSome_iff_exists.mp ((covers_cons.mp h).resolve_right hls)
      rw [overlay_of_not_covers hls, overlay_of_not_covers hls, onto_of_some ha, onto_of_some ha]

/-- **Hiding.** An overlay that covers what an older one covers hides it. -/
theorem overlay_overlay (h : ∀ i, Covers ls i → Covers ls' i) (f : ι → α) :
    overlay ls' (overlay ls f) = overlay ls' f := by
  funext i
  by_cases hi : Covers ls' i
  · exact overlay_of_covers hi
  · rw [overlay_of_not_covers hi, overlay_of_not_covers hi, overlay_of_not_covers (mt (h i) hi)]

/-- Where the layers that cover a place agree, that is what the place shows. -/
theorem overlay_eq_of_agree {a : α} (h : ∀ l ∈ ls, ∀ b, l i = some b → b = a) (hi : Covers ls i) :
    overlay ls f i = a := by
  induction ls generalizing f with
  | nil =>
    obtain ⟨l, hl, -⟩ := hi
    exact absurd hl List.not_mem_nil
  | cons l ls ih =>
    rw [overlay_cons]
    have hrest : ∀ l ∈ ls, ∀ b, l i = some b → b = a := fun l' hl' ↦
      h l' (List.mem_cons_of_mem l hl')
    by_cases hls : Covers ls i
    · exact ih hrest hls
    · obtain ⟨b, hb⟩ := Option.isSome_iff_exists.mp ((covers_cons.mp hi).resolve_right hls)
      rw [overlay_of_not_covers hls, onto_of_some hb]
      exact h l List.mem_cons_self b hb

end Overlay

end Layer

/-! ## Oblivious loops -/

section Oblivious

variable {ε α β γ : Type}

theorem Except.ok_bind (a : α) (k : α → Except ε β) : (.ok a >>= k : Except ε β) = k a := rfl

/-- Two commands that decide alike and go on alike. -/
theorem Except.bind_eq_map_bind {x : Except ε α} {k : α → Except ε β} {k' : α → Except ε γ}
    {d : γ → β} (h : ∀ a, x = .ok a → k a = (k' a).map d) : (x >>= k) = (x >>= k').map d := by
  rcases x with e | a
  · rfl
  · exact h a rfl

/-- **An oblivious loop in two passes.** `g` decides, from the element alone, what `d` draws. -/
theorem foldlM_eq_map_mapM {f : β → α → Except ε β} {g : α → Except ε γ} {d : β → γ → β}
    {I : β → Prop} (xs : List α) (hI : ∀ b c, I b → I (d b c))
    (hf : ∀ b, I b → ∀ a ∈ xs, f b a = (g a).map (d b)) {b : β} (hb : I b) :
    xs.foldlM f b = (xs.mapM g).map fun cs ↦ cs.foldl d b := by
  induction xs generalizing b with
  | nil => rfl
  | cons a xs ih =>
    rw [List.foldlM_cons, List.mapM_cons, hf b hb a List.mem_cons_self]
    rcases g a with e | c
    · rfl
    · have hrest := ih (fun b hb a' ha' ↦ hf b hb a' (List.mem_cons_of_mem a ha')) (hI b c hb)
      apply hrest.trans
      change _ = Except.map _ (xs.mapM g >>= fun cs ↦ pure (c :: cs))
      rcases xs.mapM g with e | cs <;> rfl

/-- A loop that does not fail. -/
theorem foldlM_of_ok {f : β → α → Except ε β} {g : β → α → β} {I : β → Prop}
    (hI : ∀ b a, I b → I (g b a)) (hf : ∀ b a, I b → f b a = .ok (g b a)) (xs : List α) {b : β}
    (hb : I b) : xs.foldlM f b = .ok (xs.foldl g b) := by
  induction xs generalizing b with
  | nil => rfl
  | cons a xs ih =>
    rw [List.foldlM_cons, hf b a hb]
    exact ih (hI b a hb)

theorem mapM_of_ok {g : α → Except ε β} {f : α → β} {xs : List α}
    (h : ∀ a ∈ xs, g a = .ok (f a)) : xs.mapM g = .ok (xs.map f) := by
  induction xs with
  | nil => rfl
  | cons a xs ih =>
    obtain ⟨ha, hxs⟩ := List.forall_mem_cons.mp h
    rw [List.mapM_cons, ha, Except.ok_bind, ih hxs]
    rfl

/-- What a sequence of two returns, the second returns. -/
theorem Except.bind_eq_ok {x : Except ε α} {k : α → Except ε β} {b : β} (h : (x >>= k) = .ok b) :
    ∃ a, x = .ok a ∧ k a = .ok b := by
  rcases x with e | a
  · cases h
  · exact ⟨a, rfl, h⟩

/-- Every result comes from an element. -/
theorem exists_of_mem_mapM {g : α → Except ε γ} {xs : List α} {cs : List γ}
    (h : xs.mapM g = .ok cs) {c : γ} (hc : c ∈ cs) : ∃ a ∈ xs, g a = .ok c := by
  induction xs generalizing cs with
  | nil =>
    obtain rfl : [] = cs := Except.ok.inj h
    exact absurd hc List.not_mem_nil
  | cons a xs ih =>
    rw [List.mapM_cons] at h
    obtain ⟨c', hg, h⟩ := Except.bind_eq_ok h
    obtain ⟨cs', hrest, h⟩ := Except.bind_eq_ok h
    obtain rfl : c' :: cs' = cs := Except.ok.inj h
    rcases List.mem_cons.mp hc with rfl | hc
    · exact ⟨a, List.mem_cons_self, hg⟩
    · obtain ⟨a', ha', hga'⟩ := ih hrest hc
      exact ⟨a', List.mem_cons_of_mem a ha', hga'⟩

/-- What can go wrong. -/
def Except.FailsOnly (x : Except ε α) (Q : ε → Prop) : Prop := ∀ e, x = .error e → Q e

section FailsOnly

variable {Q : ε → Prop} {x : Except ε α} {k : α → Except ε β}

theorem Except.FailsOnly.pure (a : α) : (Pure.pure a : Except ε α).FailsOnly Q := by
  rintro e ⟨⟩

theorem Except.FailsOnly.bind (hx : x.FailsOnly Q) (hk : ∀ a, x = .ok a → (k a).FailsOnly Q) :
    (x >>= k).FailsOnly Q := by
  rcases x with e | a
  · rintro e' ⟨⟩
    exact hx e rfl
  · exact hk a rfl

theorem Except.FailsOnly.map (hx : x.FailsOnly Q) (f : α → β) : (x.map f).FailsOnly Q := by
  rcases x with e | a
  · rintro e' ⟨⟩
    exact hx e rfl
  · rintro e ⟨⟩

theorem Except.FailsOnly.mapM {g : α → Except ε β} {xs : List α}
    (hg : ∀ a ∈ xs, (g a).FailsOnly Q) : (xs.mapM g).FailsOnly Q := by
  induction xs with
  | nil => exact .pure []
  | cons a xs ih =>
    rw [List.mapM_cons]
    refine (hg a List.mem_cons_self).bind fun b _ ↦ ?_
    exact (ih fun a' ha' ↦ hg a' (List.mem_cons_of_mem a ha')).bind fun bs _ ↦ .pure (b :: bs)

end FailsOnly

end Oblivious
