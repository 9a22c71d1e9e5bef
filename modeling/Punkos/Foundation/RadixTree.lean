import Mathlib.Data.List.Infix
import Mathlib.Data.List.Nodup
import Mathlib.Data.List.Perm.Subperm
import Mathlib.Data.List.Range
import Mathlib.Logic.Function.Basic

/-!
# Radix trees stored in a memory of nodes

A store gives every node an array of entries. An entry of a node of level `k` either is absent, or
points to a node of level `k - 1`, or ends the walk with a leaf; which of the three it is may
depend on the level. Following a list of indices from the root visits one entry per level.

Two readings of the same walk are kept apart:

* `resolve` follows indices through pointers and returns the *node* reached. It says which nodes
  make up the tree.
* `lookup` follows indices until a leaf ends the walk. It says what the tree *means*: a partial
  function from index lists to leaves.

`Install` is the effect of inserting one leaf, in the order a mapper performs it: at each level the
pointer is followed if it is there, and otherwise a fresh node is cleared and linked in.

## What makes it work

Nodes are shared memory, so an update at one node is visible along every path through it. The tree
is `Unshared` when each of its nodes is reached by one path only. Then an insertion changes the
meaning at the inserted path and nowhere else (`Install.extended`): on `lookup` it acts as
`Function.update` does on functions. That `Unshared` survives the insertion is part of the same
induction, so insertions can be iterated.
-/

namespace RadixTree

/-- What an entry says: nothing, the next node, or the end of the walk. -/
inductive Link (Node Leaf : Type*) where
  /-- Nothing is stored here. -/
  | absent
  /-- The walk goes on at another node. -/
  | node (n : Node)
  /-- The walk ends. -/
  | leaf (l : Leaf)

variable {Node Idx Entry Leaf : Type*}

section Walks

variable (link : ℕ → Entry → Link Node Leaf) (m : Node → Idx → Entry)

/-- The node reached from the level-`k` node `n` along `p`. -/
def resolve : ℕ → Node → List Idx → Option Node
  | _, n, [] => some n
  | 0, _, _ :: _ => none
  | k + 1, n, i :: p =>
    match link (k + 1) (m n i) with
    | .node n' => resolve k n' p
    | _ => none

/-- The leaf that ends the walk from `n` along `p`, with the level of the entry it was found in.
The level of a node is the number of indices left after its own. -/
def lookup : Node → List Idx → Option (Leaf × ℕ)
  | _, [] => none
  | n, i :: p =>
    match link p.length (m n i) with
    | .absent => none
    | .leaf l => some (l, p.length)
    | .node n' => lookup n' p

/-- `t` is a node of the tree below `n`. -/
def Reach (k : ℕ) (n t : Node) : Prop := ∃ p, resolve link m k n p = some t

/-- Each node of the tree is reached by one path only. -/
def Unshared (k : ℕ) (n : Node) : Prop :=
  ∀ p q t, resolve link m k n p = some t → resolve link m k n q = some t → p = q

/-- How many nodes are missing on the way down `p`. -/
def missing [DecidableEq Node] (k : ℕ) (n : Node) (p : List Idx) : ℕ :=
  (List.range k).countP fun j ↦ resolve link m k n (p.take (j + 1)) = none

/-- Every entry of the tree that leads nowhere is the cleared one. -/
def Clean (zero : Entry) (k : ℕ) (n : Node) : Prop :=
  ∀ p t, resolve link m k n p = some t → ∀ i, link (k - p.length) (m t i) = .absent → m t i = zero

end Walks

variable {link : ℕ → Entry → Link Node Leaf} {m m' : Node → Idx → Entry}

/-! ## One level at a time -/

@[simp] theorem resolve_nil (k : ℕ) (n : Node) : resolve link m k n [] = some n := by
  cases k <;> rfl

@[simp] theorem resolve_zero_cons (n : Node) (i : Idx) (p : List Idx) :
    resolve link m 0 n (i :: p) = none := rfl

theorem resolve_cons_node {k : ℕ} {n n' : Node} {i : Idx} (h : link (k + 1) (m n i) = .node n')
    (p : List Idx) : resolve link m (k + 1) n (i :: p) = resolve link m k n' p := by
  rw [resolve, h]

theorem resolve_cons_eq_none {k : ℕ} {n : Node} {i : Idx}
    (h : ∀ n', link (k + 1) (m n i) ≠ .node n') (p : List Idx) :
    resolve link m (k + 1) n (i :: p) = none := by
  rw [resolve]
  split
  · next n' hn' => exact absurd hn' (h n')
  · rfl

theorem resolve_cons_congr {k : ℕ} {n : Node} {i : Idx}
    (hl : link (k + 1) (m' n i) = link (k + 1) (m n i)) {p : List Idx}
    (hc : ∀ n', link (k + 1) (m n i) = .node n' → resolve link m' k n' p = resolve link m k n' p) :
    resolve link m' (k + 1) n (i :: p) = resolve link m (k + 1) n (i :: p) := by
  rw [resolve, resolve, hl]
  split
  · next n' hn' => exact hc n' hn'
  · rfl

theorem lookup_cons_node {n n' : Node} {i : Idx} {p : List Idx}
    (h : link p.length (m n i) = .node n') : lookup link m n (i :: p) = lookup link m n' p := by
  rw [lookup, h]

theorem lookup_cons_absent {n : Node} {i : Idx} {p : List Idx}
    (h : link p.length (m n i) = .absent) : lookup link m n (i :: p) = none := by
  rw [lookup, h]

theorem lookup_cons_leaf {n : Node} {i : Idx} {p : List Idx} {l : Leaf}
    (h : link p.length (m n i) = .leaf l) : lookup link m n (i :: p) = some (l, p.length) := by
  rw [lookup, h]

theorem lookup_cons_congr {n : Node} {i : Idx} {p : List Idx}
    (hl : link p.length (m' n i) = link p.length (m n i))
    (hc : ∀ n', link p.length (m n i) = .node n' → lookup link m' n' p = lookup link m n' p) :
    lookup link m' n (i :: p) = lookup link m n (i :: p) := by
  rw [lookup, lookup, hl]
  split
  · rfl
  · rfl
  · next n' hn' => exact hc n' hn'

theorem length_le_of_resolve {k : ℕ} {n t : Node} {p : List Idx}
    (h : resolve link m k n p = some t) : p.length ≤ k := by
  induction p generalizing k n with
  | nil => simp
  | cons i p ih =>
    rcases k with _ | k
    · simp at h
    · rw [resolve] at h
      split at h
      · simpa using ih h
      · simp at h

/-! ## Walks only read the tree -/

theorem Reach.refl (k : ℕ) (n : Node) : Reach link m k n n := ⟨[], resolve_nil k n⟩

theorem Reach.child {k : ℕ} {n n' t : Node} {i : Idx} (h : link (k + 1) (m n i) = .node n')
    (ht : Reach link m k n' t) : Reach link m (k + 1) n t := by
  obtain ⟨p, hp⟩ := ht
  exact ⟨i :: p, by rw [resolve_cons_node h, hp]⟩

/-- Stores that agree on the tree resolve alike. -/
theorem resolve_congr {k : ℕ} {n : Node} (h : ∀ t, Reach link m k n t → m' t = m t)
    (p : List Idx) : resolve link m' k n p = resolve link m k n p := by
  induction p generalizing k n with
  | nil => simp
  | cons i p ih =>
    cases k with
    | zero => rfl
    | succ k =>
      refine resolve_cons_congr (by rw [h n (Reach.refl _ n)]) fun n' hn' ↦ ?_
      exact ih fun t ht ↦ h t (ht.child hn')

/-- Stores that agree on the tree mean the same. -/
theorem lookup_congr {k : ℕ} {n : Node} (h : ∀ t, Reach link m k n t → m' t = m t) {p : List Idx}
    (hp : p.length = k + 1) : lookup link m' n p = lookup link m n p := by
  induction p generalizing k n with
  | nil => rfl
  | cons i p ih =>
    obtain rfl : p.length = k := by simpa using hp
    refine lookup_cons_congr (by rw [h n (Reach.refl _ n)]) fun n' hn' ↦ ?_
    cases p with
    | nil => rfl
    | cons j p => exact ih (k := p.length) (fun t ht ↦ h t (ht.child hn')) rfl

/-! ## Insertion -/

section Install

variable [DecidableEq Node] [DecidableEq Idx]

omit [DecidableEq Idx] in
theorem missing_cons (k : ℕ) (n : Node) (i : Idx) (p : List Idx) :
    missing link m (k + 1) n (i :: p) = (if resolve link m (k + 1) n [i] = none then 1 else 0)
      + (List.range k).countP fun j ↦ resolve link m (k + 1) n (i :: p.take (j + 1)) = none := by
  rw [missing, List.range_succ_eq_map, List.countP_cons, List.countP_map, Nat.add_comm]
  congr 1
  simp

/-- Overwrite one entry of one node. -/
def write (m : Node → Idx → Entry) (n : Node) (i : Idx) (e : Entry) : Node → Idx → Entry :=
  Function.update m n (Function.update (m n) i e)

@[simp] theorem write_self (m : Node → Idx → Entry) (n : Node) (i : Idx) (e : Entry) :
    write m n i e n i = e := by
  simp [write]

theorem write_of_ne_idx (m : Node → Idx → Entry) (n : Node) {i j : Idx} (e : Entry) (h : j ≠ i) :
    write m n i e n j = m n j := by
  simp [write, h]

theorem write_of_ne (m : Node → Idx → Entry) {n t : Node} (i : Idx) (e : Entry) (h : t ≠ n) :
    write m n i e t = m t := by
  simp [write, h]

/-- Inserting the leaf `l` at a path below `n`. The list holds the nodes that were taken to
complete the path, in the order they were taken; a taken node is linked in and then cleared. A
pointer that is followed may be rewritten, as long as it still points to the same node. -/
inductive Install (link : ℕ → Entry → Link Node Leaf) (zero : Entry) (l : Leaf) :
    ℕ → Node → List Idx → (Node → Idx → Entry) → List Node → (Node → Idx → Entry) → Prop
  /-- The last entry is overwritten with the leaf. -/
  | leaf {n : Node} {i : Idx} {m : Node → Idx → Entry} {e : Entry} :
      link 0 e = .leaf l → Install link zero l 0 n [i] m [] (write m n i e)
  /-- The next node is there. -/
  | follow {k : ℕ} {n n' : Node} {i : Idx} {p : List Idx} {m m' : Node → Idx → Entry} {e : Entry}
      {fs : List Node} :
      link (k + 1) (m n i) = .node n' → link (k + 1) e = .node n' →
        Install link zero l k n' p (write m n i e) fs m' →
          Install link zero l (k + 1) n (i :: p) m fs m'
  /-- The next node is missing and `f` is taken for it. -/
  | fresh {k : ℕ} {n f : Node} {i : Idx} {p : List Idx} {m m' : Node → Idx → Entry} {e : Entry}
      {fs : List Node} :
      link (k + 1) (m n i) = .absent → link (k + 1) e = .node f →
        Install link zero l k f p (Function.update (write m n i e) f fun _ ↦ zero) fs m' →
          Install link zero l (k + 1) n (i :: p) m (f :: fs) m'

/-- What an insertion guarantees. -/
structure Extended (link : ℕ → Entry → Link Node Leaf) (l : Leaf) (k : ℕ) (n : Node)
    (path : List Idx) (m : Node → Idx → Entry) (fs : List Node) (m' : Node → Idx → Entry) :
    Prop where
  /-- Nodes outside the tree are untouched, except those that were taken. -/
  frame : ∀ t, ¬Reach link m k n t → t ∉ fs → m' t = m t
  /-- The leaf is found at its path. -/
  lookup_self : lookup link m' n path = some (l, 0)
  /-- Nothing else changes its meaning. -/
  lookup_of_ne : ∀ q, q.length = k + 1 → q ≠ path → lookup link m' n q = lookup link m n q
  /-- Resolved paths stay as they are. -/
  resolve_of_resolve : ∀ p t, resolve link m k n p = some t → resolve link m' k n p = some t
  /-- The tree grows by the nodes that were taken. -/
  resolve_cases : ∀ p t, resolve link m' k n p = some t →
    resolve link m k n p = some t ∨ t ∈ fs ∧ p <+: path
  /-- The whole path is there afterwards. -/
  resolve_path : ∀ p, p <+: path → p.length ≤ k → resolve link m' k n p ≠ none
  /-- The tree is still unshared. -/
  unshared : Unshared link m' k n
  /-- One node was taken for each one missing on the path. -/
  length_eq : fs.length = missing link m k n path

omit [DecidableEq Idx] in
/-- No node is taken in vain: the nodes at the missing paths are different ones, and there are as
many as were taken. -/
theorem Extended.reach_of_mem {l : Leaf} {k : ℕ} {n : Node} {path : List Idx} {fs : List Node}
    (h : Extended link l k n path m fs m') (hlen : k ≤ path.length) {f : Node} (hf : f ∈ fs) :
    Reach link m' k n f := by
  -- the depths at which a node was missing, and the node that is there now
  let js := (List.range k).filter fun j ↦ resolve link m k n (path.take (j + 1)) = none
  let nodeAt : ℕ → Node := fun j ↦ (resolve link m' k n (path.take (j + 1))).getD n
  have hjs : ∀ j ∈ js, j < k ∧ resolve link m k n (path.take (j + 1)) = none := by
    intro j hj
    obtain ⟨hrange, hnone⟩ := List.mem_filter.mp hj
    exact ⟨List.mem_range.mp hrange, of_decide_eq_true hnone⟩
  have hat : ∀ j ∈ js, resolve link m' k n (path.take (j + 1)) = some (nodeAt j) := by
    intro j hj
    obtain ⟨t, ht⟩ := Option.ne_none_iff_exists'.mp (h.resolve_path _ (List.take_prefix _ _)
      ((List.length_take_le _ _).trans (hjs j hj).1))
    simp only [nodeAt, ht, Option.getD_some]
  have hsub : js.map nodeAt ⊆ fs := by
    intro t ht
    obtain ⟨j, hj, rfl⟩ := List.mem_map.mp ht
    rcases h.resolve_cases _ _ (hat j hj) with hold | ⟨hmem, -⟩
    · rw [(hjs j hj).2] at hold
      cases hold
    · exact hmem
  have hnodup : (js.map nodeAt).Nodup := by
    refine List.Nodup.map_on (fun i hi j hj hij ↦ ?_) (List.nodup_range.filter _)
    have hpath := congrArg List.length (h.unshared _ _ _ (hat i hi) (hij ▸ hat j hj))
    have hik := (hjs i hi).1
    have hjk := (hjs j hj).1
    rw [List.length_take, List.length_take] at hpath
    omega
  -- so the nodes now there are all that were taken
  have hcount : fs.length ≤ (js.map nodeAt).length := by
    rw [h.length_eq, List.length_map, missing, List.countP_eq_length_filter]
  have hmem : f ∈ js.map nodeAt :=
    ((hnodup.subperm hsub).perm_of_length_le hcount).mem_iff.mpr hf
  obtain ⟨j, hj, rfl⟩ := List.mem_map.mp hmem
  exact ⟨_, hat j hj⟩

/-- One level of an insertion, seen from `n`: the entry `i` has been written and leads to `n'`,
which heads the old subtree at `i` or a cleared one. The two cases of `Install` differ only in
that. -/
structure Entered (link : ℕ → Entry → Link Node Leaf) (k : ℕ) (n : Node) (i : Idx)
    (m : Node → Idx → Entry) (fs₀ : List Node) (n' : Node) (m₁ : Node → Idx → Entry) : Prop where
  /-- The entry leads to `n'`. -/
  link_eq : link (k + 1) (m₁ n i) = .node n'
  /-- The other entries of `n` are untouched. -/
  idx_ne : ∀ j, j ≠ i → m₁ n j = m n j
  /-- So are the other nodes, except those that were taken. -/
  frame : ∀ t, t ≠ n → t ∉ fs₀ → m₁ t = m t
  /-- Nothing new is reached except those. -/
  resolve_cases : ∀ p t, resolve link m₁ k n' p = some t →
    resolve link m (k + 1) n (i :: p) = some t ∨ t ∈ fs₀ ∧ p = []
  /-- Nothing is lost. -/
  resolve_of_resolve : ∀ p t, resolve link m (k + 1) n (i :: p) = some t →
    resolve link m₁ k n' p = some t
  /-- The meaning is the old one. -/
  lookup_eq : ∀ q, q.length = k + 1 → lookup link m₁ n' q = lookup link m n (i :: q)

section Entered

variable {l : Leaf} {k : ℕ} {n n' : Node} {i : Idx} {path : List Idx} {m₁ : Node → Idx → Entry}
  {fs₀ fs : List Node} (hent : Entered link k n i m fs₀ n' m₁) (hun : Unshared link m (k + 1) n)
  (hfresh : ∀ f ∈ fs₀ ++ fs, ¬Reach link m (k + 1) n f) (ih : Extended link l k n' path m₁ fs m')

omit [DecidableEq Idx]
include hent hun hfresh ih

/-- Nothing below the entry touches `n` again. -/
theorem Entered.parent_eq : m' n = m₁ n := by
  refine ih.frame n ?_ fun h ↦ hfresh n (List.mem_append_right _ h) (Reach.refl _ n)
  rintro ⟨p, hp⟩
  rcases hent.resolve_cases p n hp with h | ⟨h, -⟩
  · exact absurd (hun _ _ _ (resolve_nil _ n) h) (by simp)
  · exact hfresh n (List.mem_append_left _ h) (Reach.refl _ n)

theorem Entered.link_after : link (k + 1) (m' n i) = .node n' := by
  rw [hent.parent_eq hun hfresh ih, hent.link_eq]

theorem Entered.idx_after {j : Idx} (hj : j ≠ i) : m' n j = m n j := by
  rw [hent.parent_eq hun hfresh ih, hent.idx_ne j hj]

/-- A sibling subtree shares no node with what was written. -/
theorem Entered.sibling_eq {j : Idx} {n₂ : Node} (hj : j ≠ i)
    (hn₂ : link (k + 1) (m n j) = .node n₂)
    (t : Node) (ht : Reach link m k n₂ t) : m' t = m t := by
  obtain ⟨p, hp⟩ := ht
  have ht : resolve link m (k + 1) n (j :: p) = some t := by rw [resolve_cons_node hn₂, hp]
  have htn : t ≠ n := by
    rintro rfl
    exact absurd (hun _ _ _ (resolve_nil _ t) ht) (by simp)
  have ht₀ : t ∉ fs₀ := fun h ↦ hfresh t (List.mem_append_left _ h) ⟨_, ht⟩
  have hts : t ∉ fs := fun h ↦ hfresh t (List.mem_append_right _ h) ⟨_, ht⟩
  have htr : ¬Reach link m₁ k n' t := by
    rintro ⟨q, hq⟩
    rcases hent.resolve_cases q t hq with h | ⟨h, -⟩
    · exact hj (List.cons.inj (hun _ _ _ ht h)).1
    · exact ht₀ h
  rw [ih.frame t htr hts, hent.frame t htn ht₀]

theorem Entered.resolve_sibling {j : Idx} (hj : j ≠ i) (p : List Idx) :
    resolve link m' (k + 1) n (j :: p) = resolve link m (k + 1) n (j :: p) := by
  apply resolve_cons_congr
  · rw [hent.idx_after hun hfresh ih hj]
  · intro n₂ hn₂
    exact resolve_congr (hent.sibling_eq hun hfresh ih hj hn₂) p

theorem Entered.resolve_after (p : List Idx) (t : Node)
    (ht : resolve link m' (k + 1) n p = some t) :
    resolve link m (k + 1) n p = some t ∨ t ∈ fs₀ ++ fs ∧ p <+: i :: path := by
  rcases p with _ | ⟨j, p⟩
  · exact Or.inl (by simpa using ht)
  by_cases hj : j = i
  · subst hj
    rw [resolve_cons_node (hent.link_after hun hfresh ih)] at ht
    rcases ih.resolve_cases p t ht with h | ⟨h, hp⟩
    · rcases hent.resolve_cases p t h with h₀ | ⟨h₀, hp⟩
      · exact Or.inl h₀
      · exact Or.inr ⟨List.mem_append_left _ h₀, by simp [hp]⟩
    · exact Or.inr ⟨List.mem_append_right _ h, by simpa using hp⟩
  · exact Or.inl (by rwa [hent.resolve_sibling hun hfresh ih hj p] at ht)

/-- A node that was taken lies below the entry. -/
theorem Entered.resolve_taken {p : List Idx} {t : Node} (hmem : t ∈ fs₀ ++ fs)
    (hp : p <+: i :: path) (ht : resolve link m' (k + 1) n p = some t) :
    ∃ p', p = i :: p' ∧ resolve link m' k n' p' = some t := by
  rcases p with _ | ⟨j, p⟩
  · obtain rfl : n = t := by simpa using ht
    exact absurd (Reach.refl _ n) (hfresh n hmem)
  · obtain ⟨rfl, -⟩ := List.cons_prefix_cons.mp hp
    exact ⟨p, rfl, by rwa [resolve_cons_node (hent.link_after hun hfresh ih)] at ht⟩

/-- Two paths to one node are both old, or both lead through the entry that was written. -/
theorem Entered.unshared : Unshared link m' (k + 1) n := by
  intro p q t hp hq
  rcases hent.resolve_after hun hfresh ih p t hp with hp₀ | ⟨hmem, hpre⟩ <;>
    rcases hent.resolve_after hun hfresh ih q t hq with hq₀ | ⟨hmem', hpre'⟩
  · exact hun p q t hp₀ hq₀
  · exact absurd ⟨p, hp₀⟩ (hfresh t hmem')
  · exact absurd ⟨q, hq₀⟩ (hfresh t hmem)
  · obtain ⟨p', rfl, hp'⟩ := hent.resolve_taken hun hfresh ih hmem hpre hp
    obtain ⟨q', rfl, hq'⟩ := hent.resolve_taken hun hfresh ih hmem' hpre' hq
    rw [ih.unshared p' q' t hp' hq']

theorem Entered.lookup_after (q : List Idx) (hq : q.length = k + 2) (hne : q ≠ i :: path) :
    lookup link m' n q = lookup link m n q := by
  rcases q with _ | ⟨j, q⟩
  · simp at hq
  have hq' : q.length = k + 1 := by simpa using hq
  by_cases hj : j = i
  · subst hj
    have hlink := hent.link_after hun hfresh ih
    rw [lookup_cons_node (by rw [hq']; exact hlink),
      ih.lookup_of_ne q hq' fun h ↦ hne (by rw [h]), hent.lookup_eq q hq']
  · refine lookup_cons_congr (by rw [hent.idx_after hun hfresh ih hj]) fun n₂ hn₂ ↦ ?_
    rw [hq'] at hn₂
    exact lookup_congr (hent.sibling_eq hun hfresh ih hj hn₂) hq'

theorem Entered.frame_after (t : Node) (ht : ¬Reach link m (k + 1) n t) (hts : t ∉ fs₀ ++ fs) :
    m' t = m t := by
  rw [List.mem_append, not_or] at hts
  have htr : ¬Reach link m₁ k n' t := by
    rintro ⟨q, hq⟩
    rcases hent.resolve_cases q t hq with h | ⟨h, -⟩
    · exact ht ⟨_, h⟩
    · exact hts.1 h
  have htn : t ≠ n := by
    rintro rfl
    exact ht (Reach.refl _ t)
  rw [ih.frame t htr hts.2, hent.frame t htn hts.1]

/-- What holds below the next node is lifted to `n`. -/
theorem Entered.extended (hpath : path.length = k + 1)
    (hcount : fs₀.length + missing link m₁ k n' path = missing link m (k + 1) n (i :: path)) :
    Extended link l (k + 1) n (i :: path) m (fs₀ ++ fs) m' where
  frame := hent.frame_after hun hfresh ih
  lookup_self := by
    have hlink := hent.link_after hun hfresh ih
    rw [lookup_cons_node (by rw [hpath]; exact hlink), ih.lookup_self]
  lookup_of_ne := hent.lookup_after hun hfresh ih
  resolve_of_resolve := by
    rintro (_ | ⟨j, p⟩) t ht
    · simpa using ht
    by_cases hj : j = i
    · subst hj
      rw [resolve_cons_node (hent.link_after hun hfresh ih),
        ih.resolve_of_resolve p t (hent.resolve_of_resolve p t ht)]
    · rw [hent.resolve_sibling hun hfresh ih hj p, ht]
  resolve_cases := hent.resolve_after hun hfresh ih
  resolve_path := by
    rintro (_ | ⟨j, p⟩) hp hlen
    · simp
    · obtain ⟨rfl, hp'⟩ := List.cons_prefix_cons.mp hp
      rw [resolve_cons_node (hent.link_after hun hfresh ih)]
      exact ih.resolve_path p hp' (by simpa using hlen)
  unshared := hent.unshared hun hfresh ih
  length_eq := by rw [List.length_append, ih.length_eq, hcount]

/-- What was clean stays clean: the written entry leads somewhere, and the subtree below it is
clean by itself. -/
theorem Entered.clean {zero : Entry} (hclean : Clean link m zero (k + 1) n)
    (hsub : Clean link m' zero k n') : Clean link m' zero (k + 1) n := by
  rintro (_ | ⟨j, p⟩) t ht i' habs
  · obtain rfl : n = t := by simpa using ht
    by_cases hi : i' = i
    · subst hi
      rw [List.length_nil, Nat.sub_zero, hent.link_after hun hfresh ih] at habs
      cases habs
    · rw [hent.idx_after hun hfresh ih hi] at habs ⊢
      exact hclean [] n (resolve_nil _ n) i' habs
  · rw [List.length_cons, Nat.add_sub_add_right] at habs
    by_cases hj : j = i
    · subst hj
      rw [resolve_cons_node (hent.link_after hun hfresh ih)] at ht
      exact hsub p t ht i' habs
    · have ht' : resolve link m (k + 1) n (j :: p) = some t := by
        rw [← hent.resolve_sibling hun hfresh ih hj p, ht]
      have heq : m' t = m t := by
        rw [resolve] at ht'
        split at ht'
        · next n₂ hn₂ => exact hent.sibling_eq hun hfresh ih hj hn₂ t ⟨p, ht'⟩
        · cases ht'
      rw [heq] at habs ⊢
      exact hclean (j :: p) t ht' i' (by rwa [List.length_cons, Nat.add_sub_add_right])

end Entered

/-! ### The three cases -/

/-- The last entry is overwritten. -/
theorem Extended.write_leaf {l : Leaf} {n : Node} {i : Idx} {e : Entry} (he : link 0 e = .leaf l) :
    Extended link l 0 n [i] m [] (write m n i e) := by
  refine ⟨?_, ?_, ?_, ?_, ?_, ?_, ?_, rfl⟩
  · intro t ht _
    apply write_of_ne m i e
    rintro rfl
    exact ht (Reach.refl 0 t)
  · exact lookup_cons_leaf (by simpa using he)
  · intro q hq hne
    obtain ⟨j, rfl⟩ := List.length_eq_one_iff.mp hq
    refine lookup_cons_congr ?_ fun n' _ ↦ rfl
    rw [write_of_ne_idx m n e (by simpa using hne)]
  · rintro (_ | ⟨j, p⟩) t ht
    · simpa using ht
    · simp at ht
  · rintro (_ | ⟨j, p⟩) t ht
    · exact Or.inl (by simpa using ht)
    · simp at ht
  · intro p _ hp
    rw [List.length_eq_zero_iff.mp (Nat.le_zero.mp hp)]
    simp
  · rintro (_ | ⟨j, p⟩) (_ | ⟨j', q⟩) t hp hq <;> simp_all

section Cases

variable {k : ℕ} {n n' f : Node} {i : Idx} {e zero : Entry}

/-- Rewriting a pointer leaves the subtree it points to alone. -/
theorem write_eq_of_reach (hun : Unshared link m (k + 1) n) (hn' : link (k + 1) (m n i) = .node n')
    (t : Node) (ht : Reach link m k n' t) : write m n i e t = m t := by
  obtain ⟨q, hq⟩ := ht
  apply write_of_ne m i e
  rintro rfl
  have := hun _ (i :: q) t (resolve_nil _ t) (by rw [resolve_cons_node hn', hq])
  simp at this

theorem resolve_write (hun : Unshared link m (k + 1) n) (hn' : link (k + 1) (m n i) = .node n')
    (q : List Idx) : resolve link (write m n i e) k n' q = resolve link m (k + 1) n (i :: q) := by
  rw [resolve_congr (write_eq_of_reach hun hn'), resolve_cons_node hn']

/-- A pointer is followed. -/
theorem Entered.follow (hun : Unshared link m (k + 1) n) (hn' : link (k + 1) (m n i) = .node n')
    (he : link (k + 1) e = .node n') : Entered link k n i m [] n' (write m n i e) where
  link_eq := by simpa using he
  idx_ne _ hj := write_of_ne_idx m n e hj
  frame _ ht _ := write_of_ne m i e ht
  resolve_cases q t hq := Or.inl (by rw [← resolve_write hun hn', hq])
  resolve_of_resolve q t hq := by rw [resolve_write hun hn', hq]
  lookup_eq q hq := by
    rw [lookup_congr (write_eq_of_reach hun hn') hq, lookup_cons_node (by rw [hq]; exact hn')]

theorem missing_write (hun : Unshared link m (k + 1) n) (hn' : link (k + 1) (m n i) = .node n')
    (p : List Idx) :
    missing link (write m n i e) k n' p = missing link m (k + 1) n (i :: p) := by
  rw [missing_cons, resolve_cons_node hn', resolve_nil, if_neg (by simp), Nat.zero_add, missing]
  simp only [resolve_write hun hn']

omit [DecidableEq Node] [DecidableEq Idx] in
/-- A cleared node is a tree of one node. -/
theorem resolve_cleared (hzero : ∀ k, link k zero = .absent) (hf : ∀ j, m f j = zero)
    {q : List Idx} {t : Node} (hq : resolve link m k f q = some t) : q = [] ∧ t = f := by
  rcases q with _ | ⟨j, q⟩
  · exact ⟨rfl, by simpa [eq_comm] using hq⟩
  rcases k with _ | k
  · simp at hq
  · rw [resolve_cons_eq_none (by simp [hf, hzero])] at hq
    simp at hq

omit [DecidableEq Node] [DecidableEq Idx] in
/-- And it means nothing. -/
theorem lookup_cleared (hzero : ∀ k, link k zero = .absent) (hf : ∀ j, m f j = zero)
    (q : List Idx) :
    lookup link m f q = none := by
  rcases q with _ | ⟨j, q⟩
  · rfl
  · exact lookup_cons_absent (by rw [hf, hzero])

/-- A missing pointer is replaced by one to a cleared node. -/
theorem Entered.fresh (hzero : ∀ k, link k zero = .absent) (hn' : link (k + 1) (m n i) = .absent)
    (he : link (k + 1) e = .node f) (hnf : n ≠ f) :
    Entered link k n i m [f] f (Function.update (write m n i e) f fun _ ↦ zero) := by
  have hcleared : ∀ j, Function.update (write m n i e) f (fun _ ↦ zero) f j = zero :=
    fun j ↦ by simp
  have hn : Function.update (write m n i e) f (fun _ ↦ zero) n = write m n i e n :=
    Function.update_of_ne hnf ..
  refine ⟨?_, fun j hj ↦ ?_, fun t ht htf ↦ ?_, fun q t hq ↦ ?_, fun q t hq ↦ ?_, fun q hq ↦ ?_⟩
  · rw [hn]
    simpa using he
  · rw [hn, write_of_ne_idx m n e hj]
  · rw [Function.update_of_ne (by simpa using htf), write_of_ne m i e ht]
  · exact Or.inr (by simp [resolve_cleared hzero hcleared hq])
  · rw [resolve_cons_eq_none (by simp [hn'])] at hq
    cases hq
  · rw [lookup_cons_absent (m := m) (by rw [hq]; exact hn'), lookup_cleared hzero hcleared]

omit [DecidableEq Idx] in
/-- Below a missing pointer everything is missing, below a cleared node everything but itself. -/
theorem missing_cleared {m₁ : Node → Idx → Entry} (hzero : ∀ k, link k zero = .absent)
    (hf : ∀ j, m₁ f j = zero) (hn' : link (k + 1) (m n i) = .absent) {p : List Idx}
    (hp : p.length = k + 1) :
    1 + missing link m₁ k f p = missing link m (k + 1) n (i :: p) := by
  have hnone : ∀ q, resolve link m (k + 1) n (i :: q) = none :=
    fun q ↦ resolve_cons_eq_none (by simp [hn']) q
  have hall : ∀ j ∈ List.range k, resolve link m₁ k f (p.take (j + 1)) = none := by
    intro j _
    rw [Option.eq_none_iff_forall_ne_some]
    intro t hq
    have hnil := (resolve_cleared hzero hf hq).1
    rw [List.take_eq_nil_iff] at hnil
    rcases hnil with h | h
    · omega
    · simp [h] at hp
  rw [missing_cons, hnone, if_pos rfl, missing]
  simp only [hnone]
  rw [List.countP_eq_length.mpr (by simpa using hall), List.countP_eq_length.mpr (by simp)]

end Cases

/-- **An insertion is an update.** If the tree is unshared and the nodes taken are distinct and not
in it, inserting a leaf changes the meaning of the tree at the inserted path only, and the tree
stays unshared. -/
theorem Install.extended {zero : Entry} {l : Leaf} (hzero : ∀ k, link k zero = .absent) {k : ℕ}
    {n : Node} {path : List Idx} {fs : List Node} (h : Install link zero l k n path m fs m')
    (hun : Unshared link m k n) (hnd : fs.Nodup) (hfresh : ∀ f ∈ fs, ¬Reach link m k n f) :
    path.length = k + 1 ∧ Extended link l k n path m fs m' := by
  induction h with
  | leaf he => exact ⟨rfl, .write_leaf he⟩
  | @follow k n n' i p m m' e fs hn' he _ ih =>
    have hunc : Unshared link (write m n i e) k n' := by
      intro q q' t hq hq'
      rw [resolve_write hun hn'] at hq hq'
      exact (List.cons.inj (hun _ _ t hq hq')).2
    obtain ⟨hlen, hext⟩ := ih hunc hnd fun f hf ⟨q, hq⟩ ↦
      hfresh f hf ⟨i :: q, by rw [← resolve_write hun hn', hq]⟩
    refine ⟨by simp [hlen], ?_⟩
    exact (Entered.follow hun hn' he).extended hun hfresh hext hlen
      ((Nat.zero_add _).trans (missing_write hun hn' p))
  | @fresh k n f i p m m' e fs hn' he _ ih =>
    rw [List.nodup_cons] at hnd
    have hnf : n ≠ f := by
      rintro rfl
      exact hfresh n List.mem_cons_self (Reach.refl _ n)
    have hone := fun {q : List Idx} {t : Node} ↦ resolve_cleared (k := k) (q := q) (t := t)
      (m := Function.update (write m n i e) f fun _ ↦ zero) (f := f) hzero fun j ↦ by simp
    obtain ⟨hlen, hext⟩ := ih (fun q q' t hq hq' ↦ by rw [(hone hq).1, (hone hq').1]) hnd.2
      (by
        rintro g hg ⟨q, hq⟩
        rw [(hone hq).2] at hg
        exact hnd.1 hg)
    refine ⟨by simp [hlen], ?_⟩
    exact (Entered.fresh hzero hn' he hnf).extended hun hfresh hext hlen
      (missing_cleared hzero (fun j ↦ by simp) hn' hlen)

/-- An insertion writes entries that lead somewhere, into nodes that are clean. -/
theorem Install.clean {zero : Entry} {l : Leaf} (hzero : ∀ k, link k zero = .absent) {k : ℕ}
    {n : Node} {path : List Idx} {fs : List Node} (h : Install link zero l k n path m fs m')
    (hun : Unshared link m k n) (hnd : fs.Nodup) (hfresh : ∀ f ∈ fs, ¬Reach link m k n f)
    (hclean : Clean link m zero k n) : Clean link m' zero k n := by
  induction h with
  | @leaf n i m e he =>
    rintro (_ | ⟨j, p⟩) t ht i' habs
    · obtain rfl : n = t := by simpa using ht
      by_cases hi : i' = i
      · subst hi
        simp [he] at habs
      · rw [write_of_ne_idx m n e hi] at habs ⊢
        exact hclean [] n (resolve_nil 0 n) i' habs
    · simp at ht
  | @follow k n n' i p m m' e fs hn' he hsub ih =>
    -- the subtree is as it was, so it is clean
    have hunc : Unshared link (write m n i e) k n' := by
      intro q q' t hq hq'
      rw [resolve_write hun hn'] at hq hq'
      exact (List.cons.inj (hun _ _ t hq hq')).2
    have hfreshc : ∀ f ∈ fs, ¬Reach link (write m n i e) k n' f := by
      rintro f hf ⟨q, hq⟩
      exact hfresh f hf ⟨i :: q, by rw [← resolve_write hun hn', hq]⟩
    obtain ⟨-, hext⟩ := hsub.extended hzero hunc hnd hfreshc
    refine (Entered.follow hun hn' he).clean hun hfresh hext hclean (ih hunc hnd hfreshc ?_)
    intro q t ht j habs
    rw [write_eq_of_reach hun hn' t ⟨q, by rw [← resolve_congr (write_eq_of_reach hun hn'), ht]⟩]
      at habs ⊢
    refine hclean (i :: q) t (by rw [← resolve_write hun hn', ht]) j ?_
    rwa [List.length_cons, Nat.add_sub_add_right]
  | @fresh k n f i p m m' e fs hn' he hsub ih =>
    rw [List.nodup_cons] at hnd
    have hnf : n ≠ f := by
      rintro rfl
      exact hfresh n List.mem_cons_self (Reach.refl _ n)
    -- the subtree is one cleared node
    have hone := fun {q : List Idx} {t : Node} ↦ resolve_cleared (k := k) (q := q) (t := t)
      (m := Function.update (write m n i e) f fun _ ↦ zero) (f := f) hzero fun j ↦ by simp
    have hunc : Unshared link (Function.update (write m n i e) f fun _ ↦ zero) k f :=
      fun q q' t hq hq' ↦ by rw [(hone hq).1, (hone hq').1]
    have hfreshc : ∀ g ∈ fs,
        ¬Reach link (Function.update (write m n i e) f fun _ ↦ zero) k f g := by
      rintro g hg ⟨q, hq⟩
      rw [(hone hq).2] at hg
      exact hnd.1 hg
    obtain ⟨-, hext⟩ := hsub.extended hzero hunc hnd.2 hfreshc
    refine (Entered.fresh hzero hn' he hnf).clean hun hfresh hext hclean (ih hunc hnd.2 hfreshc ?_)
    intro q t ht j _
    rw [(hone ht).2]
    simp

end Install

end RadixTree
