import Mathlib.Data.List.Basic

/-!
# Writing round and round

A log is written into a fixed number of cells in turn: entry `i` goes to cell `i` modulo the number
of cells, so that each lap overwrites the one before. A cell then shows the last entry of the log
that was meant for it, and nothing else decides what it shows.
-/

namespace Lap

variable {α : Type*}

/-- The cells after the entries of the log have been written, the first of them as entry number
`start`. -/
def write : ℕ → List α → List α → List α
  | _, cells, [] => cells
  | start, cells, a :: log => write (start + 1) (cells.set (start % cells.length) a) log

theorem write_cons (start : ℕ) (cells : List α) (a : α) (log : List α) :
    write start cells (a :: log) =
      write (start + 1) (cells.set (start % cells.length) a) log := rfl

@[simp] theorem length_write (start : ℕ) (cells log : List α) :
    (write start cells log).length = cells.length := by
  induction log generalizing start cells with
  | nil => rfl
  | cons a log ih => rw [write_cons, ih, List.length_set]

/-- A cell no entry is meant for is as before. -/
theorem getElem?_write_of_forall_ne {start j : ℕ} {cells log : List α}
    (h : ∀ i < log.length, (start + i) % cells.length ≠ j) :
    (write start cells log)[j]? = cells[j]? := by
  induction log generalizing start cells with
  | nil => rfl
  | cons a log ih =>
    have hhead : start % cells.length ≠ j := h 0 (Nat.succ_pos _)
    have htail : ∀ i < log.length,
        (start + 1 + i) % (cells.set (start % cells.length) a).length ≠ j := by
      intro i hi
      rw [List.length_set, Nat.add_assoc, Nat.add_comm 1 i]
      exact h (i + 1) (Nat.succ_lt_succ hi)
    rw [write_cons, ih htail, List.getElem?_set_ne hhead]

/-- **The last entry shows.** A cell shows the last entry that was meant for it. -/
theorem getElem?_write_of_last {start i j : ℕ} {cells log : List α} (hpos : 0 < cells.length)
    (hi : i < log.length) (hij : (start + i) % cells.length = j)
    (hlast : ∀ i', i < i' → i' < log.length → (start + i') % cells.length ≠ j) :
    (write start cells log)[j]? = some log[i] := by
  induction log generalizing start cells i with
  | nil => exact absurd hi (Nat.not_lt_zero i)
  | cons a log ih =>
    rw [write_cons]
    cases i with
    | zero =>
      -- The first entry shows only because nothing after it is meant for its cell.
      have hj : start % cells.length = j := hij
      have hrest : ∀ i < log.length,
          (start + 1 + i) % (cells.set (start % cells.length) a).length ≠ j := by
        intro i hi
        rw [List.length_set, Nat.add_assoc, Nat.add_comm 1 i]
        exact hlast (i + 1) (Nat.succ_pos i) (Nat.succ_lt_succ hi)
      rw [getElem?_write_of_forall_ne hrest, hj,
        List.getElem?_set_self (hj ▸ Nat.mod_lt start hpos)]
      rfl
    | succ i =>
      have hi' : i < log.length := Nat.lt_of_succ_lt_succ hi
      have hshift : ∀ i', start + 1 + i' = start + (i' + 1) := fun i' ↦ by omega
      refine ih (by rwa [List.length_set]) hi' ?_ fun i' hlt hi'' ↦ ?_
      · rw [List.length_set, hshift]
        exact hij
      · rw [List.length_set, hshift]
        exact hlast (i' + 1) (Nat.succ_lt_succ hlt) (Nat.succ_lt_succ hi'')

end Lap
