import Punkos.Interrupts.Readers

/-!
# How soon a character is read

What is in the buffer is read at a steady pace. From one `pop` that brings a character to the next
`kernel_main` has at most five steps to go, whoever is reading, and however many interrupts come in
between; that it sleeps in between does not matter, since every interrupt ends a sleep and leads
back to the buffer. So a run in which `kernel_main` makes `5 * k` steps reads the first `k` of the
characters that were pending (`Core.reads_within`).

The measure is the number of steps to the next `pop` (`MainPc.rank`).
-/

namespace Punkos

open Transition Keyboard

/-- The steps of `kernel_main` to the next `pop`, that one included, from where it reads on. -/
def MainPc.rank : MainPc → ℕ
  | .pop _ | .hlt .hcf => 1
  | .lockBuf _ | .hlt .line | .hlt .frame => 2
  | .startRender | .frame => 3
  | .returned _ _ => 4
  | .unlockBuf _ _ => 5
  | _ => 0

theorem rank_le (pc : MainPc) : pc.rank ≤ 5 := by
  rcases pc with _ | _ | _ | _ | _ | _ | _ | _ | _ | _ | _ | _ | _ | z
  case hlt => rcases z with _ | _ | _ | _ <;> exact Nat.le_of_ble_eq_true rfl
  all_goals exact Nat.le_of_ble_eq_true rfl

theorem rank_pos_iff (pc : MainPc) : 0 < pc.rank ↔ pc.stage ≠ .before := by
  rcases pc with _ | _ | _ | _ | _ | _ | _ | r | r | ⟨r, c⟩ | ⟨r, c⟩ | _ | _ | z
  case hlt => rcases z with _ | _ | _ | _ <;> simp [MainPc.rank, MainPc.stage]
  all_goals
    first
    | (rcases r with _ | _ <;> simp [MainPc.rank, MainPc.stage])
    | simp [MainPc.rank, MainPc.stage]

theorem rank_wake (pc : MainPc) : pc.wake.rank = pc.rank := by
  rcases pc with _ | _ | _ | _ | _ | _ | _ | _ | _ | _ | _ | _ | _ | z
  case hlt => rcases z with _ | _ | _ | _ <;> rfl
  all_goals rfl

namespace Core

variable {s t : Core}

/-! ## The buffer -/

/-- What is pending at the beginning is read first. -/
theorem pending_isPrefix {acts : List Act} {l : List Effect} (h : Trace Step effect s acts l t) :
    s.driver.buf.pending <+: text l ++ t.driver.buf.pending := by
  have htold : t.driver = s.driver.after (calls l) ∧ text l = s.driver.returned (calls l) := by
    apply h.invariant (I := fun _ l u ↦ u.driver = s.driver.after (calls l) ∧
      text l = s.driver.returned (calls l))
    · rintro - l u a v ⟨hdriver, htext⟩ hstep
      have hu := hstep.tells
      constructor
      · rw [calls_append, State.after_append, ← hdriver, hu.driver]
      · rw [calls_append, State.returned_append, ← hdriver, ← htext, ← hu.text, text_append]
    · exact ⟨rfl, rfl⟩
  obtain ⟨hpending, hreturned⟩ := s.driver.refines (calls l)
  rw [htold.1, htold.2, hpending, hreturned]
  exact BoundedQueue.isPrefix_taken_append_after _ _

/-! ## One step -/

/-- With no handler running, a lock that `kernel_main` does not hold is free. -/
theorem Inv.free (hs : s.Inv) (hhandler : s.handler = none) {l : Lock}
    (hheld : s.mainline.held ≠ some l) : s.locks l = none := by
  rcases howner : s.locks l with _ | o
  · rfl
  rcases o with _ | _
  · exact absurd ((hs.accurate l .mainline).mp howner) hheld
  · have hnone := (hs.accurate l .handler).mp howner
    rw [held, hhandler] at hnone
    cases hnone

/-- A character that has been read leads back to the buffer. -/
theorem rank_edit (s : Core) (c : Char) :
    0 < (s.edit c).mainline.rank ∧ (s.edit c).mainline.rank + 1 ≤ 4 := by
  rw [edit]
  split_ifs <;> exact ⟨Nat.succ_pos _, Nat.le_of_ble_eq_true rfl⟩

/-- A step of `kernel_main` that is no `pop` brings it nearer to one. -/
theorem Inv.rank_mainStep (hs : s.Inv) (hhandler : s.handler = none)
    (hreading : 0 < s.mainline.rank) (hpop : ∀ r, s.mainline ≠ .pop r) (h : s.mainStep = some t) :
    0 < t.mainline.rank ∧ t.mainline.rank + 1 ≤ s.mainline.rank := by
  rw [Core.mainStep] at h
  rcases hpc : s.mainline with _ | _ | _ | _ | _ | _ | _ | r | r | ⟨r, c⟩ | ⟨r, c⟩ | _ | _ | z
  all_goals rw [hpc] at h hreading
  case lockBuf =>
    have hfree : s.locks .buf = none := hs.free hhandler (by
      rw [hpc]
      exact (Option.some_ne_none _).symm)
    obtain rfl := Option.some.inj h
    rw [acquire_of_free hfree]
    exact ⟨Nat.one_pos, Nat.le_refl 2⟩
  case pop => exact absurd hpc (hpop r)
  case unlockBuf =>
    obtain rfl := Option.some.inj h
    exact ⟨Nat.succ_pos 3, Nat.le_refl 5⟩
  case returned =>
    rcases r with _ | _ <;> rcases c with _ | c <;> obtain rfl := Option.some.inj h
    · exact ⟨Nat.succ_pos 1, Nat.le_of_ble_eq_true rfl⟩
    · exact rank_edit s c
    · exact ⟨Nat.succ_pos 2, Nat.le_refl 4⟩
    · exact ⟨Nat.succ_pos 1, Nat.le_of_ble_eq_true rfl⟩
  case startRender =>
    obtain rfl := Option.some.inj h
    dsimp only
    split
    · exact ⟨Nat.succ_pos 1, Nat.le_refl 3⟩
    · exact ⟨Nat.one_pos, Nat.le_of_ble_eq_true rfl⟩
  case frame =>
    obtain rfl := Option.some.inj h
    exact ⟨Nat.succ_pos 1, Nat.le_refl 3⟩
  case hlt => cases h
  -- before `read_line`
  all_goals exact absurd hreading (Nat.lt_irrefl 0)

/-- Other steps do not take it further away. -/
theorem Step.rank_eq {a : Act} (h : s.Step a t) (ha : a ≠ .main) :
    t.mainline.rank = s.mainline.rank := by
  rcases h with ⟨-, -⟩ | ⟨-, -⟩ | ⟨-, -⟩ | - | ⟨-, -⟩ | ⟨-, -⟩
  · exact absurd rfl ha
  · exact absurd rfl ha
  · exact absurd rfl ha
  · exact congrArg MainPc.rank (mainline_handlerStep (s := s) _).1
  · exact rank_wake s.mainline
  · exact rank_wake s.mainline

theorem text_effect_of_ne_main (s : Core) {a : Act} (ha : a ≠ .main) : text (s.effect a) = [] := by
  rcases a with _ | _ | _ | _
  · exact absurd rfl ha
  · rw [text, given_effect_handler]
    rfl
  · rfl
  · rfl

/-- A `pop` of a buffer that is not empty. -/
theorem text_pop (hhandler : s.handler = none) {r : Reader} (hpc : s.mainline = .pop r)
    (hpending : s.driver.buf.pending ≠ []) : (text (s.effect .main)).length = 1 := by
  have hbuf : s.buf.pending ≠ [] := by
    rwa [driver_of_handler_none hhandler] at hpending
  obtain ⟨c, hc⟩ : ∃ c, s.buf.pop.1 = some c := by
    rw [s.buf.pop_eq.1]
    exact ⟨_, List.head?_eq_some_head hbuf⟩
  rw [effect_main_of_pop hpc, text_read, hc]
  rfl

/-- Five steps are enough for a character: each step of `kernel_main` brings it nearer to a `pop`,
and a `pop` is worth five steps. -/
theorem Step.pace {a : Act} (hs : s.Inv) (h : s.Step a t) (hreading : 0 < s.mainline.rank) :
    0 < t.mainline.rank ∧ (s.driver.buf.pending ≠ [] → [a].count .main + t.mainline.rank ≤
      5 * (text (s.effect a)).length + s.mainline.rank) := by
  by_cases ha : a = .main
  swap
  · have hrank := h.rank_eq ha
    have hnone : [a].count .main = 0 := List.count_eq_zero.mpr (by simpa using Ne.symm ha)
    rw [text_effect_of_ne_main s ha, hrank, hnone]
    exact ⟨hreading, fun _ ↦ Nat.le_refl _⟩
  subst ha
  have hone : [Act.main].count .main = 1 := rfl
  rw [hone]
  rcases h with ⟨hhandler, hmain⟩ | ⟨-, hpc⟩ | ⟨-, hpanic⟩
  · by_cases hpop : ∃ r, s.mainline = .pop r
    · obtain ⟨r, hpc⟩ := hpop
      -- a `pop` sets the measure back to five, and pays for it with a character
      have hread := text_pop hhandler hpc
      rw [mainStep, hpc] at hmain
      obtain rfl := Option.some.inj hmain
      refine ⟨Nat.succ_pos 4, fun hpending ↦ ?_⟩
      rw [hread hpending, hpc]
      exact Nat.le_refl 6
    · push Not at hpop
      obtain ⟨hpos, hlt⟩ := hs.rank_mainStep hhandler hreading hpop hmain
      exact ⟨hpos, fun _ ↦ by omega⟩
  · rw [hpc] at hreading
    exact absurd hreading (Nat.lt_irrefl 0)
  · -- a panic ends in `hcf`, where no step is left
    have hrank : 2 ≤ s.mainline.rank := by
      rcases hpc : s.mainline with _ | _ | _ | _ | _ | _ | _ | _ | _ | _ | _ | _ | _ | _
      all_goals rw [hpc] at hpanic hreading
      case setUp => exact absurd hreading (Nat.lt_irrefl 0)
      case returned => exact Nat.le_of_ble_eq_true rfl
      case startRender => exact Nat.le_of_ble_eq_true rfl
      all_goals exact hpanic.elim
    have hhcf : (MainPc.hlt .hcf).rank = 1 := rfl
    exact ⟨Nat.one_pos, fun _ ↦ by dsimp only; omega⟩

/-! ## Whole runs -/

/-- The steps made are paid for by the characters read, as long as some are pending. -/
theorem count_le_of_trace {acts : List Act} {l : List Effect} (hs : s.Inv)
    (hreading : 0 < s.mainline.rank) (h : Trace Step effect s acts l t) :
    t.Inv ∧ 0 < t.mainline.rank ∧ ((text l).length < s.driver.buf.pending.length →
      acts.count .main + t.mainline.rank ≤ 5 * (text l).length + s.mainline.rank) := by
  induction h with
  | nil => exact ⟨hs, hreading, fun _ ↦ Nat.le_refl _⟩
  | @snoc u v as l a htr hr ih =>
    obtain ⟨hinv, hpos, hcount⟩ := ih
    obtain ⟨hpos', hpace⟩ := hr.pace hinv hpos
    refine ⟨hinv.step hr, hpos', fun hlt ↦ ?_⟩
    rw [text_append, List.length_append] at hlt
    -- as long as fewer have been read than were pending, some still are
    have hpending : u.driver.buf.pending ≠ [] := by
      intro hnil
      have hle := (pending_isPrefix htr).length_le
      rw [hnil, List.append_nil] at hle
      omega
    have hstep := hpace hpending
    have hbefore := hcount (by omega)
    rw [text_append, List.length_append, List.count_append]
    omega

/-- **What is pending is read at a steady pace.** Once `read_line` has been called, a run in which
`kernel_main` makes `5 * k` steps reads, in order, the first `k` of the characters that were pending
at its beginning, or all if there are fewer, whatever interrupts come in between. -/
theorem reads_within (framebuffer : Bool) {acts acts' : List Act} {l l' : List Effect} {s t : Core}
    (h : Trace Step effect (.boot framebuffer) acts l s) (hreading : s.mainline.stage ≠ .before)
    (h' : Trace Step effect s acts' l' t) :
    s.driver.buf.pending.take (acts'.count .main / 5) <+: text l' := by
  have hprefix := pending_isPrefix h'
  obtain ⟨-, hpos, hcount⟩ := count_le_of_trace (Inv.run h.run) ((rank_pos_iff _).mpr hreading) h'
  have hrank := rank_le s.mainline
  refine List.prefix_of_prefix_length_le ((List.take_prefix _ _).trans hprefix)
    (List.prefix_append _ _) ?_
  rw [List.length_take]
  by_contra hlt
  -- with fewer read than pending, five steps would have been paid for each
  have hshort : (text l').length < s.driver.buf.pending.length := by omega
  have hle := hcount hshort
  omega

/-- `h` and `i` are typed before `read_line` looks at the buffer. -/
def waitingHi : List Act := untilLocked.dropLast ++ typing 0x23 ++ typing 0x17

set_option maxRecDepth 8000 in
theorem exists_trace_waitingHi : ∃ l s, Trace Step effect (.boot true) waitingHi l s ∧
    s.mainline = .lockBuf .line ∧ s.driver.buf.pending = ['h', 'i'] ∧
      ∃ l' t, Trace Step effect s (List.replicate 10 .main) l' t := by
  have hexec : (waitingHi.foldlM (fun (p : List Effect × Core) a ↦
      (p.2.next a).map fun u ↦ (p.1 ++ p.2.effect a, u)) ([], .boot true)).bind
        (fun p ↦ ((List.replicate 10 Act.main).foldlM (fun (p : List Effect × Core) a ↦
          (p.2.next a).map fun u ↦ (p.1 ++ p.2.effect a, u)) ([], p.2)).map
            fun _ ↦ (p.2.mainline, p.2.driver.buf.pending)) =
      some (.lockBuf .line, ['h', 'i']) := by decide +kernel
  obtain ⟨⟨l, s⟩, hs, hrest⟩ := Option.bind_eq_some_iff.mp hexec
  obtain ⟨⟨l', t⟩, ht, hfields⟩ := Option.map_eq_some_iff.mp hrest
  obtain ⟨hmain, hpending⟩ := Prod.mk.inj hfields
  exact ⟨l, s, trace_of_foldlM (fun _ _ _ ↦ step_of_next) hs, hmain, hpending, l', t,
    trace_of_foldlM (fun _ _ _ ↦ step_of_next) ht⟩

/-- `read_line` gets both within ten steps. -/
theorem reads_within_hi : ∃ l s l' t, Trace Step effect (.boot true) waitingHi l s ∧
    Trace Step effect s (List.replicate 10 .main) l' t ∧ ['h', 'i'] <+: text l' := by
  obtain ⟨l, s, hs, hmain, hpending, l', t, ht⟩ := exists_trace_waitingHi
  have hread := reads_within true hs (by rw [hmain]; decide) ht
  rw [hpending] at hread
  exact ⟨l, s, l', t, hs, ht, hread⟩

end Core

end Punkos
