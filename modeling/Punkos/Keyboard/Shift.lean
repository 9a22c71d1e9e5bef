import Mathlib.Logic.Function.Basic
import Punkos.Foundation.Run
import Punkos.Keyboard.Delivery

/-!
# Tracking the shift keys

Here the keyboard is a physical one: keys go down, repeat while they are down and come up, and each
of these events reaches `handle_scancode` as one byte of scancode set 1. The driver's SHIFT flag is
supposed to say whether a shift key is down.

## What goes wrong

There are two shift keys and one flag. Releasing either clears it, also while the other is still
down, and what is typed until the next shift event comes out in lower case. `shift_tracked_iff`
shows that this is the only way for the flag to go wrong.
-/

namespace Punkos.Keyboard

open Transition

/-! ## Keys and events -/

/-- A key with a single-byte scancode, named by its make code. -/
structure Key where
  /-- The byte sent when the key goes down. -/
  code : BitVec 8
  /-- Bit 7 marks a break code. -/
  code_lt : code.toNat < 0x80
  deriving DecidableEq

namespace Key

/-- The left shift key. -/
def leftShift : Key := ⟨0x2A, by decide⟩

/-- The right shift key. -/
def rightShift : Key := ⟨0x36, by decide⟩

/-- One of the two shift keys. -/
def IsShift (k : Key) : Prop := k = leftShift ∨ k = rightShift

end Key

/-- What can happen to a key. -/
inductive KeyEvent where
  /-- The key goes down. -/
  | press (k : Key)
  /-- The key is still down. -/
  | autoRepeat (k : Key)
  /-- The key comes up. -/
  | release (k : Key)
  deriving DecidableEq

/-- The byte the keyboard sends. -/
def KeyEvent.byte : KeyEvent → BitVec 8
  | .press k => k.code
  | .autoRepeat k => k.code
  | .release k => k.code ||| 0x80

/-- The keyboard and the driver: which keys are down, and what the driver has made of it. -/
structure Typing (N : ℕ) where
  /-- The keys that are down. -/
  held : Key → Bool
  /-- The driver. -/
  driver : State N

variable {N : ℕ}

/-- No key is down and the driver is at boot. -/
def Typing.boot (N : ℕ) [NeZero N] : Typing N := ⟨fun _ ↦ false, .boot N⟩

/-- At least one shift key is down. -/
def anyShift (held : Key → Bool) : Bool := held .leftShift || held .rightShift

/-- One event: a key that is up goes down, or a key that is down repeats or comes up. -/
inductive TypingStep : Typing N → KeyEvent → Typing N → Prop
  | press {t : Typing N} {k : Key} : t.held k = false →
      TypingStep t (.press k)
        ⟨Function.update t.held k true, t.driver.handleScancode (KeyEvent.press k).byte⟩
  | autoRepeat {t : Typing N} {k : Key} : t.held k = true →
      TypingStep t (.autoRepeat k)
        ⟨t.held, t.driver.handleScancode (KeyEvent.autoRepeat k).byte⟩
  | release {t : Typing N} {k : Key} : t.held k = true →
      TypingStep t (.release k)
        ⟨Function.update t.held k false, t.driver.handleScancode (KeyEvent.release k).byte⟩

/-- What should hold in every state. -/
structure ShiftTracked (t : Typing N) : Prop where
  /-- SHIFT says whether a shift key is down. -/
  shift_eq : t.driver.shift = anyShift t.held
  /-- The make code of any other key pushes the character that goes with the shift keys. -/
  pushes : ∀ k : Key, ¬k.IsShift → t.driver.handleScancode k.code =
    ⟨(scancodeToChar k.code (anyShift t.held)).elim t.driver.buf t.driver.buf.push, t.driver.shift⟩

/-! ## What the driver makes of a byte -/

theorem and_0x80_eq_zero_iff : ∀ b : BitVec 8, b &&& 0x80 = 0 ↔ b.toNat < 0x80 := by decide

theorem toNat_or_0x80 : ∀ b : BitVec 8, b.toNat < 0x80 → (b ||| 0x80).toNat = b.toNat + 0x80 := by
  decide

section Decode

variable {k : Key} (shift : Bool)

theorem decode_make_shift (hk : k.IsShift) : decode k.code shift = (true, none) := by
  rcases hk with rfl | rfl <;> rfl

theorem decode_break_shift (hk : k.IsShift) : decode (k.code ||| 0x80) shift = (false, none) := by
  rcases hk with rfl | rfl <;> rfl

theorem Key.code_ne (hk : ¬k.IsShift) : k.code.toNat ≠ 0x2A ∧ k.code.toNat ≠ 0x36 := by
  obtain ⟨code, hlt⟩ := k
  constructor
  · intro h
    obtain rfl : code = 0x2A := BitVec.eq_of_toNat_eq h
    exact hk (Or.inl rfl)
  · intro h
    obtain rfl : code = 0x36 := BitVec.eq_of_toNat_eq h
    exact hk (Or.inr rfl)

theorem decode_make (hk : ¬k.IsShift) :
    decode k.code shift = (shift, scancodeToChar k.code shift) := by
  obtain ⟨h₁, h₂⟩ := k.code_ne hk
  have hlt := k.code_lt
  have hmake : ¬k.code &&& 0x80 ≠ 0 := not_not.mpr ((and_0x80_eq_zero_iff _).mpr hlt)
  rw [decode, if_neg, if_neg, if_neg hmake]
  · rintro (h | h) <;> simp [h] at hlt
  · rintro (h | h) <;> simp [h] at h₁ h₂

theorem decode_break (hk : ¬k.IsShift) : decode (k.code ||| 0x80) shift = (shift, none) := by
  obtain ⟨h₁, h₂⟩ := k.code_ne hk
  have hnat := toNat_or_0x80 k.code k.code_lt
  have hbreak : (k.code ||| 0x80) &&& 0x80 ≠ 0 := fun h ↦ by
    have := (and_0x80_eq_zero_iff _).mp h
    omega
  rw [decode, if_neg, if_neg, if_pos hbreak]
  · rintro (h | h)
    · have : k.code.toNat + 0x80 = 0xAA := hnat.symm.trans (congrArg BitVec.toNat h)
      omega
    · have : k.code.toNat + 0x80 = 0xB6 := hnat.symm.trans (congrArg BitVec.toNat h)
      omega
  · rintro (h | h)
    · have : k.code.toNat + 0x80 = 0x2A := hnat.symm.trans (congrArg BitVec.toNat h)
      omega
    · have : k.code.toNat + 0x80 = 0x36 := hnat.symm.trans (congrArg BitVec.toNat h)
      omega

end Decode

/-- With the flag right, what is pushed is right. -/
theorem ShiftTracked.of_shift_eq {t : Typing N} (h : t.driver.shift = anyShift t.held) :
    ShiftTracked t where
  shift_eq := h
  pushes k hk := by rw [State.handleScancode_eq, decode_make _ hk, h]

/-! ## One event -/

/-- The condition on an event: a shift key comes up only while the other one is up. -/
def OtherShiftUp (t : Typing N) : KeyEvent → Prop
  | .release k => k.IsShift → ∀ k' : Key, k'.IsShift → t.held k' = true → k' = k
  | _ => True

theorem anyShift_eq_true_iff {held : Key → Bool} :
    anyShift held = true ↔ ∃ k : Key, k.IsShift ∧ held k = true := by
  rw [anyShift, Bool.or_eq_true]
  constructor
  · rintro (h | h)
    · exact ⟨_, Or.inl rfl, h⟩
    · exact ⟨_, Or.inr rfl, h⟩
  · rintro ⟨k, rfl | rfl, h⟩
    · exact Or.inl h
    · exact Or.inr h

/-- Other keys have no part in it. -/
theorem anyShift_update {k : Key} (hk : ¬k.IsShift) (held : Key → Bool) (b : Bool) :
    anyShift (Function.update held k b) = anyShift held := by
  have hl : Key.leftShift ≠ k := fun h ↦ hk (Or.inl h.symm)
  have hr : Key.rightShift ≠ k := fun h ↦ hk (Or.inr h.symm)
  rw [anyShift, Function.update_of_ne hl, Function.update_of_ne hr, anyShift]

/-- With a shift key up, it is up to the other one. -/
theorem anyShift_update_false_iff {k : Key} {held : Key → Bool} :
    anyShift (Function.update held k false) = false ↔
      ∀ k' : Key, k'.IsShift → held k' = true → k' = k := by
  rw [Bool.eq_false_iff, ne_eq, anyShift_eq_true_iff]
  constructor
  · intro h k' hk' hheld
    by_contra hne
    exact h ⟨k', hk', by rwa [Function.update_of_ne hne]⟩
  · rintro h ⟨k', hk', hheld⟩
    by_cases hne : k' = k
    · rw [hne, Function.update_self] at hheld
      exact Bool.noConfusion hheld
    · rw [Function.update_of_ne hne] at hheld
      exact hne (h k' hk' hheld)

/-- **One event keeps SHIFT right, exactly when it meets the condition.** -/
theorem TypingStep.tracked_iff {t u : Typing N} {e : KeyEvent} (h : TypingStep t e u)
    (ht : t.driver.shift = anyShift t.held) :
    u.driver.shift = anyShift u.held ↔ OtherShiftUp t e := by
  rcases h with @⟨k, -⟩ | @⟨k, hheld⟩ | @⟨k, -⟩
  · refine iff_of_true ?_ trivial
    rw [State.handleScancode_eq, KeyEvent.byte]
    by_cases hk : k.IsShift
    · rw [decode_make_shift _ hk]
      exact (anyShift_eq_true_iff.mpr ⟨k, hk, Function.update_self _ _ _⟩).symm
    · rw [decode_make _ hk]
      exact ht.trans (anyShift_update hk _ _).symm
  · refine iff_of_true ?_ trivial
    rw [State.handleScancode_eq, KeyEvent.byte]
    by_cases hk : k.IsShift
    · rw [decode_make_shift _ hk]
      exact (anyShift_eq_true_iff.mpr ⟨k, hk, hheld⟩).symm
    · rw [decode_make _ hk]
      exact ht
  · rw [State.handleScancode_eq, KeyEvent.byte]
    by_cases hk : k.IsShift
    · rw [decode_break_shift _ hk, eq_comm]
      exact anyShift_update_false_iff.trans ⟨fun h _ ↦ h, fun h ↦ h hk⟩
    · rw [decode_break _ hk]
      refine iff_of_true ?_ fun hk' ↦ absurd hk' hk
      exact ht.trans (anyShift_update hk _ _).symm

/-! ## Runs -/

theorem TypingStep.deterministic {t u v : Typing N} {e : KeyEvent} (h : TypingStep t e u)
    (h' : TypingStep t e v) : u = v := by
  rcases h with _ | _ | _ <;> rcases h' with _ | _ | _ <;> rfl

/-- Along a run that meets the condition SHIFT is right. -/
theorem shift_eq_of_guarded_run [NeZero N] {es : List KeyEvent} {t : Typing N}
    (h : Run (Guarded TypingStep OtherShiftUp) (.boot N) es t) :
    t.driver.shift = anyShift t.held := by
  refine Run.invariant (I := fun t ↦ t.driver.shift = anyShift t.held) ?_ rfl h
  intro t e u ht hstep
  exact (hstep.1.tracked_iff ht).mpr hstep.2

/-- **SHIFT follows the shift keys, exactly when no shift key comes up while the other is down.**
The left side looks at every state of the run, the right side at every release in it. -/
theorem shift_tracked_iff {N : ℕ} [NeZero N] {es : List KeyEvent} {u : Typing N}
    (hrun : Run TypingStep (.boot N) es u) :
    (∀ pre t, pre <+: es → Run TypingStep (.boot N) pre t → ShiftTracked t) ↔
      ∀ pre k t, pre ++ [.release k] <+: es → Run TypingStep (.boot N) pre t → k.IsShift →
        ∀ k' : Key, k'.IsShift → t.held k' = true → k' = k := by
  constructor
  · intro h pre k t hpre ht
    obtain ⟨post, rfl⟩ := hpre
    obtain ⟨v, hv, -⟩ := run_append_iff.mp hrun
    obtain ⟨t', ht', hstep⟩ := run_concat_iff.mp hv
    obtain rfl := ht'.deterministic (fun _ _ _ _ h h' ↦ h.deterministic h') ht
    have hbefore := h pre t' ((List.prefix_append _ _).trans (List.prefix_append _ _)) ht
    have hafter := h _ v (List.prefix_append _ _) hv
    exact (hstep.tracked_iff hbefore.shift_eq).mp hafter.shift_eq
  · intro h pre t hpre ht
    have hguard : Run (Guarded TypingStep OtherShiftUp) (.boot N) pre t := by
      apply ht.guarded
      intro pre' e v _ hop hv _
      rcases e with k | k | k
      · trivial
      · trivial
      · exact h pre' k v (hop.trans hpre) hv
    exact .of_shift_eq (shift_eq_of_guarded_run hguard)

/-- The key that types an A. -/
def Key.a : Key := ⟨0x1E, by decide⟩

/-- Typing one capital letter with the left shift key. -/
theorem shift_tracked_one_shift :
    ∃ u, Run TypingStep (.boot bufSize) [.press .leftShift, .press .a, .release .leftShift] u ∧
      ∀ pre t, pre <+: [.press .leftShift, .press .a, .release .leftShift] →
        Run TypingStep (.boot bufSize) pre t → ShiftTracked t := by
  have h₁ := (Run.nil (Typing.boot bufSize)).snoc (TypingStep.press (k := .leftShift) rfl)
  have h₂ := h₁.snoc (TypingStep.press (k := .a) rfl)
  have h₃ := h₂.snoc (TypingStep.release (k := .leftShift) rfl)
  refine ⟨_, h₃, (shift_tracked_iff h₃).mpr ?_⟩
  intro pre k t hpre ht hk k' hk' hheld
  -- the only release is the last event, and the right shift key was never pressed
  rcases pre with _ | ⟨e₁, _ | ⟨e₂, _ | ⟨e₃, pre⟩⟩⟩
  · simp at hpre
  · simp at hpre
  · obtain ⟨rfl, rfl, rfl⟩ : e₁ = .press .leftShift ∧ e₂ = .press .a ∧ k = .leftShift := by
      simpa using hpre
    obtain rfl := h₂.deterministic (fun _ _ _ _ h h' ↦ h.deterministic h') ht
    rcases hk' with rfl | rfl
    · rfl
    · exact absurd hheld (by decide)
  · have hlen := hpre.length_le
    simp only [List.cons_append, List.length_cons, List.length_append, List.length_nil] at hlen
    omega

/-- The statement without the condition fails: with the right shift key still down, releasing the
left one clears SHIFT. -/
theorem not_shift_tracked :
    ¬∀ (es : List KeyEvent) (t : Typing bufSize), Run TypingStep (.boot bufSize) es t →
      ShiftTracked t := by
  intro h
  have h₁ := (Run.nil (Typing.boot bufSize)).snoc (TypingStep.press (k := .leftShift) rfl)
  have h₂ := h₁.snoc (TypingStep.press (k := .rightShift) rfl)
  have h₃ := h₂.snoc (TypingStep.release (k := .leftShift) rfl)
  exact absurd (h _ _ h₃).shift_eq (by decide)

end Punkos.Keyboard
