import Punkos.Foundation.Run
import Punkos.Keyboard.Delivery

/-!
# Extended keys

Keys that the first PC keyboard did not have send two bytes, `E0` and another one. The second byte
is the code of some older key, or looks like its break code, so a driver has to remember the `E0`
until the next interrupt. `handle_scancode` does not: it ignores `E0`, whose bit 7 is set, and then
takes the second byte for a code of its own.

## What goes wrong

A media key types a letter (`E0 10` types a `q`), and the fake shift codes that come with Print
Screen and the navigation keys move the SHIFT flag. `extended_unleaked_iff` lists the pairs that do
no harm: the two keys of the keypad that are meant to type, and codes that mean nothing to the
driver or would set SHIFT to what it is.
-/

namespace Punkos.Keyboard

open Transition

/-! ## Streams of codes -/

/-- A code of scancode set 1. -/
inductive Scancode where
  /-- A single byte. -/
  | single (b : BitVec 8) (h : b ≠ 0xE0)
  /-- `E0` and a second byte, make or break. -/
  | extended (b : BitVec 8)

/-- The bytes the keyboard sends. -/
def Scancode.bytes : Scancode → List (BitVec 8)
  | .single b _ => [b]
  | .extended b => [0xE0, b]

/-- The handler runs once for each byte. -/
def handled (bs : List (BitVec 8)) : List Call := bs.map .handleScancode

/-- The stream with its extended codes removed. Keypad Enter (`E0 1C`) and keypad slash (`E0 35`)
may stay, as the keys whose codes they share. -/
inductive Stripped : List Scancode → List (BitVec 8) → Prop
  | nil : Stripped [] []
  | single {b : BitVec 8} {h : b ≠ 0xE0} {ks : List Scancode} {bs : List (BitVec 8)} :
      Stripped ks bs → Stripped (.single b h :: ks) (b :: bs)
  | removed {b : BitVec 8} {ks : List Scancode} {bs : List (BitVec 8)} :
      Stripped ks bs → Stripped (.extended b :: ks) bs
  | keypad {b : BitVec 8} {ks : List Scancode} {bs : List (BitVec 8)} : b = 0x1C ∨ b = 0x35 →
      Stripped ks bs → Stripped (.extended b :: ks) (b :: bs)

/-- The driver pushes the same characters for the stream and ends with the same SHIFT as for the
stream without its extended codes. -/
def Unleaked (ks : List Scancode) : Prop :=
  ∃ bs, Stripped ks bs ∧
    produced false (handled (ks.flatMap Scancode.bytes)) = produced false (handled bs) ∧
    ((State.boot bufSize).after (handled (ks.flatMap Scancode.bytes))).shift =
      ((State.boot bufSize).after (handled bs)).shift

/-- The codes of keys that type a character. -/
def TypesChar (b : BitVec 8) : Prop :=
  b = 0x39 ∨ 0x01 ≤ b.toNat ∧ b.toNat ≤ 0x35 ∧ b ≠ 0x1D ∧ b ≠ 0x29 ∧ b ≠ 0x2A

instance (b : BitVec 8) : Decidable (TypesChar b) := inferInstanceAs (Decidable (_ ∨ _))

/-- An extended code the driver makes nothing of, or nothing but what it may: it is a key of the
keypad that types, or its second byte types nothing and is no shift code that would change SHIFT. -/
def Harmless (shift : Bool) (b : BitVec 8) : Prop :=
  b = 0x1C ∨ b = 0x35 ∨ ¬TypesChar b ∧ (b = 0x2A ∨ b = 0x36 → shift = true) ∧
    (b = 0xAA ∨ b = 0xB6 → shift = false)

/-! ## One byte -/

theorem decode_e0 (shift : Bool) : decode 0xE0 shift = (shift, none) := by
  cases shift <;> rfl

/-- Which bytes do nothing. -/
theorem decode_eq_self_iff : ∀ (b : BitVec 8) (shift : Bool), decode b shift = (shift, none) ↔
    ¬TypesChar b ∧ (b = 0x2A ∨ b = 0x36 → shift = true) ∧
      (b = 0xAA ∨ b = 0xB6 → shift = false) := by
  decide

/-- Whether a byte types a character does not depend on SHIFT. -/
theorem length_decode : ∀ (b : BitVec 8) (shift shift' : Bool),
    (decode b shift).2.toList.length = (decode b shift').2.toList.length := by
  decide

/-- The keypad keys that type leave SHIFT alone. -/
theorem decode_keypad {b : BitVec 8} (h : b = 0x1C ∨ b = 0x35) (shift : Bool) :
    ∃ c, decode b shift = (shift, some c) := by
  rcases h with rfl | rfl <;> exact ⟨_, rfl⟩

theorem harmless_iff (shift : Bool) (b : BitVec 8) :
    Harmless shift b ↔ (b = 0x1C ∨ b = 0x35) ∨ decode b shift = (shift, none) := by
  rw [Harmless, decode_eq_self_iff, or_assoc]

/-! ## Streams of bytes -/

/-- What SHIFT becomes. -/
def shiftAfter (shift : Bool) (bs : List (BitVec 8)) : Bool :=
  bs.foldl (fun shift b ↦ (decode b shift).1) shift

theorem shift_after_handled {N : ℕ} (s : State N) (bs : List (BitVec 8)) :
    (s.after (handled bs)).shift = shiftAfter s.shift bs := by
  induction bs generalizing s with
  | nil => rfl
  | cons b bs ih =>
    have hshift : (s.handleScancode b).shift = (decode b s.shift).1 := by
      rw [State.handleScancode_eq]
    exact (ih (s.handleScancode b)).trans (congrArg (shiftAfter · bs) hshift)

theorem produced_handled_cons (shift : Bool) (b : BitVec 8) (bs : List (BitVec 8)) :
    produced shift (handled (b :: bs)) =
      (decode b shift).2.toList ++ produced (decode b shift).1 (handled bs) := rfl

theorem shiftAfter_cons (shift : Bool) (b : BitVec 8) (bs : List (BitVec 8)) :
    shiftAfter shift (b :: bs) = shiftAfter (decode b shift).1 bs := rfl

/-- How many characters bytes type does not depend on SHIFT either. -/
theorem length_produced (bs : List (BitVec 8)) (shift shift' : Bool) :
    (produced shift (handled bs)).length = (produced shift' (handled bs)).length := by
  induction bs generalizing shift shift' with
  | nil => rfl
  | cons b bs ih =>
    rw [produced_handled_cons, produced_handled_cons, List.length_append, List.length_append,
      length_decode b shift shift', ih _ (decode b shift').1]

/-- Removing codes does not make more characters. -/
theorem Stripped.length_produced_le {ks : List Scancode} {bs : List (BitVec 8)}
    (h : Stripped ks bs) (shift : Bool) :
    (produced shift (handled bs)).length ≤
      (produced shift (handled (ks.flatMap Scancode.bytes))).length := by
  induction h generalizing shift with
  | nil => exact Nat.le_refl _
  | single _ ih =>
    rw [List.flatMap_cons, Scancode.bytes, List.singleton_append, produced_handled_cons,
      produced_handled_cons, List.length_append, List.length_append]
    exact Nat.add_le_add_left (ih _) _
  | @removed b ks bs _ ih =>
    rw [List.flatMap_cons, Scancode.bytes, List.cons_append, List.singleton_append,
      produced_handled_cons, produced_handled_cons, decode_e0, List.length_append,
      List.length_append]
    calc (produced shift (handled bs)).length
        ≤ (produced shift (handled (ks.flatMap Scancode.bytes))).length := ih shift
      _ = (produced (decode b shift).1 (handled (ks.flatMap Scancode.bytes))).length :=
          length_produced _ _ _
      _ ≤ _ := by
          rw [Option.toList_none, List.length_nil, Nat.zero_add]
          exact Nat.le_add_left _ _
  | keypad _ _ ih =>
    rw [List.flatMap_cons, Scancode.bytes, List.cons_append, List.singleton_append,
      produced_handled_cons, produced_handled_cons, produced_handled_cons, decode_e0,
      Option.toList_none, List.nil_append, List.length_append, List.length_append]
    exact Nat.add_le_add_left (ih _) _

/-! ## From any SHIFT -/

/-- What `Unleaked` says, when SHIFT has some value at first. -/
def UnleakedFrom (shift : Bool) (ks : List Scancode) : Prop :=
  ∃ bs, Stripped ks bs ∧
    produced shift (handled (ks.flatMap Scancode.bytes)) = produced shift (handled bs) ∧
    shiftAfter shift (ks.flatMap Scancode.bytes) = shiftAfter shift bs

theorem unleakedFrom_nil (shift : Bool) : UnleakedFrom shift [] := ⟨[], .nil, rfl, rfl⟩

/-- A single byte counts on both sides. -/
theorem unleakedFrom_single (shift : Bool) (b : BitVec 8) (h : b ≠ 0xE0) (ks : List Scancode) :
    UnleakedFrom shift (.single b h :: ks) ↔ UnleakedFrom (decode b shift).1 ks := by
  constructor
  · rintro ⟨_, hstrip, hchars, hshift⟩
    rcases hstrip with _ | hstrip
    rw [List.flatMap_cons, Scancode.bytes, List.singleton_append] at hchars hshift
    exact ⟨_, hstrip, List.append_cancel_left hchars, hshift⟩
  · rintro ⟨bs, hstrip, hchars, hshift⟩
    refine ⟨b :: bs, .single hstrip, ?_, ?_⟩
    · rw [List.flatMap_cons, Scancode.bytes, List.singleton_append, produced_handled_cons,
        produced_handled_cons, hchars]
    · rw [List.flatMap_cons, Scancode.bytes, List.singleton_append, shiftAfter_cons,
        shiftAfter_cons, hshift]

/-- An extended code does to the driver what its second byte does. -/
theorem extended_bytes (shift : Bool) (b : BitVec 8) (ks : List Scancode) :
    produced shift (handled ((Scancode.extended b :: ks).flatMap Scancode.bytes)) =
        (decode b shift).2.toList ++
          produced (decode b shift).1 (handled (ks.flatMap Scancode.bytes)) ∧
      shiftAfter shift ((Scancode.extended b :: ks).flatMap Scancode.bytes) =
        shiftAfter (decode b shift).1 (ks.flatMap Scancode.bytes) := by
  rw [List.flatMap_cons, Scancode.bytes, List.cons_append, List.singleton_append,
    produced_handled_cons, produced_handled_cons, shiftAfter_cons, shiftAfter_cons, decode_e0]
  exact ⟨rfl, rfl⟩

/-- A key of the keypad that types must be kept, since removing it would lose a character. -/
theorem unleakedFrom_keypad {b : BitVec 8} (h : b = 0x1C ∨ b = 0x35) (shift : Bool)
    (ks : List Scancode) : UnleakedFrom shift (.extended b :: ks) ↔ UnleakedFrom shift ks := by
  obtain ⟨c, hc⟩ := decode_keypad h shift
  obtain ⟨hbytes, hafter⟩ := extended_bytes shift b ks
  rw [hc] at hbytes hafter
  constructor
  · rintro ⟨bs, hstrip, hchars, hshift⟩
    rw [hbytes] at hchars
    rw [hafter] at hshift
    rcases hstrip with _ | _ | hstrip | ⟨-, hstrip⟩
    · have hle := hstrip.length_produced_le shift
      rw [← hchars, List.length_append] at hle
      exact absurd hle (Nat.not_le_of_lt (Nat.lt_add_of_pos_left Nat.one_pos))
    · rw [produced_handled_cons, hc] at hchars
      rw [shiftAfter_cons, hc] at hshift
      exact ⟨_, hstrip, List.append_cancel_left hchars, hshift⟩
  · rintro ⟨bs, hstrip, hchars, hshift⟩
    refine ⟨b :: bs, .keypad h hstrip, ?_, ?_⟩
    · rw [hbytes, produced_handled_cons, hc, hchars]
    · rw [hafter, shiftAfter_cons, hc, hshift]

/-- A code the driver makes nothing of may be removed. -/
theorem unleakedFrom_of_decode_eq {b : BitVec 8} (hkeypad : ¬(b = 0x1C ∨ b = 0x35)) {shift : Bool}
    (h : decode b shift = (shift, none)) (ks : List Scancode) :
    UnleakedFrom shift (.extended b :: ks) ↔ UnleakedFrom shift ks := by
  obtain ⟨hbytes, hafter⟩ := extended_bytes shift b ks
  rw [h, Option.toList_none, List.nil_append] at hbytes
  rw [h] at hafter
  constructor
  · rintro ⟨bs, hstrip, hchars, hshift⟩
    rw [hbytes] at hchars
    rw [hafter] at hshift
    rcases hstrip with _ | _ | hstrip | ⟨hkeep, -⟩
    · exact ⟨bs, hstrip, hchars, hshift⟩
    · exact absurd hkeep hkeypad
  · rintro ⟨bs, hstrip, hchars, hshift⟩
    exact ⟨bs, .removed hstrip, hbytes.trans hchars, hafter.trans hshift⟩

/-- One extended code alone does not leak exactly if it is harmless. -/
theorem unleakedFrom_singleton_iff (shift : Bool) (b : BitVec 8) :
    UnleakedFrom shift [.extended b] ↔ Harmless shift b := by
  rw [harmless_iff]
  by_cases hkeypad : b = 0x1C ∨ b = 0x35
  · rw [unleakedFrom_keypad hkeypad]
    exact iff_of_true (unleakedFrom_nil shift) (Or.inl hkeypad)
  · rw [or_iff_right hkeypad]
    constructor
    · rintro ⟨bs, hstrip, hchars, hshift⟩
      obtain ⟨hbytes, hafter⟩ := extended_bytes shift b []
      rcases hstrip with _ | _ | hstrip | ⟨hkeep, -⟩
      · cases hstrip
        have hnone : (decode b shift).2.toList = [] :=
          (List.append_nil _).symm.trans (hbytes.symm.trans hchars)
        exact Prod.ext (hafter.symm.trans hshift) (Option.toList_eq_nil_iff.mp hnone)
      · exact absurd hkeep hkeypad
    · intro h
      exact (unleakedFrom_of_decode_eq hkeypad h []).mpr (unleakedFrom_nil shift)

/-- **Along every prefix, from any SHIFT.** -/
theorem unleakedFrom_iff (shift : Bool) (ks : List Scancode) :
    (∀ pre, pre <+: ks → UnleakedFrom shift pre) ↔
      ∀ pre b, pre ++ [.extended b] <+: ks →
        Harmless (shiftAfter shift (pre.flatMap Scancode.bytes)) b := by
  induction ks generalizing shift with
  | nil =>
    constructor
    · intro _ pre b hpre
      exact absurd (List.prefix_nil.mp hpre) (List.append_ne_nil_of_right_ne_nil _ (by simp))
    · intro _ pre hpre
      rw [List.prefix_nil.mp hpre]
      exact unleakedFrom_nil shift
  | cons k ks ih =>
    rw [forall_prefix_cons_iff, and_iff_right (unleakedFrom_nil shift)]
    cases k with
    | single b hb =>
      simp only [unleakedFrom_single]
      rw [ih]
      constructor
      · intro h pre c hpre
        rcases concat_prefix_cons_iff.mp hpre with ⟨-, hc⟩ | ⟨pre, rfl, htail⟩
        · cases hc
        · exact h pre c htail
      · intro h pre c hpre
        exact h (.single b hb :: pre) c (concat_prefix_cons_iff.mpr (Or.inr ⟨pre, rfl, hpre⟩))
    | extended b =>
      -- the stream that ends with this code decides about it; after that SHIFT is as before
      have hrest (hb : Harmless shift b) (pre : List Scancode) :
          UnleakedFrom shift (.extended b :: pre) ↔ UnleakedFrom shift pre := by
        by_cases hkeypad : b = 0x1C ∨ b = 0x35
        · exact unleakedFrom_keypad hkeypad shift pre
        · exact unleakedFrom_of_decode_eq hkeypad
            (((harmless_iff shift b).mp hb).resolve_left hkeypad) pre
      have hshift (hb : Harmless shift b) (pre : List Scancode) :
          shiftAfter shift ((Scancode.extended b :: pre).flatMap Scancode.bytes) =
            shiftAfter shift (pre.flatMap Scancode.bytes) := by
        rw [(extended_bytes shift b pre).2]
        rcases (harmless_iff shift b).mp hb with hkeypad | hnone
        · obtain ⟨c, hc⟩ := decode_keypad hkeypad shift
          rw [hc]
        · rw [hnone]
      constructor
      · intro h pre c hpre
        have hb : Harmless shift b :=
          (unleakedFrom_singleton_iff shift b).mp (h [] List.nil_prefix)
        rcases concat_prefix_cons_iff.mp hpre with ⟨rfl, hc⟩ | ⟨pre, rfl, htail⟩
        · cases hc
          exact hb
        · rw [hshift hb]
          exact (ih shift).mp (fun pre hpre ↦ (hrest hb pre).mp (h pre hpre)) pre c htail
      · intro h pre hpre
        have hb : Harmless shift b := h [] b ⟨ks, rfl⟩
        refine (hrest hb pre).mpr ((ih shift).mpr (fun pre c hpre ↦ ?_) pre hpre)
        rw [← hshift hb]
        exact h (.extended b :: pre) c (concat_prefix_cons_iff.mpr (Or.inr ⟨pre, rfl, hpre⟩))

theorem unleaked_iff (ks : List Scancode) : Unleaked ks ↔ UnleakedFrom false ks := by
  have hboot : (State.boot bufSize).shift = false := rfl
  simp only [Unleaked, UnleakedFrom, shift_after_handled, hboot]

/-- **Extended keys.** For every stream of codes: up to every point of it the extended codes have
typed nothing but what the keypad may type and have not moved SHIFT, if and only if every extended
code in it is harmless at the SHIFT it finds. -/
theorem extended_unleaked_iff (ks : List Scancode) :
    (∀ pre, pre <+: ks → Unleaked pre) ↔
      ∀ pre b, pre ++ [.extended b] <+: ks →
        Harmless ((State.boot bufSize).after (handled (pre.flatMap Scancode.bytes))).shift b := by
  have hboot : (State.boot bufSize).shift = false := rfl
  simp only [unleaked_iff, shift_after_handled, hboot]
  exact unleakedFrom_iff false ks

/-- The previous-track key types a letter, and the fake shift code before a navigation key sets
SHIFT. -/
theorem not_extended_unleaked :
    ¬Unleaked [.extended 0x10] ∧ ¬Unleaked [.extended 0x2A, .extended 0x47] := by
  constructor
  · rintro ⟨bs, hstrip, hchars, -⟩
    rcases hstrip with _ | _ | hstrip | ⟨hkeep, -⟩
    · cases hstrip
      exact absurd hchars (by decide)
    · exact absurd hkeep (by decide)
  · rintro ⟨bs, hstrip, -, hshift⟩
    rcases hstrip with _ | _ | hstrip | ⟨hkeep, -⟩
    · rcases hstrip with _ | _ | hstrip | ⟨hkeep, -⟩
      · cases hstrip
        exact absurd hshift (by decide)
      · exact absurd hkeep (by decide)
    · exact absurd hkeep (by decide)

end Punkos.Keyboard
