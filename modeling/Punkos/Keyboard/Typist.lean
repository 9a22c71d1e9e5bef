import Punkos.Interrupts.Readers
import Punkos.Keyboard.Shift

/-!
# Typing a text

The other way round: given a text, which keys make it? `keystrokes` is a typist with one finger for
the keys and one for the left shift key, who lets go of everything after each character. For all
printable ASCII but the backquote and the tilde, and for escape, backspace, tab and newline, what
the driver makes of these keys is the text again; and no keys at all make any other character
(`types_iff`).

With the readers this goes through the whole kernel: whenever the keys are those of a text and find
room, `read_line` returns the first line of that text, whatever else the machine is doing.
-/

namespace Punkos.Keyboard

open Transition
open Cancellation (typed typed_of_notMem IsNormalForm isNormalForm_iff)

/-! ## The table, backwards -/

/-- The characters on the keys: four control characters, and printable ASCII up to the closing
brace but for the backquote. -/
def Typable (c : Char) : Prop :=
  c = '\x1b' ∨ c = '\x08' ∨ c = '\t' ∨ c = '\n' ∨
    0x20 ≤ c.toNat ∧ c.toNat ≤ 0x7D ∧ c.toNat ≠ 0x60

instance (c : Char) : Decidable (Typable c) := inferInstanceAs (Decidable (_ ∨ _))

/-- The keys, each without and with shift. -/
def strokes : List (BitVec 8 × Bool) :=
  (List.range 0x80).flatMap fun n ↦ [(BitVec.ofNat 8 n, false), (BitVec.ofNat 8 n, true)]

/-- The first stroke that types a character. -/
def strokeFor (c : Char) : Option (BitVec 8 × Bool) :=
  strokes.find? fun p ↦ scancodeToChar p.1 p.2 = some c

/-- A key that types sends a single byte and is no shift key. -/
theorem code_of_types : ∀ (code : BitVec 8) (shifted : Bool),
    scancodeToChar code shifted ≠ none → code.toNat < 0x80 ∧ code ≠ 0x2A ∧ code ≠ 0x36 := by
  decide

theorem all_typable : ∀ (code : BitVec 8) (shifted : Bool),
    (scancodeToChar code shifted).all fun c ↦ decide (Typable c) := by
  decide +kernel

/-- What a key types is typable. -/
theorem typable_of_types {code : BitVec 8} {shifted : Bool} {c : Char}
    (h : scancodeToChar code shifted = some c) : Typable c := by
  have hall := all_typable code shifted
  rw [h] at hall
  exact of_decide_eq_true hall

theorem all_strokeFor : ∀ (code : BitVec 8) (shifted : Bool),
    (scancodeToChar code shifted).all fun c ↦ (strokeFor c).any fun p ↦
      decide (p.1 = code ∧
        (p.2 = shifted ∨ scancodeToChar code false = scancodeToChar code true)) := by
  decide +kernel

/-- `strokeFor` finds the only key for a character. -/
theorem strokeFor_eq_of_types {code : BitVec 8} {shifted : Bool} {c : Char}
    (h : scancodeToChar code shifted = some c) : ∃ p, strokeFor c = some p ∧ p.1 = code ∧
      (p.2 = shifted ∨ scancodeToChar code false = scancodeToChar code true) := by
  have hall := all_strokeFor code shifted
  rw [h] at hall
  rcases hp : strokeFor c with _ | p
  · simp [hp] at hall
  · rw [Option.all_some, hp, Option.any_some] at hall
    exact ⟨p, rfl, of_decide_eq_true hall⟩

/-- The table has an entry for each typable character. -/
theorem strokeFor_isSome : ∀ n : Fin 0x80, Typable (Char.ofNat n) →
    (strokeFor (Char.ofNat n)).isSome := by
  decide +kernel

theorem types_of_strokeFor {c : Char} {p : BitVec 8 × Bool} (h : strokeFor c = some p) :
    scancodeToChar p.1 p.2 = some c := by
  simpa using List.find?_some h

theorem Typable.toNat_lt {c : Char} (h : Typable c) : c.toNat < 0x80 := by
  rcases h with rfl | rfl | rfl | rfl | ⟨-, h, -⟩
  · decide
  · decide
  · decide
  · decide
  · exact Nat.lt_of_le_of_lt h (by decide)

theorem Typable.exists_stroke {c : Char} (h : Typable c) : ∃ p, strokeFor c = some p := by
  have hsome := strokeFor_isSome ⟨c.toNat, h.toNat_lt⟩
  simp only [Char.ofNat_toNat] at hsome
  exact Option.isSome_iff_exists.mp (hsome h)

/-- **No two keys type the same character**, and only a key that does not mind shift types it both
with and without. -/
theorem code_eq_of_types {code code' : BitVec 8} {shifted shifted' : Bool} {c : Char}
    (h : scancodeToChar code shifted = some c) (h' : scancodeToChar code' shifted' = some c) :
    code = code' ∧
      (shifted = shifted' ∨ scancodeToChar code false = scancodeToChar code true) := by
  obtain ⟨p, hp, rfl, hshift⟩ := strokeFor_eq_of_types h
  obtain ⟨p', hp', rfl, hshift'⟩ := strokeFor_eq_of_types h'
  obtain rfl := Option.some.inj (hp.symm.trans hp')
  refine ⟨rfl, ?_⟩
  rcases hshift with rfl | hsame
  · rcases hshift' with rfl | hsame
    · exact .inl rfl
    · exact .inr hsame
  · exact .inr hsame

/-! ## The typist -/

/-- The key with a make code. -/
def Key.ofCode (code : BitVec 8) : Key :=
  if h : code.toNat < 0x80 then ⟨code, h⟩ else .leftShift

/-- The events that type a character, if there are any. -/
def keystroke (c : Char) : List KeyEvent :=
  match strokeFor c with
  | none => []
  | some (code, false) => [.press (.ofCode code), .release (.ofCode code)]
  | some (code, true) =>
    [.press .leftShift, .press (.ofCode code), .release (.ofCode code), .release .leftShift]

/-- The events that type a text. -/
def keystrokes (cs : List Char) : List KeyEvent := cs.flatMap keystroke

theorem Key.code_ofCode {code : BitVec 8} (h : code.toNat < 0x80) :
    (Key.ofCode code).code = code := by
  rw [ofCode, dif_pos h]

theorem not_isShift_ofCode {code : BitVec 8} (h : code.toNat < 0x80) (hleft : code ≠ 0x2A)
    (hright : code ≠ 0x36) : ¬(Key.ofCode code).IsShift := by
  have hcode := Key.code_ofCode h
  rintro (heq | heq) <;> rw [heq] at hcode
  · exact hleft hcode.symm
  · exact hright hcode.symm

/-- What the driver makes of the bytes of a character. -/
theorem produced_keystroke {c : Char} (h : Typable c) (bs : List (BitVec 8)) :
    produced false (handled ((keystroke c).map KeyEvent.byte ++ bs)) =
      c :: produced false (handled bs) := by
  obtain ⟨⟨code, shifted⟩, hp⟩ := h.exists_stroke
  have htypes := types_of_strokeFor hp
  obtain ⟨hlt, hleft, hright⟩ := code_of_types code shifted (htypes ▸ Option.some_ne_none c)
  have hkey := not_isShift_ofCode hlt hleft hright
  -- the key is no shift key, so neither its make code nor its break code touches SHIFT
  have hmake : ∀ shift, decode code shift = (shift, scancodeToChar code shift) := by
    intro shift
    have hdecode := decode_make (k := .ofCode code) shift hkey
    rwa [Key.code_ofCode hlt] at hdecode
  have hbreak : ∀ shift, decode (code ||| 0x80) shift = (shift, none) := by
    intro shift
    have hdecode := decode_break (k := .ofCode code) shift hkey
    rwa [Key.code_ofCode hlt] at hdecode
  rw [keystroke, hp]
  rcases shifted with _ | _
  · simp only [List.map_cons, List.map_nil, KeyEvent.byte, Key.code_ofCode hlt, List.cons_append,
      List.nil_append, produced_handled_cons, hmake, hbreak, htypes]
    rfl
  -- the shift key is held around the key and let go after it
  · have hdown : decode Key.leftShift.code false = (true, none) := decode_make_shift _ (.inl rfl)
    have hup : decode (Key.leftShift.code ||| 0x80) true = (false, none) :=
      decode_break_shift _ (.inl rfl)
    simp only [List.map_cons, List.map_nil, KeyEvent.byte, Key.code_ofCode hlt, List.cons_append,
      List.nil_append, produced_handled_cons, hmake, hbreak, hdown, hup, htypes]
    rfl

/-- **The bytes of a text make the text.** -/
theorem produced_keystrokes {cs : List Char} (h : ∀ c ∈ cs, Typable c) :
    produced false (handled ((keystrokes cs).map KeyEvent.byte)) = cs := by
  induction cs with
  | nil => rfl
  | cons c cs ih =>
    obtain ⟨hc, hcs⟩ := List.forall_mem_cons.mp h
    rw [keystrokes, List.flatMap_cons, List.map_append, produced_keystroke hc]
    exact congrArg (c :: ·) (ih hcs)

/-! ## The typist keeps to the rules -/

/-- No key is down. -/
def allUp : Key → Bool := fun _ ↦ false

/-- A key is down while others are pressed and released. -/
theorem run_hold {N : ℕ} {held : Key → Bool} {k : Key} {es : List KeyEvent} (hup : held k = false)
    (h : ∀ s : State N, ∃ s', Run TypingStep ⟨Function.update held k true, s⟩ es
      ⟨Function.update held k true, s'⟩) (s : State N) :
    ∃ s', Run TypingStep ⟨held, s⟩ (.press k :: (es ++ [.release k])) ⟨held, s'⟩ := by
  obtain ⟨s', hrun⟩ := h (s.handleScancode (KeyEvent.press k).byte)
  have hpress : Run TypingStep ⟨held, s⟩ [.press k] _ := Run.single (TypingStep.press hup)
  have hrelease := TypingStep.release (t := ⟨Function.update held k true, s'⟩) (k := k)
    (Function.update_self ..)
  have hheld : Function.update (Function.update held k true) k false = held := by
    rw [Function.update_idem, ← hup, Function.update_eq_self]
  refine ⟨s'.handleScancode (KeyEvent.release k).byte, ?_⟩
  have hall := hpress.append (hrun.append (Run.single hrelease))
  simp only [hheld] at hall
  exact hall

theorem run_tap {N : ℕ} {held : Key → Bool} {k : Key} (hup : held k = false) (s : State N) :
    ∃ s', Run TypingStep ⟨held, s⟩ [.press k, .release k] ⟨held, s'⟩ :=
  run_hold hup (fun s ↦ ⟨s, Run.nil _⟩) s

theorem run_keystroke {N : ℕ} (c : Char) (s : State N) :
    ∃ s', Run TypingStep ⟨allUp, s⟩ (keystroke c) ⟨allUp, s'⟩ := by
  rw [keystroke]
  split
  · exact ⟨s, Run.nil _⟩
  · exact run_tap rfl s
  · rename_i code hp
    have htypes := types_of_strokeFor hp
    obtain ⟨hlt, hleft, hright⟩ := code_of_types code true (htypes ▸ Option.some_ne_none c)
    -- the key is not the one that is held
    have hne : Key.ofCode code ≠ .leftShift := fun h ↦
      not_isShift_ofCode hlt hleft hright (.inl h)
    exact run_hold rfl (run_tap (Function.update_of_ne hne _ _)) s

/-- **The keys of a text are a run of the keyboard**, after which all keys are up. -/
theorem run_keystrokes {N : ℕ} (cs : List Char) (s : State N) :
    ∃ s', Run TypingStep ⟨allUp, s⟩ (keystrokes cs) ⟨allUp, s'⟩ := by
  induction cs generalizing s with
  | nil => exact ⟨s, Run.nil _⟩
  | cons c cs ih =>
    obtain ⟨s₁, h₁⟩ := run_keystroke c s
    obtain ⟨s₂, h₂⟩ := ih s₁
    exact ⟨s₂, h₁.append h₂⟩

/-- Whatever the keys, what comes out is typable. -/
theorem typable_of_produced (bs : List (BitVec 8)) (shift : Bool) :
    ∀ c ∈ produced shift (handled bs), Typable c := by
  induction bs generalizing shift with
  | nil => exact fun c hc ↦ absurd hc List.not_mem_nil
  | cons b bs ih =>
    rw [produced_handled_cons]
    intro c hc
    rcases List.mem_append.mp hc with hc | hc
    · have hmem : c ∈ scancodeToChar b shift := by
        rw [Option.mem_toList, decode] at hc
        -- shift keys and break codes give nothing
        split_ifs at hc
        exact hc
      exact typable_of_types hmem
    · exact ih _ c hc

/-- **Which texts can be typed.** Those of typable characters, by a run of the keyboard that leaves
no key down, and no others. Each character is on one key only, and with and without shift only where
the key does not mind. -/
theorem types_iff :
    (∀ cs : List Char, (∃ es u, Run TypingStep (.boot bufSize) es u ∧ u.held = allUp ∧
      produced false (handled (es.map KeyEvent.byte)) = cs) ↔ ∀ c ∈ cs, Typable c) ∧
    ∀ c code code' shifted shifted', scancodeToChar code shifted = some c →
      scancodeToChar code' shifted' = some c → code = code' ∧
        (shifted = shifted' ∨ scancodeToChar code false = scancodeToChar code true) := by
  refine ⟨fun cs ↦ ⟨?_, fun h ↦ ?_⟩, fun _ _ _ _ _ ↦ code_eq_of_types⟩
  · rintro ⟨es, u, -, -, rfl⟩
    exact typable_of_produced _ false
  · obtain ⟨s', hrun⟩ := run_keystrokes cs (State.boot bufSize)
    exact ⟨_, _, hrun, rfl, produced_keystrokes h⟩

/-- **From the keys to the line.** If the bytes of all interrupts are those of the keys for a text,
whenever they come, and each character finds room, then `read_line` returns the normal form of the
first line of that text: the line itself if there is no backspace in it. -/
theorem typed_line (framebuffer : Bool) {acts : List Act} {l : List Effect} {s : Core}
    (h : Trace (Guarded Core.Step Core.Roomy) Core.effect (.boot framebuffer) acts l s)
    {cs : List Char} (hcs : ∀ c ∈ cs, Typable c)
    (hkeys : acts.filterMap Act.byte = (keystrokes cs).map KeyEvent.byte)
    (hafter : s.mainline.stage = .after) :
    IsNormalForm '\x08' (cs.takeWhile (· ≠ '\n')) s.line ∧
      ('\x08' ∉ cs.takeWhile (· ≠ '\n') → s.line = cs.takeWhile (· ≠ '\n')) := by
  have hline := Core.line_of_roomy h hafter
  rw [hkeys, produced_keystrokes hcs] at hline
  exact ⟨isNormalForm_iff.mpr hline, fun hnone ↦ hline.trans (typed_of_notMem hnone)⟩

/-- `hi` and a newline, key by key, while the line is read. -/
def typedName : List Act :=
  let up sc : List Act := .keyboard sc :: List.replicate 5 .handler
  Core.untilLocked.dropLast ++ Core.typing 0x23 ++ up 0xA3 ++ Core.reading ++ Core.typing 0x17 ++
    up 0x97 ++ Core.typing 0x1C ++ up 0x9C ++ Core.reading ++ Core.reading

set_option maxRecDepth 8000 in
theorem exists_trace_typedName : ∃ l s,
    Trace (Guarded Core.Step Core.Roomy) Core.effect (.boot true) typedName l s ∧
      s.mainline.stage = .after := by
  have hexec : (typedName.foldlM (fun (p : List Effect × Core) a ↦
      (p.2.nextRoomy a).map fun u ↦ (p.1 ++ p.2.effect a, u)) ([], .boot true)).map
        (fun p ↦ p.2.mainline.stage) = some .after := by decide +kernel
  obtain ⟨⟨l, s⟩, hs, hstage⟩ := Option.map_eq_some_iff.mp hexec
  exact ⟨l, s, trace_of_foldlM (fun _ _ _ ↦ Core.guarded_of_nextRoomy) hs, hstage⟩

theorem typed_line_hi : ∃ l s,
    Trace (Guarded Core.Step Core.Roomy) Core.effect (.boot true) typedName l s ∧
      IsNormalForm '\x08' (['h', 'i', '\n'].takeWhile (· ≠ '\n')) s.line ∧
      ('\x08' ∉ ['h', 'i', '\n'].takeWhile (· ≠ '\n') →
        s.line = ['h', 'i', '\n'].takeWhile (· ≠ '\n')) := by
  obtain ⟨l, s, h, hstage⟩ := exists_trace_typedName
  have hcs : ['h', 'i', '\n'].all fun c ↦ decide (Typable c) := by decide
  have htypable : ∀ c ∈ ['h', 'i', '\n'], Typable c :=
    fun c hc ↦ of_decide_eq_true (List.all_eq_true.mp hcs c hc)
  exact ⟨l, s, h, typed_line true h htypable (by decide +kernel) hstage⟩

end Punkos.Keyboard
