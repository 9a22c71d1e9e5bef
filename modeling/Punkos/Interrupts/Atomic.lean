import Punkos.Interrupts.Preemption
import Punkos.Keyboard.Extended

/-!
# Calls and interrupts as wholes

The keyboard driver and the clock in the machine that interrupts cut into. No call is a whole there:
the handler of IRQ1 looks at SHIFT in one step and pushes in a later one, `read_char` locks, pops
and unlocks, and between any two of these steps something else may happen.

None of it can be told from the outside. The driver is at any time what it would be if each call
had been made in one go, `handle_scancode` where the handler looks at SHIFT and `read_char` where it
pops (`Core.driver_linearizes`). What a handler has decided to push and not yet pushed has to count
as pushed for that. Nobody looks at the buffer in between, since the code the handler interrupted
stands still.

Each interrupt is accounted for: its byte goes into one call, and IRQ0 counts for one tick.
-/

namespace Punkos

open Transition Keyboard

/-! ## What is seen of a step -/

/-- What is seen of a step. -/
inductive Effect where
  /-- `timer_handler` has counted. -/
  | tick
  /-- `handle_scancode` has dealt with this byte, but for a `push`. -/
  | scancode (sc : BitVec 8)
  /-- `read_char` has this for its caller. -/
  | read (r : Reader) (c : Option Char)
  deriving DecidableEq, Repr

/-- The call on the driver. -/
def Effect.call : Effect → Option Call
  | .tick => none
  | .scancode sc => some (.handleScancode sc)
  | .read _ _ => some .readChar

/-- The character a reader gets. -/
def Effect.given : Effect → Option (Reader × Char)
  | .read r (some c) => some (r, c)
  | _ => none

/-- The byte a handler has dealt with. -/
def Effect.byte : Effect → Option (BitVec 8)
  | .scancode sc => some sc
  | _ => none

/-- The byte an interrupt comes with. -/
def Act.byte : Act → Option (BitVec 8)
  | .keyboard sc => some sc
  | _ => none

/-- The character a handler has decided to push. -/
def HandlerPc.inHand : HandlerPc → Option Char
  | .lockBuf c => some c
  | .push c => some c
  | _ => none

/-- The byte a handler has not looked at. -/
def HandlerPc.atPort : HandlerPc → Option (BitVec 8)
  | .scancode sc => some sc
  | _ => none

/-- The calls on the driver. -/
def calls (l : List Effect) : List Call := l.filterMap Effect.call

/-- The characters read, with who got them. -/
def given (l : List Effect) : List (Reader × Char) := l.filterMap Effect.given

/-- The characters read. -/
def text (l : List Effect) : List Char := (given l).map Prod.snd

/-- The characters one of the readers got. -/
def textOf (r : Reader) (l : List Effect) : List Char :=
  ((given l).filter fun p ↦ p.1 = r).map Prod.snd

namespace Core

/-- What is seen of a step. -/
def effect (s : Core) : Act → List Effect
  | .main =>
    match s.mainline with
    | .pop r => [.read r s.buf.pop.1]
    | _ => []
  | .handler =>
    match s.handler with
    | some .tick => [.tick]
    | some (.scancode sc) => [.scancode sc]
    | _ => []
  | .timer => []
  | .keyboard _ => []

/-- The driver, if what a handler has decided to push is pushed. -/
def driver (s : Core) : State bufSize where
  buf := (s.handler.bind HandlerPc.inHand).elim s.buf s.buf.push
  shift := s.shift

end Core

/-! ## The driver -/

theorem calls_append (l m : List Effect) : calls (l ++ m) = calls l ++ calls m :=
  List.filterMap_append

theorem text_append (l m : List Effect) : text (l ++ m) = text l ++ text m := by
  rw [text, given, List.filterMap_append, List.map_append]
  rfl

theorem textOf_append (r : Reader) (l m : List Effect) :
    textOf r (l ++ m) = textOf r l ++ textOf r m := by
  rw [textOf, given, List.filterMap_append, List.filter_append, List.map_append]
  rfl

namespace Core

variable {s t : Core}

/-- Neither the driver nor the clock changes. -/
structure SameData (s t : Core) : Prop where
  /-- No handler begins or moves on. -/
  handler : t.handler = s.handler
  /-- Nothing is pushed or popped. -/
  buf : t.buf = s.buf
  /-- SHIFT stays. -/
  shift : t.shift = s.shift
  /-- TICKS stays. -/
  ticks : t.ticks = s.ticks

theorem SameData.driver (h : SameData s t) : t.driver = s.driver := by
  rw [Core.driver, Core.driver, h.handler, h.buf, h.shift]

theorem SameData.acquire {l : Lock} {who : Owner} (h : SameData s t) :
    SameData s (s.acquire l who t) := by
  by_cases hfree : s.locks l = none
  · rw [acquire_of_free hfree]
    exact ⟨h.handler, h.buf, h.shift, h.ticks⟩
  · rw [acquire_of_owned hfree]
    exact ⟨rfl, rfl, rfl, rfl⟩

theorem SameData.edit (s : Core) (c : Char) : SameData s (s.edit c) := by
  rw [Core.edit]
  split_ifs <;> exact ⟨rfl, rfl, rfl, rfl⟩

/-- `kernel_main` touches the data in `pop` only. -/
theorem sameData_mainStep (hpop : ∀ r, s.mainline ≠ .pop r) (h : s.mainStep = some t) :
    SameData s t := by
  rw [mainStep] at h
  split at h
  case h_9 r hpc => exact absurd hpc (hpop r)
  case h_17 => cases h
  all_goals obtain rfl := Option.some.inj h
  all_goals
    first
    | exact ⟨rfl, rfl, rfl, rfl⟩
    | exact SameData.acquire ⟨rfl, rfl, rfl, rfl⟩
    | exact SameData.edit _ _

theorem effect_main_of_pop {r : Reader} (h : s.mainline = .pop r) :
    s.effect .main = [.read r s.buf.pop.1] := by
  rw [effect, h]

theorem effect_main_of_ne (h : ∀ r, s.mainline ≠ .pop r) : s.effect .main = [] := by
  rw [effect]
  split
  · rename_i r hpc
    exact absurd hpc (h r)
  · rfl

theorem driver_of_handler_none (h : s.handler = none) : s.driver = ⟨s.buf, s.shift⟩ := by
  rw [driver, h]
  rfl

/-- What a step answers for the driver. -/
structure Tells (s : Core) (e : List Effect) (t : Core) : Prop where
  /-- The driver makes the calls. -/
  driver : t.driver = s.driver.after (calls e)
  /-- The readers get what the driver returns. -/
  text : text e = s.driver.returned (calls e)

theorem SameData.tells (h : SameData s t) : s.Tells [] t := ⟨h.driver, rfl⟩

theorem tells_mainStep (hhandler : s.handler = none) (h : s.mainStep = some t) :
    s.Tells (s.effect .main) t := by
  by_cases hpop : ∃ r, s.mainline = .pop r
  · obtain ⟨r, hpc⟩ := hpop
    rw [mainStep, hpc] at h
    obtain rfl := Option.some.inj h
    rw [effect_main_of_pop hpc]
    constructor
    · rw [driver_of_handler_none hhandler]
      exact driver_of_handler_none hhandler
    · rw [driver_of_handler_none hhandler]
      change Punkos.text [.read r s.buf.pop.1] = s.buf.pop.1.toList ++ []
      rcases s.buf.pop.1 with _ | c <;> rfl
  · push Not at hpop
    rw [effect_main_of_ne hpop]
    exact (sameData_mainStep hpop h).tells

theorem tells_handlerStep {h : HandlerPc} (hh : s.handler = some h) :
    s.Tells (s.effect .handler) (s.handlerStep h) := by
  have hdriver : s.driver = ⟨h.inHand.elim s.buf s.buf.push, s.shift⟩ := by
    rw [driver, hh]
    rfl
  rw [effect, hh]
  rcases h with _ | sc | c | c | _ | i | i | _ | _
  · exact ⟨hdriver.symm, rfl⟩
  · refine ⟨?_, rfl⟩
    -- from here on the character is in hand, and what is in hand counts as pushed
    have hcall : s.driver.after (calls [.scancode sc]) = s.driver.handleScancode sc := rfl
    rw [hcall, State.handleScancode_eq, hdriver, handlerStep, driver]
    change State.mk _ _ = State.mk _ _
    rcases (decode sc s.shift).2 with _ | c <;> rfl
  · refine ⟨?_, rfl⟩
    rw [handlerStep]
    by_cases hfree : s.locks .buf = none
    · rw [acquire_of_free hfree]
      exact hdriver.symm
    · rw [acquire_of_owned hfree]
      rfl
  · exact ⟨hdriver.symm, rfl⟩
  · exact ⟨hdriver.symm, rfl⟩
  · refine ⟨?_, rfl⟩
    rw [handlerStep]
    by_cases hfree : s.locks .pics = none
    · rw [acquire_of_free hfree]
      exact hdriver.symm
    · rw [acquire_of_owned hfree]
      rfl
  · exact ⟨hdriver.symm, rfl⟩
  · exact ⟨hdriver.symm, rfl⟩
  · exact ⟨hdriver.symm, rfl⟩

/-- An interrupt begins with nothing decided. -/
theorem driver_interrupt (hhandler : s.handler = none) {h : HandlerPc} (hhand : h.inHand = none) :
    (s.interrupt h).driver = s.driver := by
  rw [driver_of_handler_none hhandler, driver, interrupt]
  change State.mk (h.inHand.elim s.buf s.buf.push) s.shift = _
  rw [hhand]
  rfl

theorem pop_ne_of_mayPanic (h : s.mainline.MayPanic) (r : Reader) : s.mainline ≠ .pop r := by
  intro hpc
  rw [hpc] at h
  exact h

/-- **Each step is one call on the driver, made in one go, or none.** -/
theorem Step.tells {a : Act} (h : s.Step a t) : s.Tells (s.effect a) t := by
  rcases h with ⟨hhandler, hmain⟩ | ⟨-, hpc⟩ | ⟨-, hpanic⟩ | hh | ⟨hhandler, -⟩ | ⟨hhandler, -⟩
  · exact tells_mainStep hhandler hmain
  · rw [effect_main_of_ne fun r hr ↦ MainPc.noConfusion (hpc.symm.trans hr)]
    exact ⟨rfl, rfl⟩
  · rw [effect_main_of_ne (pop_ne_of_mayPanic hpanic)]
    exact ⟨rfl, rfl⟩
  · exact tells_handlerStep hh
  · exact ⟨driver_interrupt hhandler rfl, rfl⟩
  · exact ⟨driver_interrupt hhandler rfl, rfl⟩

/-- What has been seen tells the state of the driver. -/
structure Told (l : List Effect) (s : Core) : Prop where
  /-- The driver has made the calls. -/
  driver : s.driver = (State.boot bufSize).after (calls l)
  /-- The readers have got what the driver returned. -/
  text : text l = (State.boot bufSize).returned (calls l)

theorem Told.step {l : List Effect} {a : Act} (hs : Told l s) (h : s.Step a t) :
    Told (l ++ s.effect a) t := by
  have hstep := h.tells
  constructor
  · rw [calls_append, State.after_append, ← hs.driver, hstep.driver]
  · rw [calls_append, State.returned_append, ← hs.driver, ← hs.text, ← hstep.text, text_append]

theorem Told.boot (framebuffer : Bool) : Told [] (.boot framebuffer) := ⟨rfl, rfl⟩

/-! ## Counting interrupts -/

theorem line_acquire {l : Lock} {who : Owner} (h : t.line = s.line) :
    (s.acquire l who t).line = s.line := by
  by_cases hfree : s.locks l = none
  · rw [acquire_of_free hfree]
    exact h
  · rw [acquire_of_owned hfree]

theorem mainline_handlerStep (h : HandlerPc) :
    (s.handlerStep h).mainline = s.mainline ∧ (s.handlerStep h).line = s.line := by
  rw [handlerStep.eq_def]
  split
  case h_3 => exact ⟨by rw [acquire]; split <;> rfl, line_acquire rfl⟩
  case h_6 => exact ⟨by rw [acquire]; split <;> rfl, line_acquire rfl⟩
  all_goals exact ⟨rfl, rfl⟩

end Core

/-- Before the tenth tick has been waited for. -/
def MainPc.IsWaiting : MainPc → Prop
  | .lockPics | .initializePics | .unlockPics | .initPit | .enable => True
  | .testTicks | .hlt .ticks => True
  | _ => False

theorem isWaiting_wake (pc : MainPc) : pc.wake.IsWaiting ↔ pc.IsWaiting := by
  rcases pc with _ | _ | _ | _ | _ | _ | _ | _ | _ | _ | _ | _ | _ | z
  case hlt => rcases z with _ | _ | _ | _ <;> exact Iff.rfl
  all_goals exact Iff.rfl

namespace Core

variable {s t : Core}

/-- Each interrupt is accounted for. -/
structure Counted (acts : List Act) (l : List Effect) (s : Core) : Prop where
  /-- IRQ1: the bytes dealt with, and the one a handler has not looked at. -/
  bytes : acts.filterMap Act.byte =
    l.filterMap Effect.byte ++ (s.handler.bind HandlerPc.atPort).toList
  /-- IRQ0: the ticks counted, and the one a handler has not counted. -/
  timers : acts.count .timer = l.count .tick + if s.handler = some .tick then 1 else 0
  /-- TICKS is what has been counted. -/
  ticks : s.ticks = BitVec.ofNat 64 (l.count .tick)
  /-- The bus scan begins after ten ticks. -/
  waited : ¬s.mainline.IsWaiting → 10 ≤ l.count .tick

theorem Counted.boot (framebuffer : Bool) : Counted [] [] (.boot framebuffer) :=
  ⟨rfl, rfl, rfl, fun h ↦ absurd trivial h⟩

theorem byte_effect_main (s : Core) : (s.effect .main).filterMap Effect.byte = [] := by
  rw [effect]
  split <;> rfl

theorem count_effect_main (s : Core) : (s.effect .main).count .tick = 0 := by
  rw [effect]
  split <;> rfl

/-- The counters do not change. -/
theorem Counted.congr {acts : List Act} {l e : List Effect} {a : Act} (hs : Counted acts l s)
    (ha : a.byte = none) (htimer : a ≠ .timer) (he : e.filterMap Effect.byte = [])
    (hcount : e.count .tick = 0)
    (hport : t.handler.bind HandlerPc.atPort = s.handler.bind HandlerPc.atPort)
    (htick : t.handler = some .tick ↔ s.handler = some .tick) (hticks : t.ticks = s.ticks)
    (hwait : ¬t.mainline.IsWaiting → ¬s.mainline.IsWaiting ∨ 10 ≤ l.count .tick) :
    Counted (acts ++ [a]) (l ++ e) t := by
  have hcount' : (l ++ e).count .tick = l.count .tick := by
    rw [List.count_append, hcount, Nat.add_zero]
  refine ⟨?_, ?_, ?_, fun h ↦ ?_⟩
  · rw [List.filterMap_append, List.filterMap_append, he, List.append_nil, hport, hs.bytes]
    simp [ha]
  · have hnone : [a].count .timer = 0 := List.count_eq_zero.mpr (by simpa using htimer.symm)
    rw [List.count_append, hnone, hcount', hs.timers, Nat.add_zero]
    simp only [htick]
  · rw [hcount', hticks, hs.ticks]
  · rw [hcount']
    exact (hwait h).elim hs.waited id

/-- The wait ends when TICKS has got to ten. -/
theorem waiting_mainStep (h : s.mainStep = some t) (ht : ¬t.mainline.IsWaiting) :
    ¬s.mainline.IsWaiting ∨ ¬s.ticks < 10 := by
  by_cases hpc : s.mainline = .testTicks
  · right
    -- the only way out of the wait is the test of TICKS
    intro hticks
    rw [mainStep, hpc] at h
    obtain rfl := Option.some.inj h
    rw [if_pos hticks] at ht
    exact ht trivial
  left
  intro hwait
  apply ht
  rw [mainStep] at h
  split at h
  case h_1 =>
    obtain rfl := Option.some.inj h
    rw [acquire]
    split
    · trivial
    · exact hwait
  case h_6 hpc' => exact absurd hpc' hpc
  case h_17 => cases h
  all_goals
    rename_i hpc'
    obtain rfl := Option.some.inj h
    first
    | trivial
    | (rw [hpc'] at hwait
       exact hwait.elim)

/-- A counter below ten has counted fewer than ten ticks or has gone round. -/
theorem ten_le_of_ticks {n : ℕ} {x : BitVec 64} (hx : x = BitVec.ofNat 64 n) (h : ¬x < 10) :
    10 ≤ n := by
  by_contra hlt
  apply h
  rw [hx, BitVec.lt_def, BitVec.toNat_ofNat]
  exact Nat.lt_of_le_of_lt (Nat.mod_le _ _) (Nat.lt_of_not_le hlt)

/-- A handler moves on, past what is counted. -/
theorem Counted.handler_move {acts : List Act} {l : List Effect} (hs : Counted acts l s)
    {h : HandlerPc} (hh : s.handler = some h) (hport : h.atPort = none) (htick : h ≠ .tick)
    (hport' : t.handler.bind HandlerPc.atPort = none) (hmain : t.mainline = s.mainline)
    (htick' : t.handler ≠ some .tick) (hticks : t.ticks = s.ticks) :
    Counted (acts ++ [.handler]) (l ++ []) t := by
  refine hs.congr rfl (by decide) rfl rfl ?_ ?_ hticks fun hne ↦ .inl (hmain ▸ hne)
  · rw [hport', hh]
    exact hport.symm
  · rw [hh]
    exact iff_of_false htick' fun h ↦ htick (Option.some.inj h)

/-- A handler at a lock. -/
theorem Counted.handler_acquire {acts : List Act} {l : List Effect} (hs : Counted acts l s)
    {h : HandlerPc} (hh : s.handler = some h) (hport : h.atPort = none) (htick : h ≠ .tick)
    {k : Lock} {h' : HandlerPc} (hport' : h'.atPort = none) (htick' : h' ≠ .tick) :
    Counted (acts ++ [.handler]) (l ++ [])
      (s.acquire k .handler { s with handler := some h' }) := by
  by_cases hfree : s.locks k = none
  · rw [acquire_of_free hfree]
    exact hs.handler_move hh hport htick hport' rfl (fun h ↦ htick' (Option.some.inj h)) rfl
  · rw [acquire_of_owned hfree]
    refine hs.handler_move hh hport htick ?_ rfl ?_ rfl
    · rw [hh]
      exact hport
    · rw [hh]
      exact fun h ↦ htick (Option.some.inj h)

theorem Counted.handlerStep {acts : List Act} {l : List Effect} (hs : Counted acts l s)
    {h : HandlerPc} (hh : s.handler = some h) :
    Counted (acts ++ [.handler]) (l ++ s.effect .handler) (s.handlerStep h) := by
  have hwait : ¬(s.handlerStep h).mainline.IsWaiting → ¬s.mainline.IsWaiting := by
    rw [(mainline_handlerStep h).1]
    exact id
  rw [effect, hh]
  rcases h with _ | sc | c | c | _ | i | i | _ | _
  · -- the tick that was under way is now counted
    have hcount : (l ++ [Effect.tick]).count .tick = l.count .tick + 1 := by
      rw [List.count_append, List.count_singleton_self]
    have htimers := hs.timers
    have hbytes := hs.bytes
    rw [if_pos hh] at htimers
    rw [hh] at hbytes
    refine ⟨?_, ?_, ?_, fun hne ↦ ?_⟩
    · rw [List.filterMap_append, List.filterMap_append, hbytes]
      rfl
    · rw [List.count_append, hcount, htimers]
      simp [Core.handlerStep]
    · rw [hcount, BitVec.ofNat_add, ← hs.ticks]
      rfl
    · rw [hcount]
      exact Nat.le_succ_of_le (hs.waited (hwait hne))
  · -- the byte that was at the port is now dealt with
    have hcount : (l ++ [Effect.scancode sc]).count .tick = l.count .tick := by
      rw [List.count_append]
      rfl
    have htimers := hs.timers
    have hbytes := hs.bytes
    rw [if_neg (by rw [hh]; exact fun h ↦ HandlerPc.noConfusion (Option.some.inj h))] at htimers
    rw [hh] at hbytes
    have hport : ((s.handlerStep (.scancode sc)).handler.bind HandlerPc.atPort) = none := by
      rw [Core.handlerStep]
      rcases (decode sc s.shift).2 with _ | c <;> rfl
    have htick : (s.handlerStep (.scancode sc)).handler ≠ some .tick := by
      rw [Core.handlerStep]
      rcases (decode sc s.shift).2 with _ | c
      · exact fun h ↦ HandlerPc.noConfusion (Option.some.inj h)
      · exact fun h ↦ HandlerPc.noConfusion (Option.some.inj h)
    refine ⟨?_, ?_, ?_, fun hne ↦ ?_⟩
    · rw [List.filterMap_append, List.filterMap_append, hbytes, hport]
      rfl
    · rw [List.count_append, hcount, htimers, if_neg htick]
      rfl
    · rw [hcount]
      exact hs.ticks
    · rw [hcount]
      exact hs.waited (hwait hne)
  · exact hs.handler_acquire hh rfl (fun h ↦ HandlerPc.noConfusion h) rfl
      fun h ↦ HandlerPc.noConfusion h
  · exact hs.handler_move hh rfl (fun h ↦ HandlerPc.noConfusion h) rfl rfl
      (fun h ↦ HandlerPc.noConfusion (Option.some.inj h)) rfl
  · exact hs.handler_move hh rfl (fun h ↦ HandlerPc.noConfusion h) rfl rfl
      (fun h ↦ HandlerPc.noConfusion (Option.some.inj h)) rfl
  · exact hs.handler_acquire hh rfl (fun h ↦ HandlerPc.noConfusion h) rfl
      fun h ↦ HandlerPc.noConfusion h
  · exact hs.handler_move hh rfl (fun h ↦ HandlerPc.noConfusion h) rfl rfl
      (fun h ↦ HandlerPc.noConfusion (Option.some.inj h)) rfl
  · exact hs.handler_move hh rfl (fun h ↦ HandlerPc.noConfusion h) rfl rfl
      (fun h ↦ HandlerPc.noConfusion (Option.some.inj h)) rfl
  · exact hs.handler_move hh rfl (fun h ↦ HandlerPc.noConfusion h) rfl rfl
      (Option.some_ne_none _).symm rfl

/-- An interrupt begins. -/
theorem Counted.interrupt {acts : List Act} {l : List Effect} (hs : Counted acts l s)
    (hhandler : s.handler = none) {a : Act} {h : HandlerPc} (hport : h.atPort = a.byte)
    (htick : h = .tick ↔ a = .timer) : Counted (acts ++ [a]) (l ++ []) (s.interrupt h) := by
  have htimers := hs.timers
  have hbytes := hs.bytes
  rw [hhandler, if_neg (Option.some_ne_none _).symm, Nat.add_zero] at htimers
  rw [hhandler, Option.bind_none, Option.toList_none, List.append_nil] at hbytes
  rw [List.append_nil]
  refine ⟨?_, ?_, hs.ticks, fun hne ↦ ?_⟩
  · rw [List.filterMap_append, hbytes]
    change _ = _ ++ h.atPort.toList
    rw [hport]
    rcases hbyte : a.byte with _ | sc <;> simp [hbyte]
  · rw [List.count_append, htimers, List.count_singleton]
    have hiff : (s.interrupt h).handler = some .tick ↔ a = .timer :=
      Option.some_inj.trans htick
    simp only [beq_iff_eq, hiff]
  · apply hs.waited
    rwa [← isWaiting_wake]

theorem Counted.step {acts : List Act} {l : List Effect} {a : Act} (hs : Counted acts l s)
    (h : s.Step a t) : Counted (acts ++ [a]) (l ++ s.effect a) t := by
  rcases h with ⟨-, hmain⟩ | ⟨-, -⟩ | ⟨-, hpanic⟩ | hh | ⟨hhandler, -⟩ | ⟨hhandler, -⟩
  · have hhandler := handler_mainStep hmain
    have hticks : t.ticks = s.ticks := by
      by_cases hpop : ∃ r, s.mainline = .pop r
      · obtain ⟨r, hpc⟩ := hpop
        rw [mainStep, hpc] at hmain
        obtain rfl := Option.some.inj hmain
        rfl
      · push Not at hpop
        exact (sameData_mainStep hpop hmain).ticks
    -- `kernel_main` runs only while no handler does, so no tick or byte is under way
    exact hs.congr rfl (by decide) (byte_effect_main s) (count_effect_main s)
      (by rw [hhandler]) (by rw [hhandler]) hticks
      fun hne ↦ (waiting_mainStep hmain hne).imp_right (ten_le_of_ticks hs.ticks)
  · exact hs.congr rfl (by decide) (byte_effect_main s) (count_effect_main s) rfl Iff.rfl rfl
      fun hne ↦ .inl hne
  · refine hs.congr rfl (by decide) (byte_effect_main s) (count_effect_main s) rfl Iff.rfl rfl
      fun _ ↦ .inl fun hwait ↦ ?_
    -- `kernel_main` does not panic while it waits
    rcases hpc : s.mainline <;> rw [hpc] at hpanic hwait
    all_goals
      first
      | exact hwait.elim
      | exact hpanic.elim
  · exact hs.handlerStep hh
  · exact hs.interrupt hhandler rfl (iff_of_true rfl rfl)
  · exact hs.interrupt hhandler rfl
      (iff_of_false (fun h ↦ HandlerPc.noConfusion h) fun h ↦ Act.noConfusion h)

/-! ## Whole runs -/

/-- What a trace tells. -/
theorem told_of_trace {framebuffer : Bool} {acts : List Act} {l : List Effect} {s : Core}
    (h : Trace Step effect (.boot framebuffer) acts l s) : Told l s ∧ Counted acts l s :=
  ⟨h.invariant (I := fun _ ↦ Told) (fun _ _ _ _ _ hs hstep ↦ hs.step hstep) (.boot framebuffer),
    h.invariant (fun _ _ _ _ _ hs hstep ↦ hs.step hstep) (.boot framebuffer)⟩

/-- IRQ1 with a character, up to the end of its handler. -/
def typing (sc : BitVec 8) : List Act := .keyboard sc :: List.replicate 8 .handler

/-- `read_char` and what is done with its answer. -/
def reading : List Act := List.replicate 4 .main

/-- `hi`, a backspace and a newline are typed while the line is read, and then an `x`, which the
echo loop gets. -/
def typedHi : List Act :=
  untilLocked.dropLast ++ typing 0x23 ++ reading ++ typing 0x17 ++ typing 0x0E ++ typing 0x1C ++
    typing 0x2D ++ reading ++ reading ++ reading ++ [.main] ++ reading

set_option maxRecDepth 8000 in
theorem exists_trace_typedHi : ∃ l s, Trace Step effect (.boot true) typedHi l s := by
  have hexec : (typedHi.foldlM (fun (p : List Effect × Core) a ↦
      (p.2.next a).map fun u ↦ (p.1 ++ p.2.effect a, u)) ([], .boot true)).isSome := by
    decide +kernel
  obtain ⟨⟨l, s⟩, hs⟩ := Option.isSome_iff_exists.mp hexec
  exact ⟨l, s, trace_of_foldlM (fun _ _ _ ↦ step_of_next) hs⟩

/-- **The driver is as good as atomic.** However the steps of `kernel_main` and of the handlers
fall, the driver is where the calls seen so far would have brought it, each made in one go, and
`read_char` has returned what it would have returned then. The bytes in these calls are those of
the interrupts, in order; only the last one may be missing, if its handler has not looked at it. -/
theorem driver_linearizes (framebuffer : Bool) {acts : List Act} {l : List Effect} {s : Core}
    (h : Trace Step effect (.boot framebuffer) acts l s) :
    s.driver = (State.boot bufSize).after (calls l) ∧
      text l = (State.boot bufSize).returned (calls l) ∧
      acts.filterMap Act.byte =
        l.filterMap Effect.byte ++ (s.handler.bind HandlerPc.atPort).toList := by
  obtain ⟨htold, hcounted⟩ := told_of_trace h
  exact ⟨htold.driver, htold.text, hcounted.bytes⟩

theorem driver_linearizes_hi : ∃ l s, Trace Step effect (.boot true) typedHi l s ∧
    s.driver = (State.boot bufSize).after (calls l) ∧
      text l = (State.boot bufSize).returned (calls l) ∧
      typedHi.filterMap Act.byte =
        l.filterMap Effect.byte ++ (s.handler.bind HandlerPc.atPort).toList := by
  obtain ⟨l, s, h⟩ := exists_trace_typedHi
  exact ⟨l, s, h, driver_linearizes true h⟩

/-- **No tick is lost and none is counted twice.** TICKS, which goes round at `2 ^ 64`, is the
number of timer interrupts, less the one whose handler has not counted it; and `kernel_main` is past
its wait only if there have been ten. -/
theorem ticks_counted (framebuffer : Bool) {acts : List Act} {s : Core}
    (h : Run Step (.boot framebuffer) acts s) :
    s.ticks = BitVec.ofNat 64 (acts.count .timer - if s.handler = some .tick then 1 else 0) ∧
      (¬s.mainline.IsWaiting → 10 ≤ acts.count .timer) := by
  obtain ⟨l, hl⟩ := h.exists_trace effect
  obtain ⟨-, hcounted⟩ := told_of_trace hl
  have htimers := hcounted.timers
  constructor
  · rw [hcounted.ticks, htimers, Nat.add_sub_cancel]
  · intro hwait
    have hten := hcounted.waited hwait
    rw [htimers]
    exact Nat.le_add_right_of_le hten

theorem ticks_counted_untilLocked : ∃ s, Run Step (.boot true) untilLocked s ∧
    s.ticks = BitVec.ofNat 64 (untilLocked.count .timer - if s.handler = some .tick then 1 else 0) ∧
      (¬s.mainline.IsWaiting → 10 ≤ untilLocked.count .timer) := by
  obtain ⟨s, hrun, -⟩ := exists_run_untilLocked
  exact ⟨s, hrun.of_guarded, ticks_counted true hrun.of_guarded⟩

end Core

end Punkos
