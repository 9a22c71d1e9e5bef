import Punkos.Foundation.Run
import Punkos.Foundation.SpinLock
import Punkos.Keyboard.Driver

/-!
# Spin locks and interrupts

The single core as a step machine: `kernel_main` from `interrupts::init` on, down to the steps at
which it takes and releases the spin locks, and the two interrupt handlers that may cut in between
any two of these steps while interrupts are enabled. A handler runs with interrupts masked, and
`kernel_main` stands still until it has returned.

## What goes wrong

The module comment of `keyboard.rs` calls the ring buffer lock-free, but it is behind the spin lock
`BUF`, which `read_char` takes with interrupts enabled. If IRQ1 with a character arrives between
`lock` and the end of `pop`, the handler waits for a lock whose owner can only go on once the
handler has returned. `handlers_never_blocked_iff` shows that this is the only way in which a
handler can wait for the code it interrupted, and that the machine then stands still for ever.
-/

namespace Punkos

open Transition Keyboard

/-! ## The core -/

/-- The spin locks the handlers use. -/
inductive Lock where
  /-- `keyboard::BUF`. -/
  | buf
  /-- `interrupts::PICS`. -/
  | pics
  deriving DecidableEq, Repr

/-- Who holds a lock. -/
inductive Owner where
  /-- `kernel_main`. -/
  | mainline
  /-- The handler that is running. -/
  | handler
  deriving DecidableEq, Repr

/-- The interrupts with a handler. -/
inductive InterruptIndex where
  /-- IRQ0. -/
  | timer
  /-- IRQ1. -/
  | keyboard
  deriving DecidableEq, Repr

/-- The callers of `read_char`. -/
inductive Reader where
  /-- `read_char_blocking`, in `read_line`. -/
  | line
  /-- The echo loop of `render::run`. -/
  | echo
  deriving DecidableEq, Repr

/-- The places where `kernel_main` sleeps. -/
inductive Sleep where
  /-- Waiting for ten ticks. -/
  | ticks
  /-- In `read_char_blocking`. -/
  | line
  /-- At the end of a round of `render::run`. -/
  | frame
  /-- In `hcf`. -/
  | hcf
  deriving DecidableEq, Repr

/-- Where `kernel_main` stands. -/
inductive MainPc where
  /-- `PICS.lock()` in `interrupts::init`. -/
  | lockPics
  /-- `initialize()` on the locked PICs. -/
  | initializePics
  /-- The end of that statement. -/
  | unlockPics
  /-- `init_pit`. -/
  | initPit
  /-- `interrupts::enable`. -/
  | enable
  /-- `ticks() < 10`. -/
  | testTicks
  /-- The bus scan and what follows up to `read_line`; no lock is used. -/
  | setUp
  /-- `BUF.lock()` in `read_char`. -/
  | lockBuf (r : Reader)
  /-- `pop()` on the locked buffer. -/
  | pop (r : Reader)
  /-- The end of that statement. -/
  | unlockBuf (r : Reader) (c : Option Char)
  /-- `read_char` has returned. -/
  | returned (r : Reader) (c : Option Char)
  /-- The line has been read. -/
  | startRender
  /-- A round of `render::run` past the echo loop. -/
  | frame
  /-- `hlt`. -/
  | hlt (z : Sleep)
  deriving DecidableEq, Repr

/-- Where a handler stands. -/
inductive HandlerPc where
  /-- The counter in `timer_handler`. -/
  | tick
  /-- `handle_scancode`, before the lock, with the byte at port 0x60. -/
  | scancode (sc : BitVec 8)
  /-- `BUF.lock()`. -/
  | lockBuf (c : Char)
  /-- `push(c)` on the locked buffer. -/
  | push (c : Char)
  /-- The end of that statement. -/
  | unlockBuf
  /-- `PICS.lock()`. -/
  | lockPics (i : InterruptIndex)
  /-- `notify_end_of_interrupt` on the locked PICs. -/
  | notify (i : InterruptIndex)
  /-- The end of that statement. -/
  | unlockPics
  /-- `iret`. -/
  | iret
  deriving DecidableEq, Repr

/-- The state of the machine. -/
structure Core where
  /-- `kernel_main`. -/
  mainline : MainPc
  /-- The handler that is running. -/
  handler : Option HandlerPc
  /-- IF. -/
  interruptFlag : Bool
  /-- The locks. -/
  locks : Lock → Option Owner
  /-- The ring buffer. -/
  buf : RingBuffer bufSize
  /-- `SHIFT`. -/
  shift : Bool
  /-- `TICKS`. -/
  ticks : BitVec 64
  /-- The line `read_line` has so far. -/
  line : List Char
  /-- `last_frame` of `render::run`. -/
  lastFrame : BitVec 64
  /-- Whether the bootloader has set up a framebuffer. -/
  framebuffer : Bool

/-- At the call of `interrupts::init`. -/
def Core.boot (framebuffer : Bool) : Core where
  mainline := .lockPics
  handler := none
  interruptFlag := false
  locks _ := none
  buf := .new bufSize
  shift := false
  ticks := 0
  line := []
  lastFrame := -1
  framebuffer := framebuffer

/-- Where `kernel_main` goes on after a sleep. -/
def Sleep.next : Sleep → MainPc
  | .ticks => .testTicks
  | .line => .lockBuf .line
  | .frame => .lockBuf .echo
  | .hcf => .hlt .hcf

/-- An interrupt ends a sleep. -/
def MainPc.wake : MainPc → MainPc
  | .hlt z => z.next
  | pc => pc

/-- An attempt at a spin lock: with the lock free it is taken, otherwise nothing changes and the
next step tries again. -/
def Core.acquire (s : Core) (l : Lock) (who : Owner) (onward : Core) : Core :=
  if s.locks l = none then { onward with locks := Function.update s.locks l (some who) } else s

theorem Core.acquire_of_free {s onward : Core} {l : Lock} {who : Owner} (h : s.locks l = none) :
    s.acquire l who onward = { onward with locks := Function.update s.locks l (some who) } :=
  if_pos h

theorem Core.acquire_of_owned {s onward : Core} {l : Lock} {who : Owner} (h : s.locks l ≠ none) :
    s.acquire l who onward = s :=
  if_neg h

/-- The guard goes out of scope. -/
def Core.release (s : Core) (l : Lock) : Core := { s with locks := Function.update s.locks l none }

/-- A step of `read_line` with the next character. -/
def Core.edit (s : Core) (c : Char) : Core :=
  if c = '\n' then { s with mainline := .startRender }
  else if c = '\x08' then { s with mainline := .lockBuf .line, line := s.line.dropLast }
  else { s with mainline := .lockBuf .line, line := s.line ++ [c] }

/-- A step of `kernel_main`, unless it sleeps. -/
def Core.mainStep (s : Core) : Option Core :=
  match s.mainline with
  | .lockPics => some (s.acquire .pics .mainline { s with mainline := .initializePics })
  | .initializePics => some { s with mainline := .unlockPics }
  | .unlockPics => some ({ s with mainline := .initPit }.release .pics)
  | .initPit => some { s with mainline := .enable }
  | .enable => some { s with mainline := .testTicks, interruptFlag := true }
  | .testTicks => some { s with mainline := if s.ticks < 10 then .hlt .ticks else .setUp }
  | .setUp => some { s with mainline := .lockBuf .line, line := [] }
  | .lockBuf r => some (s.acquire .buf .mainline { s with mainline := .pop r })
  | .pop r => some { s with mainline := .unlockBuf r s.buf.pop.1, buf := s.buf.pop.2 }
  | .unlockBuf r c => some ({ s with mainline := .returned r c }.release .buf)
  | .returned .line none => some { s with mainline := .hlt .line }
  | .returned .line (some c) => some (s.edit c)
  | .returned .echo none => some { s with mainline := .frame }
  -- the character is printed
  | .returned .echo (some _) => some { s with mainline := .lockBuf .echo }
  | .startRender => some { s with mainline := if s.framebuffer then .lockBuf .echo else .hlt .hcf }
  | .frame => some { s with mainline := .hlt .frame, lastFrame := s.ticks / 12 }
  | .hlt _ => none

/-- A step of the handler. -/
def Core.handlerStep (s : Core) : HandlerPc → Core
  | .tick => { s with handler := some (.lockPics .timer), ticks := s.ticks + 1 }
  | .scancode sc =>
    { s with
      handler := some (match (decode sc s.shift).2 with
        | some c => .lockBuf c
        | none => .lockPics .keyboard)
      shift := (decode sc s.shift).1 }
  | .lockBuf c => s.acquire .buf .handler { s with handler := some (.push c) }
  | .push c => { s with handler := some .unlockBuf, buf := s.buf.push c }
  | .unlockBuf => { s with handler := some (.lockPics .keyboard) }.release .buf
  | .lockPics i => s.acquire .pics .handler { s with handler := some (.notify i) }
  | .notify _ => { s with handler := some .unlockPics }
  | .unlockPics => { s with handler := some .iret }.release .pics
  | .iret => { s with handler := none, interruptFlag := true }

/-- The interrupt gate clears IF. -/
def Core.interrupt (s : Core) (h : HandlerPc) : Core :=
  { s with mainline := s.mainline.wake, handler := some h, interruptFlag := false }

/-- What happens next. -/
inductive Act where
  /-- `kernel_main` goes on. -/
  | main
  /-- The handler goes on. -/
  | handler
  /-- IRQ0. -/
  | timer
  /-- IRQ1, with the byte at port 0x60. -/
  | keyboard (sc : BitVec 8)
  deriving DecidableEq, Repr

/-- Places where an allocation may fail, which ends in `hcf`. -/
def MainPc.MayPanic : MainPc → Prop
  | .setUp => True
  | .returned .line (some _) => True
  | .startRender => True
  | _ => False

/-- One step of the machine. -/
inductive Core.Step : Core → Act → Core → Prop
  | main {s t : Core} : s.handler = none → s.mainStep = some t → Step s .main t
  /-- The bus scan takes many steps. -/
  | setUp {s : Core} : s.handler = none → s.mainline = .setUp → Step s .main s
  | panic {s : Core} : s.handler = none → s.mainline.MayPanic →
      Step s .main { s with mainline := .hlt .hcf }
  | handler {s : Core} {h : HandlerPc} : s.handler = some h → Step s .handler (s.handlerStep h)
  | timer {s : Core} : s.handler = none → s.interruptFlag = true →
    Step s .timer (s.interrupt .tick)
  | keyboard {s : Core} {sc : BitVec 8} : s.handler = none → s.interruptFlag = true →
      Step s (.keyboard sc) (s.interrupt (.scancode sc))

/-! ## Who holds and who waits -/

/-- The lock `kernel_main` holds. -/
def MainPc.held : MainPc → Option Lock
  | .initializePics => some .pics
  | .unlockPics => some .pics
  | .pop _ => some .buf
  | .unlockBuf _ _ => some .buf
  | _ => none

/-- The lock a handler holds. -/
def HandlerPc.held : HandlerPc → Option Lock
  | .push _ => some .buf
  | .unlockBuf => some .buf
  | .notify _ => some .pics
  | .unlockPics => some .pics
  | _ => none

/-- The lock a handler is trying to acquire. -/
def HandlerPc.wanted : HandlerPc → Option Lock
  | .lockBuf _ => some .buf
  | .lockPics _ => some .pics
  | _ => none

/-- Before interrupts are enabled. -/
def MainPc.IsBooting : MainPc → Prop
  | .lockPics => True
  | .initializePics => True
  | .unlockPics => True
  | .initPit => True
  | .enable => True
  | _ => False

namespace Core

/-- The lock each owner holds. -/
def held (s : Core) : Owner → Option Lock
  | .mainline => s.mainline.held
  | .handler => s.handler.bind HandlerPc.held

/-- A handler is trying to acquire a lock that the code it interrupted is holding. -/
def Blocked (s : Core) : Prop :=
  ∃ h l, s.handler = some h ∧ h.wanted = some l ∧ s.locks l = some .mainline

/-- The condition on a step: IRQ1 does not bring a character while `kernel_main` holds the buffer.
-/
def Harmless (s : Core) (a : Act) : Prop :=
  ∀ sc, a = .keyboard sc → s.locks .buf = some .mainline → (decode sc s.shift).2 = none

/-- What is true in every state. -/
structure Inv (s : Core) : Prop where
  /-- The locks are held where the program says so. -/
  accurate : SpinLock.Accurate s.locks s.held
  /-- Handlers run with interrupts masked. -/
  masked : s.handler ≠ none → s.interruptFlag = false
  /-- Interrupts are masked until `interrupts::init` enables them. -/
  booting : s.mainline.IsBooting → s.interruptFlag = false ∧ s.handler = none

theorem Inv.boot (framebuffer : Bool) : Inv (.boot framebuffer) := by
  refine ⟨fun l o ↦ ?_, fun h ↦ absurd rfl h, fun _ ↦ ⟨rfl, rfl⟩⟩
  rcases o with _ | _
  · exact iff_of_false (Option.some_ne_none _).symm (Option.some_ne_none _).symm
  · exact iff_of_false (Option.some_ne_none _).symm (Option.some_ne_none _).symm

/-! ## One step -/

section Steps

variable {s t : Core}

theorem held_mainline (s : Core) (pc : MainPc) :
    held { s with mainline := pc } = Function.update s.held .mainline pc.held := by
  funext o
  rcases o with _ | _
  · rw [Function.update_self]
    rfl
  · rw [Function.update_of_ne (by decide)]
    rfl

theorem held_handler (s : Core) (h : Option HandlerPc) :
    held { s with handler := h } = Function.update s.held .handler (h.bind HandlerPc.held) := by
  funext o
  rcases o with _ | _
  · rw [Function.update_of_ne (by decide)]
    rfl
  · rw [Function.update_self]
    rfl

/-- `kernel_main` moves on without touching a lock. -/
theorem Inv.main_move (hs : s.Inv) (hlocks : t.locks = s.locks) (hhandler : t.handler = s.handler)
    (hflag : t.interruptFlag = s.interruptFlag) (hheld : t.mainline.held = s.mainline.held)
    (hbooting : t.mainline.IsBooting → s.mainline.IsBooting) : t.Inv := by
  refine ⟨?_, ?_, fun h ↦ ?_⟩
  · rw [hlocks]
    apply hs.accurate.congr
    intro o
    rcases o with _ | _
    · exact hheld
    · exact congrArg (Option.bind · HandlerPc.held) hhandler
  · rw [hhandler, hflag]
    exact hs.masked
  · rw [hflag, hhandler]
    exact hs.booting (hbooting h)

/-- `kernel_main` at a lock. -/
theorem Inv.main_acquire (hs : s.Inv) {l : Lock} {pc : MainPc} (hnone : s.mainline.held = none)
    (hheld : pc.held = some l) (hbooting : pc.IsBooting → s.mainline.IsBooting) :
    (s.acquire l .mainline { s with mainline := pc }).Inv := by
  by_cases hfree : s.locks l = none
  · rw [acquire_of_free hfree]
    refine ⟨hs.accurate.acquire hfree hnone ?_, hs.masked, fun h ↦ hs.booting (hbooting h)⟩
    rw [← hheld]
    exact held_mainline s pc
  · rw [acquire_of_owned hfree]
    exact hs

/-- `kernel_main` at the end of a guard's scope. -/
theorem Inv.main_release (hs : s.Inv) {l : Lock} {pc : MainPc} (hown : s.mainline.held = some l)
    (hheld : pc.held = none) (hbooting : pc.IsBooting → s.mainline.IsBooting) :
    (release { s with mainline := pc } l).Inv := by
  refine ⟨hs.accurate.release (o := .mainline) hown ?_, hs.masked, fun h ↦ hs.booting (hbooting h)⟩
  rw [← hheld]
  exact held_mainline s pc

theorem Inv.edit (hs : s.Inv) {r : Reader} {c : Option Char} (hpc : s.mainline = .returned r c)
    (d : Char) : (s.edit d).Inv := by
  have hnone : s.mainline.held = none := by rw [hpc]; rfl
  rw [Core.edit]
  split
  · exact hs.main_move rfl rfl rfl hnone.symm False.elim
  split
  · exact hs.main_move rfl rfl rfl hnone.symm False.elim
  · exact hs.main_move rfl rfl rfl hnone.symm False.elim

theorem Inv.mainStep (hs : s.Inv) (hhandler : s.handler = none) (h : s.mainStep = some t) :
    t.Inv := by
  rw [Core.mainStep] at h
  rcases hpc : s.mainline with _ | _ | _ | _ | _ | _ | _ | r | r | ⟨r, c⟩ | ⟨r, c⟩ | _ | _ | z
  all_goals
    rw [hpc] at h
    have hheld := congrArg MainPc.held hpc
    have hbooting := congrArg MainPc.IsBooting hpc
  · obtain rfl := Option.some.inj h
    exact hs.main_acquire hheld rfl fun _ ↦ hbooting.mpr trivial
  · obtain rfl := Option.some.inj h
    exact hs.main_move rfl rfl rfl hheld.symm fun _ ↦ hbooting.mpr trivial
  · obtain rfl := Option.some.inj h
    exact hs.main_release hheld rfl fun _ ↦ hbooting.mpr trivial
  · obtain rfl := Option.some.inj h
    exact hs.main_move rfl rfl rfl hheld.symm fun _ ↦ hbooting.mpr trivial
  · -- interrupts are enabled, and no handler is running yet
    obtain rfl := Option.some.inj h
    refine ⟨hs.accurate.congr fun o ↦ ?_, fun hne ↦ absurd hhandler hne, False.elim⟩
    rcases o with _ | _
    · exact hheld.symm
    · rfl
  · by_cases hticks : s.ticks < 10
    · rw [if_pos hticks] at h
      obtain rfl := Option.some.inj h
      exact hs.main_move rfl rfl rfl hheld.symm False.elim
    · rw [if_neg hticks] at h
      obtain rfl := Option.some.inj h
      exact hs.main_move rfl rfl rfl hheld.symm False.elim
  · obtain rfl := Option.some.inj h
    exact hs.main_move rfl rfl rfl hheld.symm False.elim
  · obtain rfl := Option.some.inj h
    exact hs.main_acquire hheld rfl False.elim
  · obtain rfl := Option.some.inj h
    exact hs.main_move rfl rfl rfl hheld.symm False.elim
  · obtain rfl := Option.some.inj h
    exact hs.main_release hheld rfl False.elim
  · rcases r with _ | _ <;> rcases c with _ | c <;> obtain rfl := Option.some.inj h
    · exact hs.main_move rfl rfl rfl hheld.symm False.elim
    · exact hs.edit hpc c
    · exact hs.main_move rfl rfl rfl hheld.symm False.elim
    · exact hs.main_move rfl rfl rfl hheld.symm False.elim
  · by_cases hfb : s.framebuffer = true
    · rw [if_pos hfb] at h
      obtain rfl := Option.some.inj h
      exact hs.main_move rfl rfl rfl hheld.symm False.elim
    · rw [if_neg hfb] at h
      obtain rfl := Option.some.inj h
      exact hs.main_move rfl rfl rfl hheld.symm False.elim
  · obtain rfl := Option.some.inj h
    exact hs.main_move rfl rfl rfl hheld.symm False.elim
  · cases h

/-- The handler moves on without touching a lock. -/
theorem Inv.handler_move (hs : s.Inv) {h : HandlerPc} (hh : s.handler = some h) {h' : HandlerPc}
    (hlocks : t.locks = s.locks) (hmain : t.mainline = s.mainline) (hhandler : t.handler = some h')
    (hflag : t.interruptFlag = s.interruptFlag) (hheld : h'.held = h.held) : t.Inv := by
  have hrunning : s.handler ≠ none := hh ▸ Option.some_ne_none h
  refine ⟨?_, fun _ ↦ hflag.trans (hs.masked hrunning), fun hbooting ↦ ?_⟩
  · rw [hlocks]
    apply hs.accurate.congr
    intro o
    rcases o with _ | _
    · exact congrArg MainPc.held hmain
    · rw [held, held, hhandler, hh]
      exact hheld
  · exact absurd (hs.booting (hmain ▸ hbooting)).2 hrunning

/-- The handler at a lock. -/
theorem Inv.handler_acquire (hs : s.Inv) {h : HandlerPc} (hh : s.handler = some h) {l : Lock}
    {h' : HandlerPc} (hnone : h.held = none) (hheld : h'.held = some l) :
    (s.acquire l .handler { s with handler := some h' }).Inv := by
  have hrunning : s.handler ≠ none := hh ▸ Option.some_ne_none h
  by_cases hfree : s.locks l = none
  · rw [acquire_of_free hfree]
    refine ⟨hs.accurate.acquire hfree (o := .handler) ?_ ?_, fun _ ↦ hs.masked hrunning,
      fun hbooting ↦ absurd (hs.booting hbooting).2 hrunning⟩
    · rw [held, hh]
      exact hnone
    · rw [← hheld]
      exact held_handler s (some h')
  · rw [acquire_of_owned hfree]
    exact hs

/-- The handler at the end of a guard's scope. -/
theorem Inv.handler_release (hs : s.Inv) {h : HandlerPc} (hh : s.handler = some h) {l : Lock}
    {h' : HandlerPc} (hown : h.held = some l) (hheld : h'.held = none) :
    (release { s with handler := some h' } l).Inv := by
  have hrunning : s.handler ≠ none := hh ▸ Option.some_ne_none h
  refine ⟨hs.accurate.release (o := .handler) ?_ ?_, fun _ ↦ hs.masked hrunning,
    fun hbooting ↦ absurd (hs.booting hbooting).2 hrunning⟩
  · rw [held, hh]
    exact hown
  · rw [← hheld]
    exact held_handler s (some h')

theorem Inv.handlerStep (hs : s.Inv) {h : HandlerPc} (hh : s.handler = some h) :
    (s.handlerStep h).Inv := by
  rcases h with _ | sc | c | c | _ | i | i | _ | _
  · exact hs.handler_move hh rfl rfl rfl rfl rfl
  · refine hs.handler_move hh rfl rfl rfl rfl ?_
    rcases (decode sc s.shift).2 with _ | c
    · rfl
    · rfl
  · exact hs.handler_acquire hh rfl rfl
  · exact hs.handler_move hh rfl rfl rfl rfl rfl
  · exact hs.handler_release hh rfl rfl
  · exact hs.handler_acquire hh rfl rfl
  · exact hs.handler_move hh rfl rfl rfl rfl rfl
  · exact hs.handler_release hh rfl rfl
  · have hrunning : s.handler ≠ none := hh ▸ Option.some_ne_none _
    refine ⟨hs.accurate.congr fun o ↦ ?_, fun hne ↦ absurd rfl hne,
      fun hbooting ↦ absurd (hs.booting hbooting).2 hrunning⟩
    rcases o with _ | _
    · rfl
    · rw [held, held, hh]
      rfl

theorem held_wake (pc : MainPc) : pc.wake.held = pc.held := by
  rcases pc with _ | _ | _ | _ | _ | _ | _ | _ | _ | _ | _ | _ | _ | z
  case hlt => rcases z with _ | _ | _ | _ <;> rfl
  all_goals rfl

theorem isBooting_wake (pc : MainPc) : pc.wake.IsBooting ↔ pc.IsBooting := by
  rcases pc with _ | _ | _ | _ | _ | _ | _ | _ | _ | _ | _ | _ | _ | z
  case hlt => rcases z with _ | _ | _ | _ <;> exact Iff.rfl
  all_goals exact Iff.rfl

/-- An interrupt finds `kernel_main` past `interrupts::init`. -/
theorem Inv.interrupt (hs : s.Inv) (hhandler : s.handler = none) (hflag : s.interruptFlag = true)
    {h : HandlerPc} (hheld : h.held = none) : (s.interrupt h).Inv := by
  refine ⟨hs.accurate.congr fun o ↦ ?_, fun _ ↦ rfl, fun hbooting ↦ ?_⟩
  · rcases o with _ | _
    · exact held_wake s.mainline
    · rw [held, held, hhandler]
      exact hheld
  · have hmasked := (hs.booting ((isBooting_wake s.mainline).mp hbooting)).1
    exact absurd (hmasked.symm.trans hflag) (by decide)

theorem held_eq_none_of_mayPanic {pc : MainPc} (h : pc.MayPanic) : pc.held = none := by
  rcases pc with _ | _ | _ | _ | _ | _ | _ | _ | _ | _ | _ | _ | _ | _
  case pop => exact h.elim
  case unlockBuf => exact h.elim
  case initializePics => exact h.elim
  case unlockPics => exact h.elim
  all_goals rfl

/-- **The locks are held where the program says so**, whatever the interrupts do. -/
theorem Inv.step {a : Act} (hs : s.Inv) (h : s.Step a t) : t.Inv := by
  rcases h with ⟨hhandler, hmain⟩ | ⟨-, -⟩ | ⟨-, hpanic⟩ | hh | ⟨hhandler, hflag⟩ |
    ⟨hhandler, hflag⟩
  · exact hs.mainStep hhandler hmain
  · exact hs
  · exact hs.main_move rfl rfl rfl (held_eq_none_of_mayPanic hpanic).symm False.elim
  · exact hs.handlerStep hh
  · exact hs.interrupt hhandler hflag rfl
  · exact hs.interrupt hhandler hflag rfl

/-! ## Waiting handlers -/

/-- While a handler runs, `kernel_main` does not hold the PICs. -/
theorem Inv.pics_ne (hs : s.Inv) (hrunning : s.handler ≠ none) :
    s.locks .pics ≠ some .mainline := by
  intro howner
  have hheld : s.mainline.held = some .pics := (hs.accurate .pics .mainline).mp howner
  refine absurd (hs.booting ?_).2 hrunning
  rcases hpc : s.mainline <;> rw [hpc] at hheld
  all_goals
    first
    | exact trivial
    | cases hheld

/-- A handler can only wait for the buffer. -/
theorem Inv.blocked_iff (hs : s.Inv) :
    s.Blocked ↔ ∃ c, s.handler = some (.lockBuf c) ∧ s.locks .buf = some .mainline := by
  constructor
  · rintro ⟨h, l, hh, hwanted, howner⟩
    have hrunning : s.handler ≠ none := hh ▸ Option.some_ne_none h
    unfold HandlerPc.wanted at hwanted
    split at hwanted
    · obtain rfl := Option.some.inj hwanted
      exact ⟨_, hh, howner⟩
    · obtain rfl := Option.some.inj hwanted
      exact absurd howner (hs.pics_ne hrunning)
    · cases hwanted
  · rintro ⟨c, hh, howner⟩
    exact ⟨_, _, hh, rfl, howner⟩

/-- What is true along runs whose steps are harmless. -/
structure Safe (s : Core) : Prop extends s.Inv where
  /-- A handler that has not looked at its byte yet will not ask for the buffer if it is taken. -/
  quiet : ∀ sc, s.handler = some (.scancode sc) → s.locks .buf = some .mainline →
    (decode sc s.shift).2 = none
  /-- No handler waits for `kernel_main`. -/
  not_blocked : ¬ s.Blocked

/-- Only two places of a handler matter. -/
theorem Safe.of_handler_ne (hs : s.Inv) (hscancode : ∀ sc, s.handler ≠ some (.scancode sc))
    (hlock : ∀ c, s.handler ≠ some (.lockBuf c)) : s.Safe := by
  refine ⟨hs, fun sc hsc ↦ absurd hsc (hscancode sc), ?_⟩
  rw [hs.blocked_iff]
  rintro ⟨c, hc, -⟩
  exact hlock c hc

theorem handler_acquire {l : Lock} {who : Owner} (h : t.handler = s.handler) :
    (s.acquire l who t).handler = s.handler := by
  by_cases hfree : s.locks l = none
  · rw [acquire_of_free hfree]
    exact h
  · rw [acquire_of_owned hfree]

theorem handler_edit (c : Char) : (s.edit c).handler = s.handler := by
  rw [edit]
  split
  · rfl
  split
  · rfl
  · rfl

theorem handler_mainStep (h : s.mainStep = some t) : t.handler = s.handler := by
  rw [mainStep] at h
  split at h
  case h_17 => cases h
  all_goals obtain rfl := Option.some.inj h
  all_goals
    first
    | rfl
    | exact handler_acquire rfl
    | exact handler_edit _

/-- After a step of `kernel_main`, no handler is running. -/
theorem handler_of_step_main (h : s.Step .main t) : t.handler = none := by
  rcases h with ⟨hhandler, hmain⟩ | ⟨hhandler, -⟩ | ⟨hhandler, -⟩
  · exact (handler_mainStep hmain).trans hhandler
  · exact hhandler
  · exact hhandler

/-- A handler that has got its lock, or keeps trying, is no worse off than before. -/
theorem Safe.handler_acquire (hs : s.Safe) {l : Lock} {h' : HandlerPc}
    (hinv : (s.acquire l .handler { s with handler := some h' }).Inv)
    (hscancode : ∀ sc, h' ≠ .scancode sc) (hlock : ∀ c, h' ≠ .lockBuf c) :
    (s.acquire l .handler { s with handler := some h' }).Safe := by
  by_cases hfree : s.locks l = none
  · rw [acquire_of_free hfree] at hinv ⊢
    apply Safe.of_handler_ne hinv
    · exact fun sc h ↦ hscancode sc (Option.some.inj h)
    · exact fun c h ↦ hlock c (Option.some.inj h)
  · rw [acquire_of_owned hfree]
    exact hs

/-- A handler that does not wait for `kernel_main` does not start to. -/
theorem Safe.handlerStep (hs : s.Safe) {h : HandlerPc} (hh : s.handler = some h) :
    (s.handlerStep h).Safe := by
  have hinv := hs.toInv.handlerStep hh
  rcases h with _ | sc | c | c | _ | i | i | _ | _
  · exact .of_handler_ne hinv (fun _ h ↦ nomatch h) (fun _ h ↦ nomatch h)
  · refine ⟨hinv, fun sc' hsc ↦ ?_, ?_⟩
    · have hsc := Option.some.inj hsc
      split at hsc
      · cases hsc
      · cases hsc
    · rw [hinv.blocked_iff]
      rintro ⟨c, hc, howner⟩
      have hnone := hs.quiet sc hh howner
      have hc := Option.some.inj hc
      rw [hnone] at hc
      cases hc
  · exact hs.handler_acquire hinv (fun _ h ↦ nomatch h) (fun _ h ↦ nomatch h)
  · exact .of_handler_ne hinv (fun _ h ↦ nomatch h) (fun _ h ↦ nomatch h)
  · exact .of_handler_ne hinv (fun _ h ↦ nomatch h) (fun _ h ↦ nomatch h)
  · exact hs.handler_acquire hinv (fun _ h ↦ nomatch h) (fun _ h ↦ nomatch h)
  · exact .of_handler_ne hinv (fun _ h ↦ nomatch h) (fun _ h ↦ nomatch h)
  · exact .of_handler_ne hinv (fun _ h ↦ nomatch h) (fun _ h ↦ nomatch h)
  · exact .of_handler_ne hinv (fun _ h ↦ nomatch h) (fun _ h ↦ nomatch h)

theorem Safe.step {a : Act} (hs : s.Safe) (h : s.Step a t) (ha : s.Harmless a) : t.Safe := by
  have hinv := hs.toInv.step h
  rcases a with _ | _ | _ | sc
  · have hnone := handler_of_step_main h
    refine .of_handler_ne hinv (fun _ hne ↦ ?_) (fun _ hne ↦ ?_)
    · exact Option.some_ne_none _ (hne.symm.trans hnone)
    · exact Option.some_ne_none _ (hne.symm.trans hnone)
  · cases h with
    | handler hh => exact hs.handlerStep hh
  · cases h with
    | timer => exact .of_handler_ne hinv (fun _ h ↦ nomatch h) (fun _ h ↦ nomatch h)
  · cases h with
    | keyboard =>
      refine ⟨hinv, fun sc' hsc ↦ ?_, ?_⟩
      · cases hsc
        exact ha sc rfl
      · rw [hinv.blocked_iff]
        rintro ⟨c, hc, -⟩
        cases hc

/-- A blocked machine stands still. -/
theorem Inv.step_of_blocked (hs : s.Inv) (hb : s.Blocked) {a : Act} (h : s.Step a t) : t = s := by
  obtain ⟨c, hh, howner⟩ := hs.blocked_iff.mp hb
  have hrunning : s.handler ≠ none := hh ▸ Option.some_ne_none _
  rcases h with ⟨hhandler, -⟩ | ⟨hhandler, -⟩ | ⟨hhandler, -⟩ | hh' | ⟨hhandler, -⟩ | ⟨hhandler, -⟩
  · exact absurd hhandler hrunning
  · exact absurd hhandler hrunning
  · exact absurd hhandler hrunning
  · obtain rfl := Option.some.inj (hh.symm.trans hh')
    rw [Core.handlerStep, acquire, if_neg (howner ▸ Option.some_ne_none _)]
  · exact absurd hhandler hrunning
  · exact absurd hhandler hrunning

end Steps

/-! ## Whole runs -/

theorem Inv.run {framebuffer : Bool} {acts : List Act} {s : Core}
    (h : Run Step (.boot framebuffer) acts s) : s.Inv :=
  h.invariant (fun _ _ _ hs hstep ↦ hs.step hstep) (.boot framebuffer)

theorem Safe.run {framebuffer : Bool} {acts : List Act} {s : Core}
    (h : Run (Guarded Step Harmless) (.boot framebuffer) acts s) : s.Safe :=
  h.invariant (fun _ _ _ hs hstep ↦ hs.step hstep.1 hstep.2)
    (.of_handler_ne (.boot framebuffer) (fun _ h ↦ nomatch h) (fun _ h ↦ nomatch h))

theorem Inv.run_of_blocked {s t : Core} (hs : s.Inv) (hb : s.Blocked) {acts : List Act}
    (h : Run Step s acts t) : t = s := by
  refine h.invariant (I := fun u ↦ u = s) (fun u a v hu hstep ↦ ?_) rfl
  subst hu
  exact hs.step_of_blocked hb hstep

/-- **When a handler waits for the code it interrupted.** As long as no IRQ1 brings a character
while `kernel_main` holds the buffer, it does not happen, whatever the order of interrupts and
steps. One such IRQ1 is enough: its handler gets to the lock and the machine stands still from
there on. -/
theorem handlers_never_blocked_iff (framebuffer : Bool) :
    (∀ acts s, Run (Guarded Step Harmless) (.boot framebuffer) acts s → ¬ s.Blocked) ∧
    ∀ acts s sc t, Run Step (.boot framebuffer) acts s → Step s (.keyboard sc) t →
      ¬ s.Harmless (.keyboard sc) →
      ∃ u, Run Step t [.handler] u ∧ u.Blocked ∧ ∀ acts' v, Run Step u acts' v → v = u := by
  refine ⟨fun acts s h ↦ (Safe.run h).not_blocked, fun acts s sc t hrun hstep hharm ↦ ?_⟩
  have ht := (Inv.run hrun).step hstep
  rw [Harmless] at hharm
  push Not at hharm
  obtain ⟨sc', hsc, howner, hchar⟩ := hharm
  cases hsc
  cases hstep with
  | keyboard hhandler hflag =>
    have hnext : Step (s.interrupt (.scancode sc)) .handler
        ((s.interrupt (.scancode sc)).handlerStep (.scancode sc)) := .handler rfl
    have hu := ht.step hnext
    obtain ⟨c, hc⟩ := Option.ne_none_iff_exists'.mp hchar
    have hblocked : ((s.interrupt (.scancode sc)).handlerStep (.scancode sc)).Blocked := by
      refine hu.blocked_iff.mpr ⟨c, ?_, howner⟩
      have hc' : (decode sc (s.interrupt (.scancode sc)).shift).2 = some c := hc
      simp only [Core.handlerStep, hc']
    exact ⟨_, .single hnext, hblocked, fun acts' v h ↦ hu.run_of_blocked hblocked h⟩

/-! ## A run that ends badly -/

/-- The steps as a program. -/
def next (s : Core) : Act → Option Core
  | .main => if s.handler = none then s.mainStep else none
  | .handler => s.handler.map s.handlerStep
  | .timer => if s.handler = none ∧ s.interruptFlag = true then some (s.interrupt .tick) else none
  | .keyboard sc =>
    if s.handler = none ∧ s.interruptFlag = true then some (s.interrupt (.scancode sc)) else none

theorem step_of_next {s t : Core} {a : Act} (h : s.next a = some t) : s.Step a t := by
  rcases a with _ | _ | _ | sc
  · obtain ⟨hhandler, hmain⟩ := Option.ite_none_right_eq_some.mp h
    exact .main hhandler hmain
  · obtain ⟨h', hh, rfl⟩ := Option.map_eq_some_iff.mp h
    exact .handler hh
  · obtain ⟨⟨hhandler, hflag⟩, ht⟩ := Option.ite_none_right_eq_some.mp h
    obtain rfl := Option.some.inj ht
    exact .timer hhandler hflag
  · obtain ⟨⟨hhandler, hflag⟩, ht⟩ := Option.ite_none_right_eq_some.mp h
    obtain rfl := Option.some.inj ht
    exact .keyboard hhandler hflag

instance (s : Core) (a : Act) : Decidable (s.Harmless a) :=
  match a with
  | .main => .isTrue fun _ h ↦ nomatch h
  | .handler => .isTrue fun _ h ↦ nomatch h
  | .timer => .isTrue fun _ h ↦ nomatch h
  | .keyboard sc =>
    decidable_of_iff (s.locks .buf = some .mainline → (decode sc s.shift).2 = none)
      ⟨fun h _ hsc ↦ Act.keyboard.inj hsc ▸ h, fun h ↦ h sc rfl⟩

/-- From the call of `interrupts::init` over ten timer interrupts into `read_char`, up to where the
lock has been taken. -/
def untilLocked : List Act :=
  List.replicate 6 .main ++
    (List.replicate 10 ([.timer] ++ List.replicate 5 .handler ++ [.main])).flatten ++
      [.main, .main]

theorem exists_run_untilLocked : ∃ s, Run (Guarded Step Harmless) (.boot true) untilLocked s ∧
    s.handler = none ∧ s.interruptFlag = true ∧ s.locks .buf = some .mainline ∧
      s.shift = false := by
  have hexec : (untilLocked.foldlM (fun (s : Core) a ↦ if s.Harmless a then s.next a else none)
      (.boot true)).map (fun s ↦ (s.handler, s.interruptFlag, s.locks .buf, s.shift)) =
      some (none, true, some .mainline, false) := by decide +kernel
  obtain ⟨s, hs, hfields⟩ := Option.map_eq_some_iff.mp hexec
  simp only [Prod.mk.injEq] at hfields
  refine ⟨s, run_of_foldlM (fun u a v hv ↦ ?_) hs, hfields⟩
  obtain ⟨hharmless, hnext⟩ := Option.ite_none_right_eq_some.mp hv
  exact ⟨step_of_next hnext, hharmless⟩

/-- At that point a shift key does no harm, and the letter A does. -/
theorem handlers_never_blocked_at_lock :
    ∃ s, Run (Guarded Step Harmless) (.boot true) untilLocked s ∧
    (∃ t, Run (Guarded Step Harmless) s [.keyboard 0x2A, .handler] t ∧ ¬ t.Blocked) ∧
    ∃ t u, Step s (.keyboard 0x1E) t ∧ Run Step t [.handler] u ∧ u.Blocked := by
  obtain ⟨s, hrun, hhandler, hflag, howner, hshift⟩ := exists_run_untilLocked
  obtain ⟨hsafe, hstuck⟩ := handlers_never_blocked_iff true
  have hshiftKey : Run (Guarded Step Harmless) s [.keyboard 0x2A, .handler]
      ((s.interrupt (.scancode 0x2A)).handlerStep (.scancode 0x2A)) := by
    refine ((Run.nil s).snoc ⟨.keyboard hhandler hflag, fun sc hsc _ ↦ ?_⟩).snoc
      ⟨.handler rfl, fun sc hsc ↦ nomatch hsc⟩
    cases hsc
    rfl
  refine ⟨s, hrun, ⟨_, hshiftKey, hsafe _ _ (hrun.append hshiftKey)⟩, ?_⟩
  have hharm : ¬ s.Harmless (.keyboard 0x1E) := fun h ↦ by
    have hnone := h 0x1E rfl howner
    rw [hshift] at hnone
    exact absurd hnone (by decide)
  obtain ⟨u, hu, hblocked, -⟩ := hstuck _ s 0x1E _ hrun.of_guarded (.keyboard hhandler hflag) hharm
  exact ⟨_, u, .keyboard hhandler hflag, hu, hblocked⟩

/-- Handlers do wait for the code they interrupted: IRQ1 with the letter A, between `lock` and
`pop`. -/
theorem not_handlers_never_blocked :
    ¬ ∀ acts s, Run Step (.boot true) acts s → ¬ s.Blocked := by
  intro h
  obtain ⟨s, hrun, hhandler, hflag, howner, hshift⟩ := exists_run_untilLocked
  have hkey : Step s (.keyboard 0x1E) (s.interrupt (.scancode 0x1E)) := .keyboard hhandler hflag
  refine h _ _ ((hrun.of_guarded.snoc hkey).snoc (.handler rfl)) ?_
  refine ⟨.lockBuf 'a', .buf, ?_, rfl, howner⟩
  have hchar : (decode 0x1E (s.interrupt (.scancode 0x1E)).shift).2 = some 'a' := by
    rw [show (s.interrupt (.scancode 0x1E)).shift = false from hshift]
    decide
  simp only [Core.handlerStep, hchar]

end Core

end Punkos
