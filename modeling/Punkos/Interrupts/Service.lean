import Punkos.Interrupts.Atomic

/-!
# How interrupts are served

What the interrupt controllers see of the kernel is the end of each interrupt. Here it is shown that
they see one for each interrupt, with its number and in order (`Core.interrupts_served`), and that
a handler that does not wait for the code it interrupted is through within eight steps, during which
nothing else happens, and leaves no lock behind.
-/

namespace Punkos

open Transition Keyboard

/-! ## Interrupts and their ends -/

/-- The interrupt that comes. -/
def Act.irq : Act → Option InterruptIndex
  | .timer => some .timer
  | .keyboard _ => some .keyboard
  | _ => none

/-- The interrupt whose end a handler has not notified. -/
def HandlerPc.unacknowledged : HandlerPc → Option InterruptIndex
  | .tick => some .timer
  | .scancode _ | .lockBuf _ | .push _ | .unlockBuf => some .keyboard
  | .lockPics i | .notify i => some i
  | .unlockPics | .iret => none

/-- The steps a handler has to go, at most, if it need not wait. -/
def HandlerPc.left : HandlerPc → ℕ
  | .scancode _ => 8
  | .lockBuf _ => 7
  | .push _ => 6
  | .unlockBuf | .tick => 5
  | .lockPics _ => 4
  | .notify _ => 3
  | .unlockPics => 2
  | .iret => 1

theorem HandlerPc.left_le (h : HandlerPc) : h.left ≤ 8 := by
  rcases h with _ | _ | _ | _ | _ | _ | _ | _ | _ <;> exact Nat.le_of_ble_eq_true rfl

namespace Core

/-- The end of an interrupt, as the controllers are notified of it. -/
def acknowledges (s : Core) : Act → List InterruptIndex
  | .handler =>
    match s.handler with
    | some (.notify i) => [i]
    | _ => []
  | _ => []

/-- The interrupt in service. -/
def inService (s : Core) : Option InterruptIndex := s.handler.bind HandlerPc.unacknowledged

variable {s t : Core}

/-! ## One step -/

/-- What a step of a handler ends, it need not end any more. -/
theorem inService_handlerStep {h : HandlerPc} (hh : s.handler = some h) :
    s.acknowledges .handler ++ (s.handlerStep h).inService.toList = s.inService.toList := by
  rw [acknowledges, inService, inService, hh]
  rcases h with _ | sc | c | c | _ | i | i | _ | _
  case scancode =>
    rw [Core.handlerStep]
    rcases (decode sc s.shift).2 with _ | c <;> rfl
  case lockBuf =>
    rw [Core.handlerStep]
    by_cases hfree : s.locks .buf = none
    · rw [acquire_of_free hfree]
      rfl
    · rw [acquire_of_owned hfree, hh]
      rfl
  case lockPics =>
    rw [Core.handlerStep]
    by_cases hfree : s.locks .pics = none
    · rw [acquire_of_free hfree]
      rfl
    · rw [acquire_of_owned hfree, hh]
      rfl
  all_goals rfl

theorem Step.inService {a : Act} (h : s.Step a t) :
    s.acknowledges a ++ t.inService.toList = s.inService.toList ++ a.irq.toList := by
  rcases h with ⟨hhandler, hmain⟩ | ⟨hhandler, -⟩ | ⟨hhandler, -⟩ | hh | ⟨hhandler, -⟩ |
    ⟨hhandler, -⟩
  · rw [Core.inService, Core.inService, handler_mainStep hmain, hhandler]
    rfl
  · rw [Core.inService, hhandler]
    rfl
  · rw [Core.inService, Core.inService, hhandler]
    rfl
  · rw [inService_handlerStep hh]
    exact (List.append_nil _).symm
  · rw [Core.inService, Core.inService, hhandler]
    rfl
  · rw [Core.inService, Core.inService, hhandler]
    rfl

/-- The lock a handler asks for is free, unless the handler waits for the code it interrupted. -/
theorem Safe.free (hs : s.Safe) {h : HandlerPc} {l : Lock} (hh : s.handler = some h)
    (hwanted : h.wanted = some l) (hheld : h.held = none) : s.locks l = none := by
  rcases howner : s.locks l with _ | o
  · rfl
  rcases o with _ | _
  · exact absurd ⟨h, l, hh, hwanted, howner⟩ hs.not_blocked
  -- a handler that is at a lock holds none
  · have hnone := (hs.accurate l .handler).mp howner
    rw [held, hh] at hnone
    exact absurd (hheld.symm.trans hnone) (Option.some_ne_none l).symm

/-- A handler gets on. -/
theorem Safe.left_handlerStep (hs : s.Safe) {h : HandlerPc} (hh : s.handler = some h) :
    ((s.handlerStep h).handler = none ∧ (s.handlerStep h).interruptFlag = true ∧ h = .iret) ∨
      ∃ h', (s.handlerStep h).handler = some h' ∧ h'.left < h.left := by
  rcases h with _ | sc | c | c | _ | i | i | _ | _
  case iret => exact .inl ⟨rfl, rfl, rfl⟩
  case scancode =>
    right
    rw [Core.handlerStep]
    rcases (decode sc s.shift).2 with _ | c
    · exact ⟨_, rfl, show 4 < 8 by decide⟩
    · exact ⟨_, rfl, Nat.lt_succ_self 7⟩
  case lockBuf =>
    rw [Core.handlerStep, acquire_of_free (hs.free hh rfl rfl)]
    exact .inr ⟨_, rfl, Nat.lt_succ_self 6⟩
  case lockPics =>
    rw [Core.handlerStep, acquire_of_free (hs.free hh rfl rfl)]
    exact .inr ⟨_, rfl, Nat.lt_succ_self 3⟩
  all_goals exact .inr ⟨_, rfl, Nat.lt_succ_self _⟩

/-- While a handler runs, nothing else happens. -/
theorem Step.eq_handler {a : Act} (h : s.Step a t) (hrunning : s.handler ≠ none) :
    a = .handler := by
  rcases h with ⟨hhandler, -⟩ | ⟨hhandler, -⟩ | ⟨hhandler, -⟩ | - | ⟨hhandler, -⟩ | ⟨hhandler, -⟩
  case handler => rfl
  all_goals exact absurd hhandler hrunning

/-- A handler is through after so many steps, and `kernel_main` is where it was. -/
theorem Safe.returns (hs : s.Safe) {h : HandlerPc} (hh : s.handler = some h) :
    ∃ k ≤ h.left, ∃ t, Run Step s (List.replicate k .handler) t ∧ t.handler = none ∧
      t.interruptFlag = true ∧ t.mainline = s.mainline ∧ t.Safe := by
  induction hn : h.left using Nat.strong_induction_on generalizing s h with
  | _ n ih =>
    subst hn
    have hsafe := hs.handlerStep hh
    have hmain := (mainline_handlerStep (s := s) h).1
    have hfirst := Run.single (Step.handler hh)
    rcases hs.left_handlerStep hh with ⟨hnone, hflag, rfl⟩ | ⟨h', hh', hlt⟩
    · exact ⟨1, Nat.le_refl 1, _, hfirst, hnone, hflag, hmain, hsafe⟩
    · obtain ⟨k, hk, t, hrun, hnone, hflag, hmain', ht⟩ := ih _ hlt hsafe hh' rfl
      exact ⟨k + 1, Nat.lt_of_le_of_lt hk hlt, t, hfirst.append hrun, hnone, hflag,
        hmain'.trans hmain, ht⟩

/-! ## Whole runs -/

/-- With no handler running, no handler holds a lock. -/
theorem Inv.locks_ne (hs : s.Inv) (hnone : s.handler = none) (l : Lock) :
    s.locks l ≠ some .handler := by
  intro howner
  have hheld := (hs.accurate l .handler).mp howner
  rw [held, hnone] at hheld
  cases hheld

/-- **Every interrupt is served.** The controllers are notified of the end of each interrupt once,
with its number, in the order in which the interrupts have come, and before the next one is taken;
only the interrupt in service may be missing. If IRQ1 with a character has kept away from the
locked buffer so far, then whatever a handler is at, it is through within eight steps, which are
its own and nobody else's: `kernel_main` is where it was, interrupts are enabled again, and no lock
is left behind. -/
theorem interrupts_served (framebuffer : Bool) {acts : List Act} {l : List InterruptIndex}
    {s : Core} (h : Trace Step acknowledges (.boot framebuffer) acts l s) :
    acts.filterMap Act.irq = l ++ s.inService.toList ∧
      (Run (Guarded Step Harmless) (.boot framebuffer) acts s → s.handler ≠ none →
        (∀ a t, s.Step a t → a = .handler) ∧
        ∃ k ≤ 8, ∃ t, Run Step s (List.replicate k .handler) t ∧ t.handler = none ∧
          t.interruptFlag = true ∧ t.mainline = s.mainline ∧
          ∀ lock, t.locks lock ≠ some .handler) := by
  constructor
  · refine h.invariant (I := fun acts l s ↦ acts.filterMap Act.irq = l ++ s.inService.toList)
      (fun acts l s a t hs hstep ↦ ?_) rfl
    rw [List.append_assoc, hstep.inService, ← List.append_assoc, ← hs, List.filterMap_append]
    -- either an interrupt comes and is in service, or one is ended, or neither
    rcases hirq : a.irq with _ | i <;> simp [hirq]
  · intro hrun hrunning
    obtain ⟨pc, hpc⟩ := Option.ne_none_iff_exists'.mp hrunning
    refine ⟨fun a t hstep ↦ hstep.eq_handler hrunning, ?_⟩
    obtain ⟨k, hk, t, ht, hnone, hflag, hmain, hsafe⟩ := (Safe.run hrun).returns hpc
    exact ⟨k, Nat.le_trans hk pc.left_le, t, ht, hnone, hflag, hmain, hsafe.locks_ne hnone⟩

/-- A shift key, while `kernel_main` holds the buffer. -/
theorem interrupts_served_shift : ∃ l s,
    Trace Step acknowledges (.boot true) (untilLocked ++ [.keyboard 0x2A]) l s ∧
      s.handler = some (.scancode 0x2A) ∧ s.locks .buf = some .mainline ∧
      (untilLocked ++ [Act.keyboard 0x2A]).filterMap Act.irq = l ++ s.inService.toList ∧
        ∃ k ≤ 8, ∃ t, Run Step s (List.replicate k .handler) t ∧ t.handler = none := by
  obtain ⟨s, hrun, hhandler, hflag, howner, hshift⟩ := exists_run_untilLocked
  have hkey : Run (Guarded Step Harmless) (.boot true) (untilLocked ++ [.keyboard 0x2A])
      (s.interrupt (.scancode 0x2A)) := by
    refine hrun.snoc ⟨.keyboard hhandler hflag, fun sc hsc _ ↦ ?_⟩
    rw [← Act.keyboard.inj hsc, hshift]
    decide
  obtain ⟨l, hl⟩ := hkey.of_guarded.exists_trace acknowledges
  obtain ⟨hirq, hreturns⟩ := interrupts_served true hl
  obtain ⟨-, k, hk, t, ht, hnone, -⟩ := hreturns hkey (Option.some_ne_none _)
  exact ⟨l, _, hl, rfl, howner, hirq, k, hk, t, ht, hnone⟩

end Core

end Punkos
