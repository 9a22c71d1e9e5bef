import Mathlib.Data.Nat.Find
import Mathlib.Order.RelClasses
import Punkos.Foundation.Command

/-!
# The serial line

`serial.rs` and the UART at COM1, a 16550: a transmit FIFO that the line empties at its own pace,
and a handful of registers, two of which hide behind a bit of a third (DLAB). What the UART does
between two accesses, how many bytes leave and what else the line status says, is up to the world
outside (`World`); a result for every world is one for every timing.

Each byte is recorded with the settings it went out with. `log_goes_out` says that from the end of
`init` on the line carries the bytes that are printed, in order, each once and at 38400 baud, and
nothing else, whatever the firmware has left in the UART. Only a line that stands still can keep the
kernel from getting on (`log_comes_to_an_end`).

One thing `init` does not do: if the firmware has left DLAB set, the write that is to disable the
interrupts of the UART goes to the divisor (`init_ier`).
-/

namespace Punkos.Serial

open Command

/-! ## The UART -/

/-- A byte that has left the UART, with the settings of that time. -/
structure Frame where
  /-- The byte. -/
  byte : BitVec 8
  /-- The baud rate is 115200 divided by this. -/
  divisor : BitVec 16
  /-- Length, parity and stop bits. -/
  lcr : BitVec 8
  /-- The modem lines; bit 4 turns the line back on itself. -/
  mcr : BitVec 8
  deriving DecidableEq, Repr

/-- The UART. -/
structure Uart where
  /-- Interrupt enable. -/
  ier : BitVec 8
  /-- FIFO control. -/
  fcr : BitVec 8
  /-- Line control; bit 7 is DLAB. -/
  lcr : BitVec 8
  /-- Modem control. -/
  mcr : BitVec 8
  /-- The divisor latch, low byte. -/
  divisorLow : BitVec 8
  /-- The divisor latch, high byte. -/
  divisorHigh : BitVec 8
  /-- The bytes to be sent. -/
  fifo : List (BitVec 8)
  /-- What has left. -/
  line : List Frame
  /-- The accesses so far. -/
  accesses : ℕ
  deriving DecidableEq, Repr

/-- What goes on outside. -/
structure World where
  /-- How many bytes leave the FIFO before an access. -/
  leave : ℕ → ℕ
  /-- What a read returns, where that does not depend on what is modelled. -/
  bus : ℕ → BitVec 8

namespace Uart

variable (w : World) (u : Uart)

/-- The divisor latch is in front of the first two registers. -/
def dlab : Bool := u.lcr.getLsbD 7

/-- The room for bytes to be sent: that of the FIFO, if it is enabled. -/
def capacity : ℕ := if u.fcr.getLsbD 0 then 16 else 1

/-- A byte as it leaves now. -/
def frame (b : BitVec 8) : Frame := ⟨b, u.divisorHigh ++ u.divisorLow, u.lcr, u.mcr⟩

/-- The time up to the next access. -/
def pass : Uart :=
  { u with
    fifo := u.fifo.drop (w.leave u.accesses)
    line := u.line ++ (u.fifo.take (w.leave u.accesses)).map u.frame
    accesses := u.accesses + 1 }

/-- A read. Bit 5 of register 5 says that there is nothing to be sent. -/
def read (offset : ℕ) : BitVec 8 :=
  if offset = 5 then
    w.bus u.accesses &&& ~~~0x20 ||| (if u.fifo = [] then 0x20 else 0)
  else w.bus u.accesses

/-- A write. A byte for which there is no room is lost, and bit 2 of register 2 empties the FIFO, as
does a change of its bit 0. -/
def write (offset : ℕ) (v : BitVec 8) : Uart :=
  match offset with
  | 0 =>
    if u.dlab then { u with divisorLow := v }
    else if u.fifo.length < u.capacity then { u with fifo := u.fifo ++ [v] }
    else u
  | 1 => if u.dlab then { u with divisorHigh := v } else { u with ier := v }
  | 2 =>
    { u with
      fcr := v
      fifo := if v.getLsbD 2 || v.getLsbD 0 != u.fcr.getLsbD 0 then [] else u.fifo }
  | 3 => { u with lcr := v }
  | 4 => { u with mcr := v }
  | _ => u

end Uart

/-! ## The code -/

section Code

variable (w : World)

/-- COM1. -/
def com1 : BitVec 16 := 0x3F8

/-- `outb`. -/
def outb (port : BitVec 16) (v : BitVec 8) : Command Uart Unit := fun u ↦
  (some (), (u.pass w).write (port - com1).toNat v)

/-- `inb`. -/
def inb (port : BitVec 16) : Command Uart (BitVec 8) := fun u ↦
  (some ((u.pass w).read w (port - com1).toNat), u.pass w)

/-- `serial::init`. -/
def init : Command Uart Unit := do
  outb w (com1 + 1) 0x00
  outb w (com1 + 3) 0x80
  outb w (com1 + 0) 0x03
  outb w (com1 + 1) 0x00
  outb w (com1 + 3) 0x03
  outb w (com1 + 2) 0xC7
  outb w (com1 + 4) 0x0B

/-- The body of the loop of `write_str`. -/
def writeByte (fuel : ℕ) (b : BitVec 8) : Command Uart Unit := do
  let _ ← untilPasses (inb w (com1 + 5)) (· &&& 0x20 ≠ 0) fuel
  outb w com1 b

/-- `s.bytes()`. -/
def bytes (s : String) : List (BitVec 8) := s.toByteArray.data.toList.map UInt8.toBitVec

/-- The loop of `write_str`. -/
def writeBytes (fuel : ℕ) : List (BitVec 8) → Command Uart Unit
  | [] => pure ()
  | b :: bs => do
    writeByte w fuel b
    writeBytes fuel bs

/-- `write_str`. -/
def writeStr (fuel : ℕ) (s : String) : Command Uart Unit := writeBytes w fuel (bytes s)

/-- `_print`: the pieces of a formatted text, one after the other. -/
def print (fuel : ℕ) : List String → Command Uart Unit
  | [] => pure ()
  | s :: pieces => do
    writeStr w fuel s
    print fuel pieces

end Code

/-! ## What `init` leaves behind -/

/-- The settings of `init`. -/
structure Uart.Configured (u : Uart) : Prop where
  /-- The FIFOs are enabled. -/
  fcr : u.fcr = 0xC7
  /-- 8 bits, no parity, one stop bit; DLAB is clear. -/
  lcr : u.lcr = 0x03
  /-- The line is not turned back. -/
  mcr : u.mcr = 0x0B
  /-- 38400 baud. -/
  divisorLow : u.divisorLow = 0x03
  /-- 38400 baud. -/
  divisorHigh : u.divisorHigh = 0x00

/-- A byte at 38400 baud, with 8 bits, no parity and one stop bit. -/
def Frame.plain (b : BitVec 8) : Frame := ⟨b, 3, 0x03, 0x0B⟩

/-- Since the line was `base` these bytes have been handed to the UART, and all but the last one, at
most, have gone out. -/
structure Logged (base : List Frame) (bs : List (BitVec 8)) (u : Uart) : Prop where
  /-- The settings are those of `init`. -/
  configured : u.Configured
  /-- At most one byte waits. -/
  length_le : u.fifo.length ≤ 1
  /-- The others have gone out. -/
  line : ∃ out, out ++ u.fifo = bs ∧ u.line = base ++ out.map Frame.plain

section Logged

variable {w : World} {u : Uart} {base : List Frame} {bs : List (BitVec 8)}

theorem Uart.Configured.frame (h : u.Configured) : u.frame = Frame.plain := by
  funext b
  rw [Uart.frame, h.lcr, h.mcr, h.divisorLow, h.divisorHigh]
  rfl

/-- Time changes nothing but how far the bytes are. -/
theorem Logged.pass (h : Logged base bs u) : Logged base bs (u.pass w) := by
  obtain ⟨hconf, hlen, out, hout, hline⟩ := h
  refine ⟨⟨hconf.fcr, hconf.lcr, hconf.mcr, hconf.divisorLow, hconf.divisorHigh⟩, ?_,
    out ++ u.fifo.take (w.leave u.accesses), ?_, ?_⟩
  · exact Nat.le_trans (List.drop_sublist ..).length_le hlen
  · rw [List.append_assoc]
    change out ++ (u.fifo.take _ ++ u.fifo.drop _) = bs
    rw [List.take_append_drop, hout]
  · change u.line ++ (u.fifo.take _).map u.frame = _
    rw [hline, hconf.frame, List.append_assoc, List.map_append]

theorem Uart.read_status : u.read w 5 &&& 0x20 = if u.fifo = [] then 0x20 else 0 := by
  have hset : ∀ x : BitVec 8, (x &&& ~~~0x20 ||| 0x20) &&& 0x20 = 0x20 := by decide
  have hclear : ∀ x : BitVec 8, (x &&& ~~~0x20 ||| 0) &&& 0x20 = 0 := by decide
  rw [Uart.read, if_pos rfl]
  split
  · exact hset _
  · exact hclear _

theorem inb_ensures (h : Logged base bs u) : (inb w (com1 + 5)).Ensures u
    (fun v t ↦ Logged base bs t ∧ (v &&& 0x20 ≠ 0 → t.fifo = [])) (Logged base bs) := by
  refine .of_eq rfl ⟨h.pass, fun hpass ↦ ?_⟩
  by_contra hne
  have hstatus := Uart.read_status (w := w) (u := u.pass w)
  rw [if_neg hne] at hstatus
  exact hpass hstatus

/-- A byte for which there is room, with the FIFO empty. -/
theorem Logged.send (h : Logged base bs u) (hempty : u.fifo = []) (b : BitVec 8) :
    Logged base (bs ++ [b]) ((u.pass w).write 0 b) := by
  obtain ⟨hconf, -, out, hout, hline⟩ := h.pass (w := w)
  have hfifo : (u.pass w).fifo = [] := by rw [Uart.pass, hempty, List.drop_nil]
  have hdlab : (u.pass w).dlab = false := by
    rw [Uart.dlab, hconf.lcr]
    rfl
  -- sixteen places, since `init` has enabled the FIFO
  have hroom : ([] : List (BitVec 8)).length < (u.pass w).capacity := by
    rw [Uart.capacity, hconf.fcr]
    exact Nat.zero_lt_succ 15
  have hwrite : (u.pass w).write 0 b = { u.pass w with fifo := [b] } := by
    rw [Uart.write, hdlab, if_neg Bool.noConfusion, hfifo, if_pos hroom]
    rfl
  rw [hfifo, List.append_nil] at hout
  rw [hwrite]
  refine ⟨⟨hconf.fcr, hconf.lcr, hconf.mcr, hconf.divisorLow, hconf.divisorHigh⟩, Nat.le_refl 1,
    out, ?_, hline⟩
  rw [hout]

/-- Everything that decides what goes out is set, whatever the UART was like. -/
theorem init_spec (w : World) (u : Uart) : ∃ v, init w u = (some (), v) ∧ Logged v.line [] v ∧
    u.line <+: v.line ∧ v.ier = if u.dlab then u.ier else 0 := by
  -- with DLAB set, the first write goes to the divisor
  rcases hdlab : u.dlab with _ | _
  all_goals
    refine ⟨_, rfl, ⟨⟨?_, ?_, ?_, ?_, ?_⟩, ?_, [], ?_, ?_⟩, ?_, ?_⟩
    all_goals simp_all [Uart.write, Uart.pass, Uart.dlab, com1]

/-- **What `init` misses.** The interrupts of the UART are disabled only if DLAB was clear, or there
was nothing to disable. -/
theorem init_ier (w : World) (u : Uart) : (init w u).2.ier = 0 ↔ u.dlab = false ∨ u.ier = 0 := by
  obtain ⟨v, hinit, -, -, hier⟩ := init_spec w u
  rw [hinit, hier]
  rcases u.dlab with _ | _
  · exact iff_of_true rfl (.inl rfl)
  · rw [if_pos rfl]
    exact (or_iff_right Bool.noConfusion).symm

end Logged

/-! ## What is printed -/

section Printing

variable (w : World)

theorem writeBytes_append (fuel : ℕ) (bs cs : List (BitVec 8)) :
    writeBytes w fuel (bs ++ cs) = writeBytes w fuel bs >>= fun _ ↦ writeBytes w fuel cs := by
  induction bs with
  | nil => exact (ret_bind () fun _ ↦ writeBytes w fuel cs).symm
  | cons b bs ih =>
    rw [List.cons_append, writeBytes, ih, writeBytes, bind_bind]

theorem bytes_append (s t : String) : bytes (s ++ t) = bytes s ++ bytes t := by
  rw [bytes, String.toByteArray_append, ByteArray.data_append, Array.toList_append,
    List.map_append]
  rfl

/-- However a text is cut into pieces, it is printed byte by byte. -/
theorem print_eq (fuel : ℕ) (pieces : List String) :
    print w fuel pieces = writeBytes w fuel (bytes (String.join pieces)) := by
  induction pieces with
  | nil => rfl
  | cons s pieces ih =>
    rw [print, ih, String.join_cons, bytes_append, writeBytes_append]
    rfl

variable {w} {u : Uart} {base : List Frame} {bs : List (BitVec 8)}

/-- One byte is handed over, or the line stands still. -/
theorem writeByte_ensures (h : Logged base bs u) (fuel : ℕ) (b : BitVec 8) :
    (writeByte w fuel b).Ensures u (fun _ v ↦ Logged base (bs ++ [b]) v) (Logged base bs) := by
  refine (Ensures.untilPasses (fun t ht ↦ inb_ensures ht) h fuel).bind ?_
  rintro v t ⟨ht, hempty, hpass⟩
  exact .of_eq rfl (ht.send (hempty (of_decide_eq_true hpass)) b)

theorem writeBytes_ensures (h : Logged base bs u) (fuel : ℕ) (cs : List (BitVec 8)) :
    (writeBytes w fuel cs).Ensures u (fun _ v ↦ Logged base (bs ++ cs) v)
      (fun v ↦ ∃ sent, sent <+: cs ∧ Logged base (bs ++ sent) v) := by
  induction cs generalizing bs u with
  | nil => exact .pure (by rwa [List.append_nil])
  | cons c cs ih =>
    refine ((writeByte_ensures h fuel c).mono (fun _ _ ↦ id) fun v hv ↦ ?_).bind fun _ v hv ↦ ?_
    · exact ⟨[], List.nil_prefix, by rwa [List.append_nil]⟩
    · refine (ih hv).mono (fun _ t ht ↦ ?_) ?_
      · rwa [List.append_assoc] at ht
      · rintro t ⟨sent, hsent, ht⟩
        exact ⟨c :: sent, (List.prefix_cons_inj c).mpr hsent, by rwa [List.append_assoc] at ht⟩

/-- The time until the next byte leaves. -/
def World.wait (hw : ∀ n, ∃ m, n ≤ m ∧ 0 < w.leave m) (n : ℕ) : ℕ := Nat.find (hw n) - n

theorem World.wait_succ_lt (hw : ∀ n, ∃ m, n ≤ m ∧ 0 < w.leave m) {n : ℕ} (hn : w.leave n = 0) :
    World.wait hw (n + 1) < World.wait hw n := by
  obtain ⟨hle, hleave⟩ := Nat.find_spec (hw n)
  have hne : Nat.find (hw n) ≠ n := by
    intro heq
    rw [heq, hn] at hleave
    exact Nat.lt_irrefl 0 hleave
  have hlater : n + 1 ≤ Nat.find (hw n) := Nat.lt_of_le_of_ne hle hne.symm
  have hmin : Nat.find (hw (n + 1)) ≤ Nat.find (hw n) := Nat.find_min' _ ⟨hlater, hleave⟩
  rw [World.wait, World.wait]
  omega

/-- Polling comes to an end: before each read either a byte leaves, or its time comes nearer. -/
theorem poll_settles (hw : ∀ n, ∃ m, n ≤ m ∧ 0 < w.leave m) (u : Uart) :
    ∃ v t, Settles (untilPasses (inb w (com1 + 5)) (· &&& 0x20 ≠ 0)) u v t := by
  -- first the number of bytes in the FIFO, then the time until the next one leaves
  have hwf : WellFounded fun t u : Uart ↦ Prod.Lex (· < ·) (· < ·)
      (t.fifo.length, World.wait hw t.accesses) (u.fifo.length, World.wait hw u.accesses) :=
    InvImage.wf _ (WellFounded.prod_lex Nat.lt_wfRel.wf Nat.lt_wfRel.wf)
  refine Settles.untilPasses (I := fun _ ↦ True) hwf (fun u _ ↦ ⟨_, _, rfl, trivial, ?_⟩) trivial
  by_cases hempty : (u.pass w).fifo = []
  · left
    have hstatus := Uart.read_status (w := w) (u := u.pass w)
    rw [if_pos hempty] at hstatus
    have hread : (u.pass w).read w (com1 + 5 - com1).toNat &&& 0x20 = 0x20 := hstatus
    rw [hread]
    rfl
  right
  have hlen : (u.pass w).fifo.length = u.fifo.length - w.leave u.accesses := List.length_drop ..
  have hpos := List.length_pos_iff.mpr hempty
  rcases Nat.eq_zero_or_pos (w.leave u.accesses) with hleave | hleave
  · rw [hlen, hleave, Nat.sub_zero]
    exact .right _ (World.wait_succ_lt hw hleave)
  · exact .left _ _ (by omega)

theorem writeBytes_settles (hw : ∀ n, ∃ m, n ≤ m ∧ 0 < w.leave m) (cs : List (BitVec 8))
    (u : Uart) : ∃ t, Settles (fun fuel ↦ writeBytes w fuel cs) u () t := by
  induction cs generalizing u with
  | nil => exact ⟨u, .of_eq (pure_apply () u)⟩
  | cons c cs ih =>
    obtain ⟨v, t, hpoll⟩ := poll_settles hw u
    obtain ⟨t', hrest⟩ := ih ((t.pass w).write 0 c)
    have hbyte : Settles (fun fuel ↦ writeByte w fuel c) u () ((t.pass w).write 0 c) :=
      hpoll.bind (k := fun _ _ ↦ outb w com1 c) (.of_eq rfl)
    exact ⟨t', hbyte.bind (k := fun fuel _ ↦ writeBytes w fuel cs) hrest⟩

end Printing

/-- **The log.** Whatever state the UART is in, and however fast or slow the line is: from the end
of `init` on nothing goes out but what is printed, byte by byte and in order, at 38400 baud. When
the kernel has printed a text all of it has gone out but for the last byte, at most; as long as it
waits, a part of it has. -/
theorem log_goes_out (w : World) (u : Uart) (fuel : ℕ) (pieces : List String) :
    ∃ v, init w u = (some (), v) ∧ u.line <+: v.line ∧
      (print w fuel pieces).Ensures v (fun _ t ↦ Logged v.line (bytes (String.join pieces)) t)
        (fun t ↦ ∃ sent, sent <+: bytes (String.join pieces) ∧ Logged v.line sent t) := by
  obtain ⟨v, hinit, hv, hline, -⟩ := init_spec w u
  refine ⟨v, hinit, hline, ?_⟩
  rw [print_eq]
  exact writeBytes_ensures hv fuel _

/-- **Logging ends.** If the line never stands still for ever, every text is printed, and the line
has it. -/
theorem log_comes_to_an_end (w : World) (hw : ∀ n, ∃ m, n ≤ m ∧ 0 < w.leave m) (u : Uart)
    (pieces : List String) :
    ∃ v t, init w u = (some (), v) ∧ Settles (fun fuel ↦ print w fuel pieces) v () t ∧
      Logged v.line (bytes (String.join pieces)) t := by
  obtain ⟨v, hinit, hv, -⟩ := init_spec w u
  obtain ⟨t, ht⟩ := writeBytes_settles hw (bytes (String.join pieces)) v
  refine ⟨v, t, hinit, ?_, ht.ensures fun fuel ↦ (writeBytes_ensures hv fuel _).mono
    (fun _ _ ↦ id) fun _ ↦ id⟩
  simpa only [print_eq] using ht

/-- A line on which a byte leaves before each access. -/
def World.steady : World := ⟨fun _ ↦ 1, fun _ ↦ 0⟩

/-- A UART left with DLAB and the loop set, two bytes in the FIFO, and at 9600 baud. -/
def firmwareUart : Uart := ⟨0x0F, 0x01, 0x83, 0x1B, 0x0C, 0x00, [0x0D, 0x0A], [], 0⟩

theorem log_comes_to_an_end_steady :
    ∃ v t, init .steady firmwareUart = (some (), v) ∧
      Settles (fun fuel ↦ print .steady fuel ["punk.science", " // punkos"]) v () t ∧
      Logged v.line (bytes (String.join ["punk.science", " // punkos"])) t :=
  log_comes_to_an_end .steady (fun n ↦ ⟨n, Nat.le_refl n, Nat.one_pos⟩) firmwareUart _

end Punkos.Serial
