import Mathlib.Algebra.GroupWithZero.Nat
import Mathlib.Data.Vector.Basic

/-!
# The keyboard driver

The ring buffer for keystrokes, the scancode table and the interrupt half of the driver, from
`keyboard.rs`. The buffer is behind a spin lock in the source; here are the operations done while
the lock is held, and `decode` is what `handle_scancode` does before it asks for the lock.
-/

namespace Punkos.Keyboard

/-! ## The ring buffer -/

/-- A ring buffer of `N` characters. Both indices stay in range. -/
structure RingBuffer (N : ℕ) where
  /-- The characters. -/
  data : Vector Char N
  /-- Where the next character goes. -/
  head : ℕ
  /-- Where the oldest character is. -/
  tail : ℕ
  /-- The head is an index. -/
  head_lt : head < N
  /-- The tail is an index. -/
  tail_lt : tail < N

namespace RingBuffer

variable {N : ℕ}

/-- The empty buffer. -/
def new (N : ℕ) [NeZero N] : RingBuffer N where
  data := Vector.replicate N (Char.ofNat 0)
  head := 0
  tail := 0
  head_lt := Nat.pos_of_ne_zero (NeZero.ne N)
  tail_lt := Nat.pos_of_ne_zero (NeZero.ne N)

/-- Append a character, unless the buffer is full. -/
def push (b : RingBuffer N) (c : Char) : RingBuffer N :=
  let next := (b.head + 1) % N
  if next = b.tail then b
  else
    { b with
      data := b.data.set b.head c b.head_lt
      head := next
      head_lt := Nat.mod_lt _ (Nat.zero_lt_of_lt b.head_lt) }

/-- Take the oldest character. -/
def pop (b : RingBuffer N) : Option Char × RingBuffer N :=
  if b.head = b.tail then (none, b)
  else
    (some (b.data.get ⟨b.tail, b.tail_lt⟩),
      { b with
        tail := (b.tail + 1) % N
        tail_lt := Nat.mod_lt _ (Nat.zero_lt_of_lt b.tail_lt) })

end RingBuffer

/-- `BUF_SIZE`. -/
def bufSize : ℕ := 256

instance : NeZero bufSize := ⟨by decide⟩

/-! ## Scancodes -/

/-- Scancode set 1 to ASCII, on a US QWERTY keyboard. -/
def scancodeToChar (scancode : BitVec 8) (shifted : Bool) : Option Char :=
  match scancode.toNat with
  | 0x01 => some '\x1b'
  | 0x0E => some '\x08'
  | 0x0F => some '\t'
  | 0x1C => some '\n'
  | 0x39 => some ' '
  -- number row
  | 0x02 => some (if shifted then '!' else '1')
  | 0x03 => some (if shifted then '@' else '2')
  | 0x04 => some (if shifted then '#' else '3')
  | 0x05 => some (if shifted then '$' else '4')
  | 0x06 => some (if shifted then '%' else '5')
  | 0x07 => some (if shifted then '^' else '6')
  | 0x08 => some (if shifted then '&' else '7')
  | 0x09 => some (if shifted then '*' else '8')
  | 0x0A => some (if shifted then '(' else '9')
  | 0x0B => some (if shifted then ')' else '0')
  | 0x0C => some (if shifted then '_' else '-')
  | 0x0D => some (if shifted then '+' else '=')
  -- letter block
  | 0x10 => some (if shifted then 'Q' else 'q')
  | 0x11 => some (if shifted then 'W' else 'w')
  | 0x12 => some (if shifted then 'E' else 'e')
  | 0x13 => some (if shifted then 'R' else 'r')
  | 0x14 => some (if shifted then 'T' else 't')
  | 0x15 => some (if shifted then 'Y' else 'y')
  | 0x16 => some (if shifted then 'U' else 'u')
  | 0x17 => some (if shifted then 'I' else 'i')
  | 0x18 => some (if shifted then 'O' else 'o')
  | 0x19 => some (if shifted then 'P' else 'p')
  | 0x1A => some (if shifted then '\x7b' else '[')
  | 0x1B => some (if shifted then '\x7d' else ']')
  | 0x1E => some (if shifted then 'A' else 'a')
  | 0x1F => some (if shifted then 'S' else 's')
  | 0x20 => some (if shifted then 'D' else 'd')
  | 0x21 => some (if shifted then 'F' else 'f')
  | 0x22 => some (if shifted then 'G' else 'g')
  | 0x23 => some (if shifted then 'H' else 'h')
  | 0x24 => some (if shifted then 'J' else 'j')
  | 0x25 => some (if shifted then 'K' else 'k')
  | 0x26 => some (if shifted then 'L' else 'l')
  | 0x27 => some (if shifted then ':' else ';')
  | 0x28 => some (if shifted then '\x22' else '\x27')
  | 0x2B => some (if shifted then '|' else '\x5c')
  | 0x2C => some (if shifted then 'Z' else 'z')
  | 0x2D => some (if shifted then 'X' else 'x')
  | 0x2E => some (if shifted then 'C' else 'c')
  | 0x2F => some (if shifted then 'V' else 'v')
  | 0x30 => some (if shifted then 'B' else 'b')
  | 0x31 => some (if shifted then 'N' else 'n')
  | 0x32 => some (if shifted then 'M' else 'm')
  | 0x33 => some (if shifted then '<' else ',')
  | 0x34 => some (if shifted then '>' else '.')
  | 0x35 => some (if shifted then '?' else '/')
  | _ => none

/-- What `handle_scancode` does before it locks the buffer: the new SHIFT, and the character to
push if there is one. -/
def decode (scancode : BitVec 8) (shift : Bool) : Bool × Option Char :=
  if scancode = 0x2A ∨ scancode = 0x36 then (true, none)
  else if scancode = 0xAA ∨ scancode = 0xB6 then (false, none)
  else if scancode &&& 0x80 ≠ 0 then (shift, none)
  else (shift, scancodeToChar scancode shift)

end Punkos.Keyboard
