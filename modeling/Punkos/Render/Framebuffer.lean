import Mathlib.Algebra.Order.Ring.Int
import Punkos.Foundation.Overlay

/-!
# The framebuffer

`framebuffer.rs`: pixels are groups of bytes in one slice, in an order that depends on the format.
`write_pixel` puts one colour into one group, and `clear` does this with every group.

Every index into a slice is checked, so a write may panic; `writePixel_eq` says when it does not,
and what it is then: a layer over the bytes that were there. Arithmetic on `usize` and `isize`
panics or wraps around when it overflows, depending on how the kernel was built, and the model
covers both.
-/

namespace Punkos.Render

/-- How the renderer may panic. -/
inductive Fault where
  /-- Arithmetic overflow. -/
  | overflow
  /-- A slice index out of range. -/
  | index
  /-- `chunks_exact_mut` with chunks of no bytes. -/
  | chunkSize
  deriving DecidableEq, Repr

/-- What arithmetic does when it overflows: `panics` with overflow checks, `wraps` without. -/
inductive Overflow where
  /-- As in a debug build. -/
  | panics
  /-- As in a release build. -/
  | wraps
  deriving DecidableEq, Repr

/-- The result of an operation on `isize`. -/
def Overflow.isize (o : Overflow) (z : ℤ) : Except Fault ℤ :=
  if -2 ^ 63 ≤ z ∧ z < 2 ^ 63 then .ok z
  else match o with
    | .panics => .error .overflow
    | .wraps => .ok (z.bmod (2 ^ 64))

/-- The result of an operation on `usize` that does not go below zero. -/
def Overflow.usize (o : Overflow) (n : ℕ) : Except Fault ℕ :=
  if n < 2 ^ 64 then .ok n
  else match o with
    | .panics => .error .overflow
    | .wraps => .ok (n % 2 ^ 64)

/-- `as isize`. -/
def asIsize (n : ℕ) : ℤ := (n : ℤ).bmod (2 ^ 64)

/-- `as usize`. -/
def asUsize (z : ℤ) : ℕ := (z % 2 ^ 64).toNat

/-- `y0..=y1`. -/
def inclusive (y0 y1 : ℤ) : List ℤ := (List.range (y1 + 1 - y0).toNat).map fun i : ℕ ↦ y0 + i

/-- `PixelFormat`. -/
inductive PixelFormat where
  /-- Red first. -/
  | rgb
  /-- Blue first. -/
  | bgr
  /-- Grey. -/
  | u8
  /-- Any other. -/
  | unknown
  deriving DecidableEq, Repr

/-- `FrameBufferInfo`. -/
structure FrameBufferInfo where
  /-- The length of the slice. -/
  byteLen : ℕ
  /-- In pixels. -/
  width : ℕ
  /-- In pixels. -/
  height : ℕ
  /-- The order of the bytes. -/
  pixelFormat : PixelFormat
  /-- The size of a pixel. -/
  bytesPerPixel : ℕ
  /-- Pixels from one row to the next. -/
  stride : ℕ
  deriving DecidableEq, Repr

/-- A colour: red, green and blue. -/
abbrev Rgb := UInt8 × UInt8 × UInt8

/-- `color::HARDCORE_BLACK`. -/
def hardcoreBlack : Rgb := (0x0E, 0x0E, 0x10)

/-- `color::BUILD_ACID`. -/
def buildAcid : Rgb := (0xD6, 0xFF, 0x3F)

/-- A slice of bytes. Bytes from `size` on are not part of it. -/
structure Buffer where
  /-- The number of bytes. -/
  size : ℕ
  /-- The bytes. -/
  byte : ℕ → UInt8

/-- `px[i] = v`, where `px` is the part of the buffer from `off` on that is `len` bytes long. -/
def Buffer.put (off len : ℕ) (i : ℕ) (v : UInt8) (buf : Buffer) : Except Fault Buffer :=
  if i < len then .ok { buf with byte := Function.update buf.byte (off + i) v }
  else .error .index

/-- The grey of a colour. No sum here goes above 65280, so `u16` is wide enough. -/
def luminance (rgb : Rgb) : UInt8 :=
  UInt8.ofNat ((rgb.1.toNat * 54 + rgb.2.1.toNat * 183 + rgb.2.2.toNat * 19) >>> 8)

/-- `write_pixel` on that part of the buffer. -/
def writePixel (off len : ℕ) (fmt : PixelFormat) (rgb : Rgb) (buf : Buffer) :
    Except Fault Buffer :=
  match fmt with
  | .rgb => do
    let buf ← buf.put off len 0 rgb.1
    let buf ← buf.put off len 1 rgb.2.1
    buf.put off len 2 rgb.2.2
  | .bgr => do
    let buf ← buf.put off len 0 rgb.2.2
    let buf ← buf.put off len 1 rgb.2.1
    buf.put off len 2 rgb.1
  | .u8 => buf.put off len 0 (luminance rgb)
  | .unknown => do
    let buf ← buf.put off len 0 rgb.2.2
    let buf ← buf.put off len 1 rgb.2.1
    buf.put off len 2 rgb.1

/-- The loop that `framebuffer::clear` and `Canvas::clear` share: a pixel for each whole chunk. -/
def Buffer.fill (bpp : ℕ) (fmt : PixelFormat) (rgb : Rgb) (buf : Buffer) : Except Fault Buffer :=
  if bpp = 0 then .error .chunkSize
  else (List.range (buf.size / bpp)).foldlM (fun buf i ↦ writePixel (i * bpp) bpp fmt rgb buf) buf

/-- `framebuffer::clear`. -/
def clear (info : FrameBufferInfo) (rgb : Rgb) (fb : Buffer) : Except Fault Buffer :=
  fb.fill info.bytesPerPixel info.pixelFormat rgb

/-! ## Arithmetic -/

section Arithmetic

variable {o : Overflow} {z : ℤ} {n : ℕ}

theorem isize_of_mem (h : -2 ^ 63 ≤ z ∧ z < 2 ^ 63) : o.isize z = .ok z := if_pos h

theorem usize_of_lt (h : n < 2 ^ 64) : o.usize n = .ok n := if_pos h

theorem asIsize_of_lt (h : n < 2 ^ 63) : asIsize n = n := by
  unfold asIsize
  rw [Int.bmod_eq_of_le] <;> omega

theorem asUsize_of_nonneg (h : 0 ≤ z) (h' : z < 2 ^ 63) : asUsize z = z.toNat := by
  rw [asUsize]
  omega

theorem mem_inclusive {y0 y1 y : ℤ} : y ∈ inclusive y0 y1 ↔ y0 ≤ y ∧ y ≤ y1 := by
  rw [inclusive, List.mem_map]
  constructor
  · rintro ⟨i, hi, rfl⟩
    have hlt := List.mem_range.mp hi
    omega
  · rintro ⟨h0, h1⟩
    exact ⟨(y - y0).toNat, List.mem_range.mpr (by omega), by omega⟩

end Arithmetic

/-! ## What a pixel is -/

/-- The bytes of a colour. -/
def PixelFormat.bytes (fmt : PixelFormat) (rgb : Rgb) : List UInt8 :=
  match fmt with
  | .rgb => [rgb.1, rgb.2.1, rgb.2.2]
  | .bgr => [rgb.2.2, rgb.2.1, rgb.1]
  | .u8 => [luminance rgb]
  | .unknown => [rgb.2.2, rgb.2.1, rgb.1]

/-- The number of bytes that hold a colour. -/
def PixelFormat.channels : PixelFormat → ℕ
  | .u8 => 1
  | _ => 3

theorem length_bytes (fmt : PixelFormat) (rgb : Rgb) : (fmt.bytes rgb).length = fmt.channels := by
  rcases fmt with _ | _ | _ | _ <;> rfl

theorem channels_pos (fmt : PixelFormat) : 0 < fmt.channels := by
  rcases fmt with _ | _ | _ | _ <;> decide

/-- Bytes put from `off` on. -/
def bytesLayer (off : ℕ) (px : List UInt8) : Layer ℕ UInt8 :=
  fun i ↦ if off ≤ i then px[i - off]? else none

/-- A pixel as a layer. -/
def pixelLayer (fmt : PixelFormat) (rgb : Rgb) (off : ℕ) : Layer ℕ UInt8 :=
  bytesLayer off (fmt.bytes rgb)

/-- The buffer under some layers. -/
def Buffer.under (ls : List (Layer ℕ UInt8)) (buf : Buffer) : Buffer :=
  { buf with byte := Layer.overlay ls buf.byte }

section Pixel

variable {fmt : PixelFormat} {rgb : Rgb} {off len : ℕ} {buf : Buffer}

theorem bytesLayer_at (px : List UInt8) (k : ℕ) : bytesLayer off px (off + k) = px[k]? := by
  rw [bytesLayer, if_pos (Nat.le_add_right off k), Nat.add_sub_cancel_left]

theorem pixelLayer_at (k : ℕ) : pixelLayer fmt rgb off (off + k) = (fmt.bytes rgb)[k]? :=
  bytesLayer_at _ k

theorem isSome_pixelLayer {i : ℕ} :
    (pixelLayer fmt rgb off i).isSome = true ↔ off ≤ i ∧ i < off + fmt.channels := by
  rw [pixelLayer]
  by_cases h : off ≤ i
  · obtain ⟨k, rfl⟩ := Nat.exists_eq_add_of_le h
    rw [bytesLayer_at, isSome_getElem?, length_bytes]
    exact ⟨fun hk ↦ ⟨h, Nat.add_lt_add_left hk off⟩, fun hk ↦ Nat.lt_of_add_lt_add_left hk.2⟩
  · rw [bytesLayer, if_neg h]
    exact ⟨fun hk ↦ Bool.noConfusion hk, fun hk ↦ absurd hk.1 h⟩

/-- One byte more. -/
theorem onto_bytesLayer_concat (px : List UInt8) (a : UInt8) (f : ℕ → UInt8) :
    (bytesLayer off (px ++ [a])).onto f =
      Function.update ((bytesLayer off px).onto f) (off + px.length) a := by
  funext i
  by_cases h : off ≤ i
  · obtain ⟨k, rfl⟩ := Nat.exists_eq_add_of_le h
    rw [Layer.onto, bytesLayer_at]
    by_cases hk : k = px.length
    · rw [hk, Function.update_self, List.getElem?_concat_length]
      rfl
    · rw [Function.update_of_ne (by omega), Layer.onto, bytesLayer_at, List.getElem?_append]
      by_cases hlt : k < px.length
      · rw [if_pos hlt]
      · rw [if_neg hlt, List.getElem?_eq_none (Nat.le_of_not_lt hlt), List.getElem?_eq_none]
        simp only [List.length_singleton]
        omega
  · rw [Function.update_of_ne (by omega), Layer.onto, Layer.onto, bytesLayer, if_neg h, bytesLayer,
      if_neg h]

/-- A byte behind those that have been put. -/
theorem put_under (px : List UInt8) (h : px.length < len) (a : UInt8) :
    (buf.under [bytesLayer off px]).put off len px.length a =
      .ok (buf.under [bytesLayer off (px ++ [a])]) := by
  refine (if_pos h).trans (congrArg Except.ok ?_)
  exact congrArg (Buffer.mk buf.size) (onto_bytesLayer_concat px a buf.byte).symm

theorem under_nil_bytes : buf.under [bytesLayer off []] = buf := by
  refine congrArg (Buffer.mk buf.size) (funext fun i ↦ Layer.onto_of_none ?_)
  rw [bytesLayer]
  split <;> rfl

theorem put_first (h : 0 < len) (a : UInt8) :
    buf.put off len 0 a = .ok (buf.under [bytesLayer off [a]]) := by
  have hput : (buf.under [bytesLayer off []]).put off len 0 a =
    .ok (buf.under [bytesLayer off [a]]) := put_under [] h a
  rwa [under_nil_bytes] at hput

/-- **`write_pixel`** puts one layer on top, if the pixel has room for the colour. -/
theorem writePixel_eq (h : fmt.channels ≤ len) :
    writePixel off len fmt rgb buf = .ok (buf.under [pixelLayer fmt rgb off]) := by
  have hthree : ∀ a b c, 3 ≤ len → (do
      let buf ← buf.put off len 0 a
      let buf ← buf.put off len 1 b
      buf.put off len 2 c) = .ok (buf.under [bytesLayer off [a, b, c]]) := by
    intro a b c hlen
    rw [put_first (by omega)]
    change (Buffer.put off len 1 b _ >>= _) = _
    have hsecond : (buf.under [bytesLayer off [a]]).put off len 1 b =
      .ok (buf.under [bytesLayer off [a, b]]) := put_under [a] (Nat.lt_of_succ_lt hlen) b
    rw [hsecond]
    exact put_under [a, b] hlen c
  rcases fmt with _ | _ | _ | _
  · exact hthree _ _ _ h
  · exact hthree _ _ _ h
  · exact put_first h _
  · exact hthree _ _ _ h

theorem under_append (ls ls' : List (Layer ℕ UInt8)) (buf : Buffer) :
    buf.under (ls ++ ls') = (buf.under ls).under ls' := by
  unfold Buffer.under
  rw [Layer.overlay_append]

/-- A loop that puts layers on top. -/
theorem foldl_under {α : Type} (layers : α → List (Layer ℕ UInt8)) (xs : List α) (buf : Buffer) :
    xs.foldl (fun buf a ↦ buf.under (layers a)) buf = buf.under (xs.flatMap layers) := by
  induction xs generalizing buf with
  | nil => rfl
  | cons a xs ih =>
    rw [List.foldl_cons, ih, List.flatMap_cons, under_append]

/-- **`clear`** puts a pixel on every chunk. -/
theorem fill_eq {bpp : ℕ} (h : fmt.channels ≤ bpp) (rgb : Rgb) (buf : Buffer) :
    buf.fill bpp fmt rgb =
      .ok (buf.under ((List.range (buf.size / bpp)).map fun i ↦ pixelLayer fmt rgb (i * bpp))) :=
        by
  have hbpp : bpp ≠ 0 := fun hzero ↦ absurd (channels_pos fmt) (by omega)
  have hstep : (fun buf i ↦ writePixel (i * bpp) bpp fmt rgb buf) = fun buf i ↦
      (pure (buf.under [pixelLayer fmt rgb (i * bpp)]) : Except Fault Buffer) := by
    funext buf i
    exact writePixel_eq h
  rw [Buffer.fill, if_neg hbpp, hstep, List.foldlM_pure, foldl_under]
  exact congrArg (fun ls ↦ Except.ok (buf.under ls)) (List.flatMap_pure_eq_map _ _)

/-- Chunks of `n` bytes: a byte is in one of them only. -/
theorem chunk_unique {n a b i : ℕ} (ha : a * n ≤ i ∧ i < a * n + n)
    (hb : b * n ≤ i ∧ i < b * n + n) : a = b := by
  rw [← Nat.succ_mul] at ha hb
  have hab : a < b + 1 := Nat.lt_of_mul_lt_mul_right (ha.1.trans_lt hb.2)
  have hba : b < a + 1 := Nat.lt_of_mul_lt_mul_right (hb.1.trans_lt ha.2)
  omega

/-- Pixels on chunks that can hold them: each shows the colour, whatever the order. -/
theorem overlay_pixelLayer {n k c : ℕ} (hn : fmt.channels ≤ n) (hk : k < fmt.channels)
    {cs : List ℕ} (hc : c ∈ cs) (rgb : Rgb) (f : ℕ → UInt8) :
    some (Layer.overlay (cs.map fun c ↦ pixelLayer fmt rgb (c * n)) f (c * n + k)) =
      (fmt.bytes rgb)[k]? := by
  have hlen : k < (fmt.bytes rgb).length := length_bytes _ _ ▸ hk
  have hin : c * n ≤ c * n + k ∧ c * n + k < c * n + n :=
    ⟨Nat.le_add_right _ k, Nat.add_lt_add_left (hk.trans_le hn) _⟩
  rw [List.getElem?_eq_getElem hlen]
  refine congrArg some (Layer.overlay_eq_of_agree ?_ ?_)
  · intro l hl b hb
    obtain ⟨c', -, rfl⟩ := List.mem_map.mp hl
    -- only the pixel's own chunk covers the byte
    obtain ⟨hle, hlt⟩ := isSome_pixelLayer.mp (Option.isSome_of_eq_some hb)
    obtain rfl : c' = c := chunk_unique ⟨hle, hlt.trans_le (Nat.add_le_add_left hn _)⟩ hin
    have hat : pixelLayer fmt rgb (c' * n) (c' * n + k) = some (fmt.bytes rgb)[k] :=
      (pixelLayer_at k).trans (List.getElem?_eq_getElem hlen)
    exact Option.some.inj (hb.symm.trans hat)
  · exact ⟨_, List.mem_map_of_mem hc, isSome_pixelLayer.mpr ⟨hin.1, Nat.add_lt_add_left hk _⟩⟩

end Pixel

/-! ## Visible pixels -/

/-- What the renderer relies on: the rows fit into the slice, the visible part of a row into a row,
and a colour into a pixel. No slice is longer than `isize` can say. -/
structure FrameBufferInfo.Valid (info : FrameBufferInfo) : Prop where
  /-- There is a row. -/
  height_pos : 1 ≤ info.height
  /-- Rows do not overlap. -/
  width_le : info.width ≤ info.stride
  /-- All rows are there. -/
  fits : info.height * info.stride * info.bytesPerPixel ≤ info.byteLen
  /-- Pixels are large enough. -/
  channels_le : info.pixelFormat.channels ≤ info.bytesPerPixel
  /-- The largest slice. -/
  byteLen_lt : info.byteLen < 2 ^ 63

/-- The bytes from one row to the next. -/
def FrameBufferInfo.rowBytes (info : FrameBufferInfo) : ℕ := info.stride * info.bytesPerPixel

/-- Where a pixel is. -/
def FrameBufferInfo.offset (info : FrameBufferInfo) (x y : ℕ) : ℕ :=
  (y * info.stride + x) * info.bytesPerPixel

/-- The colour bytes of all visible pixels are the same. -/
def SameColours (info : FrameBufferInfo) (a b : Buffer) : Prop :=
  ∀ x < info.width, ∀ y < info.height, ∀ k < info.pixelFormat.channels,
    a.byte (info.offset x y + k) = b.byte (info.offset x y + k)

namespace FrameBufferInfo

variable {info : FrameBufferInfo} {x y : ℕ}

theorem rowBytes_mul_le (h : info.Valid) : info.height * info.rowBytes ≤ info.byteLen := by
  rw [rowBytes, ← Nat.mul_assoc]
  exact h.fits

/-- A pixel lies in its row. -/
theorem offset_mem_row (h : info.Valid) (hx : x < info.width) :
    y * info.rowBytes ≤ info.offset x y ∧
      info.offset x y + info.bytesPerPixel ≤ (y + 1) * info.rowBytes := by
  have hrow : ∀ n, n * info.rowBytes = n * info.stride * info.bytesPerPixel := fun n ↦
    (Nat.mul_assoc _ _ _).symm
  have hnext : y * info.stride + x + 1 ≤ (y + 1) * info.stride := by
    rw [Nat.succ_mul]
    exact Nat.add_le_add_left (hx.trans_le h.width_le) _
  rw [hrow, hrow, offset]
  refine ⟨Nat.mul_le_mul_right _ (Nat.le_add_right _ x), ?_⟩
  rw [← Nat.succ_mul]
  exact Nat.mul_le_mul_right _ hnext

theorem row_le_byteLen (h : info.Valid) (hy : y < info.height) :
    (y + 1) * info.rowBytes ≤ info.byteLen :=
  (Nat.mul_le_mul_right _ hy).trans (rowBytes_mul_le h)

/-- A visible pixel lies in the slice. -/
theorem offset_le_byteLen (h : info.Valid) (hx : x < info.width) (hy : y < info.height) :
    info.offset x y + info.bytesPerPixel ≤ info.byteLen :=
  (offset_mem_row h hx).2.trans (row_le_byteLen h hy)

/-- **After `clear`** every visible pixel has the colour. -/
theorem byte_fill (h : info.Valid) {buf : Buffer} (hbuf : buf.size = info.byteLen)
    (hx : x < info.width) (hy : y < info.height) {k : ℕ} (hk : k < info.pixelFormat.channels)
    (rgb : Rgb) :
    some ((buf.under ((List.range (buf.size / info.bytesPerPixel)).map fun i ↦
      pixelLayer info.pixelFormat rgb (i * info.bytesPerPixel))).byte (info.offset x y + k)) =
      (info.pixelFormat.bytes rgb)[k]? := by
  have hbpp : 0 < info.bytesPerPixel := (Nat.zero_le k).trans_lt (hk.trans_le h.channels_le)
  have hchunk : y * info.stride + x < buf.size / info.bytesPerPixel := by
    rw [hbuf, Nat.lt_iff_add_one_le, Nat.le_div_iff_mul_le hbpp, Nat.succ_mul]
    exact offset_le_byteLen h hx hy
  exact overlay_pixelLayer h.channels_le hk (List.mem_range.mpr hchunk) rgb buf.byte

end FrameBufferInfo

end Punkos.Render
