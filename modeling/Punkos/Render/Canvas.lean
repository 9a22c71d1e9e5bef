import Mathlib.Tactic.Linarith
import Mathlib.Tactic.Ring
import Punkos.Render.Framebuffer

/-!
# The back buffer

`Canvas`: an off-screen buffer with the layout of the framebuffer. `fill_circle` fills a disc, and
`present_rows` copies some rows to the framebuffer.

Which pixels a disc consists of depends on the geometry and on how arithmetic overflows, but not on
the colour or on what has been drawn before. `disc` is that list, and `fillCircle_eq` says that
`fill_circle` puts the colour on all pixels of it. All of them are visible, so no index of
`fill_circle` is ever out of range; what is left is overflow, and `disc_failsOnly` says that it
needs overflow checks and a screen larger than any there is.
-/

namespace Punkos.Render

/-- `Canvas`. -/
structure Canvas where
  /-- The bytes. -/
  buf : Buffer
  /-- `w`. -/
  w : ℕ
  /-- `h`. -/
  h : ℕ
  /-- `stride`. -/
  stride : ℕ
  /-- `bpp`. -/
  bpp : ℕ
  /-- `fmt`. -/
  fmt : PixelFormat

namespace Canvas

/-- `Canvas::new`. -/
def new (info : FrameBufferInfo) : Canvas where
  buf := ⟨info.byteLen, fun _ ↦ 0⟩
  w := info.width
  h := info.height
  stride := info.stride
  bpp := info.bytesPerPixel
  fmt := info.pixelFormat

/-- `Canvas::clear`. -/
def clear (rgb : Rgb) (c : Canvas) : Except Fault Canvas := do
  let buf ← c.buf.fill c.bpp c.fmt rgb
  return { c with buf := buf }

variable (o : Overflow)

/-- `let off = (y * stride + x) * bpp`, and then `write_pixel` on `buf[off..off + bpp]`. -/
def writeAt (rgb : Rgb) (x y : ℕ) (c : Canvas) : Except Fault Canvas := do
  let row ← o.usize (y * c.stride)
  let pixel ← o.usize (row + x)
  let off ← o.usize (pixel * c.bpp)
  let stop ← o.usize (off + c.bpp)
  if off ≤ stop ∧ stop ≤ c.buf.size then
    let buf ← writePixel off (stop - off) c.fmt rgb c.buf
    return { c with buf := buf }
  else throw .index

/-- The body of the inner loop of `fill_circle`. -/
def fillPixel (cx r2 dy y : ℤ) (rgb : Rgb) (c : Canvas) (x : ℤ) : Except Fault Canvas := do
  let dx ← o.isize (x - cx)
  let dx2 ← o.isize (dx * dx)
  let dy2 ← o.isize (dy * dy)
  let d2 ← o.isize (dx2 + dy2)
  if d2 ≤ r2 then c.writeAt o rgb (asUsize x) (asUsize y) else return c

/-- The body of the outer loop. -/
def fillRow (w cx cy r r2 : ℤ) (rgb : Rgb) (c : Canvas) (y : ℤ) : Except Fault Canvas := do
  let dy ← o.isize (y - cy)
  let left ← o.isize (cx - r)
  let right ← o.isize (cx + r)
  let last ← o.isize (w - 1)
  (inclusive (max left 0) (min right last)).foldlM (fillPixel o cx r2 dy y rgb) c

/-- `Canvas::fill_circle`. -/
def fillCircle (cx cy r : ℤ) (rgb : Rgb) (c : Canvas) : Except Fault Canvas := do
  let w := asIsize c.w
  let h := asIsize c.h
  let r2 ← o.isize (r * r)
  let top ← o.isize (cy - r)
  let bottom ← o.isize (cy + r)
  let last ← o.isize (h - 1)
  (inclusive (max top 0) (min bottom last)).foldlM (fillRow o w cx cy r r2 rgb) c

/-- `dst[start..stop].copy_from_slice(&src[start..stop])`. -/
def copyRange (src : Buffer) (start stop : ℕ) (dst : Buffer) : Except Fault Buffer :=
  if start ≤ stop ∧ stop ≤ dst.size ∧ stop ≤ src.size then
    .ok { dst with byte := fun i ↦ if start ≤ i ∧ i < stop then src.byte i else dst.byte i }
  else .error .index

/-- `Canvas::present_rows`. -/
def presentRows (c : Canvas) (y0 y1 : ℕ) (fb : Buffer) : Except Fault Buffer := do
  let rowBytes ← o.usize (c.stride * c.bpp)
  let start ← o.usize (y0 * rowBytes)
  let next ← o.usize (y1 + 1)
  let stop ← o.usize (next * rowBytes)
  copyRange c.buf start stop fb

end Canvas

/-! ## The pixels of a disc -/

section Disc

variable (o : Overflow)

/-- The pixel, if it belongs to the disc. -/
def discPixel (cx r2 dy y x : ℤ) : Except Fault (List (ℕ × ℕ)) := do
  let dx ← o.isize (x - cx)
  let dx2 ← o.isize (dx * dx)
  let dy2 ← o.isize (dy * dy)
  let d2 ← o.isize (dx2 + dy2)
  return if d2 ≤ r2 then [(asUsize x, asUsize y)] else []

/-- The pixels of a row. -/
def discRow (w cx cy r r2 y : ℤ) : Except Fault (List (ℕ × ℕ)) := do
  let dy ← o.isize (y - cy)
  let left ← o.isize (cx - r)
  let right ← o.isize (cx + r)
  let last ← o.isize (w - 1)
  let pixels ← (inclusive (max left 0) (min right last)).mapM (discPixel o cx r2 dy y)
  return pixels.flatten

/-- The pixels of a disc. -/
def disc (info : FrameBufferInfo) (cx cy r : ℤ) : Except Fault (List (ℕ × ℕ)) := do
  let w := asIsize info.width
  let h := asIsize info.height
  let r2 ← o.isize (r * r)
  let top ← o.isize (cy - r)
  let bottom ← o.isize (cy + r)
  let last ← o.isize (h - 1)
  let rows ← (inclusive (max top 0) (min bottom last)).mapM (discRow o w cx cy r r2)
  return rows.flatten

end Disc

/-- The canvas has the layout of the framebuffer. -/
structure Canvas.On (info : FrameBufferInfo) (c : Canvas) : Prop where
  /-- All fields but one are the framebuffer's. -/
  fields : c = { Canvas.new info with buf := c.buf }
  /-- The size. -/
  size : c.buf.size = info.byteLen

/-- The layers that give some pixels a colour. -/
def pixelLayers (info : FrameBufferInfo) (rgb : Rgb) (ps : List (ℕ × ℕ)) : List (Layer ℕ UInt8) :=
  ps.map fun p ↦ pixelLayer info.pixelFormat rgb (info.offset p.1 p.2)

/-- The canvas with some more layers. -/
def Canvas.under (ls : List (Layer ℕ UInt8)) (c : Canvas) : Canvas :=
  { c with buf := c.buf.under ls }

namespace Canvas

variable {o : Overflow} {info : FrameBufferInfo} {c : Canvas} {rgb : Rgb}

theorem On.new (info : FrameBufferInfo) : (Canvas.new info).On info := ⟨rfl, rfl⟩

theorem On.under (h : c.On info) (ls : List (Layer ℕ UInt8)) : (c.under ls).On info :=
  ⟨congrArg (Canvas.under ls) h.fields, h.size⟩

theorem under_under (ls ls' : List (Layer ℕ UInt8)) (c : Canvas) :
    (c.under ls).under ls' = c.under (ls ++ ls') := by
  unfold Canvas.under
  rw [under_append]

/-- A loop that puts layers on top. -/
theorem foldl_under {α : Type} (layers : α → List (Layer ℕ UInt8)) (xs : List α) (c : Canvas) :
    xs.foldl (fun c a ↦ c.under (layers a)) c = c.under (xs.flatMap layers) := by
  induction xs generalizing c with
  | nil => rfl
  | cons a xs ih => rw [List.foldl_cons, ih, under_under, List.flatMap_cons]

theorem foldl_pixelLayers (pss : List (List (ℕ × ℕ))) (c : Canvas) :
    pss.foldl (fun c ps ↦ c.under (pixelLayers info rgb ps)) c =
      c.under (pixelLayers info rgb pss.flatten) := by
  rw [foldl_under, pixelLayers, List.map_flatten, List.flatMap_def]
  rfl

/-- **`Canvas::clear`** puts a pixel on every chunk. -/
theorem clear_eq (h : info.Valid) (hc : c.On info) (rgb : Rgb) :
    c.clear rgb = .ok (c.under ((List.range (c.buf.size / info.bytesPerPixel)).map fun i ↦
      pixelLayer info.pixelFormat rgb (i * info.bytesPerPixel))) := by
  have hbpp : c.bpp = info.bytesPerPixel := congrArg Canvas.bpp hc.fields
  have hfmt : c.fmt = info.pixelFormat := congrArg Canvas.fmt hc.fields
  have hfill := fill_eq h.channels_le rgb c.buf
  rw [← hbpp, ← hfmt] at hfill ⊢
  rw [clear, hfill]
  rfl

/-- If rows have bytes at all, the geometry is small enough for `isize`. -/
theorem lt_of_stride_pos (h : info.Valid) (hstride : 0 < info.stride) :
    info.width < 2 ^ 63 ∧ info.height < 2 ^ 63 := by
  have hbpp : 1 ≤ info.bytesPerPixel := (channels_pos _).trans_le h.channels_le
  have hrows : info.height * info.stride ≤ info.byteLen :=
    (Nat.le_mul_of_pos_right _ hbpp).trans h.fits
  constructor
  · calc info.width ≤ info.stride := h.width_le
      _ ≤ info.height * info.stride := Nat.le_mul_of_pos_left _ h.height_pos
      _ ≤ info.byteLen := hrows
      _ < 2 ^ 63 := h.byteLen_lt
  · calc info.height ≤ info.height * info.stride := Nat.le_mul_of_pos_right _ hstride
      _ ≤ info.byteLen := hrows
      _ < 2 ^ 63 := h.byteLen_lt

/-- The slice of a visible pixel is in range, and it is written. -/
theorem writeAt_eq (h : info.Valid) (hc : c.On info) {x y : ℕ} (hx : x < info.width)
    (hy : y < info.height) :
    c.writeAt o rgb x y = .ok (c.under (pixelLayers info rgb [(x, y)])) := by
  have hstride : c.stride = info.stride := congrArg Canvas.stride hc.fields
  have hbpp : c.bpp = info.bytesPerPixel := congrArg Canvas.bpp hc.fields
  have hfmt : c.fmt = info.pixelFormat := congrArg Canvas.fmt hc.fields
  have hend := FrameBufferInfo.offset_le_byteLen h hx hy
  have hpos : 1 ≤ info.bytesPerPixel := (channels_pos _).trans_le h.channels_le
  -- every intermediate result is at most the last one
  have hlt : info.offset x y + info.bytesPerPixel < 2 ^ 64 := by
    have := h.byteLen_lt
    omega
  have hpixel : y * info.stride + x ≤ info.offset x y := Nat.le_mul_of_pos_right _ hpos
  have hrow : o.usize (y * c.stride) = .ok (y * info.stride) := by
    rw [hstride]
    exact usize_of_lt (by omega)
  have hsum : o.usize (y * info.stride + x) = .ok (y * info.stride + x) := usize_of_lt (by omega)
  have hoff : o.usize ((y * info.stride + x) * c.bpp) = .ok (info.offset x y) := by
    rw [hbpp]
    exact usize_of_lt (Nat.lt_of_le_of_lt (Nat.le_add_right _ _) hlt)
  have hstop : o.usize (info.offset x y + c.bpp) = .ok (info.offset x y + info.bytesPerPixel) := by
    rw [hbpp]
    exact usize_of_lt hlt
  have hin : info.offset x y ≤ info.offset x y + info.bytesPerPixel ∧
      info.offset x y + info.bytesPerPixel ≤ c.buf.size :=
    ⟨Nat.le_add_right _ _, hc.size ▸ hend⟩
  have hwrite : writePixel (info.offset x y) info.bytesPerPixel c.fmt rgb c.buf =
      .ok (c.buf.under (pixelLayers info rgb [(x, y)])) := by
    rw [hfmt]
    exact writePixel_eq h.channels_le
  rw [writeAt, hrow, Except.ok_bind, hsum, Except.ok_bind, hoff, Except.ok_bind, hstop,
    Except.ok_bind, if_pos hin, Nat.add_sub_cancel_left, hwrite]
  rfl

/-- **The inner loop body** draws the pixel, if it belongs to the disc. -/
theorem fillPixel_eq (h : info.Valid) (hc : c.On info) {cx r2 dy y x : ℤ}
    (hx : 0 ≤ x ∧ x < info.width) (hy : 0 ≤ y ∧ y < info.height) :
    fillPixel o cx r2 dy y rgb c x =
      (discPixel o cx r2 dy y x).map fun ps ↦ c.under (pixelLayers info rgb ps) := by
  have hwidth := h.width_le
  obtain ⟨hw, hh⟩ := lt_of_stride_pos h (by omega)
  refine Except.bind_eq_map_bind fun dx _ ↦ Except.bind_eq_map_bind fun dx2 _ ↦
    Except.bind_eq_map_bind fun dy2 _ ↦ Except.bind_eq_map_bind fun d2 _ ↦ ?_
  by_cases hd : d2 ≤ r2
  · rw [if_pos hd, if_pos hd, asUsize_of_nonneg hx.1 (by omega), asUsize_of_nonneg hy.1 (by omega)]
    exact writeAt_eq h hc (by omega) (by omega)
  · rw [if_neg hd, if_neg hd]
    rfl

/-- **The outer loop body** draws the pixels of the row that belong to the disc. -/
theorem fillRow_eq (h : info.Valid) (hc : c.On info) {cx cy r r2 y : ℤ}
    (hy : 0 < info.width → 0 ≤ y ∧ y < info.height) :
    fillRow o (asIsize info.width) cx cy r r2 rgb c y =
      (discRow o (asIsize info.width) cx cy r r2 y).map fun ps ↦
        c.under (pixelLayers info rgb ps) := by
  have hwidth : info.width < 2 ^ 63 := by
    rcases Nat.eq_zero_or_pos info.width with hzero | hpos
    · omega
    · exact (lt_of_stride_pos h (hpos.trans_le h.width_le)).1
  refine Except.bind_eq_map_bind fun dy _ ↦ Except.bind_eq_map_bind fun left _ ↦
    Except.bind_eq_map_bind fun right _ ↦ Except.bind_eq_map_bind fun last hlast ↦ ?_
  rw [asIsize_of_lt hwidth, isize_of_mem (by omega)] at hlast
  have hloop := foldlM_eq_map_mapM (I := fun c : Canvas ↦ c.On info)
    (f := fillPixel o cx r2 dy y rgb) (g := discPixel o cx r2 dy y)
    (inclusive (max left 0) (min right last)) (fun c ps hc ↦ hc.under (pixelLayers info rgb ps))
    (fun c hc x hx ↦ ?_) hc
  · rw [hloop]
    rcases (inclusive (max left 0) (min right last)).mapM (discPixel o cx r2 dy y) with e | pss
    · rfl
    · exact congrArg Except.ok (foldl_pixelLayers pss c)
  · obtain ⟨hx0, hx1⟩ := mem_inclusive.mp hx
    have hlast' : last = info.width - 1 := (Except.ok.inj hlast).symm
    have hxmem : 0 ≤ x ∧ x < info.width := by omega
    exact fillPixel_eq h hc hxmem (hy (by omega))

/-- **`fill_circle`** draws the disc. -/
theorem fillCircle_eq (h : info.Valid) (hc : c.On info) (cx cy r : ℤ) :
    fillCircle o cx cy r rgb c =
      (disc o info cx cy r).map fun ps ↦ c.under (pixelLayers info rgb ps) := by
  have hw : c.w = info.width := congrArg Canvas.w hc.fields
  have hh : c.h = info.height := congrArg Canvas.h hc.fields
  unfold fillCircle disc
  rw [hw, hh]
  refine Except.bind_eq_map_bind fun r2 _ ↦ Except.bind_eq_map_bind fun top _ ↦
    Except.bind_eq_map_bind fun bottom _ ↦ Except.bind_eq_map_bind fun last hlast ↦ ?_
  have hloop := foldlM_eq_map_mapM (I := fun c : Canvas ↦ c.On info)
    (f := fillRow o (asIsize info.width) cx cy r r2 rgb)
    (g := discRow o (asIsize info.width) cx cy r r2)
    (inclusive (max top 0) (min bottom last)) (fun c ps hc ↦ hc.under (pixelLayers info rgb ps))
    (fun c hc y hy ↦ ?_) hc
  · rw [hloop]
    rcases (inclusive (max top 0) (min bottom last)).mapM
      (discRow o (asIsize info.width) cx cy r r2)
      with e | pss
    · rfl
    · exact congrArg Except.ok (foldl_pixelLayers pss c)
  · refine fillRow_eq h hc fun hpos ↦ ?_
    obtain ⟨hy0, hy1⟩ := mem_inclusive.mp hy
    obtain ⟨-, hheight⟩ := lt_of_stride_pos h (hpos.trans_le h.width_le)
    rw [asIsize_of_lt hheight, isize_of_mem (by omega)] at hlast
    have hlast' : last = info.height - 1 := (Except.ok.inj hlast).symm
    omega

end Canvas

/-! ## Where the pixels of a disc are -/

section Pixels

variable {o : Overflow} {info : FrameBufferInfo} {cx cy r : ℤ}

theorem mem_discPixel {r2 dy y x : ℤ} {ps : List (ℕ × ℕ)}
    (h : discPixel o cx r2 dy y x = .ok ps) {p : ℕ × ℕ} (hp : p ∈ ps) :
    p = (asUsize x, asUsize y) := by
  obtain ⟨dx, -, h⟩ := Except.bind_eq_ok h
  obtain ⟨dx2, -, h⟩ := Except.bind_eq_ok h
  obtain ⟨dy2, -, h⟩ := Except.bind_eq_ok h
  obtain ⟨d2, -, h⟩ := Except.bind_eq_ok h
  obtain rfl := Except.ok.inj h
  by_cases hd : d2 ≤ r2
  · rw [if_pos hd] at hp
    exact List.mem_singleton.mp hp
  · rw [if_neg hd] at hp
    exact absurd hp List.not_mem_nil

theorem mem_discRow {width : ℕ} (hwidth : width < 2 ^ 63) {r2 y : ℤ} {ps : List (ℕ × ℕ)}
    (h : discRow o (asIsize width) cx cy r r2 y = .ok ps) {p : ℕ × ℕ} (hp : p ∈ ps) :
    p.1 < width ∧ p.2 = asUsize y := by
  obtain ⟨dy, -, h⟩ := Except.bind_eq_ok h
  obtain ⟨left, -, h⟩ := Except.bind_eq_ok h
  obtain ⟨right, -, h⟩ := Except.bind_eq_ok h
  obtain ⟨last, hlast, h⟩ := Except.bind_eq_ok h
  obtain ⟨pss, hpss, h⟩ := Except.bind_eq_ok h
  obtain rfl := Except.ok.inj h
  obtain ⟨qs, hqs, hpqs⟩ := List.mem_flatten.mp hp
  obtain ⟨x, hx, hpixel⟩ := exists_of_mem_mapM hpss hqs
  obtain ⟨hx0, hx1⟩ := mem_inclusive.mp hx
  rw [mem_discPixel hpixel hpqs]
  refine ⟨?_, rfl⟩
  rw [asIsize_of_lt hwidth, isize_of_mem (by omega)] at hlast
  have hlast' : last = width - 1 := (Except.ok.inj hlast).symm
  rw [asUsize_of_nonneg (by omega) (by omega)]
  omega

/-- The rows of a disc. -/
theorem mem_disc (hwidth : info.width < 2 ^ 63) {top bottom last : ℤ}
    (htop : o.isize (cy - r) = .ok top) (hbottom : o.isize (cy + r) = .ok bottom)
    (hlast : o.isize (asIsize info.height - 1) = .ok last) {ps : List (ℕ × ℕ)}
    (h : disc o info cx cy r = .ok ps) {p : ℕ × ℕ} (hp : p ∈ ps) :
    p.1 < info.width ∧ ∃ y, max top 0 ≤ y ∧ y ≤ min bottom last ∧ p.2 = asUsize y := by
  obtain ⟨r2, -, h⟩ := Except.bind_eq_ok h
  obtain ⟨top', htop', h⟩ := Except.bind_eq_ok h
  obtain ⟨bottom', hbottom', h⟩ := Except.bind_eq_ok h
  obtain ⟨last', hlast', h⟩ := Except.bind_eq_ok h
  obtain rfl : top = top' := Except.ok.inj (htop.symm.trans htop')
  obtain rfl : bottom = bottom' := Except.ok.inj (hbottom.symm.trans hbottom')
  obtain rfl : last = last' := Except.ok.inj (hlast.symm.trans hlast')
  obtain ⟨pss, hpss, h⟩ := Except.bind_eq_ok h
  obtain rfl := Except.ok.inj h
  obtain ⟨qs, hqs, hpqs⟩ := List.mem_flatten.mp hp
  obtain ⟨y, hy, hrow⟩ := exists_of_mem_mapM hpss hqs
  obtain ⟨hy0, hy1⟩ := mem_inclusive.mp hy
  obtain ⟨hx, hpy⟩ := mem_discRow hwidth hrow hpqs
  exact ⟨hx, y, hy0, hy1, hpy⟩

end Pixels

/-! ## Overflow -/

section Overflow

variable {o : Overflow} {M : Prop} {z v : ℤ} {n : ℕ}

/-- The only way to fail: overflow checks, and a geometry that is not moderate. -/
def OnlyOverflow (o : Overflow) (M : Prop) (e : Fault) : Prop := e = .overflow ∧ o = .panics ∧ ¬M

theorem isize_failsOnly (h : M → -2 ^ 63 ≤ z ∧ z < 2 ^ 63) :
    (o.isize z).FailsOnly (OnlyOverflow o M) := by
  intro e he
  by_cases hz : -2 ^ 63 ≤ z ∧ z < 2 ^ 63
  · rw [isize_of_mem hz] at he
    cases he
  · rcases o with _ | _
    · have herror : Overflow.isize .panics z = .error .overflow := if_neg hz
      rw [herror] at he
      exact ⟨(Except.error.inj he).symm, rfl, mt h hz⟩
    · have hok : Overflow.isize .wraps z = .ok (z.bmod (2 ^ 64)) := if_neg hz
      rw [hok] at he
      cases he

theorem usize_failsOnly (h : M → n < 2 ^ 64) : (o.usize n).FailsOnly (OnlyOverflow o M) := by
  intro e he
  by_cases hn : n < 2 ^ 64
  · rw [usize_of_lt hn] at he
    cases he
  · rcases o with _ | _
    · have herror : Overflow.usize .panics n = .error .overflow := if_neg hn
      rw [herror] at he
      exact ⟨(Except.error.inj he).symm, rfl, mt h hn⟩
    · have hok : Overflow.usize .wraps n = .ok (n % 2 ^ 64) := if_neg hn
      rw [hok] at he
      cases he

theorem eq_of_isize (h : o.isize z = .ok v) (hz : -2 ^ 63 ≤ z ∧ z < 2 ^ 63) : v = z := by
  rw [isize_of_mem hz] at h
  exact (Except.ok.inj h).symm

end Overflow

/-- A screen that is not larger than any there is. -/
def FrameBufferInfo.Moderate (info : FrameBufferInfo) : Prop :=
  info.width < 2 ^ 62 ∧ info.height < 2 ^ 32

/-- A disc on such a screen. -/
structure NearDisc (cx cy r : ℤ) : Prop where
  /-- The centre is not far out. -/
  cx_mem : -2 ^ 62 ≤ cx ∧ cx < 2 ^ 62
  /-- Nor down. -/
  cy_mem : 0 ≤ cy ∧ cy < 2 ^ 32
  /-- And the radius is small. -/
  r_mem : 0 ≤ r ∧ r < 2 ^ 29

section Fails

variable {o : Overflow} {info : FrameBufferInfo} {cx cy r : ℤ}

theorem mul_self_lt {d : ℤ} (hr : 0 ≤ r ∧ r < 2 ^ 29) (hd : -r ≤ d ∧ d ≤ r) :
    0 ≤ d * d ∧ d * d < 2 ^ 58 := by
  refine ⟨mul_self_nonneg d, ?_⟩
  have hupper : 0 < 2 ^ 29 - d := by linarith
  have hlower : 0 < 2 ^ 29 + d := by linarith
  have hprod := mul_pos hupper hlower
  linarith [show (2 ^ 29 - d) * (2 ^ 29 + d) = 2 ^ 58 - d * d by ring]

theorem discPixel_failsOnly {M : Prop} {r2 dy x y : ℤ} (hr : M → 0 ≤ r ∧ r < 2 ^ 29)
    (hdx : M → -r ≤ x - cx ∧ x - cx ≤ r) (hdy : M → -r ≤ dy ∧ dy ≤ r) :
    (discPixel o cx r2 dy y x).FailsOnly (OnlyOverflow o M) := by
  refine (isize_failsOnly fun hM ↦ ?_).bind fun dx hdx' ↦ ?_
  · have := hr hM
    have := hdx hM
    omega
  have hdx₁ : M → -r ≤ dx ∧ dx ≤ r := by
    intro hM
    have := hr hM
    have := hdx hM
    rw [eq_of_isize hdx' (by omega)]
    exact hdx hM
  refine (isize_failsOnly fun hM ↦ ?_).bind fun dx2 hdx2 ↦ ?_
  · have := mul_self_lt (hr hM) (hdx₁ hM)
    omega
  refine (isize_failsOnly fun hM ↦ ?_).bind fun dy2 hdy2 ↦ ?_
  · have := mul_self_lt (hr hM) (hdy hM)
    omega
  refine (isize_failsOnly fun hM ↦ ?_).bind fun d2 _ ↦ .pure _
  have hx := mul_self_lt (hr hM) (hdx₁ hM)
  have hy := mul_self_lt (hr hM) (hdy hM)
  rw [eq_of_isize hdx2 (by omega), eq_of_isize hdy2 (by omega)]
  omega

theorem discRow_failsOnly {M : Prop} {width : ℕ} {r2 y : ℤ} (hdisc : M → NearDisc cx cy r)
    (hwidth : M → width < 2 ^ 62) (hdy : M → -r ≤ y - cy ∧ y - cy ≤ r) :
    (discRow o (asIsize width) cx cy r r2 y).FailsOnly (OnlyOverflow o M) := by
  have hr : M → 0 ≤ r ∧ r < 2 ^ 29 := fun hM ↦ (hdisc hM).r_mem
  have hcx : M → -2 ^ 62 ≤ cx ∧ cx < 2 ^ 62 := fun hM ↦ (hdisc hM).cx_mem
  refine (isize_failsOnly fun hM ↦ ?_).bind fun dy hdy' ↦ ?_
  · have := hr hM
    have := hdy hM
    omega
  refine (isize_failsOnly fun hM ↦ ?_).bind fun left hleft ↦ ?_
  · have := hr hM
    have := hcx hM
    omega
  refine (isize_failsOnly fun hM ↦ ?_).bind fun right hright ↦ ?_
  · have := hr hM
    have := hcx hM
    omega
  refine (isize_failsOnly fun hM ↦ ?_).bind fun last _ ↦ ?_
  · have := hwidth hM
    rw [asIsize_of_lt (by omega)]
    omega
  refine Except.FailsOnly.bind (.mapM fun x hx ↦ ?_) fun _ _ ↦ .pure _
  obtain ⟨hx0, hx1⟩ := mem_inclusive.mp hx
  refine discPixel_failsOnly hr (fun hM ↦ ?_) fun hM ↦ ?_
  · -- the bounds of the loop are exact
    have := hr hM
    have := hcx hM
    rw [eq_of_isize hleft (by omega)] at hx0
    rw [eq_of_isize hright (by omega)] at hx1
    omega
  · have := hr hM
    have := hdy hM
    rw [eq_of_isize hdy' (by omega)]
    exact hdy hM

/-- **`fill_circle` never indexes out of range**, and overflows on no moderate screen. -/
theorem disc_failsOnly (hdisc : info.Moderate → NearDisc cx cy r) :
    (disc o info cx cy r).FailsOnly (OnlyOverflow o info.Moderate) := by
  have hr : info.Moderate → 0 ≤ r ∧ r < 2 ^ 29 := fun hM ↦ (hdisc hM).r_mem
  have hcy : info.Moderate → 0 ≤ cy ∧ cy < 2 ^ 32 := fun hM ↦ (hdisc hM).cy_mem
  refine (isize_failsOnly fun hM ↦ ?_).bind fun r2 _ ↦ ?_
  · have := mul_self_lt (d := r) (hr hM) (by have := hr hM; omega)
    omega
  refine (isize_failsOnly fun hM ↦ ?_).bind fun top htop ↦ ?_
  · have := hr hM
    have := hcy hM
    omega
  refine (isize_failsOnly fun hM ↦ ?_).bind fun bottom hbottom ↦ ?_
  · have := hr hM
    have := hcy hM
    omega
  refine (isize_failsOnly fun hM ↦ ?_).bind fun last _ ↦ ?_
  · have := hM.2
    rw [asIsize_of_lt (by omega)]
    omega
  refine Except.FailsOnly.bind (.mapM fun y hy ↦ ?_) fun _ _ ↦ .pure _
  obtain ⟨hy0, hy1⟩ := mem_inclusive.mp hy
  refine discRow_failsOnly hdisc (fun hM ↦ hM.1) fun hM ↦ ?_
  have := hr hM
  have := hcy hM
  rw [eq_of_isize htop (by omega)] at hy0
  rw [eq_of_isize hbottom (by omega)] at hy1
  omega

end Fails

/-! ## Copying rows -/

/-- The bytes of some rows. -/
def rowRange (o : Overflow) (info : FrameBufferInfo) (y0 y1 : ℕ) : Except Fault (ℕ × ℕ) := do
  let rowBytes ← o.usize (info.stride * info.bytesPerPixel)
  let start ← o.usize (y0 * rowBytes)
  let next ← o.usize (y1 + 1)
  let stop ← o.usize (next * rowBytes)
  return (start, stop)

/-- The buffer with some bytes of another one. -/
def Buffer.showing (src : Buffer) (rng : ℕ × ℕ) (dst : Buffer) : Buffer :=
  { dst with byte := fun i ↦ if rng.1 ≤ i ∧ i < rng.2 then src.byte i else dst.byte i }

section Rows

variable {o : Overflow} {info : FrameBufferInfo} {c : Canvas} {fb : Buffer} {y0 y1 : ℕ}

theorem showing_of_mem {src dst : Buffer} {rng : ℕ × ℕ} {i : ℕ} (hi : rng.1 ≤ i ∧ i < rng.2) :
    (src.showing rng dst).byte i = src.byte i := if_pos hi

theorem showing_of_not_mem {src dst : Buffer} {rng : ℕ × ℕ} {i : ℕ}
    (hi : ¬(rng.1 ≤ i ∧ i < rng.2)) : (src.showing rng dst).byte i = dst.byte i := if_neg hi

theorem copyRange_eq {src dst : Buffer} {start stop : ℕ} (hle : start ≤ stop)
    (hdst : stop ≤ dst.size) (hsrc : stop ≤ src.size) :
    Canvas.copyRange src start stop dst = .ok (src.showing (start, stop) dst) :=
  if_pos ⟨hle, hdst, hsrc⟩

/-- The range of rows that are there. -/
theorem rowRange_of_lt (h : info.Valid) (hs : 0 < info.stride) (hy : y0 ≤ y1)
    (hy1 : y1 < info.height) :
    rowRange o info y0 y1 = .ok (y0 * info.rowBytes, (y1 + 1) * info.rowBytes) := by
  obtain ⟨-, hheight⟩ := Canvas.lt_of_stride_pos h hs
  have hend := FrameBufferInfo.row_le_byteLen h hy1
  have hlt := h.byteLen_lt
  have hrow : info.rowBytes ≤ (y1 + 1) * info.rowBytes :=
    Nat.le_mul_of_pos_left _ (Nat.succ_pos y1)
  have hstart : y0 * info.rowBytes ≤ (y1 + 1) * info.rowBytes :=
    Nat.mul_le_mul_right _ (Nat.le_succ_of_le hy)
  have hrowBytes : o.usize (info.stride * info.bytesPerPixel) = .ok info.rowBytes :=
    usize_of_lt (hrow.trans_lt (by omega))
  rw [rowRange, hrowBytes, Except.ok_bind, usize_of_lt (by omega), Except.ok_bind,
    usize_of_lt (by omega), Except.ok_bind, usize_of_lt (by omega)]
  rfl

/-- Rows without bytes. -/
theorem rowRange_of_stride_eq_zero (hzero : info.stride = 0) {rng : ℕ × ℕ}
    (h : rowRange o info y0 y1 = .ok rng) : rng = (0, 0) := by
  rw [rowRange, hzero, Nat.zero_mul, usize_of_lt (by decide), Except.ok_bind, Nat.mul_zero,
    usize_of_lt (by decide), Except.ok_bind] at h
  obtain ⟨next, -, h⟩ := Except.bind_eq_ok h
  rw [Nat.mul_zero, usize_of_lt (by decide)] at h
  exact (Except.ok.inj h).symm

theorem rowRange_le (h : info.Valid) (hy : 0 < info.stride → y0 ≤ y1 ∧ y1 < info.height)
    {rng : ℕ × ℕ} (hrng : rowRange o info y0 y1 = .ok rng) :
    rng.1 ≤ rng.2 ∧ rng.2 ≤ info.byteLen := by
  rcases Nat.eq_zero_or_pos info.stride with hzero | hpos
  · rw [rowRange_of_stride_eq_zero hzero hrng]
    exact ⟨Nat.le_refl 0, Nat.zero_le _⟩
  · obtain ⟨hle, hlt⟩ := hy hpos
    rw [rowRange_of_lt h hpos hle hlt] at hrng
    obtain rfl := Except.ok.inj hrng
    exact ⟨Nat.mul_le_mul_right _ (Nat.le_succ_of_le hle), FrameBufferInfo.row_le_byteLen h hlt⟩

/-- **`present_rows`** copies the range, which is never out of range. -/
theorem presentRows_eq (h : info.Valid) (hc : c.On info) (hfb : fb.size = info.byteLen)
    (hy : 0 < info.stride → y0 ≤ y1 ∧ y1 < info.height) :
    c.presentRows o y0 y1 fb = (rowRange o info y0 y1).map fun rng ↦ c.buf.showing rng fb := by
  have hstride : c.stride = info.stride := congrArg Canvas.stride hc.fields
  have hbpp : c.bpp = info.bytesPerPixel := congrArg Canvas.bpp hc.fields
  have hrange : c.presentRows o y0 y1 fb =
      rowRange o info y0 y1 >>= fun rng ↦ Canvas.copyRange c.buf rng.1 rng.2 fb := by
    rw [Canvas.presentRows, rowRange, hstride, hbpp]
    simp only [bind_assoc, pure_bind]
  rw [hrange]
  rcases hrng : rowRange o info y0 y1 with e | rng
  · rfl
  · obtain ⟨hle, hlen⟩ := rowRange_le h hy hrng
    exact copyRange_eq hle (hfb ▸ hlen) (hc.size ▸ hlen)

theorem rowRange_failsOnly (h : info.Valid) (hy : 0 < info.stride → y0 ≤ y1 ∧ y1 < info.height)
    (hmod : info.Moderate → y1 < 2 ^ 32) :
    (rowRange o info y0 y1).FailsOnly (OnlyOverflow o info.Moderate) := by
  rcases Nat.eq_zero_or_pos info.stride with hzero | hpos
  · rw [rowRange, hzero, Nat.zero_mul, usize_of_lt (by decide), Except.ok_bind, Nat.mul_zero,
      usize_of_lt (by decide), Except.ok_bind]
    refine (usize_failsOnly fun hM ↦ ?_).bind fun next _ ↦ ?_
    · have := hmod hM
      omega
    · rw [Nat.mul_zero, usize_of_lt (by decide)]
      exact .pure _
  · obtain ⟨hle, hlt⟩ := hy hpos
    rw [rowRange_of_lt h hpos hle hlt]
    exact .pure _

end Rows

end Punkos.Render
