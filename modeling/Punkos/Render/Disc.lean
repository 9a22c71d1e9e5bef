import Punkos.Render.Canvas

/-!
# What `fill_circle` paints

A circle may be anywhere: its centre off the screen, its radius zero or larger than the screen. The
loops of `fill_circle` run over the part of its bounding box that is on the canvas, and each pixel
is tested there.

`fill_circle_paints` compares the result with the disc itself. The pixels at a distance of at most
`r` from the centre get the colour, and no other byte changes: not those of other pixels, nor those
between the rows, nor those of a pixel that its format does not use. The canvas need not come from
a framebuffer, and it may have no rows at all.
-/

namespace Punkos.Render

/-- What `fill_circle` needs of its canvas. -/
structure Canvas.Sound (c : Canvas) : Prop where
  /-- Rows do not overlap. -/
  width_le : c.w ≤ c.stride
  /-- All rows are there. -/
  fits : c.h * c.stride * c.bpp ≤ c.buf.size
  /-- Pixels are large enough. -/
  channels_le : c.fmt.channels ≤ c.bpp
  /-- The largest `Vec`. -/
  size_lt : c.buf.size < 2 ^ 63

/-- Where a pixel of the canvas is. -/
def Canvas.offset (c : Canvas) (x y : ℕ) : ℕ := (y * c.stride + x) * c.bpp

/-- The pixel belongs to the disc. -/
def InDisc (cx cy r : ℤ) (x y : ℕ) : Prop := (x - cx) ^ 2 + (y - cy) ^ 2 ≤ r ^ 2

/-- The coordinates up to `r` from a centre that are on a canvas of this extent. -/
def clipped (extent : ℕ) (centre r : ℤ) : List ℤ :=
  inclusive (max (centre - r) 0) (min (centre + r) (asIsize extent - 1))

/-- The number is an `isize`. -/
def IsIsize (z : ℤ) : Prop := -2 ^ 63 ≤ z ∧ z < 2 ^ 63

instance (z : ℤ) : Decidable (IsIsize z) := inferInstanceAs (Decidable (_ ∧ _))

/-- No operation on `isize` in `fill_circle` overflows. -/
structure NoOverflow (w h : ℕ) (cx cy r : ℤ) : Prop where
  /-- `r2`. -/
  square : IsIsize (r * r)
  /-- The bounds of the outer loop. -/
  rows : IsIsize (cy - r) ∧ IsIsize (cy + r) ∧ IsIsize (asIsize h - 1)
  /-- `dy`, and the bounds of the inner loop. -/
  columns : ∀ y ∈ clipped h cy r,
    IsIsize (y - cy) ∧ IsIsize (cx - r) ∧ IsIsize (cx + r) ∧ IsIsize (asIsize w - 1)
  /-- `dx`, the two squares and their sum. -/
  pixel : ∀ y ∈ clipped h cy r, ∀ x ∈ clipped w cx r,
    IsIsize (x - cx) ∧ IsIsize ((x - cx) * (x - cx)) ∧ IsIsize ((y - cy) * (y - cy)) ∧
      IsIsize ((x - cx) * (x - cx) + (y - cy) * (y - cy))

/-! ## The pixels -/

section Pixels

variable {o : Overflow} {w h : ℕ} {cx cy r : ℤ}

/-- The pixel of a column and a row, if it belongs to the disc. -/
def pixelOf (cx cy r y x : ℤ) : List (ℕ × ℕ) :=
  if (x - cx) * (x - cx) + (y - cy) * (y - cy) ≤ r * r then [(asUsize x, asUsize y)] else []

/-- All pixels, as the loops find them. -/
def discPixels (w h : ℕ) (cx cy r : ℤ) : List (ℕ × ℕ) :=
  (clipped h cy r).flatMap fun y ↦ (clipped w cx r).flatMap (pixelOf cx cy r y)

theorem mem_clipped {n : ℕ} (hn : n < 2 ^ 63) {centre z : ℤ} :
    z ∈ clipped n centre r ↔ (centre - r ≤ z ∧ z ≤ centre + r) ∧ 0 ≤ z ∧ z < n := by
  rw [clipped, mem_inclusive, asIsize_of_lt hn]
  omega

/-- Without extent nothing is on the canvas. -/
theorem clipped_zero (centre r : ℤ) : clipped 0 centre r = [] := by
  apply List.eq_nil_iff_forall_not_mem.mpr
  intro z hz
  obtain ⟨-, hzero, hlt⟩ := (mem_clipped (by decide)).mp hz
  omega

theorem discPixel_eq (hno : NoOverflow w h cx cy r) {x y : ℤ} (hy : y ∈ clipped h cy r)
    (hx : x ∈ clipped w cx r) :
    discPixel o cx (r * r) (y - cy) y x = .ok (pixelOf cx cy r y x) := by
  obtain ⟨hdx, hdx2, hdy2, hd2⟩ := hno.pixel y hy x hx
  rw [discPixel, isize_of_mem hdx, Except.ok_bind, isize_of_mem hdx2, Except.ok_bind,
    isize_of_mem hdy2, Except.ok_bind, isize_of_mem hd2]
  rfl

theorem discRow_eq (hno : NoOverflow w h cx cy r) {y : ℤ} (hy : y ∈ clipped h cy r) :
    discRow o (asIsize w) cx cy r (r * r) y =
      .ok ((clipped w cx r).flatMap (pixelOf cx cy r y)) := by
  obtain ⟨hdy, hleft, hright, hlast⟩ := hno.columns y hy
  rw [discRow, isize_of_mem hdy, Except.ok_bind, isize_of_mem hleft, Except.ok_bind,
    isize_of_mem hright, Except.ok_bind, isize_of_mem hlast, Except.ok_bind]
  change ((clipped w cx r).mapM (discPixel o cx (r * r) (y - cy) y) >>= _) = _
  rw [mapM_of_ok fun x hx ↦ discPixel_eq hno hy hx, Except.ok_bind, List.flatMap_def]
  rfl

/-- Without overflow the disc consists of these pixels, in both kinds of build. -/
theorem disc_eq {info : FrameBufferInfo} (hno : NoOverflow info.width info.height cx cy r) :
    disc o info cx cy r = .ok (discPixels info.width info.height cx cy r) := by
  obtain ⟨htop, hbottom, hlast⟩ := hno.rows
  rw [disc, isize_of_mem hno.square, Except.ok_bind, isize_of_mem htop, Except.ok_bind,
    isize_of_mem hbottom, Except.ok_bind, isize_of_mem hlast, Except.ok_bind]
  change ((clipped info.height cy r).mapM (discRow o (asIsize info.width) cx cy r (r * r)) >>= _) =
    _
  rw [mapM_of_ok fun y hy ↦ discRow_eq hno hy, Except.ok_bind, discPixels, List.flatMap_def]
  rfl

/-- A number whose square is at most that of `r`. -/
theorem mem_of_sq_le {z : ℤ} (hr : 0 ≤ r) (hz : z ^ 2 ≤ r ^ 2) : -r ≤ z ∧ z ≤ r := by
  constructor
  · by_contra hlt
    nlinarith
  · by_contra hlt
    nlinarith

/-- A point of the disc is in its bounding box. -/
theorem InDisc.mem_box (hr : 0 ≤ r) {x y : ℕ} (hin : InDisc cx cy r x y) :
    (cx - r ≤ x ∧ x ≤ cx + r) ∧ cy - r ≤ y ∧ y ≤ cy + r := by
  have hdx : ((x : ℤ) - cx) ^ 2 ≤ r ^ 2 := by
    have := sq_nonneg ((y : ℤ) - cy)
    rw [InDisc] at hin
    linarith
  have hdy : ((y : ℤ) - cy) ^ 2 ≤ r ^ 2 := by
    have := sq_nonneg ((x : ℤ) - cx)
    rw [InDisc] at hin
    linarith
  obtain ⟨hx0, hx1⟩ := mem_of_sq_le hr hdx
  obtain ⟨hy0, hy1⟩ := mem_of_sq_le hr hdy
  omega

/-- **The pixels of the disc**, and no others. -/
theorem mem_discPixels (hsize : 0 < w → 0 < h → w < 2 ^ 63 ∧ h < 2 ^ 63) (hr : 0 ≤ r) {x y : ℕ} :
    (x, y) ∈ discPixels w h cx cy r ↔ (x < w ∧ y < h) ∧ InDisc cx cy r x y := by
  have hmem : (x, y) ∈ discPixels w h cx cy r ↔
      ∃ y' ∈ clipped h cy r, ∃ x' ∈ clipped w cx r,
        (x' - cx) * (x' - cx) + (y' - cy) * (y' - cy) ≤ r * r ∧
          x = asUsize x' ∧ y = asUsize y' := by
    simp only [discPixels, List.mem_flatMap, pixelOf, List.mem_ite_nil_right, List.mem_singleton,
      Prod.mk.injEq]
  rw [hmem]
  constructor
  · rintro ⟨y', hy', x', hx', hin, rfl, rfl⟩
    have hw : 0 < w := Nat.pos_of_ne_zero fun hzero ↦ by simp [hzero, clipped_zero] at hx'
    have hh : 0 < h := Nat.pos_of_ne_zero fun hzero ↦ by simp [hzero, clipped_zero] at hy'
    obtain ⟨hwlt, hhlt⟩ := hsize hw hh
    obtain ⟨-, hx0, hx1⟩ := (mem_clipped hwlt).mp hx'
    obtain ⟨-, hy0, hy1⟩ := (mem_clipped hhlt).mp hy'
    rw [asUsize_of_nonneg hx0 (by omega), asUsize_of_nonneg hy0 (by omega)]
    refine ⟨by omega, ?_⟩
    rw [InDisc, Int.toNat_of_nonneg hx0, Int.toNat_of_nonneg hy0, sq, sq, sq]
    exact hin
  · rintro ⟨⟨hx, hy⟩, hin⟩
    obtain ⟨hwlt, hhlt⟩ := hsize (Nat.zero_lt_of_lt hx) (Nat.zero_lt_of_lt hy)
    obtain ⟨hbox, hboy⟩ := hin.mem_box hr
    refine ⟨y, (mem_clipped hhlt).mpr ⟨hboy, by omega⟩, x, (mem_clipped hwlt).mpr
      ⟨hbox, by omega⟩, ?_, ?_, ?_⟩
    · rw [InDisc, sq, sq, sq] at hin
      exact hin
    · rw [asUsize_of_nonneg (by omega) (by omega), Int.toNat_natCast]
    · rw [asUsize_of_nonneg (by omega) (by omega), Int.toNat_natCast]

end Pixels

/-! ## The bytes -/

section Bytes

variable {info : FrameBufferInfo} {rgb : Rgb} {ps : List (ℕ × ℕ)} {i : ℕ}

theorem size_under (ls : List (Layer ℕ UInt8)) (buf : Buffer) :
    (buf.under ls).size = buf.size := rfl

theorem byte_under (ls : List (Layer ℕ UInt8)) (buf : Buffer) :
    (buf.under ls).byte = Layer.overlay ls buf.byte := rfl

theorem covers_pixelLayers : Layer.Covers (pixelLayers info rgb ps) i ↔
    ∃ p ∈ ps, info.offset p.1 p.2 ≤ i ∧ i < info.offset p.1 p.2 + info.pixelFormat.channels := by
  simp only [Layer.Covers, pixelLayers, List.mem_map, exists_exists_and_eq_and, isSome_pixelLayer]

/-- A pixel that has been put shows the colour. -/
theorem byte_pixelLayers (hbpp : info.pixelFormat.channels ≤ info.bytesPerPixel) (rgb : Rgb)
    {x y : ℕ} (hp : (x, y) ∈ ps) {k : ℕ} (hk : k < info.pixelFormat.channels) (f : ℕ → UInt8) :
    some (Layer.overlay (pixelLayers info rgb ps) f (info.offset x y + k)) =
      (info.pixelFormat.bytes rgb)[k]? := by
  have hlayers : pixelLayers info rgb ps = (ps.map fun p ↦ p.2 * info.stride + p.1).map fun c ↦
      pixelLayer info.pixelFormat rgb (c * info.bytesPerPixel) := by
    rw [List.map_map]
    rfl
  rw [hlayers]
  exact overlay_pixelLayer hbpp hk (List.mem_map_of_mem hp) rgb f

end Bytes

/-! ## The result -/

namespace Canvas

variable {c : Canvas}

/-- The canvas as the framebuffer it could belong to. -/
def info (c : Canvas) : FrameBufferInfo where
  byteLen := c.buf.size
  width := c.w
  height := c.h
  pixelFormat := c.fmt
  bytesPerPixel := c.bpp
  stride := c.stride

theorem on_info (c : Canvas) : c.On c.info := ⟨rfl, rfl⟩

theorem Sound.valid (hc : c.Sound) (hh : 0 < c.h) : c.info.Valid :=
  ⟨hh, hc.width_le, hc.fits, hc.channels_le, hc.size_lt⟩

/-- A canvas with pixels is small enough for `isize`. -/
theorem Sound.size_lt_of_pos (hc : c.Sound) (hw : 0 < c.w) (hh : 0 < c.h) :
    c.w < 2 ^ 63 ∧ c.h < 2 ^ 63 :=
  lt_of_stride_pos (hc.valid hh) (hw.trans_le hc.width_le)

variable {o : Overflow} {rgb : Rgb} {cx cy r : ℤ}

/-- Without rows there is nothing to do. -/
theorem fillCircle_of_h_eq_zero (hh : c.h = 0) (hno : NoOverflow c.w c.h cx cy r) :
    fillCircle o cx cy r rgb c = .ok c := by
  obtain ⟨htop, hbottom, hlast⟩ := hno.rows
  rw [fillCircle, isize_of_mem hno.square, Except.ok_bind, isize_of_mem htop, Except.ok_bind,
    isize_of_mem hbottom, Except.ok_bind, isize_of_mem hlast, Except.ok_bind]
  change (clipped c.h cy r).foldlM (fillRow o (asIsize c.w) cx cy r (r * r) rgb) c = _
  rw [hh, clipped_zero]
  rfl

/-- `fill_circle` succeeds, and puts the colour on the pixels of the disc. -/
theorem Sound.fillCircle_eq (hc : c.Sound) (hno : NoOverflow c.w c.h cx cy r) :
    fillCircle o cx cy r rgb c =
      .ok (c.under (pixelLayers c.info rgb (discPixels c.w c.h cx cy r))) := by
  rcases Nat.eq_zero_or_pos c.h with hh | hh
  · rw [fillCircle_of_h_eq_zero hh hno, hh, discPixels, clipped_zero]
    rfl
  · rw [Canvas.fillCircle_eq (hc.valid hh) c.on_info, disc_eq hno]
    rfl

/-- **`fill_circle` paints the disc.** On every canvas, for every centre, radius and colour for
which no operation on `isize` overflows, it succeeds with and without overflow checks. The pixels of
the disc have the colour then, and all other bytes are what they were. -/
theorem fill_circle_paints (o : Overflow) {c : Canvas} (hc : c.Sound) (rgb : Rgb) {cx cy r : ℤ}
    (hr : 0 ≤ r) (hno : NoOverflow c.w c.h cx cy r) :
    ∃ buf, fillCircle o cx cy r rgb c = .ok { c with buf } ∧ buf.size = c.buf.size ∧
      (∀ x < c.w, ∀ y < c.h, InDisc cx cy r x y → ∀ k < c.fmt.channels,
        some (buf.byte (c.offset x y + k)) = (c.fmt.bytes rgb)[k]?) ∧
      ∀ i, (∀ x < c.w, ∀ y < c.h, InDisc cx cy r x y →
          ¬(c.offset x y ≤ i ∧ i < c.offset x y + c.fmt.channels)) →
        buf.byte i = c.buf.byte i := by
  have hmem : ∀ x y, (x, y) ∈ discPixels c.w c.h cx cy r ↔
      (x < c.w ∧ y < c.h) ∧ InDisc cx cy r x y :=
    fun x y ↦ mem_discPixels hc.size_lt_of_pos hr
  have hchannels : c.info.pixelFormat.channels ≤ c.info.bytesPerPixel := hc.channels_le
  refine ⟨c.buf.under (pixelLayers c.info rgb (discPixels c.w c.h cx cy r)),
    hc.fillCircle_eq hno, size_under _ _, ?_, ?_⟩
  · intro x hx y hy hin k hk
    have hp : (x, y) ∈ discPixels c.w c.h cx cy r := (hmem x y).mpr ⟨⟨hx, hy⟩, hin⟩
    rw [byte_under]
    exact byte_pixelLayers hchannels rgb hp hk c.buf.byte
  · intro i hi
    rw [byte_under]
    apply Layer.overlay_of_not_covers
    rw [covers_pixelLayers]
    rintro ⟨⟨x, y⟩, hp, hcovers⟩
    obtain ⟨⟨hx, hy⟩, hin⟩ := (hmem x y).mp hp
    exact hi x hx y hy hin hcovers

/-- Four columns and three rows, two pixels between the rows and a spare byte in each pixel. -/
def sampleCanvas : Canvas where
  buf := ⟨72, fun _ ↦ 0⟩
  w := 4
  h := 3
  stride := 6
  bpp := 4
  fmt := .bgr

/-- A circle around a point to the left of the canvas. -/
theorem fill_circle_paints_sample :
    ∃ buf, fillCircle .panics (-1) 1 3 buildAcid sampleCanvas = .ok { sampleCanvas with buf } ∧
      buf.size = 72 ∧
      (∀ x < 4, ∀ y < 3, InDisc (-1) 1 3 x y → ∀ k < 3,
        some (buf.byte (sampleCanvas.offset x y + k)) =
          (PixelFormat.bytes .bgr buildAcid)[k]?) ∧
      ∀ i, (∀ x < 4, ∀ y < 3, InDisc (-1) 1 3 x y →
          ¬(sampleCanvas.offset x y ≤ i ∧ i < sampleCanvas.offset x y + 3)) →
        buf.byte i = 0 :=
  fill_circle_paints (c := sampleCanvas) .panics
    ⟨by decide, by decide, by decide, by decide⟩ buildAcid (by decide)
    ⟨by decide, by decide, by decide, by decide⟩

end Canvas

end Punkos.Render
