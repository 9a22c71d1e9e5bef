import Mathlib.Tactic.IntervalCases
import Punkos.Render.Animation
import Punkos.Render.Disc

/-!
# What is on the screen

The picture itself. `incremental_eq_repaint` compares two ways to paint it, and `fill_circle_paints`
is about one circle; here is which colour each visible pixel has after each turn of the loop.

Three discs lie side by side in the middle of the screen. The leader is in full acid, the two
others in paler versions of it, and everything else is Hardcore Black. Where discs overlap, the one
further right is on top; that happens on screens of fewer than 24 rows only, as the radius is then
less than two.
-/

namespace Punkos.Render

/-! ## The picture -/

/-- The column of the centre of a bubble. -/
def bubbleCentre (info : FrameBufferInfo) (i : ℕ) : ℤ :=
  info.width / 2 + (i - 1) * (info.height / 12 * 13 / 5)

/-- The pixel belongs to a bubble. -/
def InBubble (info : FrameBufferInfo) (x y i : ℕ) : Prop :=
  InDisc (bubbleCentre info i) (info.height / 2) (info.height / 12) x y

instance (info : FrameBufferInfo) (x y i : ℕ) : Decidable (InBubble info x y i) :=
  inferInstanceAs (Decidable (_ ≤ _))

/-- The colour of a pixel, when a bubble leads. -/
def picture (info : FrameBufferInfo) (lead x y : ℕ) : Rgb :=
  ([2, 1, 0].find? fun i ↦ InBubble info x y i).elim hardcoreBlack (bubbleColour lead)

/-! ## The geometry without overflow -/

section Geometry

variable {o : Overflow} {info : FrameBufferInfo} {cx cy r : ℤ}

theorem noOverflow_of_nearDisc (hM : info.Moderate) (hd : NearDisc cx cy r) :
    NoOverflow info.width info.height cx cy r := by
  obtain ⟨hwidth, hheight⟩ := hM
  obtain ⟨⟨hcx0, hcx1⟩, ⟨hcy0, hcy1⟩, hr⟩ := hd
  have hw : info.width < 2 ^ 63 := by omega
  have hh : info.height < 2 ^ 63 := by omega
  have hdist : ∀ {n : ℕ} (_ : n < 2 ^ 63) {c z : ℤ}, z ∈ clipped n c r →
      -r ≤ z - c ∧ z - c ≤ r := by
    intro n hn c z hz
    obtain ⟨hz, -⟩ := (mem_clipped hn).mp hz
    omega
  refine ⟨?_, ?_, fun y hy ↦ ?_, fun y hy x hx ↦ ?_⟩
  · have hsq := mul_self_lt (d := r) hr (by omega)
    exact ⟨by omega, by omega⟩
  · rw [asIsize_of_lt hh]
    exact ⟨⟨by omega, by omega⟩, ⟨by omega, by omega⟩, by omega, by omega⟩
  · have hdy := hdist hh hy
    rw [asIsize_of_lt hw]
    exact ⟨⟨by omega, by omega⟩, ⟨by omega, by omega⟩, ⟨by omega, by omega⟩, by omega, by omega⟩
  · have hdx := hdist hw hx
    have hdy := hdist hh hy
    have hx2 := mul_self_lt hr hdx
    have hy2 := mul_self_lt hr hdy
    exact ⟨⟨by omega, by omega⟩, ⟨by omega, by omega⟩, ⟨by omega, by omega⟩, by omega, by omega⟩

theorem bubbleCentre_zero (info : FrameBufferInfo) :
    bubbleCentre info 0 = info.width / 2 - info.height / 12 * 13 / 5 := by
  rw [bubbleCentre]
  push_cast
  ring

theorem bubbleCentre_one (info : FrameBufferInfo) : bubbleCentre info 1 = info.width / 2 := by
  rw [bubbleCentre]
  push_cast
  ring

theorem bubbleCentre_two (info : FrameBufferInfo) :
    bubbleCentre info 2 = info.width / 2 + info.height / 12 * 13 / 5 := by
  rw [bubbleCentre]
  push_cast
  ring

/-- `layout` on a moderate screen. -/
theorem layout_of_moderate (hM : info.Moderate) : layout o info =
    .ok ⟨[bubbleCentre info 0, bubbleCentre info 1, bubbleCentre info 2], info.height / 2,
      info.height / 12⟩ := by
  rcases hl : layout o info with e | l
  · exact absurd hM (layout_failsOnly e hl).2.2
  obtain ⟨hcy, hr⟩ := layout_of_lt hl (Moderate.lt hM).2
  obtain ⟨scaled, left, right, hscaled, hleft, hright, heq⟩ := layout_eq_ok hl
  obtain ⟨hwidth, hheight⟩ := hM
  rw [tdiv_asIsize (by omega)] at hscaled hleft hright
  have hscaled' := eq_of_isize hscaled (by omega)
  have hgap : scaled.tdiv 5 = info.height / 12 * 13 / 5 := by
    rw [hscaled']
    exact Int.tdiv_eq_ediv_of_nonneg (by omega)
  rw [hgap] at hleft hright
  have hleft' := eq_of_isize hleft (by omega)
  have hright' := eq_of_isize hright (by omega)
  rw [heq, tdiv_asIsize (by omega), tdiv_asIsize (by omega), tdiv_asIsize (by omega), hleft',
    hright']
  rw [bubbleCentre_zero, bubbleCentre_one, bubbleCentre_two]

/-- The discs of the bubbles on a moderate screen. -/
theorem nearDisc_bubble (hM : info.Moderate) {i : ℕ} (hi : i < 3) :
    NearDisc (bubbleCentre info i) (info.height / 2) (info.height / 12) := by
  have hnear := nearDisc_of_layout (o := .panics) (layout_of_moderate hM) hM
  apply hnear
  rcases i with _ | _ | _ | i
  · exact List.mem_cons_self
  · exact List.mem_cons_of_mem _ List.mem_cons_self
  · exact List.mem_cons_of_mem _ (List.mem_cons_of_mem _ List.mem_cons_self)
  · omega

/-- The pixels of a bubble. -/
def bubblePixels (info : FrameBufferInfo) (i : ℕ) : List (ℕ × ℕ) :=
  discPixels info.width info.height (bubbleCentre info i) (info.height / 2) (info.height / 12)

theorem mem_bubblePixels (hM : info.Moderate) (i : ℕ) {x y : ℕ} :
    (x, y) ∈ bubblePixels info i ↔ (x < info.width ∧ y < info.height) ∧ InBubble info x y i :=
  mem_discPixels (fun _ _ ↦ Moderate.lt hM) (by omega)

/-- All of them, with their numbers. -/
def bubbleMarks (info : FrameBufferInfo) : List (List (ℕ × ℕ) × ℕ) :=
  [0, 1, 2].map fun i ↦ (bubblePixels info i, i)

theorem marks_of_moderate (hM : info.Moderate) {l : Layout} (hl : layout o info = .ok l) :
    marks o info l = .ok (bubbleMarks info) := by
  rw [layout_of_moderate hM] at hl
  obtain rfl := Except.ok.inj hl
  have hdisc : ∀ i < 3, (disc o info (bubbleCentre info i) (info.height / 2)
      (info.height / 12)).map (fun ps ↦ (ps, i)) = .ok (bubblePixels info i, i) := by
    intro i hi
    rw [disc_eq (noOverflow_of_nearDisc hM (nearDisc_bubble hM hi))]
    rfl
  rw [marks]
  change List.mapM _ [(bubbleCentre info 0, 0), (bubbleCentre info 1, 1),
    (bubbleCentre info 2, 2)] = _
  rw [List.mapM_cons, List.mapM_cons, List.mapM_cons, List.mapM_nil, hdisc 0 (by decide),
    Except.ok_bind, hdisc 1 (by decide), Except.ok_bind, hdisc 2 (by decide)]
  rfl

end Geometry

/-! ## One pixel -/

section Pixel

variable {info : FrameBufferInfo} {x y k : ℕ}

/-- The picture shows a colour at a pixel. -/
def Shows (info : FrameBufferInfo) (f : ℕ → UInt8) (x y : ℕ) (rgb : Rgb) : Prop :=
  ∀ k < info.pixelFormat.channels,
    some (f (info.offset x y + k)) = (info.pixelFormat.bytes rgb)[k]?

/-- Pixels are where no other pixel is. -/
theorem offset_unique (h : info.Valid) {x' y' : ℕ} (hx : x < info.width) (hx' : x' < info.width)
    (hk : k < info.pixelFormat.channels) (hle : info.offset x' y' ≤ info.offset x y + k)
    (hlt : info.offset x y + k < info.offset x' y' + info.pixelFormat.channels) :
    x' = x ∧ y' = y := by
  have hchannels := h.channels_le
  have hwidth := h.width_le
  -- the byte lies in one pixel slot, and the slot in one row
  have hchunk : y' * info.stride + x' = y * info.stride + x :=
    chunk_unique (n := info.bytesPerPixel) (i := info.offset x y + k)
      ⟨hle, hlt.trans_le (Nat.add_le_add_left hchannels _)⟩
      ⟨Nat.le_add_right _ k, Nat.add_lt_add_left (hk.trans_le hchannels) _⟩
  have hrow : y' = y := by
    apply chunk_unique (n := info.stride) (i := y * info.stride + x)
    · rw [← hchunk]
      exact ⟨Nat.le_add_right _ _, Nat.add_lt_add_left (hx'.trans_le hwidth) _⟩
    · exact ⟨Nat.le_add_right _ _, Nat.add_lt_add_left (hx.trans_le hwidth) _⟩
  rw [hrow] at hchunk
  exact ⟨Nat.add_left_cancel hchunk, hrow⟩

theorem Canvas.buf_under (ls : List (Layer ℕ UInt8)) (c : Canvas) :
    (c.under ls).buf = c.buf.under ls := rfl

/-- A bubble on top of a picture. -/
theorem shows_pixelLayers (h : info.Valid) {ps : List (ℕ × ℕ)} (hps : ∀ p ∈ ps, p.1 < info.width)
    (hx : x < info.width) {f : ℕ → UInt8} {rgb base : Rgb} (hbase : Shows info f x y base) :
    Shows info (Layer.overlay (pixelLayers info rgb ps) f) x y
      (if (x, y) ∈ ps then rgb else base) := by
  intro k hk
  by_cases hp : (x, y) ∈ ps
  · rw [if_pos hp]
    exact byte_pixelLayers h.channels_le rgb hp hk f
  · rw [if_neg hp, Layer.overlay_of_not_covers]
    · exact hbase k hk
    · rw [covers_pixelLayers]
      rintro ⟨⟨x', y'⟩, hp', hle, hlt⟩
      obtain ⟨rfl, rfl⟩ := offset_unique h hx (hps _ hp') hk hle hlt
      exact hp hp'

/-- **The bubbles of a frame**: the last one that has the pixel shows. -/
theorem shows_markLayers (h : info.Valid) {ms : List (List (ℕ × ℕ) × ℕ)}
    (hms : ∀ m ∈ ms, ∀ p ∈ m.1, p.1 < info.width) (hx : x < info.width) (lead : ℕ)
    {f : ℕ → UInt8} {base : Rgb} (hbase : Shows info f x y base) :
    Shows info (Layer.overlay (markLayers info ms lead) f) x y
      (ms.foldl (fun rgb m ↦ if (x, y) ∈ m.1 then bubbleColour lead m.2 else rgb) base) := by
  induction ms generalizing f base with
  | nil => exact hbase
  | cons m ms ih =>
    obtain ⟨hm, hrest⟩ := List.forall_mem_cons.mp hms
    rw [markLayers, List.flatMap_cons, Layer.overlay_append]
    exact ih hrest (shows_pixelLayers h hm hx hbase)

/-- The three bubbles on black. -/
theorem shows_bubbles (h : info.Valid) (hM : info.Moderate) (hx : x < info.width)
    (hy : y < info.height) (lead : ℕ) {f : ℕ → UInt8} (hbase : Shows info f x y hardcoreBlack) :
    Shows info (Layer.overlay (markLayers info (bubbleMarks info) lead) f) x y
      (picture info lead x y) := by
  have hms : ∀ m ∈ bubbleMarks info, ∀ p ∈ m.1, p.1 < info.width := by
    rintro m hm ⟨x', y'⟩ hp
    obtain ⟨i, -, hi⟩ := List.mem_map.mp hm
    rw [← hi] at hp
    dsimp only at hp
    exact ((mem_bubblePixels hM i).mp hp).1.1
  have hmem : ∀ i, (x, y) ∈ bubblePixels info i ↔ InBubble info x y i := fun i ↦
    (mem_bubblePixels hM i).trans (and_iff_right ⟨hx, hy⟩)
  have hpicture : picture info lead x y = (bubbleMarks info).foldl
      (fun rgb m ↦ if (x, y) ∈ m.1 then bubbleColour lead m.2 else rgb) hardcoreBlack := by
    rw [bubbleMarks, List.foldl_map, picture]
    simp only [List.foldl_cons, List.foldl_nil, hmem]
    by_cases h2 : InBubble info x y 2
    · simp [h2]
    by_cases h1 : InBubble info x y 1
    · simp [h2, h1]
    by_cases h0 : InBubble info x y 0
    · simp [h2, h1, h0]
    · simp [h2, h1, h0]
  rw [hpicture]
  exact shows_markLayers h hms hx lead hbase

end Pixel

/-! ## The screen -/

section Screen

variable {info : FrameBufferInfo}

/-- From 24 rows on the bubbles are apart. -/
theorem inBubble_unique (hheight : 24 ≤ info.height) {x y i j : ℕ} (hi : i < 3) (hj : j < 3)
    (hini : InBubble info x y i) (hinj : InBubble info x y j) : i = j := by
  have hr : (0 : ℤ) ≤ info.height / 12 := by omega
  obtain ⟨hboxi, -⟩ := InDisc.mem_box hr hini
  obtain ⟨hboxj, -⟩ := InDisc.mem_box hr hinj
  by_contra hne
  have h0 := bubbleCentre_zero info
  have h1 := bubbleCentre_one info
  have h2 := bubbleCentre_two info
  -- the gap is more than the diameter
  have hgap : 2 * ((info.height : ℤ) / 12) < info.height / 12 * 13 / 5 := by omega
  interval_cases i <;> interval_cases j <;> omega

theorem picture_of_inBubble (hheight : 24 ≤ info.height) (lead : ℕ) {x y i : ℕ} (hi : i < 3)
    (hin : InBubble info x y i) : picture info lead x y = bubbleColour lead i := by
  have hfind : ([2, 1, 0].find? fun i ↦ InBubble info x y i) = some i := by
    have hsome : ([2, 1, 0].find? fun i ↦ InBubble info x y i).isSome := by
      rw [List.find?_isSome]
      refine ⟨i, ?_, by simpa using hin⟩
      interval_cases i <;> simp
    obtain ⟨j, hj⟩ := Option.isSome_iff_exists.mp hsome
    have hinj : InBubble info x y j := by simpa using List.find?_some hj
    have hlt : j < 3 := by
      have hmem := List.mem_of_find?_eq_some hj
      simp only [List.mem_cons, List.not_mem_nil, or_false] at hmem
      omega
    rw [hj, inBubble_unique hheight hlt hi hinj hin]
  rw [picture, hfind]
  rfl

/-- The leader is in full acid. -/
theorem bubbleColour_self {lead : ℕ} (h : lead < 3) : bubbleColour lead lead = buildAcid := by
  interval_cases lead <;> decide

theorem leader_lt (frame : UInt64) : leader frame < 3 := by
  rw [leader, UInt64.toNat_mod]
  exact Nat.mod_lt _ (by decide)

/-- What a turn of the loop leaves on the screen. -/
theorem Showing.shows {o : Overflow} {fb : Buffer} {p : Plan} {s : Animation} (h : info.Valid)
    (hM : info.Moderate) (hfb : fb.size = info.byteLen) (hp : plan o info = .ok p)
    (hs : Showing info p (.cleared info fb) s)
    (hframe : s.lastFrame ≠ (Animation.cleared info fb).lastFrame) {x y : ℕ} (hx : x < info.width)
    (hy : y < info.height) : Shows info s.fb.byte x y (picture info (leader s.lastFrame) x y) := by
  obtain ⟨l, -, -, -, hl, -, -, -, hms, -⟩ := plan_eq_ok hp
  rw [marks_of_moderate hM hl] at hms
  -- no visible byte depends on earlier frames
  have hsame := hs.sameColours h hfb hp hframe
  rw [← Except.ok.inj hms] at hsame
  have hblack : Shows info ((Canvas.new info).buf.under (clearLayers info)).byte x y
      hardcoreBlack := fun k hk ↦
    FrameBufferInfo.byte_fill h (Canvas.On.new info).size hx hy hk hardcoreBlack
  intro k hk
  have hin : info.offset x y + k < info.byteLen := by
    have hend := FrameBufferInfo.offset_le_byteLen h hx hy
    have hchannels := h.channels_le
    omega
  have hbubbles := shows_bubbles h hM hx hy (leader s.lastFrame) hblack k hk
  rw [hsame x hx y hy k hk, showing_of_mem ⟨Nat.zero_le _, hin⟩, Canvas.buf_under, byte_under,
    Canvas.buf_under]
  exact hbubbles

/-- **What is on the screen.** On every screen on which rows and pixels fit, and that is not larger
than any there is, the animation never fails, with and without overflow checks; and after each turn
of its loop, whatever the clock has said so far, each visible pixel shows the picture for the
current leader. From 24 rows on this is each bubble in its own colour; the leader's is full acid. -/
theorem screen_shows (o : Overflow) {info : FrameBufferInfo} (h : info.Valid) (hM : info.Moderate)
    {fb : Buffer} (hfb : fb.size = info.byteLen) (ticks : List UInt64) (now : UInt64) :
    let lead := leader (now / 12)
    (∃ s, render o info fb (ticks ++ [now]) = .ok s ∧
      ∀ x < info.width, ∀ y < info.height, Shows info s.fb.byte x y (picture info lead x y)) ∧
    (24 ≤ info.height → ∀ i < 3, ∀ x y, InBubble info x y i →
      picture info lead x y = bubbleColour lead i) ∧
    bubbleColour lead lead = buildAcid := by
  intro lead
  refine ⟨?_, fun hheight i hi x y ↦ picture_of_inBubble hheight lead hi,
    bubbleColour_self (leader_lt _)⟩
  -- the loop has turned at least once
  obtain ⟨t, rest, hcons⟩ := List.exists_cons_of_ne_nil (List.append_ne_nil_of_right_ne_nil ticks
    (List.cons_ne_nil now []))
  have hrender := render_eq (o := o) h hfb t rest
  rw [← hcons] at hrender
  rcases hp : plan o info with e | p
  · exact absurd hM (plan_failsOnly h e hp).2.2
  rw [hp] at hrender
  refine ⟨_, hrender, fun x hx y hy ↦ ?_⟩
  have hlast : ((ticks ++ [now]).foldl (Animation.next info p) (.cleared info fb)).lastFrame =
      now / 12 := Animation.lastFrame_foldl ticks now
  have hshowing : Showing info p (.cleared info fb) _ := Showing.start.foldl (ticks ++ [now])
  have hshows := hshowing.shows h hM hfb hp (hlast ▸ frame_ne_max now) hx hy
  rwa [hlast] at hshows

/-- Three frames on a screen of 640 by 480 pixels. -/
theorem vga_screen_shows :
    (∃ s, render .panics vga ⟨vga.byteLen, fun _ ↦ 0xFF⟩ ([0, 12] ++ [24]) = .ok s ∧
      ∀ x < 640, ∀ y < 480, Shows vga s.fb.byte x y (picture vga (leader (24 / 12)) x y)) ∧
    (24 ≤ 480 → ∀ i < 3, ∀ x y, InBubble vga x y i →
      picture vga (leader (24 / 12)) x y = bubbleColour (leader (24 / 12)) i) ∧
    bubbleColour (leader (24 / 12)) (leader (24 / 12)) = buildAcid :=
  screen_shows .panics vga_valid ⟨by decide, by decide⟩ rfl [0, 12] 24

end Screen

end Punkos.Render
