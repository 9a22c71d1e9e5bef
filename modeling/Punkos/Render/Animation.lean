import Punkos.Render.Canvas

/-!
# The animation

`render::run` shows three bubbles, one of them the leader, and moves the leader on. It clears its
back buffer once, draws only the bubbles in each frame, and copies only the rows they occupy to the
framebuffer, which `kernel_main` has cleared.

`incremental_eq_repaint` says that this is as good as painting everything anew. Three things make
it so. The pixels of the bubbles are the same in every frame, so a new frame hides the old one,
also where bubbles overlap. They lie in the rows that are copied. And in the other rows both
buffers have been cleared to the same colour.
-/

namespace Punkos.Render

/-- `STAGGER`. -/
def stagger : List ℕ := [255, 153, 76]

/-- `blend`. No sum goes above 65025, so `u16` is wide enough. -/
def blend (fg bg : Rgb) (opacity : ℕ) : Rgb :=
  let mix : UInt8 → UInt8 → UInt8 := fun a b ↦
    UInt8.ofNat ((a.toNat * opacity + b.toNat * (255 - opacity)) / 255)
  (mix fg.1 bg.1, mix fg.2.1 bg.2.1, mix fg.2.2 bg.2.2)

/-- `Layout`. -/
structure Layout where
  /-- The columns of the centres. -/
  centers : List ℤ
  /-- Their row. -/
  cy : ℤ
  /-- The radius. -/
  r : ℤ

section Model

variable (o : Overflow) (info : FrameBufferInfo)

/-- `layout`. -/
def layout : Except Fault Layout := do
  let w := asIsize info.width
  let h := asIsize info.height
  let r := h.tdiv 12
  let scaled ← o.isize (r * 13)
  let gap := scaled.tdiv 5
  let cx := w.tdiv 2
  let cy := h.tdiv 2
  let left ← o.isize (cx - gap)
  let right ← o.isize (cx + gap)
  return ⟨[left, cx, right], cy, r⟩

/-- The body of the loop of `draw`. The leader is 0, 1 or 2, so nothing goes below zero. -/
def drawBubble (l : Layout) (lead : ℕ) (c : Canvas) (e : ℤ × ℕ) : Except Fault Canvas :=
  match stagger[(3 + e.2 - lead) % 3]? with
  | some opacity => c.fillCircle o e.1 l.cy l.r (blend buildAcid hardcoreBlack opacity)
  | none => .error .index

/-- `draw`. -/
def draw (l : Layout) (lead : ℕ) (c : Canvas) : Except Fault Canvas :=
  l.centers.zipIdx.foldlM (drawBubble o l lead) c

/-- What `run` has in its hands. -/
structure Animation where
  /-- `fb`. -/
  fb : Buffer
  /-- `canvas`. -/
  canvas : Canvas
  /-- `last_frame`. -/
  lastFrame : UInt64

/-- The leader in a frame. -/
def leader (frame : UInt64) : ℕ := (frame % 3).toNat

/-- One turn of the loop of `run`, for a reading of the clock. -/
def frameStep (l : Layout) (band0 band1 : ℕ) (s : Animation) (ticks : UInt64) :
    Except Fault Animation :=
  let frame := ticks / 12
  if frame ≠ s.lastFrame then do
    let canvas ← draw o l (leader frame) s.canvas
    let fb ← canvas.presentRows o band0 band1 s.fb
    return ⟨fb, canvas, frame⟩
  else return s

/-- `run`, for the readings of the clock in its first turns. -/
def run (fb : Buffer) (ticks : List UInt64) : Except Fault Animation := do
  let canvas ← (Canvas.new info).clear hardcoreBlack
  let l ← layout o info
  let top ← o.isize (l.cy - l.r)
  let bottom ← o.isize (l.cy + l.r)
  let last ← o.isize (asIsize info.height - 1)
  let band0 := asUsize (max top 0)
  let band1 := asUsize (min bottom last)
  ticks.foldlM (frameStep o l band0 band1) ⟨fb, canvas, UInt64.ofNat (2 ^ 64 - 1)⟩

/-- `kernel_main`: clear the framebuffer, and then run. -/
def render (fb : Buffer) (ticks : List UInt64) : Except Fault Animation := do
  let fb ← clear info hardcoreBlack fb
  run o info fb ticks

/-- Painting from scratch: clear everything, draw the bubbles, copy the whole buffer. -/
def repaint (fb : Buffer) (lead : ℕ) : Except Fault Buffer := do
  let canvas ← (Canvas.new info).clear hardcoreBlack
  let l ← layout o info
  let canvas ← draw o l lead canvas
  Canvas.copyRange canvas.buf 0 info.byteLen fb

end Model

/-! ## The layers of a frame -/

/-- The colour of a bubble. -/
def bubbleColour (lead i : ℕ) : Rgb :=
  blend buildAcid hardcoreBlack (stagger[(3 + i - lead) % 3]?.getD 0)

/-- The pixels of the bubbles, with the number of the bubble. -/
def marks (o : Overflow) (info : FrameBufferInfo) (l : Layout) :
    Except Fault (List (List (ℕ × ℕ) × ℕ)) :=
  l.centers.zipIdx.mapM fun e ↦ (disc o info e.1 l.cy l.r).map fun ps ↦ (ps, e.2)

/-- Their layers. -/
def markLayers (info : FrameBufferInfo) (ms : List (List (ℕ × ℕ) × ℕ)) (lead : ℕ) :
    List (Layer ℕ UInt8) :=
  ms.flatMap fun m ↦ pixelLayers info (bubbleColour lead m.2) m.1

section Layers

variable {o : Overflow} {info : FrameBufferInfo} {c : Canvas} {l : Layout}
  {ms : List (List (ℕ × ℕ) × ℕ)}

theorem drawBubble_eq (h : info.Valid) (hc : c.On info) (lead : ℕ) (e : ℤ × ℕ) :
    drawBubble o l lead c e = ((disc o info e.1 l.cy l.r).map fun ps ↦ (ps, e.2)).map fun m ↦
      c.under (pixelLayers info (bubbleColour lead m.2) m.1) := by
  have hstep : (3 + e.2 - lead) % 3 < stagger.length := Nat.mod_lt _ (by decide)
  have hopacity : stagger[(3 + e.2 - lead) % 3]? =
      some (stagger[(3 + e.2 - lead) % 3]?.getD 0) := by
    rw [List.getElem?_eq_getElem hstep]
    rfl
  rw [drawBubble, hopacity]
  apply (Canvas.fillCircle_eq h hc e.1 l.cy l.r).trans
  rcases disc o info e.1 l.cy l.r with _ | ps <;> rfl

/-- **`draw`** puts the layers of the bubbles on top. -/
theorem draw_eq (h : info.Valid) (hc : c.On info) (lead : ℕ) :
    draw o l lead c = (marks o info l).map fun ms ↦ c.under (markLayers info ms lead) := by
  have hloop := foldlM_eq_map_mapM (I := fun c : Canvas ↦ c.On info) (f := drawBubble o l lead)
    (d := fun c (m : List (ℕ × ℕ) × ℕ) ↦ c.under (pixelLayers info (bubbleColour lead m.2) m.1))
    l.centers.zipIdx (fun c m hc ↦ hc.under _) (fun c hc e _ ↦ drawBubble_eq h hc lead e) hc
  apply hloop.trans
  rw [← marks]
  rcases marks o info l with _ | ms
  · rfl
  · exact congrArg Except.ok (Canvas.foldl_under _ ms c)

theorem covers_markLayers {lead i : ℕ} : Layer.Covers (markLayers info ms lead) i ↔
    ∃ m ∈ ms, ∃ p ∈ m.1, info.offset p.1 p.2 ≤ i ∧
      i < info.offset p.1 p.2 + info.pixelFormat.channels := by
  unfold Layer.Covers markLayers pixelLayers
  simp only [List.mem_flatMap, List.mem_map]
  constructor
  · rintro ⟨layer, ⟨m, hm, p, hp, rfl⟩, hsome⟩
    exact ⟨m, hm, p, hp, isSome_pixelLayer.mp hsome⟩
  · rintro ⟨m, hm, p, hp, hi⟩
    exact ⟨_, ⟨m, hm, p, hp, rfl⟩, isSome_pixelLayer.mpr hi⟩

/-- **A new frame hides the old one**, whoever leads. -/
theorem under_markLayers (c : Canvas) (lead lead' : ℕ) :
    (c.under (markLayers info ms lead)).under (markLayers info ms lead') =
      c.under (markLayers info ms lead') := by
  have hcovers : ∀ i, Layer.Covers (markLayers info ms lead) i →
      Layer.Covers (markLayers info ms lead') i :=
    fun i hi ↦ covers_markLayers.mpr (covers_markLayers.mp hi)
  have hhide := Layer.overlay_overlay hcovers c.buf.byte
  exact congrArg (fun byte ↦ { c with buf := { c.buf with byte := byte } }) hhide

end Layers

/-! ## Frames, once the geometry is known -/

/-- What does not change from frame to frame. -/
structure Plan where
  /-- The pixels of the bubbles. -/
  ms : List (List (ℕ × ℕ) × ℕ)
  /-- The bytes that are copied. -/
  rng : ℕ × ℕ

/-- The part of the plan that a frame computes. -/
def framePlan (o : Overflow) (info : FrameBufferInfo) (l : Layout) (band0 band1 : ℕ) :
    Except Fault Plan := do
  let ms ← marks o info l
  let rng ← rowRange o info band0 band1
  return ⟨ms, rng⟩

/-- A turn of the loop, by the plan. -/
def Animation.next (info : FrameBufferInfo) (p : Plan) (s : Animation) (ticks : UInt64) :
    Animation :=
  let frame := ticks / 12
  if frame ≠ s.lastFrame then
    let canvas := s.canvas.under (markLayers info p.ms (leader frame))
    ⟨canvas.buf.showing p.rng s.fb, canvas, frame⟩
  else s

/-- The buffers have the right layout. -/
structure Animation.On (info : FrameBufferInfo) (s : Animation) : Prop where
  /-- The back buffer. -/
  canvas : s.canvas.On info
  /-- The framebuffer. -/
  fb : s.fb.size = info.byteLen

section Frames

variable {o : Overflow} {info : FrameBufferInfo} {l : Layout} {band0 band1 : ℕ} {s : Animation}

theorem Animation.next_of_ne {p : Plan} {ticks : UInt64} (hframe : ticks / 12 ≠ s.lastFrame) :
    s.next info p ticks =
      ⟨(s.canvas.under (markLayers info p.ms (leader (ticks / 12)))).buf.showing
      p.rng s.fb, s.canvas.under (markLayers info p.ms (leader (ticks / 12))), ticks / 12⟩ :=
  if_pos hframe

theorem Animation.next_of_eq {p : Plan} {ticks : UInt64} (hframe : ¬ticks / 12 ≠ s.lastFrame) :
    s.next info p ticks = s :=
  if_neg hframe

theorem Animation.On.next (hs : s.On info) (p : Plan) (ticks : UInt64) :
    (s.next info p ticks).On info := by
  by_cases hframe : ticks / 12 ≠ s.lastFrame
  · rw [Animation.next_of_ne hframe]
    exact ⟨hs.canvas.under _, hs.fb⟩
  · rw [Animation.next_of_eq hframe]
    exact hs

/-- **One turn**: the plan, if it is needed, and then nothing can fail. -/
theorem frameStep_eq (h : info.Valid) (hs : s.On info)
    (hband : 0 < info.stride → band0 ≤ band1 ∧ band1 < info.height) {ticks : UInt64}
    (hframe : ticks / 12 ≠ s.lastFrame) :
    frameStep o l band0 band1 s ticks =
      (framePlan o info l band0 band1).map fun p ↦ s.next info p ticks := by
  have hdraw := draw_eq (o := o) (l := l) h hs.canvas (leader (ticks / 12))
  rw [frameStep, if_pos hframe, hdraw, framePlan]
  rcases marks o info l with e | ms
  · rfl
  have hcanvas := hs.canvas.under (markLayers info ms (leader (ticks / 12)))
  have hpresent := presentRows_eq (o := o) h hcanvas hs.fb hband
  change (Canvas.presentRows o _ band0 band1 s.fb >>= _) = _
  rw [hpresent, Except.ok_bind]
  rcases rowRange o info band0 band1 with e | rng
  · rfl
  · exact congrArg Except.ok (Animation.next_of_ne (p := ⟨ms, rng⟩) hframe).symm

theorem frameStep_of_framePlan (h : info.Valid)
    (hband : 0 < info.stride → band0 ≤ band1 ∧ band1 < info.height) {p : Plan}
    (hp : framePlan o info l band0 band1 = .ok p) (hs : s.On info) (ticks : UInt64) :
    frameStep o l band0 band1 s ticks = .ok (s.next info p ticks) := by
  by_cases hframe : ticks / 12 ≠ s.lastFrame
  · rw [frameStep_eq h hs hband hframe, hp]
    rfl
  · rw [frameStep, if_neg hframe, Animation.next_of_eq hframe]
    rfl

/-- **All turns**, the first of which draws a frame. -/
theorem frames_eq (h : info.Valid) (hs : s.On info)
    (hband : 0 < info.stride → band0 ≤ band1 ∧ band1 < info.height) {ticks : UInt64}
    (hframe : ticks / 12 ≠ s.lastFrame) (rest : List UInt64) :
    (ticks :: rest).foldlM (frameStep o l band0 band1) s =
      (framePlan o info l band0 band1).map fun p ↦
        (ticks :: rest).foldl (Animation.next info p) s := by
  rcases hp : framePlan o info l band0 band1 with e | p
  · rw [List.foldlM_cons, frameStep_eq h hs hband hframe, hp]
    rfl
  · exact foldlM_of_ok (fun s ticks hs ↦ hs.next p ticks)
      (fun s ticks hs ↦ frameStep_of_framePlan h hband hp hs ticks) (ticks :: rest) hs

end Frames

/-! ## The geometry -/

section Geometry

variable {o : Overflow} {info : FrameBufferInfo} {l : Layout} {top bottom last : ℤ}

/-- What `layout` computes. -/
theorem layout_eq_ok (h : layout o info = .ok l) :
    ∃ scaled left right, o.isize ((asIsize info.height).tdiv 12 * 13) = .ok scaled ∧
      o.isize ((asIsize info.width).tdiv 2 - scaled.tdiv 5) = .ok left ∧
      o.isize ((asIsize info.width).tdiv 2 + scaled.tdiv 5) = .ok right ∧
      l = ⟨[left, (asIsize info.width).tdiv 2, right], (asIsize info.height).tdiv 2,
        (asIsize info.height).tdiv 12⟩ := by
  rw [layout] at h
  obtain ⟨scaled, hscaled, h⟩ := Except.bind_eq_ok h
  obtain ⟨left, hleft, h⟩ := Except.bind_eq_ok h
  obtain ⟨right, hright, h⟩ := Except.bind_eq_ok h
  exact ⟨scaled, left, right, hscaled, hleft, hright, (Except.ok.inj h).symm⟩

theorem tdiv_asIsize {n : ℕ} (h : n < 2 ^ 63) (d : ℤ) : (asIsize n).tdiv d = n / d := by
  rw [asIsize_of_lt h]
  exact Int.tdiv_eq_ediv_of_nonneg (Int.natCast_nonneg n)

/-- Row and radius on a screen whose height `isize` can say. -/
theorem layout_of_lt (h : layout o info = .ok l) (hheight : info.height < 2 ^ 63) :
    l.cy = info.height / 2 ∧ l.r = info.height / 12 := by
  obtain ⟨scaled, left, right, -, -, -, hl⟩ := layout_eq_ok h
  rw [hl, tdiv_asIsize hheight, tdiv_asIsize hheight]
  exact ⟨rfl, rfl⟩

/-- The band that is copied lies on the screen. -/
theorem band_mem (h : info.Valid) (hheight : info.height < 2 ^ 63) (hl : layout o info = .ok l)
    (htop : o.isize (l.cy - l.r) = .ok top) (hbottom : o.isize (l.cy + l.r) = .ok bottom)
    (hlast : o.isize (asIsize info.height - 1) = .ok last) :
    0 ≤ max top 0 ∧ max top 0 ≤ min bottom last ∧ min bottom last < info.height := by
  obtain ⟨hcy, hr⟩ := layout_of_lt hl hheight
  have hpos := h.height_pos
  rw [hcy, hr] at htop hbottom
  rw [asIsize_of_lt hheight] at hlast
  have htop' := eq_of_isize htop (by omega)
  have hbottom' := eq_of_isize hbottom (by omega)
  have hlast' := eq_of_isize hlast (by omega)
  omega

theorem Moderate.lt (hM : info.Moderate) : info.width < 2 ^ 63 ∧ info.height < 2 ^ 63 :=
  ⟨hM.1.trans (by decide), hM.2.trans (by decide)⟩

/-- The gap between the bubbles. -/
theorem gap_mem (hM : info.Moderate) {scaled : ℤ}
    (hscaled : o.isize ((asIsize info.height).tdiv 12 * 13) = .ok scaled) :
    0 ≤ scaled.tdiv 5 ∧ scaled.tdiv 5 < 2 ^ 32 := by
  have hheight := hM.2
  rw [tdiv_asIsize (Moderate.lt hM).2] at hscaled
  rw [eq_of_isize hscaled (by omega), Int.tdiv_eq_ediv_of_nonneg (by omega)]
  omega

/-- On a moderate screen `layout` does not overflow. -/
theorem layout_failsOnly : (layout o info).FailsOnly (OnlyOverflow o info.Moderate) := by
  rw [layout]
  refine (isize_failsOnly fun hM ↦ ?_).bind fun scaled hscaled ↦ ?_
  · have := hM.2
    rw [tdiv_asIsize (Moderate.lt hM).2]
    omega
  refine (isize_failsOnly fun hM ↦ ?_).bind fun left _ ↦ ?_
  · have := hM.1
    have := gap_mem hM hscaled
    rw [tdiv_asIsize (Moderate.lt hM).1]
    omega
  refine (isize_failsOnly fun hM ↦ ?_).bind fun right _ ↦ .pure _
  have := hM.1
  have := gap_mem hM hscaled
  rw [tdiv_asIsize (Moderate.lt hM).1]
  omega

/-- On a moderate screen the bubbles are where arithmetic is exact. -/
theorem nearDisc_of_layout (hl : layout o info = .ok l) (hM : info.Moderate) :
    ∀ cx ∈ l.centers, NearDisc cx l.cy l.r := by
  obtain ⟨hcy, hr⟩ := layout_of_lt hl (Moderate.lt hM).2
  obtain ⟨scaled, left, right, hscaled, hleft, hright, hl⟩ := layout_eq_ok hl
  have hwidth := hM.1
  have hheight := hM.2
  have hgap := gap_mem hM hscaled
  rw [tdiv_asIsize (Moderate.lt hM).1] at hleft hright
  have hleft' := eq_of_isize hleft (by omega)
  have hright' := eq_of_isize hright (by omega)
  intro cx hcx
  refine ⟨?_, by omega, by omega⟩
  rw [hl, tdiv_asIsize (Moderate.lt hM).1] at hcx
  simp only [List.mem_cons, List.not_mem_nil, or_false] at hcx
  rcases hcx with rfl | rfl | rfl <;> omega

theorem marks_failsOnly (hl : layout o info = .ok l) :
    (marks o info l).FailsOnly (OnlyOverflow o info.Moderate) := by
  refine .mapM fun e he ↦ (disc_failsOnly fun hM ↦ ?_).map _
  have hmem : e.1 ∈ l.centers := List.fst_mem_of_mem_zipIdx he
  exact nearDisc_of_layout hl hM e.1 hmem

/-- Every pixel of the bubbles lies on the screen and in the band. -/
theorem mem_marks (h : info.Valid) (hs : 0 < info.stride)
    (htop : o.isize (l.cy - l.r) = .ok top) (hbottom : o.isize (l.cy + l.r) = .ok bottom)
    (hlast : o.isize (asIsize info.height - 1) = .ok last) {ms : List (List (ℕ × ℕ) × ℕ)}
    (hms : marks o info l = .ok ms) {m : List (ℕ × ℕ) × ℕ} (hm : m ∈ ms) {p : ℕ × ℕ}
    (hp : p ∈ m.1) :
    p.1 < info.width ∧ ∃ y, max top 0 ≤ y ∧ y ≤ min bottom last ∧ p.2 = asUsize y := by
  obtain ⟨e, -, he⟩ := exists_of_mem_mapM hms hm
  rcases hdisc : disc o info e.1 l.cy l.r with err | ps
  · rw [hdisc] at he
    cases he
  · rw [hdisc] at he
    obtain rfl : (ps, e.2) = m := Except.ok.inj he
    exact mem_disc (Canvas.lt_of_stride_pos h hs).1 htop hbottom hlast hdisc hp

end Geometry

/-! ## The whole run -/

/-- The layers of a cleared buffer. -/
def clearLayers (info : FrameBufferInfo) : List (Layer ℕ UInt8) :=
  (List.range (info.byteLen / info.bytesPerPixel)).map fun i ↦
    pixelLayer info.pixelFormat hardcoreBlack (i * info.bytesPerPixel)

/-- Both buffers cleared, and no frame drawn. -/
def Animation.cleared (info : FrameBufferInfo) (fb : Buffer) : Animation :=
  ⟨fb.under (clearLayers info), (Canvas.new info).under (clearLayers info),
    UInt64.ofNat (2 ^ 64 - 1)⟩

/-- The plan. -/
def plan (o : Overflow) (info : FrameBufferInfo) : Except Fault Plan := do
  let l ← layout o info
  let top ← o.isize (l.cy - l.r)
  let bottom ← o.isize (l.cy + l.r)
  let last ← o.isize (asIsize info.height - 1)
  framePlan o info l (asUsize (max top 0)) (asUsize (min bottom last))

section Run

variable {o : Overflow} {info : FrameBufferInfo} {fb : Buffer} {l : Layout} {top bottom last : ℤ}

theorem frame_ne_max (ticks : UInt64) : ticks / 12 ≠ UInt64.ofNat (2 ^ 64 - 1) := by
  intro heq
  have hnat := congrArg UInt64.toNat heq
  have hlt := ticks.toNat_lt
  have hmax : (UInt64.ofNat (2 ^ 64 - 1)).toNat = 2 ^ 64 - 1 := by decide
  have h12 : (12 : UInt64).toNat = 12 := by decide
  rw [UInt64.toNat_div, hmax, h12] at hnat
  omega

theorem Animation.On.cleared (hfb : fb.size = info.byteLen) :
    (Animation.cleared info fb).On info :=
  ⟨(Canvas.On.new info).under _, hfb⟩

/-- The band, in rows of the slice. -/
theorem band_usize (h : info.Valid) (hl : layout o info = .ok l)
    (htop : o.isize (l.cy - l.r) = .ok top) (hbottom : o.isize (l.cy + l.r) = .ok bottom)
    (hlast : o.isize (asIsize info.height - 1) = .ok last) (hheight : info.height < 2 ^ 63) :
    asUsize (max top 0) ≤ asUsize (min bottom last) ∧ asUsize (min bottom last) < info.height := by
  obtain ⟨h0, h1, h2⟩ := band_mem h hheight hl htop hbottom hlast
  rw [asUsize_of_nonneg h0 (by omega), asUsize_of_nonneg (h0.trans h1) (by omega)]
  omega

/-- **The run**: first the plan, which may fail, and then the frames, which may not. -/
theorem render_eq (h : info.Valid) (hfb : fb.size = info.byteLen) (ticks : UInt64)
    (rest : List UInt64) :
    render o info fb (ticks :: rest) =
      (plan o info).map fun p ↦ (ticks :: rest).foldl (Animation.next info p)
        (.cleared info fb) := by
  have hclear : clear info hardcoreBlack fb = .ok (fb.under (clearLayers info)) := by
    rw [clear, fill_eq h.channels_le, hfb]
    rfl
  have hcanvas := Canvas.clear_eq h (Canvas.On.new info) hardcoreBlack
  rw [render, hclear, Except.ok_bind, run, hcanvas, Except.ok_bind]
  refine Except.bind_eq_map_bind fun l hl ↦ Except.bind_eq_map_bind fun top htop ↦
    Except.bind_eq_map_bind fun bottom hbottom ↦ Except.bind_eq_map_bind fun last hlast ↦ ?_
  exact frames_eq h (.cleared hfb) (fun hs ↦ band_usize h hl htop hbottom hlast
    (Canvas.lt_of_stride_pos h hs).2) (frame_ne_max ticks) rest

theorem plan_failsOnly (h : info.Valid) :
    (plan o info).FailsOnly (OnlyOverflow o info.Moderate) := by
  apply layout_failsOnly.bind
  intro l hl
  have hmem : info.Moderate → l.cy = info.height / 2 ∧ l.r = info.height / 12 := fun hM ↦
    layout_of_lt hl (Moderate.lt hM).2
  refine (isize_failsOnly fun hM ↦ ?_).bind fun top htop ↦ ?_
  · have := hM.2
    have := hmem hM
    omega
  refine (isize_failsOnly fun hM ↦ ?_).bind fun bottom hbottom ↦ ?_
  · have := hM.2
    have := hmem hM
    omega
  refine (isize_failsOnly fun hM ↦ ?_).bind fun last hlast ↦ ?_
  · have := hM.2
    rw [asIsize_of_lt (Moderate.lt hM).2]
    omega
  refine (marks_failsOnly hl).bind fun ms _ ↦ Except.FailsOnly.bind ?_ fun rng _ ↦ .pure _
  refine rowRange_failsOnly h (fun hs ↦ band_usize h hl htop hbottom hlast
    (Canvas.lt_of_stride_pos h hs).2) fun hM ↦ ?_
  exact (band_usize h hl htop hbottom hlast (Moderate.lt hM).2).2.trans hM.2

end Run

/-! ## What is on the screen -/

/-- What holds between frames: drawing over the back buffer is as good as drawing over a cleared
one, the framebuffer is cleared outside the band, and once there is a frame, the back buffer holds
it and the band shows it. -/
structure Showing (info : FrameBufferInfo) (p : Plan) (s₀ s : Animation) : Prop where
  /-- The old frame will be hidden. -/
  hidden : ∀ lead, s.canvas.under (markLayers info p.ms lead) =
    s₀.canvas.under (markLayers info p.ms lead)
  /-- Nothing is copied elsewhere. -/
  outside : ∀ i, ¬(p.rng.1 ≤ i ∧ i < p.rng.2) → s.fb.byte i = s₀.fb.byte i
  /-- The frame. -/
  drawn : s.lastFrame ≠ s₀.lastFrame →
    s.canvas = s₀.canvas.under (markLayers info p.ms (leader s.lastFrame)) ∧
      ∀ i, p.rng.1 ≤ i ∧ i < p.rng.2 → s.fb.byte i = s.canvas.buf.byte i

section Showing

variable {o : Overflow} {info : FrameBufferInfo} {fb : Buffer} {p : Plan} {s₀ s : Animation}

theorem Showing.start : Showing info p s₀ s₀ :=
  ⟨fun _ ↦ rfl, fun _ _ ↦ rfl, fun hne ↦ absurd rfl hne⟩

theorem Animation.lastFrame_next (ticks : UInt64) :
    (s.next info p ticks).lastFrame = ticks / 12 := by
  by_cases hframe : ticks / 12 ≠ s.lastFrame
  · rw [Animation.next_of_ne hframe]
  · rw [Animation.next_of_eq hframe]
    exact (not_not.mp hframe).symm

/-- **Step lemma.** -/
theorem Showing.next (hs : Showing info p s₀ s) (ticks : UInt64) :
    Showing info p s₀ (s.next info p ticks) := by
  by_cases hframe : ticks / 12 ≠ s.lastFrame
  · rw [Animation.next_of_ne hframe]
    refine ⟨fun lead ↦ ?_, fun i hi ↦ ?_, fun _ ↦ ⟨hs.hidden _, fun i hi ↦ ?_⟩⟩
    · exact (under_markLayers s.canvas _ lead).trans (hs.hidden lead)
    · exact (showing_of_not_mem hi).trans (hs.outside i hi)
    · exact showing_of_mem hi
  · rw [Animation.next_of_eq hframe]
    exact hs

/-- **Run lemma.** -/
theorem Showing.foldl (ticks : List UInt64) (hs : Showing info p s₀ s) :
    Showing info p s₀ (ticks.foldl (Animation.next info p) s) := by
  induction ticks generalizing s with
  | nil => exact hs
  | cons t ticks ih => exact ih (hs.next t)

/-- The pieces of a plan. -/
theorem plan_eq_ok (hp : plan o info = .ok p) : ∃ l top bottom last, layout o info = .ok l ∧
    o.isize (l.cy - l.r) = .ok top ∧ o.isize (l.cy + l.r) = .ok bottom ∧
    o.isize (asIsize info.height - 1) = .ok last ∧ marks o info l = .ok p.ms ∧
    rowRange o info (asUsize (max top 0)) (asUsize (min bottom last)) = .ok p.rng := by
  obtain ⟨l, hl, hp⟩ := Except.bind_eq_ok hp
  obtain ⟨top, htop, hp⟩ := Except.bind_eq_ok hp
  obtain ⟨bottom, hbottom, hp⟩ := Except.bind_eq_ok hp
  obtain ⟨last, hlast, hp⟩ := Except.bind_eq_ok hp
  obtain ⟨ms, hms, hp⟩ := Except.bind_eq_ok hp
  obtain ⟨rng, hrng, hp⟩ := Except.bind_eq_ok hp
  obtain rfl : ⟨ms, rng⟩ = p := Except.ok.inj hp
  exact ⟨l, top, bottom, last, hl, htop, hbottom, hlast, hms, hrng⟩

/-- **The bubbles lie in the band.** -/
theorem mem_rng_of_covers (h : info.Valid) (hs : 0 < info.stride) (hp : plan o info = .ok p)
    {lead i : ℕ} (hi : Layer.Covers (markLayers info p.ms lead) i) :
    p.rng.1 ≤ i ∧ i < p.rng.2 := by
  obtain ⟨l, top, bottom, last, hl, htop, hbottom, hlast, hms, hrng⟩ := plan_eq_ok hp
  obtain ⟨m, hm, q, hq, hle, hlt⟩ := covers_markLayers.mp hi
  obtain ⟨hx, y, hy0, hy1, hqy⟩ := mem_marks h hs htop hbottom hlast hms hm hq
  have hheight := (Canvas.lt_of_stride_pos h hs).2
  obtain ⟨h0, h1, h2⟩ := band_mem h hheight hl htop hbottom hlast
  obtain ⟨hband, hband1⟩ := band_usize h hl htop hbottom hlast hheight
  rw [rowRange_of_lt h hs hband hband1] at hrng
  obtain ⟨hstart, hstop⟩ := Prod.mk.inj (Except.ok.inj hrng)
  obtain ⟨hrow, hrow1⟩ := FrameBufferInfo.offset_mem_row (y := q.2) h hx
  have hq0 : asUsize (max top 0) ≤ q.2 := by
    rw [hqy, asUsize_of_nonneg h0 (by omega), asUsize_of_nonneg (h0.trans hy0) (by omega)]
    omega
  have hq1 : q.2 ≤ asUsize (min bottom last) := by
    rw [hqy, asUsize_of_nonneg (h0.trans h1) (by omega), asUsize_of_nonneg (h0.trans hy0)
      (by omega)]
    omega
  constructor
  · calc p.rng.1 = asUsize (max top 0) * info.rowBytes := hstart.symm
      _ ≤ q.2 * info.rowBytes := Nat.mul_le_mul_right _ hq0
      _ ≤ info.offset q.1 q.2 := hrow
      _ ≤ i := hle
  · calc i < info.offset q.1 q.2 + info.pixelFormat.channels := hlt
      _ ≤ info.offset q.1 q.2 + info.bytesPerPixel := Nat.add_le_add_left h.channels_le _
      _ ≤ (q.2 + 1) * info.rowBytes := hrow1
      _ ≤ (asUsize (min bottom last) + 1) * info.rowBytes :=
        Nat.mul_le_mul_right _ (Nat.succ_le_succ hq1)
      _ = p.rng.2 := hstop

/-- Painting from scratch, by the plan. -/
theorem repaint_of_plan (h : info.Valid) (hfb : fb.size = info.byteLen) (hp : plan o info = .ok p)
    (lead : ℕ) : repaint o info fb lead =
      .ok ((((Canvas.new info).under (clearLayers info)).under
        (markLayers info p.ms lead)).buf.showing
        (0, info.byteLen) fb) := by
  obtain ⟨l, -, -, -, hl, -, -, -, hms, -⟩ := plan_eq_ok hp
  have hcanvas := Canvas.clear_eq h (Canvas.On.new info) hardcoreBlack
  have hon := (Canvas.On.new info).under (clearLayers info)
  have hdraw := draw_eq (o := o) (l := l) h hon lead
  rw [hms] at hdraw
  rw [repaint, hcanvas, Except.ok_bind, hl, Except.ok_bind]
  change (draw o l lead ((Canvas.new info).under (clearLayers info)) >>= _) = _
  rw [hdraw]
  exact copyRange_eq (Nat.zero_le _) (Nat.le_of_eq hfb.symm) (Nat.le_refl _)

theorem Animation.lastFrame_foldl (ticks : List UInt64) (now : UInt64) :
    ((ticks ++ [now]).foldl (Animation.next info p) s).lastFrame = now / 12 := by
  rw [List.foldl_append, List.foldl_cons, List.foldl_nil, Animation.lastFrame_next]

/-- Once there is a frame, the screen shows what painting from scratch would. -/
theorem Showing.sameColours (h : info.Valid) (hfb : fb.size = info.byteLen)
    (hp : plan o info = .ok p) (hs : Showing info p (.cleared info fb) s)
    (hframe : s.lastFrame ≠ (Animation.cleared info fb).lastFrame) :
    SameColours info s.fb ((((Canvas.new info).under (clearLayers info)).under
      (markLayers info p.ms (leader s.lastFrame))).buf.showing (0, info.byteLen) fb) := by
  intro x hx y hy k hk
  have hstride : 0 < info.stride := (Nat.zero_lt_of_lt hx).trans_le h.width_le
  have hin : info.offset x y + k < info.byteLen := by
    have hend := FrameBufferInfo.offset_le_byteLen h hx hy
    have hchannels := h.channels_le
    omega
  obtain ⟨hcanvas, hband⟩ := hs.drawn hframe
  refine Eq.trans ?_ (showing_of_mem ⟨Nat.zero_le _, hin⟩).symm
  by_cases hrng : p.rng.1 ≤ info.offset x y + k ∧ info.offset x y + k < p.rng.2
  · -- the band shows the frame
    rw [hband _ hrng, hcanvas]
    rfl
  · -- elsewhere both are black
    have hcovers : ¬Layer.Covers (markLayers info p.ms (leader s.lastFrame))
        (info.offset x y + k) :=
      mt (mem_rng_of_covers h hstride hp) hrng
    have hblack := FrameBufferInfo.byte_fill h hfb hx hy hk hardcoreBlack
    have hblack' := FrameBufferInfo.byte_fill h (Canvas.On.new info).size hx hy hk hardcoreBlack
    rw [hs.outside _ hrng]
    refine Eq.trans ?_ (Layer.overlay_of_not_covers hcovers).symm
    refine Option.some.inj ((Eq.trans ?_ hblack).trans hblack'.symm)
    rw [hfb]
    rfl

end Showing

/-- **Incremental drawing is as good as painting everything anew.** For every geometry in which
rows and pixels fit, and for all readings of the clock: after every turn of the loop the visible
pixels are those of a repaint for the current leader. Nothing fails, except arithmetic if overflow
is checked and the screen is larger than any there is; in particular no slice index is out of
range. -/
theorem incremental_eq_repaint (o : Overflow) {info : FrameBufferInfo} (h : info.Valid)
    {fb : Buffer} (hfb : fb.size = info.byteLen) (ticks : List UInt64) (now : UInt64) :
    (render o info fb (ticks ++ [now])).FailsOnly
        (fun e ↦ e = .overflow ∧ o = .panics ∧ ¬info.Moderate) ∧
      ∀ s, render o info fb (ticks ++ [now]) = .ok s →
        ∃ whole, repaint o info fb (leader (now / 12)) = .ok whole ∧
          SameColours info s.fb whole := by
  obtain ⟨t, rest, hcons⟩ := List.exists_cons_of_ne_nil (List.append_ne_nil_of_right_ne_nil ticks
    (List.cons_ne_nil now []))
  have hrender := render_eq (o := o) h hfb t rest
  rw [← hcons] at hrender
  rw [hrender]
  refine ⟨(plan_failsOnly h).map _, fun s hs ↦ ?_⟩
  rcases hp : plan o info with e | p
  · rw [hp] at hs
    cases hs
  rw [hp] at hs
  obtain rfl := Except.ok.inj hs
  have hlast : ((ticks ++ [now]).foldl (Animation.next info p) (.cleared info fb)).lastFrame =
      now / 12 := Animation.lastFrame_foldl ticks now
  have hshowing : Showing info p (.cleared info fb) _ := Showing.start.foldl (ticks ++ [now])
  have hsame := hshowing.sameColours h hfb hp (hlast ▸ frame_ne_max now)
  rw [hlast] at hsame
  exact ⟨_, repaint_of_plan h hfb hp _, hsame⟩

/-- A framebuffer of 640 by 480 pixels of four bytes, with rows of 656. -/
def vga : FrameBufferInfo := ⟨480 * 656 * 4, 640, 480, .bgr, 4, 656⟩

theorem vga_valid : vga.Valid := ⟨by decide, by decide, by decide, by decide, by decide⟩

/-- Three frames on it, with overflow checks. -/
theorem vga_incremental_eq_repaint :
    ∃ s whole, render .panics vga ⟨vga.byteLen, fun _ ↦ 0xFF⟩ ([0, 12] ++ [24]) = .ok s ∧
      repaint .panics vga ⟨vga.byteLen, fun _ ↦ 0xFF⟩ (leader (24 / 12)) = .ok whole ∧
      SameColours vga s.fb whole := by
  have hfb : (⟨vga.byteLen, fun _ ↦ 0xFF⟩ : Buffer).size = vga.byteLen := rfl
  obtain ⟨hfails, hshows⟩ := incremental_eq_repaint .panics vga_valid hfb [0, 12] 24
  rcases hrun : render .panics vga ⟨vga.byteLen, fun _ ↦ 0xFF⟩ ([0, 12] ++ [24]) with e | s
  · have hmoderate : vga.Moderate := ⟨by decide, by decide⟩
    exact absurd hmoderate (hfails e hrun).2.2
  · obtain ⟨whole, hwhole, hsame⟩ := hshows s hrun
    exact ⟨s, whole, rfl, hwhole, hsame⟩

end Punkos.Render
