import Punkos.Xhci.Lifecycle

/-!
# The discipline of bring-up

An xHCI controller may be configured only while it is halted and ready, and it may be handed a
pointer only to memory that is there. `bring_up_disciplined` shows that `Controller::init` keeps to
this with every lawful controller, whatever state the firmware left it in and however long its
transitions take, in runs that end and in runs that do not; and that a run with room on the heap
does end, with the controller running and holding what the driver meant it to hold.

The proof follows the five steps of `init`. Up to the reset nothing needs to be known about the
controller, because nothing but USBCMD is written; the reset makes it halted and ready; and from
there to the start it cannot move.
-/

namespace Punkos

open Command

namespace Observed

variable {D : Device}

/-! ## Memory -/

/-- The words from `base` on lie in a live block and hold `w`. -/
def Stored (s : Observed D) (base n : ℕ) (w : ℕ → BitVec 64) : Prop :=
  ∃ b ∈ s.machine.live, ∀ i < n, b.Contains (base + 8 * i) ∧ s.mem (base + 8 * i) = some (w i)

/-- Blocks that are live in `s` are live in `t`, and hold the same. -/
def Keeps (s t : Observed D) : Prop :=
  ∀ b ∈ s.machine.live, b ∈ t.machine.live ∧ ∀ v, b.Contains v → t.mem v = s.mem v

theorem Keeps.refl (s : Observed D) : Keeps s s := fun _ hb ↦ ⟨hb, fun _ _ ↦ rfl⟩

theorem Keeps.trans {s t u : Observed D} (h : Keeps s t) (h' : Keeps t u) : Keeps s u := by
  intro b hb
  obtain ⟨hbt, hmem⟩ := h b hb
  obtain ⟨hbu, hmem'⟩ := h' b hbt
  exact ⟨hbu, fun v hv ↦ (hmem' v hv).trans (hmem v hv)⟩

theorem Keeps.of_eq {s t : Observed D} (hlive : t.machine.live = s.machine.live)
    (hmem : t.mem = s.mem) : Keeps s t := by
  intro b hb
  exact ⟨hlive ▸ hb, fun v _ ↦ congrFun hmem v⟩

theorem Stored.keeps {s t : Observed D} {base n : ℕ} {w : ℕ → BitVec 64} (h : Stored s base n w)
    (hst : Keeps s t) : Stored t base n w := by
  obtain ⟨b, hb, hwords⟩ := h
  obtain ⟨hbt, hmem⟩ := hst b hb
  exact ⟨b, hbt, fun i hi ↦ ⟨(hwords i hi).1, (hmem _ (hwords i hi).1).trans (hwords i hi).2⟩⟩

/-- Memory is written, and nothing else happens: the words from `base` on become `w`. -/
structure Filled (s t : Observed D) (base n : ℕ) (w : ℕ → BitVec 64) : Prop where
  /-- Nothing but memory changes. -/
  machine : t.machine = s.machine
  /-- No register is written. -/
  log : t.log = s.log
  /-- The words. -/
  words : ∀ i < n, t.mem (base + 8 * i) = some (w i)
  /-- The other words stay. -/
  others : ∀ v, (∀ i < n, v ≠ base + 8 * i) → t.mem v = s.mem v

/-- One more word. -/
theorem Filled.store {s t : Observed D} {base n : ℕ} {w : ℕ → BitVec 64}
    (h : Filled s t base n w) :
    ∃ u, Observed.store (base + 8 * n) (w n) t = (some (), u) ∧ Filled s u base (n + 1) w := by
  refine ⟨_, rfl, ⟨h.machine, h.log, fun i hi ↦ ?_, fun v hv ↦ ?_⟩⟩
  · by_cases heq : i = n
    · rw [heq]
      exact Function.update_self _ _ _
    · have hne : base + 8 * i ≠ base + 8 * n := by omega
      exact (Function.update_of_ne hne _ _).trans (h.words i (by omega))
  · have hne : v ≠ base + 8 * n := hv n (Nat.lt_succ_self n)
    exact (Function.update_of_ne hne _ _).trans (h.others v fun i hi ↦ hv i (Nat.lt_succ_of_lt hi))

theorem Filled.nil (s : Observed D) (base : ℕ) (w : ℕ → BitVec 64) : Filled s s base 0 w :=
  ⟨rfl, rfl, fun i hi ↦ absurd hi (Nat.not_lt_zero i), fun _ _ ↦ rfl⟩

theorem zeroWords_filled (s : Observed D) (base n : ℕ) :
    ∃ t, zeroWords base n s = (some (), t) ∧ Filled s t base n fun _ ↦ 0 := by
  induction n with
  | zero => exact ⟨s, rfl, .nil s base _⟩
  | succ n ih =>
    obtain ⟨t, hrun, hfilled⟩ := ih
    obtain ⟨u, hstore, hfilled'⟩ := hfilled.store
    refine ⟨u, ?_, hfilled'⟩
    rw [zeroWords, bind_of_some hrun]
    exact hstore

section Alloc

variable {P : Platform} (hP : AllocContract P.alloc)

/-- A new block, filled from its first aligned word on, disturbs no other. -/
structure NewBlock (s t : Observed D) (base n : ℕ) (w : ℕ → BitVec 64) : Prop where
  /-- The controller is not involved. -/
  dev : t.machine.dev = s.machine.dev
  /-- No register is written. -/
  log : t.log = s.log
  /-- The other blocks stay as they are. -/
  keeps : Keeps s t
  /-- The block holds the words. -/
  stored : Stored t base n w

include hP

theorem NewBlock.of_alloc {s t u : Observed D} {n ptr : ℕ} {w : ℕ → BitVec 64}
    (halloc : alloc P (8 * n + 64) 64 s = (some ptr, t)) (hfill : Filled t u (align64 ptr) n w) :
    NewBlock s u (align64 ptr) n w := by
  have hsim : s.machine.alloc P (8 * n + 64) 64 = some (ptr, t.machine) :=
    (simulates_alloc (8 * n + 64) 64).eq_some halloc
  obtain ⟨hptr, hm⟩ := Machine.alloc_eq_some hsim
  have ht : t = { s with machine := t.machine, mem := s.mem.forget ptr (8 * n + 64) } := by
    rw [alloc, hsim] at halloc
    exact (congrArg Prod.snd halloc).symm
  have hlive : u.machine.live = ⟨ptr, 8 * n + 64⟩ :: s.machine.live := by
    rw [hfill.machine, hm]
  have hle : ptr ≤ align64 ptr ∧ align64 ptr < ptr + 64 := by
    rw [align64]
    omega
  have hin : ∀ i < n, (Block.mk ptr (8 * n + 64)).Contains (align64 ptr + 8 * i) := by
    intro i hi
    refine ⟨?_, ?_⟩
    · change ptr ≤ align64 ptr + 8 * i
      omega
    · change align64 ptr + 8 * i < ptr + (8 * n + 64)
      omega
  refine ⟨by rw [hfill.machine, hm], ?_, fun b hb ↦ ⟨?_, fun v hv ↦ ?_⟩, ?_⟩
  · rw [hfill.log, ht]
  · rw [hlive]
    exact List.mem_cons_of_mem _ hb
  · -- what a live block contains, the new one does not
    have hout : ¬(ptr ≤ v ∧ v < ptr + (8 * n + 64)) := hP.disjoint _ _ _ _ hptr b hb v hv
    rw [hfill.others v fun i hi heq ↦ hout (heq ▸ hin i hi), ht]
    exact if_neg hout
  · refine ⟨_, hlive ▸ List.mem_cons_self, fun i hi ↦ ⟨hin i hi, hfill.words i hi⟩⟩

/-- **Allocate, fill, translate**: the beginning of each of the driver's constructors. -/
theorem newBlock_ensures {β : Type} {s : Observed D} {n : ℕ} {w : ℕ → BitVec 64}
    {fill : ℕ → Command (Observed D) Unit} {k : ℕ → BitVec 64 → Command (Observed D) β}
    {Q : β → Observed D → Prop} {S : Observed D → Prop}
    (hfill : ∀ ptr t, ∃ u, fill ptr t = (some (), u) ∧ Filled t u (align64 ptr) n w)
    (hS : ∀ t, t.log = s.log → S t)
    (hk : ∀ ptr phys u, NewBlock s u (align64 ptr) n w → P.translate (align64 ptr) = some phys →
      (k ptr phys).Ensures u Q S) :
    (do
      let ptr ← alloc P (8 * n + 64) 64
      fill ptr
      let phys ← translate P (align64 ptr)
      k ptr phys : Command (Observed D) β).Ensures s Q S := by
  rcases halloc : alloc P (8 * n + 64) 64 s with ⟨_ | ptr, t⟩
  · refine .of_stuck (bind_of_none halloc) (hS t ?_)
    rw [alloc] at halloc
    rcases hm : s.machine.alloc P (8 * n + 64) 64 with _ | ⟨ptr, m⟩ <;> rw [hm] at halloc <;>
      cases halloc
    rfl
  obtain ⟨u, hrun, hfilled⟩ := hfill ptr t
  have hnew := NewBlock.of_alloc hP halloc hfilled
  rcases hphys : P.translate (align64 ptr) with _ | phys
  · refine .of_stuck ?_ (hS u hnew.log)
    rw [bind_of_some halloc, bind_of_some hrun, bind_of_none (t := u)]
    rw [translate, hphys]
  · have hcont := hk ptr phys u hnew hphys
    have heq : (do
        let ptr ← alloc P (8 * n + 64) 64
        fill ptr
        let phys ← translate P (align64 ptr)
        k ptr phys : Command (Observed D) β) s = k ptr phys u := by
      rw [bind_of_some halloc, bind_of_some hrun, bind_of_some (a := phys) (t := u)]
      rw [translate, hphys]
    exact ⟨fun a t h ↦ hcont.returns a t (heq ▸ h), fun t h ↦ hcont.stuck t (heq ▸ h)⟩

theorem newRing_ensures {s : Observed D} {S : Observed D → Prop}
    (hS : ∀ t, t.log = s.log → S t) :
    (newRing P 256 ⟨8, rfl⟩).Ensures s
      (fun ring t ↦ NewBlock s t ring.base 512 (fun _ ↦ 0) ∧ 64 ∣ ring.base ∧
        P.translate ring.base = some ring.phys)
      S :=
  newBlock_ensures (n := 512) hP (fun ptr t ↦ zeroWords_filled t (align64 ptr) 512) hS
    fun ptr _ _ hnew hphys ↦ .pure ⟨hnew, dvd_align64 ptr, hphys⟩

theorem newDcbaa_ensures {s : Observed D} {S : Observed D → Prop} (maxSlots : BitVec 8)
    (hS : ∀ t, t.log = s.log → S t) :
    (newDcbaa P maxSlots).Ensures s
      (fun dcbaa t ↦ NewBlock s t dcbaa.base (maxSlots.toNat + 1) (fun _ ↦ 0) ∧
        64 ∣ dcbaa.base ∧ P.translate dcbaa.base = some dcbaa.phys) S := by
  have hsize : (maxSlots.toNat + 1) * 8 = 8 * (maxSlots.toNat + 1) := Nat.mul_comm _ 8
  rw [newDcbaa]
  simp only [hsize]
  exact newBlock_ensures hP (fun ptr t ↦ zeroWords_filled t (align64 ptr) _) hS
    fun ptr _ _ hnew hphys ↦ .pure ⟨hnew, dvd_align64 ptr, hphys⟩

/-- The two words of a segment table entry. -/
def entryWords (entry : ErstEntry) : ℕ → BitVec 64
  | 0 => entry.ringBase
  | _ => entry.ringSize.setWidth 64

theorem allocateErst_ensures {s : Observed D} {S : Observed D → Prop} (ring : Ring)
    (hS : ∀ t, t.log = s.log → S t) :
    (allocateErst P ring).Ensures s
      (fun phys t ↦ ∃ base, P.translate base = some phys ∧
        NewBlock s t base 2 (entryWords ⟨ring.phys, BitVec.ofNat 16 ring.trbs.length⟩)) S := by
  refine newBlock_ensures (n := 2) hP (fun ptr t ↦ ?_) hS fun ptr phys u hnew hphys ↦
    .of_eq (t := { u with machine := { u.machine with
      erst := Function.update u.machine.erst phys
        (some ⟨ring.phys, BitVec.ofNat 16 ring.trbs.length⟩) } }) rfl
    ⟨align64 ptr, hphys, ⟨hnew.dev, hnew.log, hnew.keeps, hnew.stored⟩⟩
  obtain ⟨u, hu, hfilled⟩ := (Filled.nil t (align64 ptr)
    (entryWords ⟨ring.phys, BitVec.ofNat 16 ring.trbs.length⟩)).store
  obtain ⟨v, hv, hfilled'⟩ := hfilled.store
  exact ⟨v, (bind_of_some hu).trans hv, hfilled'⟩

end Alloc

end Observed

/-! ## Room for what is written -/

/-- Multiples of 64 are translated to multiples of 64. -/
def Platform.KeepsAlignment (P : Platform) : Prop :=
  ∀ v phys, P.translate v = some phys → 64 ∣ v → 64 ∣ phys.toNat

theorem kernelPlatform_keepsAlignment (tables : PhysMem) (cr3 : PhysFrame)
    (alloc : List Block → ℕ → ℕ → Option ℕ) : (kernelPlatform tables cr3 alloc).KeepsAlignment :=
  fun _ _ h hv ↦ dvd_translate h hv

theorem low_eq_zero_of_dvd {phys : BitVec 64} (h : 64 ∣ phys.toNat) :
    phys.setWidth 32 &&& 0x3F = 0 := by
  have hmask : (0x3F : BitVec 32).toNat = 2 ^ 6 - 1 := rfl
  apply BitVec.eq_of_toNat_eq
  rw [BitVec.toNat_and, BitVec.toNat_setWidth, hmask, Nat.and_two_pow_sub_one_eq_mod]
  change _ = 0
  omega

theorem fits_config (slots : BitVec 8) : Fits Reg.config (slots.setWidth 32) := by
  have hdiv : slots.toNat % 2 ^ 32 / 2 ^ 8 = 0 := by
    have hlt := slots.isLt
    omega
  have hclear : slots.setWidth 32 &&& ~~~BitField.low 32 8 = 0 := by
    apply BitVec.eq_of_toNat_eq
    rw [BitField.toNat_and_not_low, BitVec.toNat_setWidth, hdiv]
    rfl
  exact hclear

theorem fits_low {r : Mmio} (hr : r ∈ [Reg.dcbaapLow, Reg.erstbaLow, Reg.erdpLow])
    {phys : BitVec 64} (h : 64 ∣ phys.toNat) : Fits r (phys.setWidth 32) := by
  have hlow := low_eq_zero_of_dvd h
  simp only [List.mem_cons, List.not_mem_nil, or_false] at hr
  rcases hr with rfl | rfl | rfl <;> exact hlow

/-- RCS goes with the pointer. -/
theorem fits_crcrLow {phys : BitVec 64} (h : 64 ∣ phys.toNat) :
    Fits Reg.crcrLow ((phys ||| 1).setWidth 32) := by
  have hlow : (phys ||| 1).setWidth 32 &&& 0x3F = 1 := by
    rw [BitVec.setWidth_or, BitVec.and_or_distrib_right, low_eq_zero_of_dvd h]
    decide
  exact hlow

theorem fits_high {r : Mmio}
    (hr : r ∈ [Reg.dcbaapHigh, Reg.crcrHigh, Reg.erstbaHigh, Reg.erdpHigh]) (v : BitVec 32) :
    Fits r v := by
  simp only [List.mem_cons, List.not_mem_nil, or_false] at hr
  rcases hr with rfl | rfl | rfl | rfl <;> exact trivial

theorem fits_erstsz : Fits Reg.erstsz ((1 : BitVec 16).setWidth 32) := by
  have hone : (1 : BitVec 16).setWidth 32 = 1#32 := by decide
  exact hone

/-! ## The discipline -/

/-- A 64-bit register that points to memory. -/
structure Pointer where
  /-- Its low half. -/
  low : Mmio
  /-- Its high half. -/
  high : Mmio
  /-- What the driver adds to the address. -/
  flags : BitVec 64
  /-- The number of words it points to. -/
  words : ℕ

/-- The pointers a driver sets up: to the device contexts, the command ring, the segment table and
the event ring. -/
def pointers (maxSlots : BitVec 8) : List Pointer :=
  [⟨Reg.dcbaapLow, Reg.dcbaapHigh, 0, maxSlots.toNat + 1⟩, ⟨Reg.crcrLow, Reg.crcrHigh, 1, 512⟩,
    ⟨Reg.erstbaLow, Reg.erstbaHigh, 0, 2⟩, ⟨Reg.erdpLow, Reg.erdpHigh, 0, 512⟩]

theorem pointer_mem_configRegs {maxSlots : BitVec 8} {p : Pointer} (hp : p ∈ pointers maxSlots) :
    p.low ∈ configRegs ∧ p.high ∈ configRegs := by
  simp only [pointers, List.mem_cons, List.not_mem_nil, or_false] at hp
  rcases hp with rfl | rfl | rfl | rfl <;> simp [configRegs]

/-- No register is part of two pointers. -/
theorem pointers_disjoint {maxSlots : BitVec 8} {p q : Pointer} (hp : p ∈ pointers maxSlots)
    (hq : q ∈ pointers maxSlots) : p.low ≠ q.high ∧ p.high ≠ q.low ∧
      (p.low = q.low → q = p) ∧ (p.high = q.high → q = p) := by
  simp only [pointers, List.mem_cons, List.not_mem_nil, or_false] at hp hq
  rcases hp with rfl | rfl | rfl | rfl <;> rcases hq with rfl | rfl | rfl | rfl <;>
    simp [Reg.dcbaapLow, Reg.dcbaapHigh, Reg.crcrLow, Reg.crcrHigh, Reg.erstbaLow, Reg.erstbaHigh,
      Reg.erdpLow, Reg.erdpHigh]

/-- The value of a pointer register is the address of memory that has been initialised. -/
def PointsTo (P : Platform) (mem : Words) (p : Pointer) (v : BitVec 64) : Prop :=
  ∃ base phys, P.translate base = some phys ∧ v = phys ||| p.flags ∧
    ∀ i < p.words, mem (base + 8 * i) ≠ none

/-- The write comes at the right moment: after a reset, with the controller halted and ready, and
with the memory initialised that it points to. -/
structure Access.InOrder {D : Device} (X : XhciView D) (P : Platform) (maxSlots : BitVec 8)
    (a : Access D) (older : List (Access D)) : Prop where
  /-- A reset was requested before. -/
  reset : ∃ b ∈ older, b.reg = Reg.usbcmd ∧ b.value &&& Usbcmd.hcrst ≠ 0
  /-- It is over. -/
  hcrst : X.reg a.dev Reg.usbcmd &&& Usbcmd.hcrst = 0
  /-- The controller is ready. -/
  cnr : X.reg a.dev Reg.usbsts &&& Usbsts.cnr = 0
  /-- It has halted. -/
  hch : X.reg a.dev Reg.usbsts &&& Usbsts.hch ≠ 0
  /-- The low half of a pointer. -/
  low : ∀ p ∈ pointers maxSlots, a.reg = p.low → ∃ v, PointsTo P a.mem p v ∧
    a.value = v.setWidth 32
  /-- The high half. -/
  high : ∀ p ∈ pointers maxSlots, a.reg = p.high →
    ∃ v, PointsTo P a.mem p v ∧ a.value = (v >>> 32).setWidth 32

/-- Every write to CONFIG, DCBAAP, CRCR, ERSTBA, ERSTSZ, ERDP and IMAN comes at the right moment.
-/
def Orderly {D : Device} (X : XhciView D) (P : Platform) (maxSlots : BitVec 8)
    (log : List (Access D)) : Prop :=
  ∀ newer a older, log = newer ++ a :: older → a.reg ∈ Reg.iman :: configRegs →
    a.InOrder X P maxSlots older

section Orderly

variable {D : Device} {X : XhciView D} {P : Platform} {maxSlots : BitVec 8}

theorem orderly_nil : Orderly X P maxSlots [] := by
  intro newer a older h
  simp at h

theorem Orderly.cons {log : List (Access D)} (h : Orderly X P maxSlots log) {a : Access D}
    (ha : a.reg ∈ Reg.iman :: configRegs → a.InOrder X P maxSlots log) :
    Orderly X P maxSlots (a :: log) := by
  intro newer b older heq hb
  rcases newer with _ | ⟨c, newer⟩
  · obtain ⟨rfl, rfl⟩ := List.cons.inj heq
    exact ha hb
  · obtain ⟨-, rfl⟩ := List.cons.inj heq
    exact h newer b older rfl hb

end Orderly

namespace Observed

variable {D : Device} (X : XhciView D) (P : Platform) (maxSlots : BitVec 8)

/-- Between the reset and the start: the controller is halted, and the registers in `done` hold
what they were given, as far as they have room for it. -/
structure Idle (s : Observed D) (done : List (Mmio × BitVec 32)) : Prop where
  /-- The controller has halted. -/
  stage_eq : s.stage X = .halted
  /-- It has been reset. -/
  reset : ∃ b ∈ s.log, b.reg = Reg.usbcmd ∧ b.value &&& Usbcmd.hcrst ≠ 0
  /-- The writes so far came at the right moment. -/
  orderly : Orderly X P maxSlots s.log
  /-- What has been configured. -/
  done : ∀ e ∈ done, e.1 ∈ configRegs ∧ (Fits e.1 e.2 → s.reg X e.1 = e.2)

/-- What `allocate` establishes: the rings and the array are aligned and zeroed, and their physical
addresses are right. -/
structure Ready (s : Observed D) (c : Controller) : Prop where
  /-- The number of slots. -/
  maxSlots_eq : c.maxSlots = maxSlots
  /-- The command ring starts on a multiple of 64. -/
  cmdRing_aligned : 64 ∣ c.cmdRing.base
  /-- It is zeroed. -/
  cmdRing : Stored s c.cmdRing.base 512 fun _ ↦ 0
  /-- Its address. -/
  cmdRing_phys : P.translate c.cmdRing.base = some c.cmdRing.phys
  /-- So does the event ring. -/
  eventRing_aligned : 64 ∣ c.eventRing.base
  /-- It is zeroed. -/
  eventRing : Stored s c.eventRing.base 512 fun _ ↦ 0
  /-- Its address. -/
  eventRing_phys : P.translate c.eventRing.base = some c.eventRing.phys
  /-- So does the device context base address array. -/
  dcbaa_aligned : 64 ∣ c.dcbaa.base
  /-- It is zeroed. -/
  dcbaa : Stored s c.dcbaa.base (maxSlots.toNat + 1) fun _ ↦ 0
  /-- Its address. -/
  dcbaa_phys : P.translate c.dcbaa.base = some c.dcbaa.phys

/-- The last access is the second one of `enable_interrupter`, and it found the controller halted.
-/
def ImanLast (t : Observed D) : Prop :=
  ∃ u, u.stage X = .halted ∧ t = (Observed.write Reg.iman (1 <<< 0) u).2

variable {X P maxSlots} {s₀ s : Observed D} {done : List (Mmio × BitVec 32)}

/-- What was allocated stays ready. -/
theorem Ready.keeps {t : Observed D} {c : Controller} (h : Ready P maxSlots s c) (hk : Keeps s t) :
    Ready P maxSlots t c where
  maxSlots_eq := h.maxSlots_eq
  cmdRing_aligned := h.cmdRing_aligned
  cmdRing := h.cmdRing.keeps hk
  cmdRing_phys := h.cmdRing_phys
  eventRing_aligned := h.eventRing_aligned
  eventRing := h.eventRing.keeps hk
  eventRing_phys := h.eventRing_phys
  dcbaa_aligned := h.dcbaa_aligned
  dcbaa := h.dcbaa.keeps hk
  dcbaa_phys := h.dcbaa_phys

/-- The controller runs and holds what the driver meant it to hold. -/
structure BroughtUp (X : XhciView D) (P : Platform) (maxSlots : BitVec 8) (t : Observed D)
    (c : Controller) : Prop where
  /-- It has been told to run. -/
  rs : t.reg X Reg.usbcmd &&& Usbcmd.rs ≠ 0
  /-- It does. -/
  hch : t.reg X Reg.usbsts &&& Usbsts.hch = 0
  /-- CONFIG is the number of slots. -/
  config : t.reg X Reg.config = c.maxSlots.setWidth 32
  /-- Which is the number the controller has. -/
  maxSlots_eq : c.maxSlots = maxSlots
  /-- DCBAAP is the address of the array. -/
  dcbaap : t.reg X Reg.dcbaapHigh ++ t.reg X Reg.dcbaapLow = c.dcbaa.phys
  /-- It is the physical address of `base`. -/
  dcbaa_phys : P.translate c.dcbaa.base = some c.dcbaa.phys
  /-- The array has `maxSlots + 1` entries, which are zero. -/
  dcbaa : Stored t c.dcbaa.base (maxSlots.toNat + 1) fun _ ↦ 0
  /-- CRCR is the address of the command ring, with RCS set. -/
  crcr : t.reg X Reg.crcrHigh ++ t.reg X Reg.crcrLow = c.cmdRing.phys ||| 1
  /-- There is one segment. -/
  erstsz : t.reg X Reg.erstsz = 1
  /-- ERDP is the address of the event ring. -/
  erdp : t.reg X Reg.erdpHigh ++ t.reg X Reg.erdpLow = c.eventRing.phys

/-- Words that are stored are initialised, and stay so. -/
theorem Stored.pointsTo {base : ℕ} {p : Pointer} {w : ℕ → BitVec 64} {phys v : BitVec 64}
    (h : Stored s₀ base p.words w) (hphys : P.translate base = some phys)
    (hv : v = phys ||| p.flags) : ∀ t, Keeps s₀ t → PointsTo P t.mem p v := by
  intro t ht
  obtain ⟨b, -, hwords⟩ := h.keeps ht
  refine ⟨base, phys, hphys, hv, fun i hi ↦ ?_⟩
  rw [(hwords i hi).2]
  exact Option.some_ne_none _

/-- Allocating does not disturb the controller. -/
theorem Idle.newBlock {t : Observed D} {base n : ℕ} {w : ℕ → BitVec 64}
    (hs : Idle X P maxSlots s done) (hnew : NewBlock s t base n w) : Idle X P maxSlots t done where
  stage_eq := (congrArg X.stage hnew.dev).trans hs.stage_eq
  reset := hnew.log ▸ hs.reset
  orderly := hnew.log ▸ hs.orderly
  done e he := by
    obtain ⟨hconfig, hvalue⟩ := hs.done e he
    exact ⟨hconfig, fun hfits ↦ (congrArg (X.reg · e.1) hnew.dev).trans (hvalue hfits)⟩

/-- **Step 3** leaves everything ready for the configuration. -/
theorem allocate_ensures (hP : AllocContract P.alloc) (hs : Idle X P maxSlots s done)
    (maxPorts : BitVec 8) :
    (allocate P maxSlots maxPorts).Ensures s
      (fun c t ↦ Idle X P maxSlots t done ∧ Ready P maxSlots t c)
      (fun t ↦ Orderly X P maxSlots t.log) := by
  refine (newRing_ensures hP fun t ht ↦ ht ▸ hs.orderly).bind ?_
  rintro cmdRing t₁ ⟨hcmd, hcmdBase, hcmdPhys⟩
  have hs₁ := hs.newBlock hcmd
  refine (newRing_ensures hP fun t ht ↦ ht ▸ hs₁.orderly).bind ?_
  rintro eventRing t₂ ⟨hevent, heventBase, heventPhys⟩
  have hs₂ := hs₁.newBlock hevent
  refine (newDcbaa_ensures hP maxSlots fun t ht ↦ ht ▸ hs₂.orderly).bind ?_
  rintro dcbaa t₃ ⟨hdcbaa, hdcbaaBase, hdcbaaPhys⟩
  refine .pure ⟨hs₂.newBlock hdcbaa, ?_⟩
  exact {
    maxSlots_eq := rfl
    cmdRing_aligned := hcmdBase
    cmdRing := hcmd.stored.keeps (hevent.keeps.trans hdcbaa.keeps)
    cmdRing_phys := hcmdPhys
    eventRing_aligned := heventBase
    eventRing := hevent.stored.keeps hdcbaa.keeps
    eventRing_phys := heventPhys
    dcbaa_aligned := hdcbaaBase
    dcbaa := hdcbaa.stored
    dcbaa_phys := hdcbaaPhys }

section Configure

variable (hX : X.Lawful)
include hX

/-- A write to a controller that is idle comes at the right moment, if its target does. -/
theorem Idle.inOrder (hs : Idle X P maxSlots s done) {r : Mmio} {v : BitVec 32}
    (hlow : ∀ p ∈ pointers maxSlots, r = p.low → ∃ w, PointsTo P s.mem p w ∧ v = w.setWidth 32)
    (hhigh : ∀ p ∈ pointers maxSlots, r = p.high →
      ∃ w, PointsTo P s.mem p w ∧ v = (w >>> 32).setWidth 32) :
    (⟨r, v, s.machine.dev, s.mem⟩ : Access D).InOrder X P maxSlots s.log where
  reset := hs.reset
  hcrst := (hX.hcrst_eq_zero_iff _).mpr fun h ↦ Stage.noConfusion (hs.stage_eq.symm.trans h)
  cnr := hX.cnr_of_halted _ hs.stage_eq
  hch := hX.hch_of_halted _ hs.stage_eq
  low := hlow
  high := hhigh

/-- A write in order keeps the controller idle. -/
theorem Idle.write (hs : Idle X P maxSlots s done) {r : Mmio} {v : BitVec 32}
    (hr : r ∈ Reg.iman :: configRegs) (hnew : r ∉ done.map Prod.fst)
    (hin : (⟨r, v, s.machine.dev, s.mem⟩ : Access D).InOrder X P maxSlots s.log) :
    Idle X P maxSlots (Observed.write r v s).2 done where
  stage_eq := hX.write_stage _ _ v r hr hs.stage_eq
  reset := by
    obtain ⟨b, hb, hreset⟩ := hs.reset
    exact ⟨b, List.mem_cons_of_mem _ hb, hreset⟩
  orderly := hs.orderly.cons fun _ ↦ hin
  done e he := by
    obtain ⟨hconfig, hvalue⟩ := hs.done e he
    have hne : e.1 ≠ r := fun heq ↦ hnew (heq ▸ List.mem_map_of_mem he)
    refine ⟨hconfig, fun hfits ↦ Eq.trans ?_ (hvalue hfits)⟩
    exact hX.write_other _ _ v r hr hs.stage_eq e.1 hconfig hne

/-- One write of step 4. -/
theorem write_ensures (hs : Idle X P maxSlots s done) (hk : Keeps s₀ s) {r : Mmio} {v : BitVec 32}
    (hr : r ∈ configRegs) (hnew : r ∉ done.map Prod.fst)
    (hin : (⟨r, v, s.machine.dev, s.mem⟩ : Access D).InOrder X P maxSlots s.log) :
    (write r v).Ensures s (fun _ t ↦ Idle X P maxSlots t ((r, v) :: done) ∧ Keeps s₀ t)
      (fun t ↦ Orderly X P maxSlots t.log) := by
  have hidle := hs.write hX (List.mem_cons_of_mem _ hr) hnew hin
  refine .of_eq rfl ⟨⟨hidle.stage_eq, hidle.reset, hidle.orderly, ?_⟩, hk.trans (.of_eq rfl rfl)⟩
  intro e he
  rcases List.mem_cons.mp he with rfl | he
  · exact ⟨hr, hX.write_self _ _ v r hr hs.stage_eq⟩
  · exact hidle.done e he

/-- A register that is not a pointer. -/
theorem write_plain_ensures (hs : Idle X P maxSlots s done) (hk : Keeps s₀ s) {r : Mmio}
    (v : BitVec 32) (hr : r ∈ configRegs) (hnew : r ∉ done.map Prod.fst)
    (hplain : ∀ p ∈ pointers maxSlots, r ≠ p.low ∧ r ≠ p.high) :
    (write r v).Ensures s (fun _ t ↦ Idle X P maxSlots t ((r, v) :: done) ∧ Keeps s₀ t)
      (fun t ↦ Orderly X P maxSlots t.log) :=
  write_ensures hX hs hk hr hnew (hs.inOrder hX (fun p hp h ↦ absurd h (hplain p hp).1)
    fun p hp h ↦ absurd h (hplain p hp).2)

/-- The two halves of a pointer. -/
theorem write64_ensures (hs : Idle X P maxSlots s done) (hk : Keeps s₀ s) {p : Pointer}
    (hp : p ∈ pointers maxSlots) {v : BitVec 64} (hpoints : ∀ t, Keeps s₀ t → PointsTo P t.mem p v)
    (hnew : p.low ∉ done.map Prod.fst ∧ p.high ∉ done.map Prod.fst) :
    (write64 p.low p.high v).Ensures s
      (fun _ t ↦ Idle X P maxSlots t ((p.high, (v >>> 32).setWidth 32) ::
        (p.low, v.setWidth 32) :: done) ∧ Keeps s₀ t)
      (fun t ↦ Orderly X P maxSlots t.log) := by
  obtain ⟨hlow, hhigh⟩ := pointer_mem_configRegs hp
  have hother := fun q (hq : q ∈ pointers maxSlots) ↦ pointers_disjoint hp hq
  have hne : p.high ≠ p.low := (hother p hp).2.1
  refine (write_ensures hX hs hk hlow hnew.1 (hs.inOrder hX ?_ ?_)).bind fun _ t ht ↦ ?_
  · intro q hq heq
    rw [(hother q hq).2.2.1 heq]
    exact ⟨v, hpoints s hk, rfl⟩
  · intro q hq heq
    exact absurd heq (hother q hq).1
  obtain ⟨hidle, hkeeps⟩ := ht
  refine write_ensures hX hidle hkeeps hhigh ?_ (hidle.inOrder hX ?_ ?_)
  · rw [List.map_cons, List.mem_cons]
    exact not_or.mpr ⟨hne, hnew.2⟩
  · intro q hq heq
    exact absurd heq (hother q hq).2.1
  · intro q hq heq
    rw [(hother q hq).2.2.2 heq]
    exact ⟨v, hpoints t hkeeps, rfl⟩

/-- IMAN is not a pointer, and no part of what is tracked. -/
theorem Idle.write_iman (hs : Idle X P maxSlots s done) (v : BitVec 32) :
    Idle X P maxSlots (Observed.write Reg.iman v s).2 done := by
  have hplain : ∀ p ∈ pointers maxSlots, Reg.iman ≠ p.low ∧ Reg.iman ≠ p.high := by
    simp [pointers, Reg.iman, Reg.dcbaapLow, Reg.dcbaapHigh, Reg.crcrLow, Reg.crcrHigh,
      Reg.erstbaLow, Reg.erstbaHigh, Reg.erdpLow, Reg.erdpHigh]
  have hnew : Reg.iman ∉ done.map Prod.fst := by
    intro hmem
    obtain ⟨e, he, heq⟩ := List.mem_map.mp hmem
    exact absurd (heq ▸ (hs.done e he).1) (by decide)
  refine hs.write hX List.mem_cons_self hnew (hs.inOrder hX ?_ ?_)
  · intro p hp heq
    exact absurd heq (hplain p hp).1
  · intro p hp heq
    exact absurd heq (hplain p hp).2

/-- What the first part of step 4 writes, last first. -/
def contextWrites (c : Controller) : List (Mmio × BitVec 32) :=
  [(Reg.crcrHigh, ((c.cmdRing.phys ||| 1) >>> 32).setWidth 32),
    (Reg.crcrLow, (c.cmdRing.phys ||| 1).setWidth 32),
    (Reg.dcbaapHigh, (c.dcbaa.phys >>> 32).setWidth 32),
    (Reg.dcbaapLow, c.dcbaa.phys.setWidth 32), (Reg.config, c.maxSlots.setWidth 32)]

/-- What the second part writes. -/
def eventWrites (c : Controller) (segPhys : BitVec 64) : List (Mmio × BitVec 32) :=
  [(Reg.erdpHigh, (c.eventRing.phys >>> 32).setWidth 32),
    (Reg.erdpLow, c.eventRing.phys.setWidth 32), (Reg.erstsz, (1 : BitVec 16).setWidth 32),
    (Reg.erstbaHigh, (segPhys >>> 32).setWidth 32), (Reg.erstbaLow, segPhys.setWidth 32)]

theorem writeContexts_ensures {c : Controller} (hs : Idle X P maxSlots s [])
    (hready : Ready P maxSlots s c) :
    (writeContexts c).Ensures s
      (fun _ t ↦ Idle X P maxSlots t (contextWrites c) ∧ Keeps s t)
      (fun t ↦ Orderly X P maxSlots t.log) := by
  refine (write_plain_ensures hX hs (.refl s) _ (by decide) (by decide) ?_).bind ?_
  · simp [pointers, Reg.config, Reg.dcbaapLow, Reg.dcbaapHigh, Reg.crcrLow, Reg.crcrHigh,
      Reg.erstbaLow, Reg.erstbaHigh, Reg.erdpLow, Reg.erdpHigh]
  rintro - t₁ ⟨hs₁, hk₁⟩
  have hdcbaa := hready.dcbaa.pointsTo (p := ⟨Reg.dcbaapLow, Reg.dcbaapHigh, 0, _⟩)
    hready.dcbaa_phys (BitVec.or_zero).symm
  have hnew₁ : Reg.dcbaapLow ∉ [Reg.config] ∧ Reg.dcbaapHigh ∉ [Reg.config] := by decide
  refine (write64_ensures hX hs₁ hk₁ (by simp [pointers]) hdcbaa hnew₁).bind ?_
  rintro - t₂ ⟨hs₂, hk₂⟩
  have hcmdRing := hready.cmdRing.pointsTo (p := ⟨Reg.crcrLow, Reg.crcrHigh, 1, 512⟩)
    hready.cmdRing_phys rfl
  have hnew₂ : Reg.crcrLow ∉ [Reg.dcbaapHigh, Reg.dcbaapLow, Reg.config] ∧
    Reg.crcrHigh ∉ [Reg.dcbaapHigh, Reg.dcbaapLow, Reg.config] := by decide
  exact write64_ensures hX hs₂ hk₂ (by simp [pointers]) hcmdRing hnew₂

/-- The baseline for memory is the moment at which the segment table is there: what was ready
before still is. -/
theorem writeEventRing_ensures {c : Controller} {segBase : ℕ} {segPhys : BitVec 64}
    (hs : Idle X P maxSlots s (contextWrites c)) (hready : Ready P maxSlots s c)
    (htable : Stored s segBase 2
    (entryWords ⟨c.eventRing.phys, BitVec.ofNat 16 c.eventRing.trbs.length⟩))
    (hsegPhys : P.translate segBase = some segPhys) :
    (writeEventRing c segPhys).Ensures s
      (fun _ t ↦ Idle X P maxSlots t (eventWrites c segPhys ++ contextWrites c) ∧ Keeps s t ∧
        ImanLast X t)
      (fun t ↦ Orderly X P maxSlots t.log) := by
  have herstba := htable.pointsTo (p := ⟨Reg.erstbaLow, Reg.erstbaHigh, 0, 2⟩) hsegPhys
    (BitVec.or_zero).symm
  have hnew : ∀ r ∈ [Reg.erstbaLow, Reg.erstbaHigh],
    r ∉ [Reg.crcrHigh, Reg.crcrLow, Reg.dcbaapHigh, Reg.dcbaapLow, Reg.config] := by decide
  refine (write64_ensures hX hs (.refl s) (by simp [pointers]) herstba
    ⟨hnew _ (by decide), hnew _ (by decide)⟩).bind ?_
  rintro - t₁ ⟨hs₁, hk₁⟩
  have hnew₁ : Reg.erstsz ∉ [Reg.erstbaHigh, Reg.erstbaLow, Reg.crcrHigh, Reg.crcrLow,
    Reg.dcbaapHigh, Reg.dcbaapLow, Reg.config] := by decide
  refine (write_plain_ensures hX hs₁ hk₁ _ (by decide) hnew₁ ?_).bind ?_
  · simp [pointers, Reg.erstsz, Reg.dcbaapLow, Reg.dcbaapHigh, Reg.crcrLow, Reg.crcrHigh,
      Reg.erstbaLow, Reg.erstbaHigh, Reg.erdpLow, Reg.erdpHigh]
  rintro - t₂ ⟨hs₂, hk₂⟩
  have herdp := hready.eventRing.pointsTo (p := ⟨Reg.erdpLow, Reg.erdpHigh, 0, 512⟩)
    hready.eventRing_phys (BitVec.or_zero).symm
  have hnew₂ : ∀ r ∈ [Reg.erdpLow, Reg.erdpHigh], r ∉ [Reg.erstsz, Reg.erstbaHigh, Reg.erstbaLow,
    Reg.crcrHigh, Reg.crcrLow, Reg.dcbaapHigh, Reg.dcbaapLow, Reg.config] := by decide
  refine (write64_ensures hX hs₂ hk₂ (by simp [pointers]) herdp
    ⟨hnew₂ _ (by decide), hnew₂ _ (by decide)⟩).bind ?_
  rintro - t₃ ⟨hs₃, hk₃⟩
  have hs₄ := hs₃.write_iman hX (1 <<< 1)
  have hkeeps : Keeps t₃ (Observed.write Reg.iman (1 <<< 0)
    (Observed.write Reg.iman (1 <<< 1) t₃).2).2 := .of_eq rfl rfl
  exact .of_eq rfl ⟨hs₄.write_iman hX (1 <<< 0), hk₃.trans hkeeps, _, hs₄.stage_eq, rfl⟩

/-- **Step 4** writes everything at the right moment. -/
theorem configure_ensures (hP : AllocContract P.alloc) {c : Controller}
    (hs : Idle X P maxSlots s []) (hready : Ready P maxSlots s c) :
    (configure P c).Ensures s
      (fun _ t ↦ (∃ segPhys, Idle X P maxSlots t (eventWrites c segPhys ++ contextWrites c)) ∧
        Ready P maxSlots t c ∧ ImanLast X t)
      (fun t ↦ Orderly X P maxSlots t.log) := by
  refine (writeContexts_ensures hX hs hready).bind ?_
  rintro - t₁ ⟨hs₁, hk₁⟩
  refine (allocateErst_ensures hP c.eventRing fun t ht ↦ ht ▸ hs₁.orderly).bind ?_
  rintro segPhys t₂ ⟨segBase, hsegPhys, htable⟩
  have hready₂ := (hready.keeps hk₁).keeps htable.keeps
  refine (writeEventRing_ensures hX (hs₁.newBlock htable) hready₂ htable.stored hsegPhys).mono ?_
    fun _ ht ↦ ht
  rintro - t₃ ⟨hs₃, hk₃, himan⟩
  exact ⟨⟨segPhys, hs₃⟩, hready₂.keeps hk₃, himan⟩

end Configure

/-! ## The steps around the configuration -/

section Steps

variable (hX : X.Lawful)
include hX

theorem identify_ensures {S : Observed D → Prop} (s : Observed D) :
    identify.Ensures s
      (fun ids t ↦ Quiet X s t ∧ ids.1 = (s.reg X Reg.hcsparams1).setWidth 8) S := by
  refine (read_ensures hX s _).bind ?_
  rintro - t₁ ⟨h₁, -⟩
  refine (read_ensures hX t₁ _).bind ?_
  rintro - t₂ ⟨h₂, -⟩
  refine (read_ensures hX t₂ _).bind ?_
  rintro - t₃ ⟨h₃, -⟩
  refine (read_ensures hX t₃ _).bind ?_
  rintro slots t₄ ⟨h₄, hslots⟩
  obtain rfl := hslots (by decide)
  refine (read_ensures hX t₄ _).bind ?_
  rintro ports t₅ ⟨h₅, -⟩
  have hquiet := ((h₁.trans h₂).trans h₃).trans h₄
  refine .pure ⟨hquiet.trans h₅, ?_⟩
  exact congrArg (BitVec.setWidth 8) hquiet.slots

/-- A write to USBCMD is not subject to the discipline, nor is the polling that follows. -/
theorem write_poll_ensures {β : Type} {v : BitVec 32} {r : Mmio} {p : BitVec 32 → Bool} {fuel : ℕ}
    {k : BitVec 32 → Command (Observed D) β} {Q : β → Observed D → Prop} {I : Stage → Prop}
    (hs : Orderly X P maxSlots s.log) (hr : r ∈ statusRegs)
    (hI : ∀ g g', I g → g.Advances g' → I g')
    (hstage : I ((Observed.write Reg.usbcmd v s).2.stage X))
    (hk : ∀ a t, Quiet X (Observed.write Reg.usbcmd v s).2 t → I (t.stage X) →
      p (t.reg X r) = true → Orderly X P maxSlots t.log →
      (k a).Ensures t Q fun t ↦ Orderly X P maxSlots t.log) :
    (do
      write Reg.usbcmd v
      let a ← pollUntil r p fuel
      k a : Command (Observed D) β).Ensures s Q fun t ↦ Orderly X P maxSlots t.log := by
  have hs' : Orderly X P maxSlots (Observed.write Reg.usbcmd v s).2.log :=
    hs.cons fun hmem ↦ absurd hmem (show Reg.usbcmd ∉ Reg.iman :: configRegs by decide)
  refine Ensures.bind (Q := fun _ t ↦ t = (Observed.write Reg.usbcmd v s).2) (.of_eq rfl rfl) ?_
  rintro - t₁ rfl
  refine ((poll_ensures hX hr hI p hstage fuel).mono (fun _ _ ht ↦ ht) fun t ht ↦ ht.log ▸ hs').bind
    ?_
  rintro a t ⟨hquiet, hIt, hpass⟩
  exact hk a t hquiet hIt hpass (hquiet.log ▸ hs')

/-- **Step 1** writes nothing but USBCMD. -/
theorem stop_ensures (hs : Orderly X P maxSlots s.log) (fuel : ℕ) :
    (stop fuel).Ensures s (fun _ t ↦ Orderly X P maxSlots t.log)
      (fun t ↦ Orderly X P maxSlots t.log) := by
  refine (read_ensures hX s _).bind ?_
  rintro cmd t₁ ⟨hquiet, -⟩
  refine write_poll_ensures (I := fun _ ↦ True) hX (hquiet.log ▸ hs) (by decide)
    (fun _ _ _ _ ↦ trivial) trivial ?_
  intro a t _ _ _ ht
  exact .pure ht

/-- **Step 2** makes the controller idle, whatever it did before. -/
theorem reset_ensures (hs : Orderly X P maxSlots s.log) (fuel : ℕ) (cmd : BitVec 32) :
    (reset fuel cmd).Ensures s (fun _ t ↦ Idle X P maxSlots t [])
      (fun t ↦ Orderly X P maxSlots t.log) := by
  have hresetting := hX.write_reset s.machine.erst s.machine.dev _ (or_hcrst_and_hcrst cmd)
  refine write_poll_ensures (I := fun g ↦ g = .resetting ∨ g = .notReady ∨ g = .halted) hX hs
    (by decide) ?_ hresetting ?_
  · rintro g g' (rfl | rfl | rfl) hnext <;> rcases hnext with _ | _ | _ | _ | _ <;> simp
  intro a t hquiet hstage hhcrst ht
  -- HCRST reads 0, so the reset is over
  have hover : t.stage X = .notReady ∨ t.stage X = .halted :=
    hstage.resolve_left ((hX.hcrst_eq_zero_iff _).mp (of_decide_eq_true hhcrst))
  have hI : ∀ g g' : Stage, g = .notReady ∨ g = .halted → g.Advances g' →
      g' = .notReady ∨ g' = .halted := by
    rintro g g' (rfl | rfl) hnext <;> rcases hnext with _ | _ | _ | _ | _
    exact .inr rfl
  have hpoll := poll_ensures (r := Reg.usbsts) hX (by decide) hI (· &&& Usbsts.cnr = 0) hover fuel
  refine (hpoll.mono (fun _ _ h ↦ h) fun u hu ↦ hu.log ▸ ht).bind ?_
  rintro - u ⟨hquiet', hstage', hcnr⟩
  -- CNR reads 0, so it is ready
  have hhalted : u.stage X = .halted :=
    hstage'.resolve_left fun h ↦ hX.cnr_of_notReady _ h (of_decide_eq_true hcnr)
  refine .pure ⟨hhalted, ?_, hquiet'.log ▸ ht, fun e he ↦ absurd he List.not_mem_nil⟩
  rw [hquiet'.log, hquiet.log]
  exact ⟨_, List.mem_cons_self, rfl, or_hcrst_and_hcrst cmd⟩

omit hX in
/-- The registers have room for what `init` writes to them. -/
theorem Ready.fits {c : Controller} (h : Ready P maxSlots s c) (hT : P.KeepsAlignment)
    (segPhys : BitVec 64) : ∀ e ∈ eventWrites c segPhys ++ contextWrites c,
      e.1 ≠ Reg.erstbaLow → Fits e.1 e.2 := by
  have hevent := hT _ _ h.eventRing_phys h.eventRing_aligned
  have hcmd := hT _ _ h.cmdRing_phys h.cmdRing_aligned
  have hdcbaa := hT _ _ h.dcbaa_phys h.dcbaa_aligned
  intro e he hne
  simp only [eventWrites, contextWrites, List.cons_append, List.nil_append, List.mem_cons,
    List.not_mem_nil, or_false] at he
  rcases he with rfl | rfl | rfl | rfl | rfl | rfl | rfl | rfl | rfl | rfl
  · exact fits_high (r := Reg.erdpHigh) (by decide) _
  · exact fits_low (r := Reg.erdpLow) (by decide) hevent
  · exact fits_erstsz
  · exact fits_high (r := Reg.erstbaHigh) (by decide) _
  · exact absurd rfl hne
  · exact fits_high (r := Reg.crcrHigh) (by decide) _
  · exact fits_crcrLow hcmd
  · exact fits_high (r := Reg.dcbaapHigh) (by decide) _
  · exact fits_low (r := Reg.dcbaapLow) (by decide) hdcbaa
  · exact fits_config _

/-- **Step 5** makes the controller run, and leaves the configuration alone. -/
theorem start_ensures (hT : P.KeepsAlignment) {c : Controller} {segPhys : BitVec 64}
    (hs : Idle X P maxSlots s (eventWrites c segPhys ++ contextWrites c))
    (hready : Ready P maxSlots s c) (fuel : ℕ) :
    (start fuel).Ensures s
      (fun _ t ↦ Orderly X P maxSlots t.log ∧ BroughtUp X P maxSlots t c)
      (fun t ↦ Orderly X P maxSlots t.log) := by
  set cmd := Usbcmd.rs ||| Usbcmd.inte ||| Usbcmd.hsee
  obtain ⟨hstage, hset, hconfig⟩ := hX.write_start s.machine.erst s.machine.dev cmd (by decide)
    (by decide) hs.stage_eq
  refine write_poll_ensures (I := fun g ↦ g = .starting ∨ g = .running) hX hs.orderly (by decide) ?_
    hstage ?_
  · rintro g g' (rfl | rfl) hnext <;> rcases hnext with _ | _ | _ | _ | _
    exact .inr rfl
  intro a t hquiet _ hhch ht
  refine .pure ⟨ht, ?_⟩
  obtain ⟨-, hrs, hsame⟩ := hquiet.config (.inr hstage)
  have hreg : ∀ r v, (r, v) ∈ eventWrites c segPhys ++ contextWrites c → r ≠ Reg.erstbaLow →
      t.reg X r = v := by
    intro r v he hne
    obtain ⟨hr, hvalue⟩ := hs.done _ he
    calc t.reg X r = (Observed.write Reg.usbcmd cmd s).2.reg X r := hsame r hr
      _ = s.reg X r := hconfig r hr
      _ = v := hvalue (hready.fits hT segPhys _ he hne)
  have hkeeps : Keeps s t := (Keeps.of_eq rfl rfl).trans (.of_eq hquiet.live hquiet.mem)
  have hhalves : ∀ low high (v : BitVec 64), low ≠ Reg.erstbaLow → high ≠ Reg.erstbaLow →
      (low, v.setWidth 32) ∈ eventWrites c segPhys ++ contextWrites c →
      (high, (v >>> 32).setWidth 32) ∈ eventWrites c segPhys ++ contextWrites c →
      t.reg X high ++ t.reg X low = v := by
    intro low high v hlowNe hhighNe hlow hhigh
    rw [hreg _ _ hlow hlowNe, hreg _ _ hhigh hhighNe]
    exact append_halves v
  exact {
    rs := by
      rw [hrs]
      exact hset
    hch := of_decide_eq_true hhch
    config := hreg Reg.config _ (by simp [contextWrites]) (by decide)
    maxSlots_eq := hready.maxSlots_eq
    dcbaap := hhalves Reg.dcbaapLow Reg.dcbaapHigh _ (by decide) (by decide)
      (by simp [contextWrites]) (by simp [contextWrites])
    dcbaa_phys := hready.dcbaa_phys
    dcbaa := hready.dcbaa.keeps hkeeps
    crcr := hhalves Reg.crcrLow Reg.crcrHigh _ (by decide) (by decide) (by simp [contextWrites])
      (by simp [contextWrites])
    erstsz := hreg Reg.erstsz ((1 : BitVec 16).setWidth 32) (by simp [eventWrites]) (by decide)
    erdp := hhalves Reg.erdpLow Reg.erdpHigh _ (by decide) (by decide) (by simp [eventWrites])
      (by simp [eventWrites]) }

/-- **`init` keeps the discipline**, and what it returns has been brought up. -/
theorem init_ensures (hP : AllocContract P.alloc) (hT : P.KeepsAlignment) (m : Machine D)
    (mem : Words)
    (hslots : (X.reg m.dev Reg.hcsparams1).setWidth 8 = maxSlots) (fuel : ℕ) :
    (init P fuel).Ensures (begin m mem)
      (fun c t ↦ Orderly X P maxSlots t.log ∧ BroughtUp X P maxSlots t c)
      (fun t ↦ Orderly X P maxSlots t.log) := by
  refine (identify_ensures hX (begin m mem)).bind ?_
  rintro ⟨slots, ports⟩ t₁ ⟨hquiet, rfl⟩
  have hs₁ : Orderly X P maxSlots t₁.log := hquiet.log ▸ orderly_nil
  refine (stop_ensures hX hs₁ fuel).bind ?_
  intro cmd t₂ hs₂
  refine (reset_ensures hX hs₂ fuel cmd).bind ?_
  intro _ t₃ hs₃
  obtain rfl : maxSlots = _ := hslots.symm
  refine (allocate_ensures hP hs₃ ports).bind ?_
  rintro c t₄ ⟨hs₄, hready⟩
  refine (configure_ensures hX hP hs₄ hready).bind ?_
  rintro - t₅ ⟨⟨segPhys, hs₅⟩, hready₅, -⟩
  refine (start_ensures hX hT hs₅ hready₅ fuel).bind ?_
  intro _ t₆ h
  exact .pure h

/-! ## `init` comes to an end -/

omit hX in
theorem eq_halted_of_not_transient {g : Stage} (hg : g ≠ .running) (hrest : ¬g.Transient) :
    g = .halted := by
  by_contra hne
  exact hrest ⟨hg, hne⟩

omit hX in
theorem write_settles (r : Mmio) (v : BitVec 32) (s : Observed D) :
    Settles (fun _ ↦ write r v) s () (Observed.write r v s).2 :=
  .of_eq rfl

theorem stop_settles (s : Observed D) : ∃ cmd t, Settles stop s cmd t := by
  obtain ⟨cmd, t₁, hread, -, -, -⟩ := read_eq hX s Reg.usbcmd
  have hrs := and_not_rs_and_rs cmd
  have hwrite := write_settles Reg.usbcmd (cmd &&& ~~~Usbcmd.rs) t₁
  set t₂ := (Observed.write Reg.usbcmd (cmd &&& ~~~Usbcmd.rs) t₁).2
  have hstage : t₂.stage X ≠ .running ∧ t₂.stage X ≠ .starting := by
    by_cases hhcrst : cmd &&& ~~~Usbcmd.rs &&& Usbcmd.hcrst = 0
    · exact hX.write_stop t₁.machine.erst t₁.machine.dev _ hhcrst hrs
    · -- the firmware left it in the middle of a reset, and the write starts another one
      rcases hX.write_reset t₁.machine.erst t₁.machine.dev _ hhcrst with h | h | h <;>
        rw [show t₂.stage X = _ from h] <;> exact ⟨Stage.noConfusion, Stage.noConfusion⟩
  have hI : ∀ g g' : Stage, g ≠ .running ∧ g ≠ .starting → g.Advances g' →
      g' ≠ .running ∧ g' ≠ .starting := by
    rintro g g' ⟨-, hne⟩ hnext
    rcases hnext with _ | _ | _ | _ | _
    · exact ⟨Stage.noConfusion, Stage.noConfusion⟩
    · exact ⟨Stage.noConfusion, Stage.noConfusion⟩
    · exact ⟨Stage.noConfusion, Stage.noConfusion⟩
    · exact ⟨Stage.noConfusion, Stage.noConfusion⟩
    · exact absurd rfl hne
  obtain ⟨v, t₃, hpoll⟩ := poll_settles (r := Reg.usbsts) (p := fun v ↦ v &&& Usbsts.hch ≠ 0) hX
    (.inr rfl) hI (fun t ht hrest ↦ decide_eq_true
      (hX.hch_of_halted _ (eq_halted_of_not_transient ht.1 hrest))) hstage
  exact ⟨cmd, t₃, (Settles.of_eq hread).bind (hwrite.bind (hpoll.bind (Settles.of_eq rfl)))⟩

theorem reset_settles (s : Observed D) (cmd : BitVec 32) :
    ∃ t, Settles (fun fuel ↦ reset fuel cmd) s () t := by
  set I : Stage → Prop := fun g ↦ g = .resetting ∨ g = .notReady ∨ g = .halted
  have hI : ∀ g g', I g → g.Advances g' → I g' := by
    rintro g g' (rfl | rfl | rfl) hnext <;> rcases hnext with _ | _ | _ | _ | _ <;> simp [I]
  have hrunning : ∀ g, I g → g ≠ .running := by
    rintro g (rfl | rfl | rfl) <;> exact Stage.noConfusion
  have hresetting : I ((Observed.write Reg.usbcmd (cmd ||| Usbcmd.hcrst) s).2.stage X) :=
    hX.write_reset s.machine.erst s.machine.dev _ (or_hcrst_and_hcrst cmd)
  have hhcrst : ∀ t : Observed D, I (t.stage X) → ¬(t.stage X).Transient →
      decide (t.reg X Reg.usbcmd &&& Usbcmd.hcrst = 0) = true := by
    intro t ht hrest
    refine decide_eq_true ((hX.hcrst_eq_zero_iff _).mpr ?_)
    rw [show X.stage t.machine.dev = _ from eq_halted_of_not_transient (hrunning _ ht) hrest]
    exact Stage.noConfusion
  have hcnr : ∀ t : Observed D, I (t.stage X) → ¬(t.stage X).Transient →
      decide (t.reg X Reg.usbsts &&& Usbsts.cnr = 0) = true := fun t ht hrest ↦
    decide_eq_true (hX.cnr_of_halted _ (eq_halted_of_not_transient (hrunning _ ht) hrest))
  obtain ⟨v, t₁, hpoll₁⟩ := poll_settles (p := fun v ↦ v &&& Usbcmd.hcrst = 0) hX (.inl rfl) hI
    hhcrst hresetting
  have hIt₁ : I (t₁.stage X) :=
    (hpoll₁.ensures fun fuel ↦ poll_ensures hX (by decide) hI _ hresetting fuel).2.1
  obtain ⟨v', t₂, hpoll₂⟩ := poll_settles (p := fun v ↦ v &&& Usbsts.cnr = 0) hX (.inr rfl) hI
    hcnr hIt₁
  exact ⟨t₂, (write_settles _ _ s).bind (hpoll₁.bind (hpoll₂.bind (Settles.of_eq rfl)))⟩

theorem start_settles (hs : s.stage X = .halted) : ∃ t, Settles start s () t := by
  have hstarting := (hX.write_start s.machine.erst s.machine.dev
    (Usbcmd.rs ||| Usbcmd.inte ||| Usbcmd.hsee) (by decide) (by decide) hs).1
  have hI : ∀ g g' : Stage, g = .starting ∨ g = .running → g.Advances g' →
      g' = .starting ∨ g' = .running := by
    rintro g g' (rfl | rfl) hnext <;> rcases hnext with _ | _ | _ | _ | _
    exact .inr rfl
  have hhch : ∀ t : Observed D, t.stage X = .starting ∨ t.stage X = .running →
      ¬(t.stage X).Transient → decide (t.reg X Reg.usbsts &&& Usbsts.hch = 0) = true := by
    rintro t (h | h) hrest
    · refine absurd ?_ hrest
      rw [h]
      exact ⟨Stage.noConfusion, Stage.noConfusion⟩
    · exact decide_eq_true (hX.hch_of_running _ h)
  obtain ⟨v, t, hpoll⟩ := poll_settles (p := fun v ↦ v &&& Usbsts.hch = 0)
    (s := (Observed.write Reg.usbcmd (Usbcmd.rs ||| Usbcmd.inte ||| Usbcmd.hsee) s).2) hX
      (.inr rfl) hI hhch hstarting
  exact ⟨t, (write_settles _ _ s).bind (hpoll.bind (Settles.of_eq rfl))⟩

/-- **With room on the heap, `init` returns.** -/
theorem init_settles (hP : AllocContract P.alloc) (m : Machine D) (mem : Words)
    (hroom : P.Serves m.live (Controller.requests ((X.reg m.dev Reg.hcsparams1).setWidth 8))) :
    ∃ c t, Settles (init P) (begin m mem) c t := by
  -- reading and stopping
  obtain ⟨⟨slots, ports⟩, t₁, hidentify⟩ : ∃ ids t₁, identify (begin m mem) = (some ids, t₁) :=
    ⟨_, _, rfl⟩
  obtain ⟨hquiet, rfl⟩ := (identify_ensures (S := fun _ ↦ True) hX (begin m mem)).returns _ _
    hidentify
  set slots := ((begin m mem).reg X Reg.hcsparams1).setWidth 8
  have hs₁ : Orderly X P slots t₁.log := hquiet.log ▸ orderly_nil
  obtain ⟨cmd, t₂, hstop⟩ := stop_settles hX t₁
  have hs₂ := hstop.ensures fun fuel ↦ stop_ensures hX hs₁ fuel
  -- the reset
  obtain ⟨t₃, hreset⟩ := reset_settles hX t₂ cmd
  have hs₃ := hreset.ensures fun fuel ↦ reset_ensures hX hs₂ fuel cmd
  have hlive : t₃.machine.live = m.live := by
    obtain ⟨n, hn⟩ := hstop
    obtain ⟨n', hn'⟩ := hreset
    have hstopped := (simulates_stop n).eq_some (hn n (Nat.le_refl n))
    have hresetted := (simulates_reset n' cmd).eq_some (hn' n' (Nat.le_refl n'))
    obtain ⟨m', hm', heq⟩ := Option.map_eq_some_iff.mp hresetted
    obtain ⟨-, rfl⟩ := Prod.mk.inj heq
    exact (Controller.reset_frame hm').1.trans
      ((Controller.stop_frame hstopped).1.trans hquiet.live)
  -- the allocations and the configuration
  obtain ⟨c, live, hallocate, hroom'⟩ := Controller.allocate_of_serves (P := P)
    (m := t₃.machine) slots
    ports (hlive ▸ hroom)
  obtain ⟨t₄, hallocate, hmachine⟩ := (simulates_allocate slots ports).exists_of_eq_some hallocate
  obtain ⟨hs₄, hready⟩ := (allocate_ensures hP hs₃ ports).returns c t₄ hallocate
  have hroom₄ : P.Serves t₄.machine.live [16 + 64] := by
    rw [hmachine]
    exact hroom'
  obtain ⟨segPhys, m₁, hconfigure, -⟩ := c.configure_of_serves hroom₄
  obtain ⟨t₅, hconfigure, -⟩ := (simulates_configure c).exists_of_eq_some
    (congrArg (Option.map fun m ↦ ((), m)) hconfigure)
  obtain ⟨⟨_, hs₅⟩, -, -⟩ := (configure_ensures hX hP hs₄ hready).returns () t₅ hconfigure
  -- the start
  obtain ⟨t₆, hstart⟩ := start_settles hX hs₅.stage_eq
  refine ⟨c, t₆, (Settles.of_eq hidentify).bind (hstop.bind (hreset.bind ?_))⟩
  exact (Settles.of_eq hallocate).bind ((Settles.of_eq hconfigure).bind
    (hstart.bind (Settles.of_eq rfl)))

end Steps

end Observed

open Observed in
/-- **The discipline of bring-up.** Take any lawful controller, in any state, and any page tables.
In every run of `init` the writes to CONFIG, DCBAAP, CRCR, ERSTBA, ERSTSZ, ERDP and IMAN come at
the right moment: after the reset, with the controller halted and ready, and with the memory they
point to initialised. A run that returns leaves the controller running and configured; and if the
heap has room, the runs return, however long the controller takes. -/
theorem bring_up_disciplined {D : Device} {X : XhciView D} (hX : X.Lawful) (tables : PhysMem)
    (cr3 : PhysFrame) {alloc : List Block → ℕ → ℕ → Option ℕ} (hP : AllocContract alloc)
    (m : Machine D) (mem : Words) :
    (∀ fuel, Orderly X (kernelPlatform tables cr3 alloc)
        ((X.reg m.dev Reg.hcsparams1).setWidth 8)
        (init (kernelPlatform tables cr3 alloc) fuel (begin m mem)).2.log ∧
      ∀ c t, init (kernelPlatform tables cr3 alloc) fuel (begin m mem) = (some c, t) →
        BroughtUp X (kernelPlatform tables cr3 alloc)
          ((X.reg m.dev Reg.hcsparams1).setWidth 8) t c) ∧
    ((kernelPlatform tables cr3 alloc).Serves m.live
        (Controller.requests ((X.reg m.dev Reg.hcsparams1).setWidth 8)) →
      ∃ c t, Settles (init (kernelPlatform tables cr3 alloc)) (begin m mem) c t) := by
  have hP' : AllocContract (kernelPlatform tables cr3 alloc).alloc := hP
  have hinit := init_ensures hX hP' (kernelPlatform_keepsAlignment tables cr3 alloc) m mem rfl
  refine ⟨fun fuel ↦ ⟨?_, fun c t h ↦ ?_⟩, init_settles hX hP' m mem⟩
  · refine Ensures.after (I := fun t : Observed D ↦ Orderly X _ _ t.log) ?_
    exact (hinit fuel).mono (fun _ _ h ↦ h.1) fun _ h ↦ h
  · exact ((hinit fuel).returns c t h).2

open Observed in
/-- On the bare machine the controller of 64 slots that the firmware left running is brought up. -/
theorem bare_bring_up_disciplined :
    ∃ P : Platform, AllocContract P.alloc ∧ P.Serves [] (Controller.requests 64) ∧
      ∃ c t, Settles (init P) (begin (firmwareMachine 64 4) fun _ ↦ none) c t ∧
        Orderly xhciView P 64 t.log ∧ BroughtUp xhciView P 64 t c := by
  obtain ⟨s, hsetUp⟩ := bare_setUp_succeeds
  have hroom := bare_serves hsetUp 64
  have hslots : (xhciView.reg (firmwareMachine 64 4).dev Reg.hcsparams1).setWidth 8 = 64 :=
    by decide
  obtain ⟨hruns, hreturns⟩ := bring_up_disciplined xhciView_lawful s.mem bareCr3
    slotAlloc_contract (firmwareMachine 64 4) fun _ ↦ none
  rw [hslots] at hruns hreturns
  obtain ⟨c, t, n, hn⟩ := hreturns hroom
  have hn' := hn n (Nat.le_refl n)
  refine ⟨_, slotAlloc_contract, hroom, c, t, ⟨n, hn⟩, ?_, (hruns n).2 c t hn'⟩
  have horderly := (hruns n).1
  rwa [hn'] at horderly

end Punkos
