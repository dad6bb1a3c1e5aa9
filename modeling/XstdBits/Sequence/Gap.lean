/-
  File: XstdBits/Sequence/Gap.lean
  Subject: gaps opened and closed in a sequence, and what is written into them.

  * `openGap` resizes first, the one step that can throw, and then moves the tail up from its top
    block; `closeGap` moves it down from its bottom block and then shrinks. Each write lands clear
    of every read still to come (`shiftUp_spec`, `shiftDown_spec`).
  * `writeAt` writes a range's values one at a time, `blitAt` another sequence's a block at a time.
  * a gap closed again leaves what was there before it was opened (`Gapped.close_ends`).
-/
import XstdBits.Container.Machine
import XstdBits.Sequence.Append

namespace XstdBits

open BitBlockContainer

namespace SequenceAdaptor
variable {w : Nat} {V : Vehicle w}

/-! ## 1. The tail moved -/

/-- The positions from `pos` to the old `width` moved up by `n`, the top block first. -/
def shiftUp (width pos n : Nat) (c : BitBlockContainer V) : BitBlockContainer V :=
  let tail := width - pos
  forStep w 0 tail (fun k c =>
    let count := min w (tail - k)
    let start := pos + tail - k - count
    c.writeBlockAt (start + n) (c.blockAt start) (partialBlockMask count)) c

/-- The positions from `last` to the `width` moved down onto `pos`, the bottom block first. -/
def shiftDown (width pos last : Nat) (c : BitBlockContainer V) : BitBlockContainer V :=
  forStep w 0 (width - last) (fun k c =>
    let count := min w (width - last - k)
    c.writeBlockAt (pos + k) (c.blockAt (last + k)) (partialBlockMask count)) c

/-- `open_gap`. -/
def openGap (mem : Memory) (pos n : Nat) : Action V Unit := do
  let c ← get
  let total ← checkedWidth V (widthSum c.size n)
  resize mem total false
  modify fun d => if V.hasZeroCapacity then d else shiftUp c.size pos n d

/-- `close_gap`. -/
def closeGap (mem : Memory) (pos last : Nat) : Action V Unit := do
  let c ← get
  modify fun d => if V.hasZeroCapacity then d else shiftDown c.size pos last d
  resize mem (c.size - (last - pos)) false

section Shift
variable {c : BitBlockContainer V} {width pos n last : Nat}

/-- **The tail moved up**: every position of it `n` higher, all others as they were. -/
theorem shiftUp_spec (h : c.Inv) (hu : V.hasStoredCount = false) (hpos : pos ≤ width)
    (hsize : c.size = width + n) :
    SameWidth c (shiftUp width pos n c) ∧ (shiftUp width pos n c).Inv ∧
      ∀ p, (shiftUp width pos n c).bit p =
        if pos + n ≤ p ∧ p < width + n then c.bit (p - n) else c.bit p := by
  have hw := V.bits_pos
  have hsz := h.shape.size_le
  unfold shiftUp
  extract_lets tail
  have key := forStep_inv (k := w) (a := 0) (b := tail)
    (f := fun k (d : BitBlockContainer V) =>
      d.writeBlockAt (pos + tail - k - min w (tail - k) + n)
        (d.blockAt (pos + tail - k - min w (tail - k))) (partialBlockMask (min w (tail - k)))) (s := c)
    (fun q d => SameWidth c d ∧ d.Inv ∧ ∀ p, d.bit p =
      if pos + (tail - min q tail) + n ≤ p ∧ p < width + n then c.bit (p - n) else c.bit p)
    hw ⟨SameWidth.refl, h, fun p => by rw [if_neg (by omega)]⟩ ?_
  · obtain ⟨q, hq, h1, h2, h3⟩ := key
    refine ⟨h1, h2, fun p => ?_⟩
    rw [h3, show pos + (tail - min q tail) + n = pos + n by omega]
  · intro q d hlt ⟨h1, h2, h3⟩
    have hd := h2.shape.size_le
    have hds := h1.size
    generalize hm : min w (tail - q) = m
    generalize hstart : pos + tail - q - m = start
    refine ⟨h1.trans sameWidth_writeBlockAt, h2.writePartial hu (by omega) (by omega) (by omega),
      fun p => ?_⟩
    rw [bit_writePartial h2.shape (by omega) (by omega) (by omega)]
    by_cases hp : start + n ≤ p ∧ p < start + n + m
    · rw [if_pos hp, getLsbD_blockAt h2.shape (by omega) (by omega), h3, if_neg (by omega),
        if_pos (by omega)]
      congr 1
      omega
    · rw [if_neg hp, h3]
      by_cases hin : pos + (tail - min q tail) + n ≤ p ∧ p < width + n
      · rw [if_pos hin, if_pos (by omega)]
      · rw [if_neg hin, if_neg (by omega)]

/-- **The tail moved down**: every position of it `last - pos` lower, all others as they were. -/
theorem shiftDown_spec (h : c.Inv) (hu : V.hasStoredCount = false) (hpos : pos ≤ last)
    (hsize : c.size = width) (hlast : last ≤ width) :
    SameWidth c (shiftDown width pos last c) ∧ (shiftDown width pos last c).Inv ∧
      ∀ p, (shiftDown width pos last c).bit p =
        if pos ≤ p ∧ p < pos + (width - last) then c.bit (p + (last - pos)) else c.bit p := by
  have hw := V.bits_pos
  have hsz := h.shape.size_le
  unfold shiftDown
  generalize htail : width - last = tail
  have key := forStep_inv (k := w) (a := 0) (b := tail)
    (f := fun k (d : BitBlockContainer V) =>
      d.writeBlockAt (pos + k) (d.blockAt (last + k)) (partialBlockMask (min w (tail - k)))) (s := c)
    (fun q d => SameWidth c d ∧ d.Inv ∧ ∀ p, d.bit p =
      if pos ≤ p ∧ p < pos + min q tail then c.bit (p + (last - pos)) else c.bit p)
    hw ⟨SameWidth.refl, h, fun p => by rw [if_neg (by omega)]⟩ ?_
  · obtain ⟨q, hq, h1, h2, h3⟩ := key
    refine ⟨h1, h2, fun p => ?_⟩
    rw [h3, show min q tail = tail by omega]
  · intro q d hlt ⟨h1, h2, h3⟩
    have hd := h2.shape.size_le
    have hds := h1.size
    generalize hm : min w (tail - q) = m
    refine ⟨h1.trans sameWidth_writeBlockAt, h2.writePartial hu (by omega) (by omega) (by omega),
      fun p => ?_⟩
    rw [bit_writePartial h2.shape (by omega) (by omega) (by omega)]
    by_cases hp : pos + q ≤ p ∧ p < pos + q + m
    · rw [if_pos hp, getLsbD_blockAt h2.shape (by omega) (by omega), h3, if_neg (by omega),
        if_pos (by omega)]
      congr 1
      omega
    · rw [if_neg hp, h3]
      by_cases hin : pos ≤ p ∧ p < pos + min q tail
      · rw [if_pos hin, if_pos (by omega)]
      · rw [if_neg hin, if_neg (by omega)]

end Shift

/-! ## 2. A gap -/

/-- **A gap of `n` at `pos`**: the head as it was, the tail `n` higher, and anything between. -/
structure Gapped (c d : BitBlockContainer V) (pos n : Nat) : Prop where
  inv : d.Inv
  roomy : d.mBlocks.Roomy V
  size : d.size = c.size + n
  head : ∀ p, p < pos → d.bit p = c.bit p
  tail : ∀ p, pos ≤ p → p < c.size → d.bit (p + n) = c.bit p

/-- **Positions `pos` to `last` erased.** -/
structure Erased (c d : BitBlockContainer V) (pos last : Nat) : Prop where
  inv : d.Inv
  roomy : d.mBlocks.Roomy V
  size : d.size = c.size - (last - pos)
  head : ∀ p, p < pos → d.bit p = c.bit p
  tail : ∀ p, last ≤ p → p < c.size → d.bit (p - (last - pos)) = c.bit p

section Gap
variable {c d : BitBlockContainer V} {mem : Memory} {pos n last : Nat}

theorem size_of_zeroCapacity (hs : V.hasStoredSize = true) (hz : V.hasZeroCapacity = true) :
    c.size = 0 := by
  rw [size_of_stored hs, if_pos hz]

/-- **A gap opened**, or nothing and a width that did not fit. -/
theorem openGap_ends (h : c.Inv) (hs : V.hasStoredSize = true) (hu : V.hasStoredCount = false)
    (hpos : pos ≤ c.size) :
    Ends (openGap mem pos n) c (fun _ d => Gapped c d pos n)
      fun _ t => t = c ∧ ¬ HasRoom V mem (c.size + n) := by
  refine ends_bind_get (ends_bind checkedWidth_ends ?_)
  intro total _ ⟨hc, htotal⟩
  subst hc htotal
  refine ends_bind
    ((resizeTo_ends h hs).mono (fun _ _ hd => hd) fun _ _ ht => ⟨ht.1, ht.2.2⟩) ?_
  intro _ d hd
  have hsize := hd.size
  refine ends_modify ?_
  by_cases hz : V.hasZeroCapacity = true
  · rw [if_pos hz]
    have hc0 := size_of_zeroCapacity (c := c) hs hz
    exact ⟨hd.inv, hd.roomy, hsize, fun p hp => by omega, fun p _ hp => by omega⟩
  · rw [if_neg hz]
    obtain ⟨hsw, hinv, hbit⟩ := shiftUp_spec hd.inv hu hpos hsize
    refine ⟨hinv, hsw.roomy hd.roomy, by rw [hsw.size, hsize], fun p hp => ?_, fun p h1 h2 => ?_⟩
    · rw [hbit, if_neg (by omega), hd.bit, if_pos (by omega), if_pos (by omega)]
    · rw [hbit, if_pos (by omega), Nat.add_sub_cancel, hd.bit, if_pos (by omega), if_pos h2]

/-- **A gap closed**, which asks the memory for nothing. -/
theorem closeGap_ends (h : c.Inv) (hr : c.mBlocks.Roomy V) (hs : V.hasStoredSize = true)
    (hu : V.hasStoredCount = false) (hpos : pos ≤ last) (hlast : last ≤ c.size) :
    Ends (closeGap mem pos last) c (fun _ d => Erased c d pos last) fun _ _ => False := by
  -- what the shift leaves, before the width shrinks behind it
  have hshift (d : BitBlockContainer V)
      (hd : d = if V.hasZeroCapacity then c else shiftDown c.size pos last c) :
      SameWidth c d ∧ d.Inv ∧ ∀ p, p < c.size - (last - pos) →
        d.bit p = if p < pos then c.bit p else c.bit (p + (last - pos)) := by
    by_cases hz : V.hasZeroCapacity = true
    · rw [if_pos hz] at hd
      subst hd
      have hc0 := size_of_zeroCapacity (c := d) hs hz
      exact ⟨SameWidth.refl, h, fun p hp => by omega⟩
    · rw [if_neg hz] at hd
      subst hd
      obtain ⟨hsw, hinv, hbit⟩ := shiftDown_spec h hu hpos rfl hlast
      refine ⟨hsw, hinv, fun p hp => ?_⟩
      rw [hbit]
      by_cases hp1 : p < pos
      · rw [if_pos hp1, if_neg (by omega)]
      · rw [if_neg hp1, if_pos (by omega)]
  refine ends_bind_get (ends_bind (ends_modify (R := fun _ d =>
    d = if V.hasZeroCapacity then c else shiftDown c.size pos last c) rfl) ?_)
  intro _ d hd
  obtain ⟨hsw, hinv, hbit⟩ := hshift d hd
  have hsize := hsw.size
  refine (shrink_ends hinv (hsw.roomy hr) hs (by omega)).mono (fun _ e he => ?_) fun _ _ ht => ht
  refine ⟨he.inv, he.roomy, he.size, fun p hp => ?_, fun p h1 h2 => ?_⟩
  · by_cases hin : p < c.size - (last - pos)
    · rw [he.bit, if_pos hin, if_pos (by omega), hbit p hin, if_pos hp]
    · omega
  · rw [he.bit, if_pos (by omega), if_pos (by omega), hbit _ (by omega), if_neg (by omega)]
    congr 1
    omega

/-- **A gap closed again leaves what was there before it was opened.** -/
theorem Gapped.close_ends (h : Gapped c d pos n) (hc : c.Inv) (hs : V.hasStoredSize = true)
    (hu : V.hasStoredCount = false) (hpos : pos ≤ c.size) :
    Ends (closeGap mem pos (pos + n)) d (fun _ t => Intact c t) fun _ _ => False := by
  have hsize := h.size
  refine (closeGap_ends h.inv h.roomy hs hu (by omega) (by omega)).mono (fun _ t ht => ?_)
    fun _ _ ht => ht
  have hts := ht.size
  refine hc.intact ht.inv (by omega) fun p hp => ?_
  by_cases hp1 : p < pos
  · rw [ht.head p hp1, h.head p hp1]
  · have := ht.tail (p + n) (by omega) (by omega)
    rw [← h.tail p (by omega) hp, ← this]
    congr 1
    omega

end Gap

/-! ## 3. What is written into it -/

/-- `write_at`: the range's elements from `pos` on, one at a time. -/
def writeAt (pos : Nat) (rg : ValueRange) : Action V Unit :=
  forEach rg (fun pos x => modify (·.assign pos x) >>= fun _ => pure (pos + 1)) pos >>= fun _ =>
    pure ()

/-- `blit_at`: the source's bits over `[pos, pos + count)`, a block at a time. -/
def blitAt {U : Vehicle w} (pos : Nat) (src : BitBlockContainer U) (first count : Nat)
    (c : BitBlockContainer V) : BitBlockContainer V :=
  forStep w 0 count (fun k c =>
    c.writeBlockAt (pos + k) (src.blockAt (first + k)) (partialBlockMask (min w (count - k)))) c

/-- **The first `m` places of a gap written**, from `g`. -/
structure Filled (c d : BitBlockContainer V) (pos n m : Nat) (g : Nat → Bool) : Prop where
  gap : Gapped c d pos n
  new : ∀ i, i < m → d.bit (pos + i) = g i

section Fill
variable {c d e : BitBlockContainer V} {pos n m k : Nat} {g : Nat → Bool}

/-- A write within a gap keeps it. -/
theorem Gapped.write (h : Gapped c d pos n) (hsw : SameWidth d e)
    (hinv : e.Inv) (hout : ∀ p, p < pos ∨ pos + n ≤ p → e.bit p = d.bit p) : Gapped c e pos n where
  inv := hinv
  roomy := hsw.roomy h.roomy
  size := by rw [hsw.size, h.size]
  head p hp := by rw [hout p (Or.inl hp), h.head p hp]
  tail p h1 h2 := by rw [hout _ (Or.inr (by omega)), h.tail p h1 h2]

/-- **`k` places more.** -/
theorem Filled.write (h : Filled c d pos n m g) (hm : m + k ≤ n)
    (hsw : SameWidth d e) (hinv : e.Inv)
    (hbit : ∀ p, e.bit p = if pos + m ≤ p ∧ p < pos + m + k then g (p - pos) else d.bit p) :
    Filled c e pos n (m + k) g where
  gap := h.gap.write hsw hinv fun p hp => by rw [hbit, if_neg (by omega)]
  new i hi := by
    rw [hbit]
    by_cases hold : i < m
    · rw [if_neg (by omega), h.new i hold]
    · rw [if_pos (by omega), Nat.add_sub_cancel_left]

/-- **Values written into a gap**, which a read that throws leaves open. -/
theorem writeAt_ends {rg : ValueRange} (h : Gapped c d pos rg.distance) (hpos : pos ≤ c.size) :
    Ends (writeAt pos rg) d
      (fun _ e => Filled c e pos rg.distance rg.distance fun i => rg.read.getD i false)
      fun _ t => Gapped c t pos rg.distance ∧ rg.throws = true := by
  unfold writeAt forEach
  refine ends_bind (rg.read_ends (P := fun m at' d =>
    at' = pos + m ∧ Filled c d pos rg.distance m fun i => rg.read.getD i false) ?_ ?_ ?_)
    fun _ _ he => ends_pure he.2
  · intro m _ d hm ⟨hat, hd⟩
    subst hat
    have hlt : pos + m < d.size := by
      rw [hd.gap.size]
      omega
    refine ends_bind (ends_modify (R := fun _ e =>
      Filled c e pos rg.distance (m + 1) fun i => rg.read.getD i false) ?_) fun _ e he =>
        ends_pure ⟨rfl, he⟩
    refine hd.write hm sameWidth_assign (hd.gap.inv.assign hlt) fun p => ?_
    rw [bit_assign hd.gap.inv.shape hlt]
    by_cases hp : p = pos + m
    · rw [if_pos hp, if_pos (by omega), hp, Nat.add_sub_cancel_left]
    · rw [if_neg hp, if_neg (by omega)]
  · exact ⟨rfl, h, fun i hi => absurd hi (Nat.not_lt_zero _)⟩
  · exact fun hthrows _ _ hd => ⟨hd.2.gap, hthrows⟩

/-- **A window of another sequence written into a gap.** -/
theorem blitAt_spec {U : Vehicle w} {src : BitBlockContainer U} {first : Nat}
    (h : Gapped c d pos n) (hpos : pos ≤ c.size) (hu : V.hasStoredCount = false) (hsrc : src.Inv)
    (hin : first + n ≤ src.size) :
    Filled c (blitAt pos src first n d) pos n n fun i => src.bit (first + i) := by
  have hss := hsrc.shape.size_le
  unfold blitAt
  have key := forStep_inv (k := w) (a := 0) (b := n)
    (f := fun k (d : BitBlockContainer V) => d.writeBlockAt (pos + k) (src.blockAt (first + k))
      (partialBlockMask (min w (n - k)))) (s := d)
    (fun q d => Filled c d pos n (min q n) fun i => src.bit (first + i))
    V.bits_pos ⟨h, fun i hi => by omega⟩ ?_
  · obtain ⟨q, hq, hd⟩ := key
    rwa [show min q n = n by omega] at hd
  · intro q d hlt hd
    have hsize := hd.gap.size
    have hds := hd.gap.inv.shape.size_le
    have hw := V.bits_pos
    generalize hm : min w (n - q) = m
    have hwrite : Filled c (d.writeBlockAt (pos + q) (src.blockAt (first + q)) (partialBlockMask m))
        pos n (min q n + m) fun i => src.bit (first + i) := by
      refine hd.write (by omega) sameWidth_writeBlockAt
        (hd.gap.inv.writePartial hu (by omega) (by omega) (by omega)) fun p => ?_
      rw [bit_writePartial hd.gap.inv.shape (by omega) (by omega) (by omega),
        show min q n = q by omega]
      split
      · rw [getLsbD_blockAt hsrc.shape (by omega) (by omega)]
        congr 1
        omega
      · rfl
    rwa [show min (q + w) n = min q n + m by omega]

/-- **One value written all over a gap.** -/
theorem Gapped.setRange {v : Bool} (h : Gapped c d pos n) (hpos : pos ≤ c.size) :
    Filled c (d.setRange pos n v) pos n n fun _ => v := by
  have hsize := h.size
  have hlen : pos + n ≤ d.size := by omega
  refine ⟨h.write (sameWidth_setRange h.inv.shape hlen) (h.inv.setRange hlen) fun p hp => ?_,
    fun i hi => ?_⟩
  · rw [bit_setRange h.inv.shape hlen, if_neg (by omega)]
  · rw [bit_setRange h.inv.shape hlen, if_pos (by omega)]

end Fill

/-! ## 4. Opened and closed again -/

section Moves
variable {c : BitBlockContainer V} {pos : Nat}

/-- **Gap moves keep what they move past.** A gap is opened wherever its width fits, and a refusal
    leaves the sequence; every old position from `pos` on stands `n` higher, and those below stand
    still. Closing the positions from `pos` to `last` brings each from `last` on as far down. So
    closing a gap, whatever was written into it, leaves the sequence that was there. -/
theorem gap_moves_exact (h : c.Inv) (hr : c.mBlocks.Roomy V) (hs : V.hasStoredSize = true)
    (hu : V.hasStoredCount = false) (hpos : pos ≤ c.size) :
    (∀ mem n, HasRoom V mem (c.size + n) → Completes (openGap mem pos n) c) ∧
    (∀ mem n, Strong (openGap mem pos n) c) ∧
    (∀ mem n d, openGap mem pos n c = .ok () d →
      (d.Inv ∧ d.size = c.size + n ∧ (∀ p, p < pos → d.bit p = c.bit p) ∧
        ∀ p, pos ≤ p → p < c.size → d.bit (p + n) = c.bit p) ∧
      ∀ mem' e, SameWidth d e → e.Inv → (∀ p, p < pos ∨ pos + n ≤ p → e.bit p = d.bit p) →
        ∃ t, closeGap mem' pos (pos + n) e = .ok () t ∧ Intact c t) ∧
    ∀ mem last, pos ≤ last → last ≤ c.size → ∃ d, closeGap mem pos last c = .ok () d ∧ d.Inv ∧
      d.size = c.size - (last - pos) ∧ (∀ p, p < pos → d.bit p = c.bit p) ∧
      ∀ p, last ≤ p → p < c.size → d.bit (p - (last - pos)) = c.bit p := by
  have hopen (mem : Memory) (n : Nat) : Ends (openGap mem pos n) c (fun _ d => Gapped c d pos n)
      fun _ t => t = c ∧ ¬ HasRoom V mem (c.size + n) := openGap_ends h hs hu hpos
  refine ⟨fun mem n hroom => ?_, fun mem n e t he => ((hopen mem n).error he).1,
    fun mem n d hd => ⟨?_, fun mem' e hsw hinv hout => ?_⟩, fun mem last hle hlast => ?_⟩
  · exact ((hopen mem n).mono (fun _ _ hd => hd) fun _ _ ht => ht.2 hroom).completes
      fun _ _ hf => hf
  · have hgap := (hopen mem n).ok hd
    exact ⟨hgap.inv, hgap.size, hgap.head, hgap.tail⟩
  · have hgap := ((hopen mem n).ok hd).write hsw hinv hout
    have hclose : Ends (closeGap mem' pos (pos + n)) e (fun _ t => Intact c t) fun _ _ => False :=
      hgap.close_ends h hs hu hpos
    obtain ⟨_, t, ht⟩ := hclose.completes fun _ _ hf => hf
    exact ⟨t, ht, hclose.ok ht⟩
  · have hclose : Ends (closeGap mem pos last) c (fun _ d => Erased c d pos last)
        fun _ _ => False :=
      closeGap_ends h hr hs hu hle hlast
    obtain ⟨_, d, hd⟩ := hclose.completes fun _ _ hf => hf
    have herased := hclose.ok hd
    exact ⟨d, hd, herased.inv, herased.size, herased.head, herased.tail⟩

end Moves

/-- A gap of eleven opened at five of twelve bools, so that five, nine and ten stand eleven higher, and
    closed. -/
theorem gap_moves_exact_twelve : ∃ d t : BitBlockContainer (byteVector false),
    openGap .ample 5 11 (fourOfTwelve false) = .ok () d ∧ d.size = 23 ∧ d.bit 3 = true ∧
    d.bit 16 = true ∧ d.bit 20 = false ∧ d.bit 21 = true ∧ closeGap .ample 5 16 d = .ok () t ∧
    ∀ p, t.bit p = (fourOfTwelve false).bit p := by
  obtain ⟨-, -, hopen, -⟩ := gap_moves_exact (fourOfTwelve_inv false) (fun _ => Nat.le_refl 2) rfl
    rfl (show 5 ≤ 12 by decide)
  obtain ⟨⟨hinv, hsize, hhead, htail⟩, hclose⟩ := hopen .ample 11 _ rfl
  obtain ⟨t, ht, hintact⟩ := hclose .ample _ SameWidth.refl hinv fun _ _ => rfl
  exact ⟨_, t, rfl, hsize, (hhead 3 (by decide)).trans (by decide),
    (htail 5 (by decide) (by decide)).trans (by decide),
    (htail 9 (by decide) (by decide)).trans (by decide),
    (htail 10 (by decide) (by decide)).trans (by decide), ht, hintact.bit⟩

end SequenceAdaptor

end XstdBits
