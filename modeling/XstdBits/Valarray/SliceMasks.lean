/-
  File: XstdBits/Valarray/SliceMasks.lean
  Subject: the masks of a slice whose stride is below the block width.

  Every block's mask is one pattern of the stride's multiples, shifted to where the slice's next
  position lies; after whole periods of blocks the shift is the same again, so the masks between
  the first block and the last come from a table.
  * `offset_spec`: the shift of the `q`-th block, by what it is modulo the stride.
  * `SliceMasks.entry_bits`: a table entry serves every block a whole number of periods from it.
  * `sliceMasks_walks`: the walk comes to the slice's blocks, its edges cut, with the slice's bits.

  `bit_repeat` comes with the integers and is a parameter here; `Repeats` is what it does.
-/
import XstdBits.Valarray.Masks
import Mathlib.Data.Nat.ModEq
import Mathlib.Data.Nat.Prime.Basic

namespace XstdBits

/-! ## 1. The masks -/

section Make
variable {w : Nat}

/-- **What `bit_repeat` does**: the low `n` bits over and over. -/
def Repeats (bitRepeat : BitVec w → Nat → BitVec w) : Prop :=
  ∀ x n j, 0 < n → j < w → (bitRepeat x n).getLsbD j = x.getLsbD (j % n)

/-- The bits written one by one. -/
def repeatBits (x : BitVec w) (n : Nat) : BitVec w :=
  (BitVec.ofBoolListLE ((List.range w).map fun j => x.getLsbD (j % n))).setWidth w

theorem repeats_repeatBits : Repeats (repeatBits : BitVec w → Nat → BitVec w) := by
  intro x n j _ hj
  unfold repeatBits
  rw [BitVec.getLsbD_setWidth, BitVec.getLsbD_ofBoolListLE, decide_eq_true hj, Bool.true_and,
    List.getD_eq_getElem _ _ (by simpa using hj), List.getElem_map, List.getElem_range]

/-- The members of `slice_masks`. -/
structure SliceMasks (w : Nat) where
  first : Nat
  last : Nat
  span : Nat
  spansEnd : Nat
  firstMask : BitVec w
  lastMask : BitVec w
  masks : List (BitVec w)
  counts : List Nat

/-- `step`: where the next block's first position lies. -/
def nextOffset (stride carry offset : Nat) : Nat :=
  if carry ≤ offset then offset - carry else offset + stride - carry

/-- The masks of `n` blocks from the one whose first position lies at `offset`. -/
def maskTable (ones : BitVec w) (stride carry : Nat) : Nat → Nat → List (BitVec w)
  | 0, _ => []
  | n + 1, offset =>
      shl ones offset :: maskTable ones stride carry n (nextOffset stride carry offset)

/-- The constructor. Over one block no middle is left, so the index of its last mask wraps. -/
def SliceMasks.make (bitRepeat : BitVec w → Nat → BitVec w) (start size stride : Nat) :
    SliceMasks w :=
  let first := start / w
  let last := (start + (size - 1) * stride) / w + 1
  let span := Slice.spanOf w stride
  let ones := bitRepeat unit stride
  let carry := w % stride
  let tail := partialBlockMask ((start + (size - 1) * stride) % w + 1)
  let offset := start % w % stride
  let cut := shl ones offset &&& ~~~partialBlockMask (start % w)
  let masks := maskTable ones stride carry span (nextOffset stride carry offset)
  { first, last, span
    spansEnd := first + 1 + (last - first - min (last - first) 2) / span * span
    firstMask := if first + 1 = last then cut &&& tail else cut
    lastMask := masks.getD ((last + 2 ^ 64 - first - 2) % 2 ^ 64 % span) zero &&& tail
    masks
    counts := masks.map popcount }

namespace SliceMasks
variable (m : SliceMasks w)

/-- A block at an edge, its popcount taken. -/
def edge (k : Nat) (mask : BitVec w) : MaskStep w := ⟨k, fun _ => some mask, popcount⟩

/-- A block between, with an entry of the tables. -/
def entry (k p : Nat) : MaskStep w :=
  ⟨k, fun _ => some (m.masks.getD p zero), fun _ => m.counts.getD p 0⟩

/-- The blocks between the first and the last: one constant mask where the stride divides the
    block width, else whole spans of the table and what is left of one. -/
def middle : List (MaskStep w) :=
  if m.span = w then
    (List.range' (m.first + 1) (m.last - (m.first + 2))).map fun k => m.entry k 0
  else
    ((List.range ((m.spansEnd - (m.first + 1)) / m.span)).flatMap fun i =>
      (List.range m.span).map fun p => m.entry (m.first + 1 + i * m.span + p) p) ++
    (List.range (m.last - 1 - m.spansEnd)).map fun p => m.entry (m.spansEnd + p) p

/-- `for_each`: the edges cut, the middle over the table. -/
def forEach : List (MaskStep w) :=
  edge m.first m.firstMask ::
    if m.first + 1 = m.last then [] else m.middle ++ [edge (m.last - 1) m.lastMask]

end SliceMasks

end Make

/-! ## 2. The table -/

section Table
variable {w stride : Nat}

/-- Where the first position of the `q`-th block lies. -/
def offsetOf (stride carry : Nat) : Nat → Nat → Nat
  | 0, offset => offset
  | q + 1, offset => offsetOf stride carry q (nextOffset stride carry offset)

theorem getD_maskTable {ones : BitVec w} {carry : Nat} : ∀ (n p offset : Nat), p < n →
    (maskTable ones stride carry n offset).getD p zero = shl ones (offsetOf stride carry p offset)
  | 0, _, _, h => absurd h (Nat.not_lt_zero _)
  | _ + 1, 0, _, _ => rfl
  | n + 1, p + 1, offset, h => by
      rw [maskTable, List.getD_cons_succ, getD_maskTable n p _ (Nat.lt_of_succ_lt_succ h)]
      rfl

theorem length_maskTable {ones : BitVec w} {carry : Nat} : ∀ n offset : Nat,
    (maskTable ones stride carry n offset).length = n
  | 0, _ => rfl
  | n + 1, _ => by rw [maskTable, List.length_cons, length_maskTable n]

theorem nextOffset_spec {offset : Nat} (h : offset < stride) :
    nextOffset stride (w % stride) offset < stride ∧
      nextOffset stride (w % stride) offset + w ≡ offset [MOD stride] := by
  have hlt : w % stride < stride := Nat.mod_lt w (by omega)
  have hmod : w % stride ≡ w [MOD stride] := Nat.mod_modEq w stride
  unfold nextOffset
  split
  · refine ⟨by omega, ?_⟩
    have hsum : offset - w % stride + w % stride ≡ offset - w % stride + w [MOD stride] :=
      hmod.add_left _
    rw [Nat.sub_add_cancel (by omega)] at hsum
    exact hsum.symm
  · refine ⟨by omega, ?_⟩
    have hsum : offset + stride - w % stride + w % stride ≡ offset + stride - w % stride + w
        [MOD stride] := hmod.add_left _
    rw [Nat.sub_add_cancel (by omega)] at hsum
    exact hsum.symm.trans (Nat.add_modEq_right)

/-- **The shift of the `q`-th block**, by what it is modulo the stride. -/
theorem offset_spec : ∀ (q offset : Nat), offset < stride →
    offsetOf stride (w % stride) q offset < stride ∧
      offsetOf stride (w % stride) q offset + q * w ≡ offset [MOD stride]
  | 0, offset, h => ⟨h, by rw [Nat.zero_mul, Nat.add_zero]; exact Nat.ModEq.rfl⟩
  | q + 1, offset, h => by
      obtain ⟨h1, h2⟩ := nextOffset_spec (w := w) h
      obtain ⟨h3, h4⟩ := offset_spec q _ h1
      refine ⟨h3, ?_⟩
      rw [Nat.succ_mul, ← Nat.add_assoc]
      exact (h4.add_right w).trans h2

/-- A pattern shifted by less than its stride: the bits that are the shift modulo the stride. -/
theorem getLsbD_pattern {bitRepeat : BitVec w → Nat → BitVec w} (hr : Repeats bitRepeat)
    {offset j : Nat} (ho : offset < stride) (hj : j < w) :
    (shl (bitRepeat unit stride) offset).getLsbD j = decide (j % stride = offset) := by
  have hdiv := Nat.mod_add_div j stride
  rw [getLsbD_shl hj]
  by_cases hle : offset ≤ j
  · rw [decide_eq_true hle, Bool.true_and, hr _ _ _ (by omega) (by omega), BitVec.getLsbD_one,
      decide_eq_true (show 0 < w by omega), Bool.true_and, decide_eq_decide]
    have hmod : offset ≡ j [MOD stride] ↔ stride ∣ j - offset := Nat.modEq_iff_dvd' hle
    rw [← Nat.dvd_iff_mod_eq_zero, ← hmod]
    unfold Nat.ModEq
    rw [Nat.mod_eq_of_lt ho]
    exact eq_comm
  · have hlt : j % stride ≤ j := Nat.mod_le j stride
    rw [decide_eq_false hle, Bool.false_and, decide_eq_false (by omega)]

end Table

/-! ## 3. The walk -/

section Walk
variable {w start size stride : Nat} {bitRepeat : BitVec w → Nat → BitVec w}
  {bs : List (BitVec w)}

/-- The last position. -/
def lastOf (start size stride : Nat) : Nat := start + (size - 1) * stride

/-- The slice as a string of bits. -/
def sliceBits (start size stride : Nat) (p : Nat) : Bool :=
  decide (start ≤ p ∧ p ≤ lastOf start size stride ∧ (p - start) % stride = 0)

/-- The whole spans of the table end a period. -/
theorem dvd_spanOf : stride ∣ Slice.spanOf w stride * w := by
  have hg : Nat.gcd stride w ∣ stride := Nat.gcd_dvd_left stride w
  have hperiod : stride ∣ stride / Nat.gcd stride w * w := by
    obtain ⟨b, hb⟩ := Nat.gcd_dvd_right stride w
    generalize Nat.gcd stride w = g at hg hb ⊢
    refine ⟨b, ?_⟩
    rw [hb, ← Nat.mul_assoc, Nat.div_mul_cancel hg]
  unfold Slice.spanOf
  rw [Nat.mul_assoc]
  exact Dvd.dvd.mul_left hperiod _

theorem spanOf_pos (h0 : 0 < stride) (hw : stride < w) : 0 < Slice.spanOf w stride := by
  have hg := Nat.gcd_pos_of_pos_left w h0
  have hp : 0 < stride / Nat.gcd stride w :=
    Nat.div_pos (Nat.le_of_dvd h0 (Nat.gcd_dvd_left stride w)) hg
  have hle : stride / Nat.gcd stride w ≤ stride := Nat.div_le_self _ _
  unfold Slice.spanOf
  exact Nat.mul_pos (Nat.div_pos (by omega) hp) hp

/-- A table of as many spans as the block has bits is of one period of one block. -/
theorem dvd_of_spanOf (hw : ∃ e, w = 2 ^ e) (h0 : 0 < stride) (hlt : stride < w)
    (h : Slice.spanOf w stride = w) : stride ∣ w := by
  obtain ⟨e, rfl⟩ := hw
  have hg := Nat.gcd_pos_of_pos_left (2 ^ e) h0
  have hgs : Nat.gcd stride (2 ^ e) ∣ stride := Nat.gcd_dvd_left _ _
  have hgw : Nat.gcd stride (2 ^ e) ∣ 2 ^ e := Nat.gcd_dvd_right _ _
  have hcop : Nat.Coprime (stride / Nat.gcd stride (2 ^ e)) (2 ^ e / Nat.gcd stride (2 ^ e)) :=
    Nat.coprime_div_gcd_div_gcd hg
  have hdvd : stride / Nat.gcd stride (2 ^ e) ∣ 2 ^ e := by
    unfold Slice.spanOf at h
    exact ⟨_, h.symm.trans (Nat.mul_comm _ _)⟩
  -- The width over the divisor is a power of two above one, so the period is odd: it is one.
  obtain ⟨a, ha, hpa⟩ := (Nat.dvd_prime_pow Nat.prime_two).mp hdvd
  obtain ⟨b, hb, hgb⟩ := (Nat.dvd_prime_pow Nat.prime_two).mp hgw
  have hbe : b < e := by
    refine (Nat.pow_lt_pow_iff_right Nat.one_lt_two).mp ?_
    rw [← hgb]
    exact Nat.lt_of_le_of_lt (Nat.le_of_dvd h0 hgs) hlt
  have hquot : 2 ^ e / Nat.gcd stride (2 ^ e) = 2 ^ (e - b) := by
    rw [hgb, Nat.pow_div hb (by decide)]
  rw [hpa, hquot] at hcop
  have ha0 : a = 0 := by
    by_contra hne
    have h2 : 2 ∣ Nat.gcd (2 ^ a) (2 ^ (e - b)) :=
      Nat.dvd_gcd (dvd_pow_self 2 hne) (dvd_pow_self 2 (by omega))
    rw [hcop] at h2
    exact absurd (Nat.le_of_dvd (by decide) h2) (by decide)
  rw [ha0, Nat.pow_zero] at hpa
  rw [(Nat.eq_of_dvd_of_div_eq_one hgs hpa).symm]
  exact hgw

variable (start) in
/-- A mask of the stride's multiples, from the shift of block `q` on. -/
theorem getLsbD_pattern_block (hr : Repeats bitRepeat) (h0 : 0 < stride) {q j : Nat} (hj : j < w) :
    (shl (bitRepeat unit stride) (offsetOf stride (w % stride) q (start % w % stride))).getLsbD j =
      decide ((q * w + j) % stride = start % w % stride) := by
  obtain ⟨hlt, hmod⟩ := offset_spec (w := w) q _ (Nat.mod_lt (start % w) h0)
  rw [getLsbD_pattern hr hlt hj, decide_eq_decide]
  generalize offsetOf stride (w % stride) q (start % w % stride) = o at hlt hmod ⊢
  have hiff : j ≡ o [MOD stride] ↔ q * w + j ≡ start % w [MOD stride] := by
    have hstart : o + q * w ≡ start % w [MOD stride] := hmod.trans (Nat.mod_modEq _ _)
    rw [Nat.add_comm] at hstart
    exact ⟨fun h => (h.add_left _).trans hstart,
      fun h => Nat.ModEq.add_left_cancel' _ (h.trans hstart.symm)⟩
  unfold Nat.ModEq at hiff
  rwa [Nat.mod_eq_of_lt hlt] at hiff

variable (start size) in
/-- **A table entry serves every block** a whole number of periods from its own. -/
theorem SliceMasks.entry_bits (hr : Repeats bitRepeat) (h0 : 0 < stride) {p q j : Nat}
    (hp : p < Slice.spanOf w stride) (h : (p + 1) * w ≡ q * w [MOD stride]) (hj : j < w) :
    ((make bitRepeat start size stride).masks.getD p zero).getLsbD j =
      decide ((q * w + j) % stride = start % w % stride) := by
  have hget : (make bitRepeat start size stride).masks.getD p zero =
      shl (bitRepeat unit stride) (offsetOf stride (w % stride) (p + 1) (start % w % stride)) :=
    getD_maskTable _ _ _ hp
  rw [hget, getLsbD_pattern_block start hr h0 hj]
  congr 2
  exact h.add_right j

/-- The slice's bits in the `q`-th block from its first. -/
theorem sliceBits_block (q j : Nat) :
    sliceBits start size stride ((start / w + q) * w + j) =
      decide (start % w ≤ q * w + j ∧ (start / w + q) * w + j ≤ lastOf start size stride ∧
        (q * w + j) % stride = start % w % stride) := by
  have hstart := Nat.div_add_mod' start w
  unfold sliceBits
  rw [Nat.add_mul, decide_eq_decide]
  have hle : start ≤ start / w * w + q * w + j ↔ start % w ≤ q * w + j := by omega
  rw [hle]
  refine and_congr_right fun hle => and_congr_right fun _ => ?_
  rw [show start / w * w + q * w + j - start = q * w + j - start % w by omega,
    ← Nat.dvd_iff_mod_eq_zero, ← Nat.modEq_iff_dvd' hle]
  exact eq_comm

/-- A whole number of periods of blocks changes no shift. -/
theorem modEq_periods (i p : Nat) :
    (p + 1) * w ≡ (i * Slice.spanOf w stride + p + 1) * w [MOD stride] := by
  have hdvd : stride ∣ i * Slice.spanOf w stride * w := by
    rw [Nat.mul_assoc]
    exact Dvd.dvd.mul_left dvd_spanOf i
  have hzero := (Nat.modEq_zero_iff_dvd.mpr hdvd).add_right ((p + 1) * w)
  rw [Nat.zero_add, ← Nat.add_mul, ← Nat.add_assoc] at hzero
  exact hzero.symm

theorem modEq_spans (n : Nat) :
    (n % Slice.spanOf w stride + 1) * w ≡ (n + 1) * w [MOD stride] := by
  have hn := Nat.div_add_mod' n (Slice.spanOf w stride)
  have h : (n % Slice.spanOf w stride + 1) * w ≡ (n / Slice.spanOf w stride *
    Slice.spanOf w stride + n % Slice.spanOf w stride + 1) * w [MOD stride] := modEq_periods _ _
  rwa [hn] at h

/-- Spans of a range one after the other. -/
theorem forall₂_spans {α : Type} {R : α → Nat → Prop} {step : Nat → Nat → α} {span a : Nat} :
    ∀ {t : Nat}, (∀ i p, i < t → p < span → R (step i p) (a + i * span + p)) →
    List.Forall₂ R ((List.range t).flatMap fun i => (List.range span).map (step i))
      (List.range' a (t * span))
  | 0, _ => by
      rw [Nat.zero_mul]
      exact List.Forall₂.nil
  | t + 1, h => by
      rw [List.range_succ, List.flatMap_append, List.flatMap_singleton, Nat.succ_mul,
        ← List.range'_append_1]
      refine List.rel_append (forall₂_spans fun i p hi hp => h i p (by omega) hp) ?_
      rw [List.range'_eq_map_range, List.forall₂_map_left_iff, List.forall₂_map_right_iff,
        List.forall₂_same]
      intro p hp
      exact h t p (Nat.lt_succ_self t) (List.mem_range.mp hp)

/-- The index of the last block's entry wraps round only where no block lies between. -/
theorem wrapped_index {first last : Nat} (h : first < last) (hlt : last < 2 ^ 64) :
    (last + 1 + 2 ^ 64 - first - 2) % 2 ^ 64 = last - first - 1 := by
  rw [show last + 1 + 2 ^ 64 - first - 2 = last - first - 1 + 2 ^ 64 by omega, Nat.add_mod_right,
    Nat.mod_eq_of_lt (by omega)]

section Visits
variable (hw : ∃ e, w = 2 ^ e) (hr : Repeats bitRepeat) (h0 : 0 < stride)
include hw hr h0

omit hr h0 in
theorem pos_of_pow : 0 < w := by
  obtain ⟨e, rfl⟩ := hw
  exact Nat.two_pow_pos e

/-- The first block's mask, cut below the start, and above the last position where it is there. -/
theorem SliceMasks.first_visits :
    (edge (start / w) (make bitRepeat start size stride).firstMask).Visits bs
      (sliceBits start size stride) (start / w) := by
  have hpos := pos_of_pow hw
  have hstart := Nat.mod_lt start hpos
  have hlast := Nat.mod_lt (lastOf start size stride) hpos
  have hdiv := Nat.div_add_mod' (lastOf start size stride) w
  refine ⟨rfl, _, rfl, rfl, fun j hj => ?_⟩
  have hcut : (shl (bitRepeat unit stride) (start % w % stride) &&&
      ~~~partialBlockMask (start % w)).getLsbD j =
        decide (start % w ≤ j ∧ j % stride = start % w % stride) := by
    have hpat := getLsbD_pattern_block start hr h0 (q := 0) hj
    rw [Nat.zero_mul, Nat.zero_add] at hpat
    have hpat : (shl (bitRepeat unit stride) (start % w % stride)).getLsbD j = _ := hpat
    rw [BitVec.getLsbD_and, hpat, BitVec.getLsbD_not, decide_eq_true hj, Bool.true_and,
      getLsbD_partialBlockMask (by omega)]
    by_cases hle : start % w ≤ j
    · simp [hle]
    · simp [hle, Nat.lt_of_not_le hle]
  have hblock : sliceBits start size stride ((start / w + 0) * w + j) = _ := sliceBits_block 0 j
  rw [Nat.zero_mul, Nat.zero_add, Nat.add_zero] at hblock
  rw [hblock]
  show (if start / w + 1 = lastOf start size stride / w + 1 then _ else _ : BitVec w).getLsbD j = _
  have hle : start ≤ lastOf start size stride := Nat.le_add_right _ _
  have hle := Nat.div_le_div_right (c := w) hle
  split
  · rename_i heq
    have heq : start / w = lastOf start size stride / w := Nat.succ.inj heq
    rw [BitVec.getLsbD_and, hcut]
    show (_ && (partialBlockMask (lastOf start size stride % w + 1) : BitVec w).getLsbD j) = _
    rw [getLsbD_partialBlockMask (by omega), ← Bool.decide_and, decide_eq_decide, heq]
    constructor
    · intro ⟨⟨h1, h2⟩, h3⟩
      exact ⟨h1, by omega, h2⟩
    · intro ⟨h1, h2, h3⟩
      exact ⟨⟨h1, h3⟩, by omega⟩
  · rename_i hne
    have hlt := Nat.mul_le_mul_right w
      (show start / w + 1 ≤ lastOf start size stride / w by omega)
    rw [Nat.succ_mul] at hlt
    rw [hcut, decide_eq_decide]
    constructor
    · intro ⟨h1, h2⟩
      exact ⟨h1, by omega, h2⟩
    · intro ⟨h1, _, h2⟩
      exact ⟨h1, h2⟩

/-- The bits of a block between the first and the last are not cut. -/
theorem SliceMasks.entry_visits {p q : Nat} (hp : p < Slice.spanOf w stride)
    (h : (p + 1) * w ≡ q * w [MOD stride]) (hq : 0 < q)
    (hlast : start / w + q < lastOf start size stride / w) :
    (entry (make bitRepeat start size stride) (start / w + q) p).Visits bs
      (sliceBits start size stride) (start / w + q) := by
  refine ⟨rfl, _, rfl, ?_, fun j hj => ?_⟩
  · show ((make bitRepeat start size stride).masks.map popcount).getD p 0 = _
    have hin : p < (make bitRepeat start size stride).masks.length := by
      show p < (maskTable _ _ _ _ _).length
      rw [length_maskTable]
      exact hp
    rw [List.getD_eq_getElem _ _ (by rwa [List.length_map]), List.getElem_map,
      List.getD_eq_getElem _ _ hin]
  · rw [entry_bits start size hr h0 hp h hj, sliceBits_block, decide_eq_decide]
    have hpos := pos_of_pow hw
    have hmod := Nat.mod_lt start hpos
    have h1 : w ≤ q * w := Nat.le_mul_of_pos_left w hq
    have h2 := Nat.mul_le_mul_right w (show start / w + q + 1 ≤ lastOf start size stride / w from hlast)
    rw [Nat.succ_mul] at h2
    have h3 := Nat.div_mul_le_self (lastOf start size stride) w
    constructor
    · intro h
      exact ⟨by omega, by omega, h⟩
    · intro h
      exact h.2.2

/-- The last block's mask, cut above the last position. -/
theorem SliceMasks.last_visits (hlt : stride < w) (hmax : lastOf start size stride < 2 ^ 64)
    (hne : start / w < lastOf start size stride / w) :
    (edge (lastOf start size stride / w) (make bitRepeat start size stride).lastMask).Visits bs
      (sliceBits start size stride) (lastOf start size stride / w) := by
  have hpos := pos_of_pow hw
  have hstart := Nat.mod_lt start hpos
  have hlast := Nat.mod_lt (lastOf start size stride) hpos
  have hdiv := Nat.div_add_mod' (lastOf start size stride) w
  have hblocks := Nat.div_le_self (lastOf start size stride) w
  generalize hn : lastOf start size stride / w - start / w - 1 = n
  have hindex := wrapped_index hne (Nat.lt_of_le_of_lt hblocks hmax)
  rw [hn] at hindex
  have hq : lastOf start size stride / w = start / w + (n + 1) := by omega
  refine ⟨rfl, _, rfl, rfl, fun j hj => ?_⟩
  have hentry := entry_bits start size hr h0
    (Nat.mod_lt n (spanOf_pos (w := w) h0 hlt)) (modEq_spans n) hj
  show ((make bitRepeat start size stride).masks.getD
    ((lastOf start size stride / w + 1 + 2 ^ 64 - start / w - 2) % 2 ^ 64 % Slice.spanOf w stride) zero &&&
      partialBlockMask (lastOf start size stride % w + 1)).getLsbD j = _
  have hcross : w ≤ (n + 1) * w := Nat.le_mul_of_pos_left w (Nat.succ_pos n)
  rw [BitVec.getLsbD_and, hindex, hentry, getLsbD_partialBlockMask (by omega), hq, sliceBits_block,
    ← hq, ← Bool.decide_and, decide_eq_decide]
  constructor
  · intro ⟨h1, h2⟩
    exact ⟨by omega, by omega, h1⟩
  · intro ⟨_, h1, h2⟩
    exact ⟨h2, by omega⟩

/-- The blocks between, over the table. -/
theorem SliceMasks.middle_visits (hlt : stride < w)
    (hne : start / w < lastOf start size stride / w) :
    List.Forall₂ (MaskStep.Visits bs (sliceBits start size stride))
      (make bitRepeat start size stride).middle
      (List.range' (start / w + 1) (lastOf start size stride / w - start / w - 1)) := by
  have hspan := spanOf_pos (w := w) h0 hlt
  generalize hL : lastOf start size stride / w = L at hne ⊢
  unfold middle
  split
  · rename_i hone
    have hdvd : stride ∣ w := dvd_of_spanOf hw h0 hlt hone
    show List.Forall₂ _ ((List.range' (start / w + 1) (lastOf start size stride / w + 1 -
      (start / w + 2))).map _) _
    rw [hL, show L + 1 - (start / w + 2) = L - start / w - 1 by omega, List.forall₂_map_left_iff,
      List.forall₂_same]
    intro k hk
    rw [List.mem_range'_1] at hk
    obtain ⟨q, rfl⟩ := Nat.exists_eq_add_of_le (show start / w ≤ k by omega)
    refine entry_visits hw hr h0 hspan ?_ (by omega) (by omega)
    have hzero (i : Nat) : i * w ≡ 0 [MOD stride] :=
      Nat.modEq_zero_iff_dvd.mpr (Dvd.dvd.mul_left hdvd i)
    exact (hzero _).trans (hzero _).symm
  · generalize hn : L - start / w - 1 = n
    generalize hS : Slice.spanOf w stride = span at hspan
    have hend : (make bitRepeat start size stride).spansEnd = start / w + 1 + n / span * span := by
      show start / w + 1 + (lastOf start size stride / w + 1 - start / w -
        min (lastOf start size stride / w + 1 - start / w) 2) / Slice.spanOf w stride *
          Slice.spanOf w stride = _
      rw [hL, hS, show L + 1 - start / w - min (L + 1 - start / w) 2 = n by omega]
    have hdiv := Nat.div_add_mod' n span
    have hsplit : List.range' (start / w + 1) n = List.range' (start / w + 1) (n / span * span) ++
        List.range' (start / w + 1 + n / span * span) (n % span) := by
      rw [List.range'_append_1, hdiv]
    rw [hsplit, hend]
    show List.Forall₂ _ (((List.range ((start / w + 1 + n / span * span - (start / w + 1)) /
      Slice.spanOf w stride)).flatMap fun i => (List.range (Slice.spanOf w stride)).map fun p =>
        entry _ (start / w + 1 + i * Slice.spanOf w stride + p) p) ++
      (List.range (lastOf start size stride / w + 1 - 1 - (start / w + 1 + n / span * span))).map _) _
    rw [hS, hL, Nat.add_sub_cancel_left, Nat.mul_div_cancel _ hspan,
      show L + 1 - 1 - (start / w + 1 + n / span * span) = n % span by omega]
    have hperiod (i p : Nat) : (p + 1) * w ≡ (1 + i * span + p) * w [MOD stride] := by
      rw [show 1 + i * span + p = i * span + p + 1 by omega, ← hS]
      exact modEq_periods i p
    refine List.rel_append (forall₂_spans fun i p hi hp => ?_) ?_
    · rw [show start / w + 1 + i * span + p = start / w + (1 + i * span + p) by omega]
      have hi := Nat.mul_le_mul_right span (show i + 1 ≤ n / span from hi)
      rw [Nat.succ_mul] at hi
      exact entry_visits hw hr h0 (by omega) (hperiod i p) (by omega) (by omega)
    · rw [List.range'_eq_map_range, List.forall₂_map_left_iff, List.forall₂_map_right_iff,
        List.forall₂_same]
      intro p hp
      have hp := List.mem_range.mp hp
      have hlt := Nat.mod_lt n hspan
      rw [show start / w + 1 + n / span * span + p = start / w + (1 + n / span * span + p) by omega]
      exact entry_visits hw hr h0 (by omega) (hperiod _ p) (by omega) (by omega)

/-- **The masks of a slice are the slice's**, from the block of its start to that of its end. -/
theorem sliceMasks_walks (hlt : stride < w) (hin : lastOf start size stride < bs.length * w)
    (hmax : lastOf start size stride < 2 ^ 64) :
    Walks bs (sliceBits start size stride)
      (List.range' (start / w) (lastOf start size stride / w + 1 - start / w))
      (SliceMasks.make bitRepeat start size stride).forEach where
  visits := by
    have hle : start / w ≤ lastOf start size stride / w :=
      Nat.div_le_div_right (Nat.le_add_right _ _)
    unfold SliceMasks.forEach
    have hfirst : (SliceMasks.edge (start / w) (SliceMasks.make bitRepeat start size stride).firstMask).Visits
        bs (sliceBits start size stride) (start / w) := SliceMasks.first_visits hw hr h0
    by_cases heq : start / w = lastOf start size stride / w
    · have hone : (SliceMasks.make bitRepeat start size stride).first + 1 =
          (SliceMasks.make bitRepeat start size stride).last := congrArg Nat.succ heq
      rw [if_pos hone, show lastOf start size stride / w + 1 - start / w = 1 by omega]
      exact .cons hfirst .nil
    · have hmany : ¬ (SliceMasks.make bitRepeat start size stride).first + 1 =
          (SliceMasks.make bitRepeat start size stride).last := fun h => heq (Nat.succ.inj h)
      have hne : start / w < lastOf start size stride / w := by omega
      have hsplit : List.range' (start / w) (lastOf start size stride / w + 1 - start / w) =
          start / w :: (List.range' (start / w + 1) (lastOf start size stride / w - start / w - 1) ++
            [lastOf start size stride / w]) := by
        rw [show lastOf start size stride / w + 1 - start / w =
          lastOf start size stride / w - start / w - 1 + 1 + 1 by omega, List.range'_succ,
          List.range'_concat]
        congr 3
        omega
      rw [if_neg hmany, hsplit]
      exact .cons hfirst (List.rel_append (SliceMasks.middle_visits hw hr h0 hlt hne)
        (.cons (SliceMasks.last_visits hw hr h0 hlt hmax hne) .nil))
  ascends := List.pairwise_lt_range'
  within k hk := by
    rw [List.mem_range'_1] at hk
    have hdiv := Nat.div_lt_of_lt_mul (Nat.mul_comm _ w ▸ hin)
    omega

omit hr in
/-- **They select the slice's positions**, in order. -/
theorem selected_slice (hsize : 0 < size) :
    selected w (sliceBits start size stride)
      (List.range' (start / w) (lastOf start size stride / w + 1 - start / w)) =
        (List.range size).map fun j => start + j * stride := by
  have hpos := pos_of_pow hw
  rw [selected_range']
  have hasc : ((List.range' (start / w * w)
      ((lastOf start size stride / w + 1 - start / w) * w)).filter
        (sliceBits start size stride)).Pairwise (· < ·) := List.Pairwise.filter _ List.pairwise_lt_range'
  refine hasc.eq_of_mem_iff ?_ fun p => ?_
  · rw [List.pairwise_map]
    exact List.pairwise_lt_range.imp fun hab =>
      Nat.add_lt_add_left (Nat.mul_lt_mul_of_pos_right hab h0) start
  · have hstart := Nat.div_add_mod' start w
    have hmod := Nat.mod_lt start hpos
    have hend := Nat.div_add_mod' (lastOf start size stride) w
    have hmod' := Nat.mod_lt (lastOf start size stride) hpos
    have hle : start / w ≤ lastOf start size stride / w :=
      Nat.div_le_div_right (Nat.le_add_right _ _)
    rw [List.mem_filter, List.mem_range'_1, List.mem_map, sliceBits, decide_eq_true_eq,
      Nat.sub_mul, Nat.succ_mul]
    have hblocks := Nat.mul_le_mul_right w hle
    constructor
    · intro ⟨_, h1, h2, h3⟩
      obtain ⟨j, hj⟩ := Nat.dvd_of_mod_eq_zero h3
      refine ⟨j, List.mem_range.mpr ?_, by rw [Nat.mul_comm]; omega⟩
      unfold lastOf at h2
      have hjs : j * stride ≤ (size - 1) * stride := by
        rw [Nat.mul_comm]
        omega
      have := Nat.le_of_mul_le_mul_right hjs h0
      omega
    · intro ⟨j, hj, hp⟩
      subst hp
      have hj : j ≤ size - 1 := by
        have := List.mem_range.mp hj
        omega
      have hlast := Nat.mul_le_mul_right stride hj
      unfold lastOf at hend hblocks hmod' ⊢
      refine ⟨by omega, Nat.le_add_right _ _, by omega, ?_⟩
      rw [Nat.add_sub_cancel_left, Nat.mul_mod_left]

end Visits

/-- **The masks of a slice**: one call for each block from that of the start to that of the last
    position, upwards, whatever the block holds with the bits of the positions in it and as many as
    it counts. -/
theorem slice_masks_exact (hw : ∃ e, w = 2 ^ e) (hr : Repeats bitRepeat) (hsize : 1 ≤ size)
    (h1 : 1 < stride) (hlt : stride < w) (hmax : start + (size - 1) * stride < 2 ^ 64) :
    (SliceMasks.make bitRepeat start size stride).forEach.map MaskStep.block =
        List.range' (start / w) ((start + (size - 1) * stride) / w + 1 - start / w) ∧
      ∀ s, s ∈ (SliceMasks.make bitRepeat start size stride).forEach → ∀ b : BitVec w,
        ∃ m, s.mask b = some m ∧ s.count m = popcount m ∧ ∀ j, j < w →
          (m.getLsbD j = true ↔ ∃ i, i < size ∧ s.block * w + j = start + i * stride) := by
  have hpos := pos_of_pow hw
  have hwalk (b : BitVec w) : Walks (List.replicate (lastOf start size stride / w + 1) b)
      (sliceBits start size stride)
      (List.range' (start / w) (lastOf start size stride / w + 1 - start / w))
      (SliceMasks.make bitRepeat start size stride).forEach := by
    refine sliceMasks_walks hw hr (by omega) hlt ?_ hmax
    rw [List.length_replicate]
    exact Nat.lt_mul_of_div_lt (Nat.lt_succ_self _) hpos
  refine ⟨(hwalk zero).blocks_eq, fun s hs b => ?_⟩
  obtain ⟨hmem, -, m, hmask, hcount, hbits⟩ := (hwalk b).visit_of_mem hs
  have hget : (List.replicate (lastOf start size stride / w + 1) b).getD s.block zero = b := by
    have hle : start / w ≤ lastOf start size stride / w :=
      Nat.div_le_div_right (Nat.le_add_right _ _)
    have hin := (hwalk b).within _ hmem
    rw [List.getD_eq_getElem _ _ hin, List.getElem_replicate]
  rw [hget] at hmask
  refine ⟨m, hmask, hcount, fun j hj => ?_⟩
  have hselected : s.block * w + j ∈ selected w (sliceBits start size stride)
      (List.range' (start / w) (lastOf start size stride / w + 1 - start / w)) ↔
        m.getLsbD j = true := by
    rw [hbits j hj]
    constructor
    · intro h
      obtain ⟨k, hk, h⟩ := List.mem_flatMap.mp h
      obtain ⟨i, hi, heq⟩ := List.mem_map.mp h
      obtain ⟨hiw, hset⟩ := mem_ascending.mp hi
      obtain ⟨rfl, rfl⟩ := (pos_inj hiw hj).mp heq
      exact hset
    · intro h
      exact List.mem_flatMap.mpr ⟨_, hmem, List.mem_map.mpr ⟨j, mem_ascending.mpr ⟨hj, h⟩, rfl⟩⟩
  rw [← hselected, selected_slice hw (by omega) (by omega), List.mem_map]
  constructor
  · intro ⟨i, hi, heq⟩
    exact ⟨i, List.mem_range.mp hi, heq.symm⟩
  · intro ⟨i, hi, heq⟩
    exact ⟨i, List.mem_range.mpr hi, heq.symm⟩

/-- Positions 5, 8, ..., 35 over bytes: one block cut below, whole ones, and one cut above. -/
theorem slice_masks_exact_byte :
    let masks := SliceMasks.make (repeatBits : BitVec 8 → Nat → BitVec 8) 5 11 3
    masks.forEach.map MaskStep.block = [0, 1, 2, 3, 4] ∧
    ∀ s ∈ masks.forEach, ∀ b : BitVec 8, ∃ m, s.mask b = some m ∧ s.count m = popcount m ∧
      ∀ j, j < 8 → (m.getLsbD j = true ↔
        s.block * 8 + j ∈ [5, 8, 11, 14, 17, 20, 23, 26, 29, 32, 35]) := by
  intro masks
  have hwidth : ∃ e, 8 = 2 ^ e := ⟨3, rfl⟩
  have hlast : 5 + (11 - 1) * 3 < 2 ^ 64 := by decide
  obtain ⟨hblocks, hmasks⟩ := slice_masks_exact hwidth repeats_repeatBits (by decide)
    (show 1 < 3 by decide) (by decide) hlast
  have hreach (p : Nat) : (∃ i, i < 11 ∧ p = 5 + i * 3) ↔
      p ∈ [5, 8, 11, 14, 17, 20, 23, 26, 29, 32, 35] := by
    simp only [List.mem_cons, List.not_mem_nil, or_false]
    exact ⟨fun ⟨i, hi, hp⟩ => by omega, fun hp => ⟨(p - 5) / 3, by omega, by omega⟩⟩
  refine ⟨hblocks, fun s hs b => ?_⟩
  obtain ⟨m, hm, hcount, hbits⟩ := hmasks s hs b
  exact ⟨m, hm, hcount, fun j hj => (hbits j hj).trans (hreach _)⟩

end Walk

end XstdBits
