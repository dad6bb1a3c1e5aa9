/-
  File: XstdBits/Container/Shift.lean
  Subject: `<<=`, `>>=`, `rotate` and `reverse`.

  Each moves whole blocks and then the bits within them, through splices of two neighbours; the
  padding above the width is repaired in a different way by each:
  * `<<=` masks it (`bit_shlAssign`), `>>=` shifts clear bits in (`bit_shrAssign`);
  * `rotate` turns all the blocks' bits, after which the wrapped ones sit above the padding and
    are moved down onto it (`closePadding_spec`, `bit_rotate`);
  * `reverse` brings the padding to the bottom and rotates it out (`bit_reverse`).
-/
import XstdBits.Container.Combine

namespace XstdBits

namespace BitBlockContainer
variable {w : Nat} {V : Vehicle w} (c : BitBlockContainer V)

/-! ## 1. Shifts -/

/-- `std::shift_right` of the blocks by `n`, from the last one down. -/
def shiftRight (n : Nat) (elems : List (BitVec w)) : List (BitVec w) :=
  writeDown n elems.length (fun xs i => xs.getD (i - n) zero) elems

/-- `std::shift_left` of the blocks by `n`, from the first one up. -/
def shiftLeft (n : Nat) (elems : List (BitVec w)) : List (BitVec w) :=
  writeUp 0 (elems.length - n) (fun xs i => xs.getD (i + n) zero) elems

/-- The blocks of `operator<<=` over more than one block. -/
def shlBlocks (nBlocks lShift : Nat) (elems : List (BitVec w)) : List (BitVec w) :=
  let moved :=
    if lShift = 0 then shiftRight nBlocks elems
    else
      let rShift := w - lShift
      let spliced := writeDown (nBlocks + 1) elems.length (fun xs i =>
        -- read one block lower: the splice of [i - nBlocks - 1, i - nBlocks]
        straddled xs (i - nBlocks - 1) lShift rShift) elems
      spliced.set nBlocks (shl (spliced.getD 0 zero) lShift)
  fillRange 0 nBlocks zero moved

/-- The blocks of `operator>>=` over more than one block. -/
def shrBlocks (nBlocks rShift : Nat) (elems : List (BitVec w)) : List (BitVec w) :=
  let last := elems.length - 1
  let moved :=
    if rShift = 0 then shiftLeft nBlocks elems
    else
      let lShift := w - rShift
      let spliced := writeUp 0 (last - nBlocks) (fun xs i =>
        straddled xs (i + nBlocks) lShift rShift) elems
      spliced.set (last - nBlocks) (shr (spliced.getD last zero) rShift)
  fillRange (elems.length - nBlocks) elems.length zero moved

/-- `operator<<=`: the top `n` positions shift out, and only they. -/
def shlAssign (n : Nat) : BitBlockContainer V :=
  let counted := c.countDown (c.countedIn (c.size - n) n)
  let shifted :=
    if V.unrolls 0 then counted
    else if V.unrolls 1 then counted.setBlock 0 (shl (counted.block 0) n)
    else counted.withElems (shlBlocks (n / w) (n % w))
  shifted.eraseUnused

/-- `operator>>=`: the bottom `n` positions shift out, and only they. -/
def shrAssign (n : Nat) : BitBlockContainer V :=
  let counted := c.countDown (c.countedIn 0 n)
  if V.unrolls 0 then counted
  else if V.unrolls 1 then counted.setBlock 0 (shr (counted.block 0) n)
  else counted.withElems (shrBlocks (n / w) (n % w))

section Shifts
variable {c} {n p : Nat} {x : List (BitVec w)}

theorem getLsbD_straddled {i r j : Nat} (hr : r < w) (hj : j < w) :
    (straddled x i (w - r) r).getLsbD j = bitAt x (i * w + r + j) :=
  bitAt_splice hr hj

/-- **The blocks of `<<=` hold every position `n` higher.** -/
theorem bitAt_shlBlocks (hw : 0 < w) (hn : n < x.length * w) :
    (shlBlocks (n / w) (n % w) x).length = x.length ∧
      ∀ p, p < x.length * w → bitAt (shlBlocks (n / w) (n % w) x) p =
        (decide (n ≤ p) && bitAt x (p - n)) := by
  obtain ⟨q, l, hl, rfl⟩ := exists_pos hw n
  rw [pos_div hl, pos_mod hl]
  have hq : q < x.length := (pos_lt_iff hl).mp hn
  -- the blocks before the low ones are cleared
  obtain ⟨moved, hm⟩ : ∃ moved, moved = (if l = 0 then shiftRight q x else
      (writeDown (q + 1) x.length (fun xs i => straddled xs (i - q - 1) l (w - l)) x).set q
        (shl ((writeDown (q + 1) x.length
          (fun xs i => straddled xs (i - q - 1) l (w - l)) x).getD 0 zero) l)) := ⟨_, rfl⟩
  have hshl : shlBlocks q l x = fillRange 0 q zero moved := by
    unfold shlBlocks
    rw [hm]
  suffices hmoved : moved.length = x.length ∧ ∀ i j, q ≤ i → i < x.length → j < w →
      (moved.getD i zero).getLsbD j =
        (decide (q * w + l ≤ i * w + j) && bitAt x (i * w + j - (q * w + l))) by
    rw [hshl]
    refine ⟨by rw [length_fillRange (by omega), hmoved.1], fun p hp => ?_⟩
    obtain ⟨i, j, hj, rfl⟩ := exists_pos hw p
    have ht := block_trichotomy i q w
    have hi : i < x.length := (pos_lt_iff hj).mp hp
    rw [bitAt_pos hj, getD_fillRange (by omega)]
    by_cases hiq : i < q
    · rw [if_pos ⟨Nat.zero_le _, hiq⟩, BitVec.getLsbD_zero]
      symm
      rw [Bool.and_eq_false_iff]
      left
      rw [decide_eq_false_iff_not]
      omega
    · rw [if_neg (by omega)]
      exact hmoved.2 i j (by omega) hi hj
  by_cases hl0 : l = 0
  · rw [hm, if_pos hl0]
    have hs := writeDown_spec (d := zero) (x := x) (a := q)
      (g := fun xs i => xs.getD (i - q) zero) (by omega) (Nat.le_refl _)
      fun ys i _ _ _ hy => hy (i - q) (by omega)
    refine ⟨hs.1, fun i j hqi hi hj => ?_⟩
    have ht := block_trichotomy i q w
    refine (congrArg (fun b => b.getLsbD j) ((hs.2 i).trans (if_pos ⟨hqi, hi⟩))).trans ?_
    have hpos : decide (q * w + l ≤ i * w + j) = true := by
      rw [decide_eq_true_eq]
      omega
    have he : i * w + j - (q * w + l) = (i - q) * w + j := by
      rw [Nat.sub_mul]
      omega
    rw [hpos, Bool.true_and, he, bitAt_pos hj]
  · rw [hm, if_neg hl0]
    have hs := writeDown_spec (d := zero) (x := x) (a := q + 1)
      (g := fun xs i => straddled xs (i - q - 1) l (w - l)) (by omega) (Nat.le_refl _)
      fun ys i hi _ _ hy => by
        unfold straddled
        rw [hy (i - q - 1) (by omega), hy (i - q - 1 + 1) (by omega)]
    refine ⟨by rw [List.length_set, hs.1], fun i j hqi hi hj => ?_⟩
    rw [getD_set, hs.1]
    by_cases hiq : q = i
    · subst hiq
      rw [if_pos ⟨rfl, hi⟩, getLsbD_shl hj, hs.2 0, if_neg (by omega), ← bitAt_of_lt (by omega)]
      rw [show q * w + j - (q * w + l) = j - l by omega]
      congr 1
      rw [decide_eq_decide]
      omega
    · rw [if_neg fun hc => hiq hc.1, hs.2 i, if_pos ⟨by omega, hi⟩]
      have ht := block_trichotomy i q w
      have hr : w - l < w := by omega
      have := getLsbD_straddled (x := x) (i := i - q - 1) hr hj
      rw [show w - (w - l) = l by omega] at this
      rw [this]
      have hpos : decide (q * w + l ≤ i * w + j) = true := by
        rw [decide_eq_true_eq]
        omega
      have he : (i - q - 1) * w + (w - l) + j = i * w + j - (q * w + l) := by
        rw [Nat.sub_mul, Nat.sub_mul]
        omega
      rw [hpos, Bool.true_and, he]

/-- **The blocks of `>>=` hold every position `n` lower**, clear where none was above. -/
theorem bitAt_shrBlocks (hw : 0 < w) (hn : n < x.length * w) :
    (shrBlocks (n / w) (n % w) x).length = x.length ∧
      ∀ p, bitAt (shrBlocks (n / w) (n % w) x) p = bitAt x (p + n) := by
  obtain ⟨q, r, hr, rfl⟩ := exists_pos hw n
  rw [pos_div hr, pos_mod hr]
  have hq : q < x.length := (pos_lt_iff hr).mp hn
  obtain ⟨moved, hm⟩ : ∃ moved, moved = (if r = 0 then shiftLeft q x else
      (writeUp 0 (x.length - 1 - q) (fun xs i => straddled xs (i + q) (w - r) r) x).set
        (x.length - 1 - q) (shr ((writeUp 0 (x.length - 1 - q)
          (fun xs i => straddled xs (i + q) (w - r) r) x).getD (x.length - 1) zero) r)) :=
    ⟨_, rfl⟩
  have hshr : shrBlocks q r x =
      fillRange (x.length - q) x.length zero moved := by
    unfold shrBlocks
    rw [hm]
  suffices hmoved : moved.length = x.length ∧ ∀ i j, i + q < x.length → j < w →
      (moved.getD i zero).getLsbD j = bitAt x (i * w + j + (q * w + r)) by
    rw [hshr]
    have hlen : (fillRange (x.length - q) x.length zero moved).length = x.length := by
      rw [length_fillRange (by omega), hmoved.1]
    refine ⟨hlen, fun p => ?_⟩
    obtain ⟨i, j, hj, rfl⟩ := exists_pos hw p
    rw [bitAt_pos hj, getD_fillRange (by omega)]
    by_cases hiq : i + q < x.length
    · rw [if_neg (by omega)]
      exact hmoved.2 i j hiq hj
    · have hout : bitAt x (i * w + j + (q * w + r)) = false := by
        refine bitAt_of_le hw ?_
        have := Nat.mul_le_mul_right w (Nat.le_of_not_lt hiq)
        rw [Nat.add_mul] at this
        omega
      rw [hout]
      by_cases hi : i < x.length
      · rw [if_pos ⟨by omega, hi⟩, BitVec.getLsbD_zero]
      · rw [if_neg (by omega), List.getD_eq_default _ _ (by omega)]
        exact BitVec.getLsbD_zero
  by_cases hr0 : r = 0
  · rw [hm, if_pos hr0]
    have hs := writeUp_spec (d := zero) (x := x) (a := 0) (b := x.length - q)
      (g := fun xs i => xs.getD (i + q) zero) (by omega)
      fun ys i _ _ _ hy => hy (i + q) (by omega)
    refine ⟨hs.1, fun i j hi hj => ?_⟩
    refine (congrArg (fun b => b.getLsbD j)
      ((hs.2 i).trans (if_pos ⟨Nat.zero_le _, by omega⟩))).trans ?_
    have he : i * w + j + (q * w + r) = (i + q) * w + j := by
      rw [Nat.add_mul]
      omega
    rw [he, bitAt_pos hj]
  · rw [hm, if_neg hr0]
    have hs := writeUp_spec (d := zero) (x := x) (a := 0) (b := x.length - 1 - q)
      (g := fun xs i => straddled xs (i + q) (w - r) r) (by omega)
      fun ys i _ _ _ hy => by
        unfold straddled
        rw [hy (i + q) (by omega), hy (i + q + 1) (by omega)]
    refine ⟨by rw [List.length_set, hs.1], fun i j hi hj => ?_⟩
    have he : i * w + j + (q * w + r) = (i + q) * w + r + j := by
      rw [Nat.add_mul]
      omega
    rw [getD_set, hs.1]
    by_cases hil : x.length - 1 - q = i
    · rw [if_pos ⟨hil, by omega⟩, getLsbD_shr, hs.2 (x.length - 1), he]
      have hiq : i + q = x.length - 1 := by omega
      rw [if_neg (by omega), hiq]
      by_cases hrj : r + j < w
      · rw [Nat.add_assoc, bitAt_pos hrj]
      · rw [BitVec.getLsbD_of_ge _ _ (by omega)]
        refine (bitAt_of_le hw ?_).symm
        have hl : x.length = x.length - 1 + 1 := by omega
        rw [hl, Nat.succ_mul, Nat.add_sub_cancel]
        omega
    · rw [if_neg fun hc => hil hc.1, hs.2 i, if_pos ⟨Nat.zero_le _, by omega⟩,
        getLsbD_straddled hr hj, he]

theorem sameWidth_shlAssign (h : c.Shape) (hn : n < c.size) : SameWidth c (c.shlAssign n) := by
  have hsz := h.size_le
  unfold shlAssign
  refine SameWidth.trans ?_ sameWidth_eraseUnused
  split
  · exact sameWidth_countDown
  · split
    · exact sameWidth_countDown.trans sameWidth_setBlock
    · refine sameWidth_countDown.trans (sameWidth_withElems ?_)
      rw [mBlocks_countDown]
      exact (bitAt_shlBlocks V.bits_pos (by omega)).1

theorem sameWidth_shrAssign (h : c.Shape) (hn : n < c.size) : SameWidth c (c.shrAssign n) := by
  have hsz := h.size_le
  unfold shrAssign
  extract_lets counted
  split
  · exact sameWidth_countDown
  · split
    · exact sameWidth_countDown.trans sameWidth_setBlock
    · refine sameWidth_countDown.trans (sameWidth_withElems ?_)
      rw [mBlocks_countDown]
      exact (bitAt_shrBlocks V.bits_pos (by omega)).1

/-- **`<<=` holds at `p` the old position `p - n`**, and nothing below `n` or past the width. -/
theorem bit_shlAssign (h : c.Shape) (hn : n < c.size) : (c.shlAssign n).bit p =
    (decide (n ≤ p ∧ p < c.size) && c.bit (p - n)) := by
  have hsz := h.size_le
  have hcd : SameWidth c (c.countDown (c.countedIn (c.size - n) n)) := sameWidth_countDown
  unfold shlAssign
  extract_lets counted shifted
  have hbc (q : Nat) : counted.bit q = c.bit q := bit_congr (mBlocks_countDown c)
  have hshift : SameWidth c shifted ∧
      ∀ q, q < c.size → shifted.bit q = (decide (n ≤ q) && c.bit (q - n)) := by
    subst shifted
    split
    · rename_i hu
      have := h.unrolls hu
      rw [this] at hsz
      omega
    · split
      · rename_i hu
        have hl := h.unrolls hu
        rw [hl] at hsz
        refine ⟨hcd.trans sameWidth_setBlock, fun q hq => ?_⟩
        rw [bit_setBlock (by rw [hcd.length]; omega)]
        rw [Nat.div_eq_of_lt (by omega), if_pos rfl, Nat.mod_eq_of_lt (by omega),
          getLsbD_shl (by omega)]
        have := bit_pos (c := counted) (i := 0) (show q - n < w by omega)
        rw [Nat.zero_mul, Nat.zero_add] at this
        rw [← this, hbc]
      · have hb := bitAt_shlBlocks (n := n) (x := c.mBlocks.elems) V.bits_pos (by omega)
        have he : counted.mBlocks.elems = c.mBlocks.elems := by rw [mBlocks_countDown]
        refine ⟨hcd.trans (sameWidth_withElems ?_), fun q hq => ?_⟩
        · rw [he]
          exact hb.1
        · unfold bit
          rw [elems_withElems, he]
          exact hb.2 q (by omega)
  rw [bit_eraseUnused (hshift.1.shape h), hshift.1.size]
  by_cases hp : p < c.size
  · rw [hshift.2 p hp]
    simp [hp]
  · simp [hp]

/-- **`>>=` holds at `p` the old position `p + n`.** -/
theorem bit_shrAssign (h : c.Shape) (hn : n < c.size) :
    (c.shrAssign n).bit p = c.bit (p + n) := by
  have hsz := h.size_le
  have hcd : SameWidth c (c.countDown (c.countedIn 0 n)) := sameWidth_countDown
  unfold shrAssign
  extract_lets counted
  have hbc (q : Nat) : counted.bit q = c.bit q := bit_congr (mBlocks_countDown c)
  split
  · rename_i hu
    have := h.unrolls hu
    rw [this] at hsz
    omega
  · split
    · rename_i hu
      have hl := h.unrolls hu
      obtain ⟨i, j, hj, rfl⟩ := exists_pos V.bits_pos p
      rw [bit_setBlock (by rw [hcd.length]; omega), pos_div hj, pos_mod hj, getLsbD_shr]
      by_cases hi : i = 0
      · subst hi
        rw [if_pos rfl, Nat.zero_mul, Nat.zero_add]
        by_cases hnj : n + j < w
        · have := bit_pos (c := counted) (i := 0) hnj
          rw [Nat.zero_mul, Nat.zero_add] at this
          rw [← this, hbc, Nat.add_comm]
        · rw [BitVec.getLsbD_of_ge _ _ (by omega), bit_of_le (by rw [hl]; omega)]
      · have := block_trichotomy i 0 w
        rw [if_neg hi, hbc, bit_of_le (by rw [hl]; omega), bit_of_le (by rw [hl]; omega)]
    · have hb := bitAt_shrBlocks (n := n) (x := c.mBlocks.elems) V.bits_pos (by omega)
      have he : counted.mBlocks.elems = c.mBlocks.elems := by rw [mBlocks_countDown]
      unfold bit
      rw [elems_withElems, he]
      exact hb.2 p

theorem mCount_shlAssign (hs : V.hasStoredCount = true) :
    (c.shlAssign n).mCount = c.mCount - c.countedIn (c.size - n) n := by
  unfold shlAssign
  rw [mCount_eraseUnused]
  split
  · exact mCount_countDown hs
  · split
    · exact mCount_countDown hs
    · exact mCount_countDown hs

theorem mCount_shrAssign (hs : V.hasStoredCount = true) :
    (c.shrAssign n).mCount = c.mCount - c.countedIn 0 n := by
  unfold shrAssign
  dsimp only
  split
  · exact mCount_countDown hs
  · split
    · exact mCount_countDown hs
    · exact mCount_countDown hs

/-- The positions that `<<=` carries inside. -/
theorem countBits_shlAssign (h : c.Shape) (hn : n < c.size) :
    countBits (c.shlAssign n).bit c.size = countBits c.bit (c.size - n) := by
  have hsplit : c.size = n + (c.size - n) := by omega
  conv_lhs => rw [hsplit]
  rw [countBits_add, countBits_eq_zero fun p hp => by rw [bit_shlAssign h hn]; simp; omega]
  unfold countIn
  rw [Nat.zero_add]
  refine countBits_congr fun p hp => ?_
  rw [bit_shlAssign h hn, Nat.add_sub_cancel_left]
  simp
  omega

/-- The positions that `>>=` carries inside. -/
theorem countBits_shrAssign (h : c.Inv) (hn : n < c.size) :
    countBits (c.shrAssign n).bit c.size = countIn c.bit n (c.size - n) := by
  rw [countBits_of_clear (n := c.size - n) (by omega) fun p hp _ => by
    rw [bit_shrAssign h.shape hn]; exact h.clear _ (by omega)]
  unfold countIn
  refine countBits_congr fun p _ => ?_
  rw [bit_shrAssign h.shape hn, Nat.add_comm]

theorem Inv.shlAssign (h : c.Inv) (hn : n < c.size) : (c.shlAssign n).Inv := by
  refine h.write (sameWidth_shlAssign h.shape hn) (fun p hp => ?_) fun hs => ?_
  · rw [bit_shlAssign h.shape hn]
    simp
    omega
  · rw [mCount_shlAssign hs, countedIn_eq h.shape (by omega) hs, h.count hs]
    have h1 := countBits_shlAssign h.shape hn
    have h2 : countBits c.bit c.size =
        countBits c.bit (c.size - n) + countIn c.bit (c.size - n) n := by
      rw [← countBits_add, Nat.sub_add_cancel (by omega)]
    omega

theorem Inv.shrAssign (h : c.Inv) (hn : n < c.size) : (c.shrAssign n).Inv := by
  refine h.write (sameWidth_shrAssign h.shape hn) (fun p hp => ?_) fun hs => ?_
  · rw [bit_shrAssign h.shape hn]
    exact h.clear _ (by omega)
  · rw [mCount_shrAssign hs, countedIn_eq h.shape (by omega) hs, h.count hs, countIn_zero_left]
    have h1 := countBits_shrAssign h hn
    have h2 : countBits c.bit c.size = countBits c.bit n + countIn c.bit n (c.size - n) := by
      rw [← countBits_add]
      congr 1
      omega
    omega

end Shifts

/-! ## 2. Rotation -/

/-- `n` modulo the width, where a run-time width of zero takes no modulo and answers zero. -/
def moduloWidth (n : Nat) : Nat :=
  if ¬ V.hasStaticSize ∧ c.size = 0 then 0 else n % c.size

/-- Every block's bits `rShift` lower, the lowest of the first block wrapping round into the top
    of the last. -/
def rotateBlocksDown (rShift : Nat) : BitBlockContainer V :=
  let lShift := w - rShift
  let first := c.block 0
  let spliced := c.withElems (writeUp 0 c.lastBlock fun xs i => straddled xs i lShift rShift)
  spliced.setBlock c.lastBlock (shl first lShift ||| shr (spliced.block c.lastBlock) rShift)

/-- After all the blocks' bits turn by `n`, the `n` that wrapped sit above the clear padding, and
    move down onto it. -/
def closePadding (n : Nat) : BitBlockContainer V :=
  let gap := c.numBlocks * w - c.size
  forEachBlock w (c.size - n) n (fun pos mask c => c.writeBlockAt pos (c.blockAt (pos + gap)) mask) c

/-- A turn towards position zero by `n < size()`: whole blocks, the bits within them, then the
    padding closed. -/
def rotateDown (n : Nat) : BitBlockContainer V :=
  if n = 0 then c
  else
    let turned :=
      if V.unrolls 1 then c.setBlock 0 (shr (c.block 0) n ||| shl (c.block 0) (V.extent - n))
      else
        let nBlocks := n / w
        let rShift := n % w
        let blocks := c.withElems fun elems => elems.drop nBlocks ++ elems.take nBlocks
        let bits := if rShift ≠ 0 then blocks.rotateBlocksDown rShift else blocks
        if V.staticHasUnusedBits then bits.closePadding n
        else if V.hasStoredSize ∧ bits.hasUnusedBits then bits.closePadding n
        else bits
    turned.eraseUnused

/-- `rotate(n)`: position `i` takes position `(i + n) % size()`. -/
def rotate (n : Nat) : BitBlockContainer V :=
  if V.canPermute then c.rotateDown (c.moduloWidth n) else c

/-- `reverse()`: the blocks end for end, each block's bits too, then the padding rotated out. -/
def reverse : BitBlockContainer V :=
  if V.unrolls 1 then c.setBlock 0 (shr (reversed (c.block 0)) V.staticNumUnusedBits)
  else if V.canPermute then
    let turned := c.withElems fun elems => elems.reverse.map reversed
    if V.staticHasUnusedBits then turned.rotateBlocksDown V.staticNumUnusedBits
    else if V.hasStoredSize ∧ turned.hasUnusedBits then
      turned.rotateBlocksDown (turned.numBlocks * w - turned.size)
    else turned
  else c

section Rotation
variable {c} {n p : Nat}

/-- **All the blocks' bits turned by less than a block.** -/
theorem rotateBlocksDown_spec (h : c.Shape) {r : Nat} (hr0 : 0 < r) (hr : r < w)
    (hlen : 0 < c.mBlocks.elems.length) :
    SameWidth c (c.rotateBlocksDown r) ∧ ∀ p, p < c.mBlocks.elems.length * w →
      (c.rotateBlocksDown r).bit p = c.bit ((p + r) % (c.mBlocks.elems.length * w)) := by
  unfold rotateBlocksDown lastBlock
  rw [h.numBlocks]
  have hs := writeUp_spec (d := zero) (x := c.mBlocks.elems) (a := 0)
    (b := c.mBlocks.elems.length - 1) (g := fun xs i => straddled xs i (w - r) r) (by omega)
    fun ys i _ _ _ hy => by
      unfold straddled
      rw [hy i (Nat.le_refl i), hy (i + 1) (by omega)]
  extract_lets lShift first spliced
  have hsw : SameWidth c spliced := sameWidth_withElems hs.1
  have hblock (i : Nat) : spliced.block i = if i < c.mBlocks.elems.length - 1 then
      straddled c.mBlocks.elems i (w - r) r else c.block i := by
    refine (hs.2 i).trans ?_
    simp only [Nat.zero_le, true_and]
    rfl
  refine ⟨hsw.trans sameWidth_setBlock, fun p hp => ?_⟩
  obtain ⟨i, j, hj, rfl⟩ := exists_pos V.bits_pos p
  have hi : i < c.mBlocks.elems.length := (pos_lt_iff hj).mp hp
  have hmul := block_trichotomy i (c.mBlocks.elems.length - 1) w
  have hsub : c.mBlocks.elems.length * w = (c.mBlocks.elems.length - 1) * w + w := by
    rw [← Nat.succ_mul]
    congr 1
    omega
  rw [bit_setBlock (by rw [hsw.length]; omega), pos_div hj, pos_mod hj]
  by_cases hl : i = c.mBlocks.elems.length - 1
  · rw [if_pos hl, hblock, if_neg (by omega), BitVec.getLsbD_or, getLsbD_shl hj, getLsbD_shr]
    show ((decide (w - r ≤ j) && (c.block 0).getLsbD (j - (w - r))) || _) = _
    rw [← hl]
    by_cases hrj : r + j < w
    · have hlow : decide (w - r ≤ j) = false := by
        rw [decide_eq_false_iff_not]
        omega
      rw [hlow, Bool.false_and, Bool.false_or, ← bit_pos hrj, Nat.mod_eq_of_lt (by omega)]
      congr 1
      omega
    · have hlow : decide (w - r ≤ j) = true := by
        rw [decide_eq_true_eq]
        omega
      have hmod : (i * w + j + r) % (c.mBlocks.elems.length * w) = j - (w - r) := by
        rw [show i * w + j + r = j - (w - r) + c.mBlocks.elems.length * w by omega,
          Nat.add_mod_right, Nat.mod_eq_of_lt (by omega)]
      rw [hlow, Bool.true_and, BitVec.getLsbD_of_ge (c.block i) _ (by omega), Bool.or_false, hmod]
      have := bit_pos (c := c) (i := 0) (show j - (w - r) < w by omega)
      rw [Nat.zero_mul, Nat.zero_add] at this
      exact this.symm
  · rw [if_neg hl, bit_pos hj, hblock, if_pos (by omega), getLsbD_straddled hr hj,
      Nat.mod_eq_of_lt (by omega)]
    unfold bit
    congr 1
    omega

/-- The walk that closes the padding reads ahead of what it writes. -/
theorem closePadding_spec (h : c.Shape) (hn : n ≤ c.size) :
    SameWidth c (c.closePadding n) ∧ (c.closePadding n).mCount = c.mCount ∧
      ∀ p, (c.closePadding n).bit p = if c.size - n ≤ p ∧ p < c.size
        then c.bit (p + (c.mBlocks.elems.length * w - c.size)) else c.bit p := by
  have hsz := h.size_le
  have hw := V.bits_pos
  unfold closePadding forEachBlock
  rw [h.numBlocks, Nat.sub_add_cancel hn]
  generalize hgap : c.mBlocks.elems.length * w - c.size = gap
  have key := forStep_inv (k := w) (a := c.size - n) (b := c.size)
    (f := fun pos (d : BitBlockContainer V) => d.writeBlockAt pos (d.blockAt (pos + gap))
      (partialBlockMask (min w (c.size - pos)))) (s := c)
    (fun q d => SameWidth c d ∧ d.mCount = c.mCount ∧ c.size - n ≤ q ∧
      ∀ p, d.bit p = if c.size - n ≤ p ∧ p < min q c.size then c.bit (p + gap) else c.bit p)
    hw ⟨SameWidth.refl, rfl, Nat.le_refl _, fun p => by rw [if_neg (by omega)]⟩ ?_
  · obtain ⟨q, hq, h1, h2, -, h4⟩ := key
    refine ⟨h1, h2, fun p => ?_⟩
    rw [h4, show min q c.size = c.size by omega]
  · rintro q d hlt ⟨h1, h2, h3, h4⟩
    have hd := h1.shape h
    have hmw : min w (c.size - q) ≤ w := Nat.min_le_left _ _
    refine ⟨h1.trans sameWidth_writeBlockAt, by rw [mCount_writeBlockAt, h2], by omega, fun p => ?_⟩
    rw [bit_writeBlockAt hd (by rw [h1.length]; omega) fun j hj hm => by
      rw [getLsbD_partialBlockMask hmw, decide_eq_true_eq] at hm
      rw [h1.length]
      omega]
    simp only [getLsbD_partialBlockMask hmw, decide_eq_true_eq]
    by_cases hp : q ≤ p ∧ p - q < min w (c.size - q)
    · rw [if_pos hp, getLsbD_blockAt hd (by rw [h1.length]; omega) (by omega), h4,
        if_neg (by omega), if_pos (by omega)]
      congr 1
      omega
    · rw [if_neg hp, h4]
      by_cases hin : c.size - n ≤ p ∧ p < min q c.size
      · rw [if_pos hin, if_pos (by omega)]
      · rw [if_neg hin, if_neg (by omega)]

theorem mod_add_mod_turn {a b t : Nat} (p : Nat) :
    ((p + b) % t + a) % t = (p + (a + b)) % t := by
  rw [Nat.mod_add_mod]
  congr 1
  omega

/-- The blocks turned by whole blocks. -/
theorem bit_rotateWhole {q : Nat} (hq : q ≤ c.mBlocks.elems.length)
    (hp : p < c.mBlocks.elems.length * w) :
    (c.withElems fun elems => elems.drop q ++ elems.take q).bit p =
      c.bit ((p + q * w) % (c.mBlocks.elems.length * w)) := by
  have hw := V.bits_pos
  unfold bit
  rw [elems_withElems, bitAt_append hw, List.length_drop, bitAt_drop hw, bitAt_take hw, Nat.sub_mul]
  have hmul := Nat.mul_le_mul_right w hq
  by_cases hlow : p < c.mBlocks.elems.length * w - q * w
  · rw [if_pos hlow, Nat.mod_eq_of_lt (by omega), Nat.add_comm]
  · rw [if_neg hlow, if_pos (by omega)]
    rw [show p + q * w = p - (c.mBlocks.elems.length * w - q * w) + c.mBlocks.elems.length * w by
      omega, Nat.add_mod_right, Nat.mod_eq_of_lt (by omega)]

/-- **The whole turn**: what the blocks hold before the padding is closed. -/
theorem turn_spec (h : c.Shape) (hn : n < c.size) {d : BitBlockContainer V}
    (hd : d = (if n % w ≠ 0 then (c.withElems fun elems => elems.drop (n / w) ++
      elems.take (n / w)).rotateBlocksDown (n % w) else
      c.withElems fun elems => elems.drop (n / w) ++ elems.take (n / w))) :
    SameWidth c d ∧ d.mCount = c.mCount ∧ ∀ p, p < c.mBlocks.elems.length * w →
      d.bit p = c.bit ((p + n) % (c.mBlocks.elems.length * w)) := by
  have hsz := h.size_le
  have hw := V.bits_pos
  have hq : n / w < c.mBlocks.elems.length := h.div_lt hn
  have hdiv := Nat.div_add_mod' n w
  have hmod := Nat.mod_lt n hw
  have hwhole : SameWidth c (c.withElems fun elems => elems.drop (n / w) ++ elems.take (n / w)) :=
    sameWidth_withElems (by rw [List.length_append, List.length_drop, List.length_take]; omega)
  subst hd
  split
  · rename_i hr
    obtain ⟨h1, h2⟩ := rotateBlocksDown_spec (hwhole.shape h) (r := n % w) (by omega) hmod
      (by rw [hwhole.length]; exact Nat.zero_lt_of_lt hq)
    rw [hwhole.length] at h2
    refine ⟨hwhole.trans h1, rfl, fun p hp => ?_⟩
    rw [h2 p hp, bit_rotateWhole (Nat.le_of_lt hq) (Nat.mod_lt _ (by omega)),
      mod_add_mod_turn, hdiv]
  · rename_i hr
    refine ⟨hwhole, rfl, fun p hp => ?_⟩
    rw [bit_rotateWhole (Nat.le_of_lt hq) hp]
    congr 2
    omega

theorem unused_iff (h : c.Shape) {d : BitBlockContainer V} (hd : SameWidth c d) :
    (V.staticHasUnusedBits = true ∨ (V.hasStoredSize = true ∧ d.hasUnusedBits = true)) ↔
      c.mBlocks.elems.length * w ≠ c.size := by
  have hu : d.hasUnusedBits = true ↔ c.mBlocks.elems.length * w ≠ c.size := by
    rw [hasUnusedBits_iff (hd.shape h), hd.length, hd.size]
  constructor
  · rintro (hs | hs)
    · exact (staticHasUnusedBits_iff h (staticSize_of_unused hs)).mp hs
    · exact hu.mp hs.2
  · intro hne
    by_cases hst : V.hasStaticSize = true
    · exact Or.inl ((staticHasUnusedBits_iff h hst).mpr hne)
    · by_cases hss : V.hasStoredSize = true
      · exact Or.inr ⟨hss, hu.mpr hne⟩
      · exfalso
        refine hne ?_
        have hz : V.hasZeroCapacity = false := by
          unfold Vehicle.hasStoredSize at hss
          unfold Vehicle.hasZeroCapacity
          split <;> simp_all
        unfold size
        rw [if_neg hst, hz, if_neg (by decide), if_neg hss, h.numBlocks]

/-- One static block is rotated by two shifts, the second of which brings the low bits round. -/
theorem bit_rotateFirst (h : c.Inv) (hu : V.unrolls 1 = true) (hn : n < c.size) (hp : p < c.size) :
    (c.setBlock 0 (shr (c.block 0) n ||| shl (c.block 0) (V.extent - n))).bit p =
      c.bit ((p + n) % c.size) := by
  have hl := h.shape.unrolls hu
  have hsz := h.shape.size_le
  rw [hl] at hsz
  rw [bit_setBlock (by omega), Nat.div_eq_of_lt (by omega), if_pos rfl, Nat.mod_eq_of_lt (by omega),
    BitVec.getLsbD_or, getLsbD_shr, getLsbD_shl (by omega), ← size_of_unrolls (c := c) hu]
  by_cases hlow : p + n < c.size
  · rw [decide_eq_false (by omega), Bool.false_and, Bool.or_false, Nat.mod_eq_of_lt hlow,
      getLsbD_first (by omega), Nat.add_comm]
  · have hz : (c.block 0).getLsbD (n + p) = false := by
      by_cases hnp : n + p < w
      · rw [getLsbD_first hnp]
        exact h.clear _ (by omega)
      · exact BitVec.getLsbD_of_ge _ _ (by omega)
    have hmod : (p + n) % c.size = p - (c.size - n) := by
      rw [show p + n = p - (c.size - n) + c.size by omega, Nat.add_mod_right,
        Nat.mod_eq_of_lt (by omega)]
    rw [decide_eq_true (by omega), hz, Bool.true_and, Bool.false_or, hmod,
      getLsbD_first (by omega)]

/-- **Blocks turned whole and closed again are rotated**: the bits that came round stood above the
    padding. -/
theorem closed_spec (h : c.Shape) (hn : n < c.size) {d : BitBlockContainer V}
    (hsame : SameWidth c d) (hcount : d.mCount = c.mCount)
    (hturn : ∀ p, p < c.mBlocks.elems.length * w →
      d.bit p = c.bit ((p + n) % (c.mBlocks.elems.length * w))) :
    SameWidth c (d.closePadding n) ∧ (d.closePadding n).mCount = c.mCount ∧
      ∀ p, p < c.size → (d.closePadding n).bit p = c.bit ((p + n) % c.size) := by
  have hsz := h.size_le
  have hsize := hsame.size
  obtain ⟨k1, k2, k3⟩ := closePadding_spec (hsame.shape h) (n := n) (by omega)
  rw [hsize, hsame.length] at k3
  refine ⟨hsame.trans k1, k2.trans hcount, fun p hp => ?_⟩
  rw [k3]
  by_cases hlow : p + n < c.size
  · rw [if_neg (by omega), hturn p (by omega), Nat.mod_eq_of_lt (by omega), Nat.mod_eq_of_lt hlow]
  · rw [if_pos (by omega), hturn _ (by omega)]
    congr 1
    rw [show p + (c.mBlocks.elems.length * w - c.size) + n =
      p + n - c.size + c.mBlocks.elems.length * w by omega, Nat.add_mod_right,
      Nat.mod_eq_of_lt (by omega)]
    rw [show p + n = p + n - c.size + c.size by omega, Nat.add_mod_right,
      Nat.add_sub_cancel, Nat.mod_eq_of_lt (by omega)]

/-- **`rotate_down` takes each position from `n` above it, round the width.** -/
theorem rotateDown_spec (h : c.Inv) (hn : n < c.size) :
    SameWidth c (c.rotateDown n) ∧ (c.rotateDown n).mCount = c.mCount ∧
      ∀ p, (c.rotateDown n).bit p =
        if p < c.size then c.bit ((p + n) % c.size) else false := by
  have hsz := h.shape.size_le
  unfold rotateDown
  split
  · rename_i h0
    subst h0
    refine ⟨SameWidth.refl, rfl, fun p => ?_⟩
    split
    · rename_i hp
      rw [Nat.add_zero, Nat.mod_eq_of_lt hp]
    · rename_i hp
      exact h.clear p (by omega)
  · rename_i h0
    extract_lets nBlocks rShift blocks bits turned
    suffices ht : SameWidth c turned ∧ turned.mCount = c.mCount ∧
        ∀ p, p < c.size → turned.bit p = c.bit ((p + n) % c.size) by
      refine ⟨ht.1.trans sameWidth_eraseUnused, by rw [mCount_eraseUnused, ht.2.1], fun p => ?_⟩
      rw [bit_eraseUnused (ht.1.shape h.shape), ht.1.size]
      by_cases hp : p < c.size
      · rw [ht.2.2 p hp]
        simp [hp]
      · simp [hp]
    subst turned
    split
    · rename_i hu
      exact ⟨sameWidth_setBlock, rfl, fun p hp => bit_rotateFirst h hu hn hp⟩
    · obtain ⟨h1, h2, h3⟩ := turn_spec h.shape hn (d := bits) rfl
      have hclosed := closed_spec h.shape hn h1 h2 h3
      have hun := unused_iff h.shape h1
      split
      · exact hclosed
      · rename_i hns
        split
        · exact hclosed
        · -- every bit of the blocks is a position, so there is no padding to close
          rename_i hnu
          have hfull : c.mBlocks.elems.length * w = c.size := by
            by_contra hne
            rcases hun.mpr hne with hc | hc
            · exact hns hc
            · exact hnu hc
          exact ⟨h1, h2, fun p hp => by rw [h3 p (by omega), hfull]⟩

theorem moduloWidth_lt (h : c.size ≠ 0) : c.moduloWidth n = n % c.size := by
  unfold moduloWidth
  rw [if_neg fun hc => h hc.2]

/-- Where no permutation can move a bit there is at most one position. -/
theorem size_le_one_of_still (hp : ¬ V.canPermute = true) : c.size ≤ 1 := by
  unfold Vehicle.canPermute at hp
  unfold size
  split at hp
  · rename_i hst
    rw [if_pos hst]
    simpa using hp
  · rename_i hst
    rw [if_neg hst, if_pos (by simpa using hp)]
    omega

/-- **`rotate(n)`: position `i` takes position `(i + n) % size()`.** -/
theorem rotate_spec (h : c.Inv) (n : Nat) :
    SameWidth c (c.rotate n) ∧ (c.rotate n).mCount = c.mCount ∧
      ∀ p, (c.rotate n).bit p =
        if p < c.size then c.bit ((p + n) % c.size) else false := by
  have hstill (hs : c.size ≤ 1) : SameWidth c c ∧ c.mCount = c.mCount ∧ ∀ p, c.bit p =
      if p < c.size then c.bit ((p + n) % c.size) else false := by
    refine ⟨SameWidth.refl, rfl, fun p => ?_⟩
    split
    · rename_i hp
      obtain rfl : p = 0 := by omega
      rw [show c.size = 1 by omega, Nat.mod_one]
    · exact h.clear p (by omega)
  unfold rotate
  split
  · by_cases h0 : c.size = 0
    · have hm : c.moduloWidth n = n ∨ c.moduloWidth n = 0 := by
        unfold moduloWidth
        split
        · exact Or.inr rfl
        · rw [h0, Nat.mod_zero]
          exact Or.inl rfl
      rename_i hp
      have hz : c.moduloWidth n = 0 := by
        unfold moduloWidth
        rw [if_pos]
        refine ⟨fun hst => ?_, h0⟩
        unfold Vehicle.canPermute at hp
        rw [if_pos hst, decide_eq_true_eq] at hp
        unfold size at h0
        rw [if_pos hst] at h0
        omega
      unfold rotateDown
      rw [hz, if_pos rfl]
      exact hstill (by omega)
    · rw [moduloWidth_lt h0]
      obtain ⟨h1, h2, h3⟩ := rotateDown_spec h (Nat.mod_lt n (by omega))
      refine ⟨h1, h2, fun p => ?_⟩
      rw [h3, Nat.add_mod_mod]
  · rename_i hp
    exact hstill (size_le_one_of_still hp)

theorem Inv.rotate (h : c.Inv) (n : Nat) : (c.rotate n).Inv := by
  obtain ⟨h1, h2, h3⟩ := rotate_spec h n
  refine h.write h1 (fun p hp => by rw [h3, if_neg (by omega)]) fun hs => ?_
  rw [h2, h.count hs]
  by_cases h0 : c.size = 0
  · rw [h0]
    simp
  · refine (countBits_rotate (k := n % c.size) (Nat.le_of_lt (Nat.mod_lt _ (by omega)))
      fun p hp => ?_).symm
    rw [h3, if_pos hp, Nat.add_mod_mod]

/-! ## 3. Reversal -/

/-- The blocks end for end and each block's bits too. -/
theorem bit_reversedBlocks {p : Nat} (hp : p < c.mBlocks.elems.length * w) :
    (c.withElems fun elems => elems.reverse.map reversed).bit p =
      c.bit (c.mBlocks.elems.length * w - 1 - p) := by
  obtain ⟨i, j, hj, rfl⟩ := exists_pos V.bits_pos p
  have hi : i < c.mBlocks.elems.length := (pos_lt_iff hj).mp hp
  have hb : (c.withElems fun elems => elems.reverse.map reversed).block i =
      reversed (c.block (c.mBlocks.elems.length - 1 - i)) := by
    unfold block
    rw [elems_withElems, List.getD_eq_getElem _ _ (by simpa using hi), List.getElem_map,
      List.getElem_reverse, List.getD_eq_getElem _ _ (by omega)]
  rw [bit_pos hj, hb, getLsbD_reversed hj, ← bit_pos (by omega)]
  congr 1
  have hsub : c.mBlocks.elems.length * w = (c.mBlocks.elems.length - 1 - i) * w + (i * w + w) := by
    rw [← Nat.succ_mul, ← Nat.add_mul]
    congr 1
    omega
  omega

/-- The padding brought to the bottom and rotated out. -/
theorem reverse_turned (h : c.Inv) {d : BitBlockContainer V}
    (hd : d = c.withElems fun elems => elems.reverse.map reversed) :
    SameWidth c d ∧
      (c.mBlocks.elems.length * w ≠ c.size →
        SameWidth c (d.rotateBlocksDown (c.mBlocks.elems.length * w - c.size)) ∧
        ∀ p, (d.rotateBlocksDown (c.mBlocks.elems.length * w - c.size)).bit p =
          if p < c.size then c.bit (c.size - 1 - p) else false) ∧
      (c.mBlocks.elems.length * w = c.size → ∀ p, d.bit p =
          if p < c.size then c.bit (c.size - 1 - p) else false) := by
  have hsz := h.shape.size_le
  have hlt := h.shape.lt_size_add
  subst hd
  have hsw : SameWidth c (c.withElems fun elems => elems.reverse.map reversed) :=
    sameWidth_withElems (by rw [List.length_map, List.length_reverse])
  refine ⟨hsw, fun hne => ?_, fun he p => ?_⟩
  · have hlen : 0 < c.mBlocks.elems.length := by
      rcases Nat.eq_zero_or_pos c.mBlocks.elems.length with h0 | h0
      · rw [h0] at hne hsz
        omega
      · exact h0
    obtain ⟨k1, k2⟩ := rotateBlocksDown_spec (hsw.shape h.shape)
      (r := c.mBlocks.elems.length * w - c.size) (by omega) (by omega)
      (by rw [hsw.length]; exact hlen)
    rw [hsw.length] at k2
    refine ⟨hsw.trans k1, fun p => ?_⟩
    by_cases hpt : p < c.mBlocks.elems.length * w
    · rw [k2 p hpt, bit_reversedBlocks (Nat.mod_lt _ (by omega))]
      by_cases hp : p < c.size
      · rw [if_pos hp, Nat.mod_eq_of_lt (by omega)]
        congr 1
        omega
      · rw [if_neg hp]
        refine h.clear _ ?_
        rw [show p + (c.mBlocks.elems.length * w - c.size) =
          p - c.size + c.mBlocks.elems.length * w by omega, Nat.add_mod_right,
          Nat.mod_eq_of_lt (by omega)]
        omega
    · rw [if_neg (by omega)]
      exact bit_of_le (by rw [(hsw.trans k1).length]; omega)
  · by_cases hp : p < c.size
    · rw [if_pos hp, bit_reversedBlocks (by omega), he]
    · rw [if_neg hp]
      exact bit_of_le (by rw [hsw.length]; omega)

/-- **`reverse()`: position `i` takes position `size() - 1 - i`.** -/
theorem reverse_spec (h : c.Inv) :
    SameWidth c c.reverse ∧ c.reverse.mCount = c.mCount ∧
      ∀ p, c.reverse.bit p = if p < c.size then c.bit (c.size - 1 - p) else false := by
  have hsz := h.shape.size_le
  have hw := V.bits_pos
  unfold reverse
  split
  · rename_i hu
    have hl := h.shape.unrolls hu
    have hst : V.hasStaticSize = true := by
      unfold Vehicle.unrolls at hu
      rw [Bool.and_eq_true] at hu
      exact hu.1
    have hun : V.staticNumUnusedBits = w - c.size := by
      unfold Vehicle.staticNumUnusedBits size
      rw [if_pos hst, if_pos hst, ← numBlocks_of_static (c := c) hst, h.shape.numBlocks, hl,
        Nat.one_mul]
    rw [hl, Nat.one_mul] at hsz
    refine ⟨sameWidth_setBlock, rfl, fun p => ?_⟩
    rw [bit_setBlock (by omega), hun]
    by_cases hpw : p < w
    · rw [Nat.div_eq_of_lt hpw, if_pos rfl, Nat.mod_eq_of_lt hpw, getLsbD_shr]
      by_cases hp : p < c.size
      · rw [if_pos hp, getLsbD_reversed (by omega), getLsbD_first (by omega)]
        congr 1
        omega
      · rw [if_neg hp]
        exact BitVec.getLsbD_of_ge _ _ (by omega)
    · have hd : p / w ≠ 0 := by
        rw [Nat.div_ne_zero_iff]
        omega
      rw [if_neg hd, if_neg (by omega)]
      exact h.clear p (by omega)
  · split
    · extract_lets turned
      obtain ⟨h1, h2, h3⟩ := reverse_turned h (d := turned) rfl
      have hun := unused_iff h.shape h1
      split
      · rename_i hs
        have hst := staticSize_of_unused hs
        have hnum : V.staticNumUnusedBits = c.mBlocks.elems.length * w - c.size := by
          unfold Vehicle.staticNumUnusedBits size
          rw [if_pos hst, if_pos hst, ← numBlocks_of_static (c := c) hst, h.shape.numBlocks]
        obtain ⟨k1, k2⟩ := h2 (hun.mp (Or.inl hs))
        rw [hnum]
        exact ⟨k1, rfl, k2⟩
      · rename_i hns
        split
        · rename_i hs
          obtain ⟨k1, k2⟩ := h2 (hun.mp (Or.inr hs))
          rw [(h1.shape h.shape).numBlocks, h1.length, h1.size]
          exact ⟨k1, rfl, k2⟩
        · rename_i hnu
          refine ⟨h1, rfl, h3 ?_⟩
          by_contra hne
          rcases hun.mpr hne with hc | hc
          · exact hns hc
          · exact hnu hc
    · rename_i hnp
      refine ⟨SameWidth.refl, rfl, fun p => ?_⟩
      have hs : c.size ≤ 1 := size_le_one_of_still hnp
      split
      · congr 1
        omega
      · exact h.clear p (by omega)

theorem Inv.reverse (h : c.Inv) : c.reverse.Inv := by
  obtain ⟨h1, h2, h3⟩ := reverse_spec h
  refine h.write h1 (fun p hp => by rw [h3, if_neg (by omega)]) fun hs => ?_
  rw [h2, h.count hs]
  exact (countBits_reverse fun p hp => by rw [h3, if_pos hp]).symm

end Rotation

end BitBlockContainer

end XstdBits
