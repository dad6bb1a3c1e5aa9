/-
  File: XstdBits/Container/Write.lean
  Subject: the writes of one position and of all of them, and the reductions.

  * `set(n)`, `reset(n)`, `flip(n)`, `insert(n)`, `erase(n)` write one block through a mask. Each
    is `updateBlock` with its own function, and `WritesBit` says what such a function does to the
    masked bit and to the others.
  * `set()`, `reset()`, `flip()` write every block, unrolled at one and two static blocks.
  * `count`, `none`, `any`, `all` read every block; under the invariant they speak of the
    positions below the width (`Container/Reduce.lean`).
-/
import XstdBits.Container.Basic

namespace XstdBits

namespace BitBlockContainer
variable {w : Nat} {V : Vehicle w} (c : BitBlockContainer V)

/-! ## 1. One position -/

/-- The block of a position and the mask of its bit. -/
def blockMask (n : Nat) : BitVec w × BitVec w :=
  (c.block (indexOffset V n).1, shl unit (indexOffset V n).2)

/-- `auto&& [block, mask] = block_mask(n); block = f(block, mask);` -/
def updateBlock (n : Nat) (f : BitVec w → BitVec w → BitVec w) : BitBlockContainer V :=
  c.setBlock (indexOffset V n).1 (f (c.blockMask n).1 (c.blockMask n).2)

def blockTest (n : Nat) : Bool := blockIntersects (c.blockMask n).1 (c.blockMask n).2

def set (n : Nat) : BitBlockContainer V :=
  (c.countUp (!c.blockTest n).toNat).updateBlock n fun block mask => block ||| mask

def reset (n : Nat) : BitBlockContainer V :=
  (c.countDown (c.blockTest n).toNat).updateBlock n fun block mask => block &&& ~~~mask

/-- Up one for a bit that was clear and down one for a bit that was set, without a branch. -/
def flip (n : Nat) : BitBlockContainer V :=
  ((c.countUp 1).countDown (2 * (c.blockTest n).toNat)).updateBlock n
    fun block mask => block ^^^ mask

def insert (n : Nat) : BitBlockContainer V × Bool :=
  let inserted := !c.blockTest n
  ((c.updateBlock n fun block mask => block ||| mask).countUp inserted.toNat, inserted)

def erase (n : Nat) : BitBlockContainer V × Bool :=
  let erased := c.blockTest n
  ((c.updateBlock n fun block mask => block &&& ~~~mask).countDown erased.toNat, erased)

def assign (n : Nat) (value : Bool) : BitBlockContainer V :=
  if value then c.set n else c.reset n

/-- The block shifted down to its low bit. -/
def test (n : Nat) : Bool :=
  blockIntersects (shr (c.block (indexOffset V n).1) (indexOffset V n).2) unit

/-- What a write through a mask does: `g` to the masked bit, nothing to the others. -/
def WritesBit (f : BitVec w → BitVec w → BitVec w) (g : Bool → Bool) : Prop :=
  ∀ (b : BitVec w) (k j : Nat), k < w → j < w →
    (f b (shl unit k)).getLsbD j = if j = k then g (b.getLsbD j) else b.getLsbD j

theorem writesBit_or : WritesBit (w := w) (fun b m => b ||| m) (fun _ => true) := by
  intro b k j _ hj
  rw [BitVec.getLsbD_or, getLsbD_unit_shl hj]
  by_cases h : j = k <;> simp [h]

theorem writesBit_and_not : WritesBit (w := w) (fun b m => b &&& ~~~m) (fun _ => false) := by
  intro b k j _ hj
  rw [BitVec.getLsbD_and, BitVec.getLsbD_not, getLsbD_unit_shl hj]
  by_cases h : j = k <;> simp [h, hj]

theorem writesBit_xor : WritesBit (w := w) (fun b m => b ^^^ m) not := by
  intro b k j _ hj
  rw [BitVec.getLsbD_xor, getLsbD_unit_shl hj]
  by_cases h : j = k <;> simp [h]

section OnePosition
variable {c} {n p : Nat}

theorem blockTest_eq (h : c.Shape) (hn : n < c.size) : c.blockTest n = c.bit n := by
  have hlen := h.size_le
  unfold blockTest blockMask
  rw [indexOffset_eq h (by omega), blockIntersects_unit_shl (Nat.mod_lt _ V.bits_pos)]
  rfl

/-- **`test` reads the position.** -/
theorem test_eq (h : c.Shape) (hn : n < c.size) : c.test n = c.bit n := by
  have hlen := h.size_le
  unfold test
  rw [indexOffset_eq h (by omega), blockIntersects_shr_unit V.bits_pos]
  rfl

/-- **A masked write changes the one position.** -/
theorem bit_updateBlock {f : BitVec w → BitVec w → BitVec w} {g : Bool → Bool}
    (hf : WritesBit f g) (h : c.Shape) (hn : n < c.size) :
    (c.updateBlock n f).bit p = if p = n then g (c.bit n) else c.bit p := by
  have hlen := h.size_le
  unfold updateBlock blockMask
  rw [indexOffset_eq h (by omega), bit_setBlock (h.div_lt hn)]
  obtain ⟨i, j, hj, rfl⟩ := exists_pos V.bits_pos p
  obtain ⟨i', j', hj', rfl⟩ := exists_pos V.bits_pos n
  simp only [pos_div hj, pos_mod hj, pos_div hj', pos_mod hj', bit_pos hj, bit_pos hj',
    pos_inj hj hj']
  by_cases hi : i = i'
  · subst hi
    rw [if_pos rfl, hf _ _ _ hj' hj]
    by_cases hjj : j = j'
    · subst hjj
      simp
    · simp [hjj]
  · simp [hi]

theorem sameWidth_updateBlock {f : BitVec w → BitVec w → BitVec w} :
    SameWidth c (c.updateBlock n f) := sameWidth_setBlock

@[simp] theorem mCount_updateBlock {f : BitVec w → BitVec w → BitVec w} :
    (c.updateBlock n f).mCount = c.mCount := rfl

/-- **One position written keeps the invariant** when the count moves by what it gained. -/
theorem Inv.update (h : c.Inv) (hn : n < c.size) {d : BitBlockContainer V} {v : Bool}
    (hw : SameWidth c d) (hbit : ∀ p, d.bit p = if p = n then v else c.bit p)
    (hcount : V.hasStoredCount = true → d.mCount = c.mCount + v.toNat - (c.bit n).toNat) :
    d.Inv := by
  refine h.write hw (fun p hp => ?_) fun hc => ?_
  · rw [hbit, if_neg (by omega)]
    exact h.clear p hp
  · have hu := countBits_update (f := c.bit) (g := d.bit) hn fun p hp => by
      rw [hbit, if_neg hp]
    rw [hbit, if_pos rfl] at hu
    have := h.count hc
    rw [hcount hc]
    omega

/-! ### What each write does -/

theorem sameWidth_set : SameWidth c (c.set n) := sameWidth_countUp.trans sameWidth_updateBlock

theorem sameWidth_reset : SameWidth c (c.reset n) := sameWidth_countDown.trans sameWidth_updateBlock

theorem sameWidth_flip : SameWidth c (c.flip n) :=
  (sameWidth_countUp.trans sameWidth_countDown).trans sameWidth_updateBlock

theorem sameWidth_insert : SameWidth c (c.insert n).1 :=
  sameWidth_updateBlock.trans sameWidth_countUp

theorem sameWidth_erase : SameWidth c (c.erase n).1 :=
  sameWidth_updateBlock.trans sameWidth_countDown

theorem bit_set (h : c.Shape) (hn : n < c.size) :
    (c.set n).bit p = if p = n then true else c.bit p := by
  have hw : SameWidth c (c.countUp (!c.blockTest n).toNat) := sameWidth_countUp
  unfold set
  rw [bit_updateBlock writesBit_or (hw.shape h) (by rwa [hw.size]), bit_congr (mBlocks_countUp c)]

theorem bit_reset (h : c.Shape) (hn : n < c.size) :
    (c.reset n).bit p = if p = n then false else c.bit p := by
  have hw : SameWidth c (c.countDown (c.blockTest n).toNat) := sameWidth_countDown
  unfold reset
  rw [bit_updateBlock writesBit_and_not (hw.shape h) (by rwa [hw.size]),
    bit_congr (mBlocks_countDown c)]

theorem bit_flip (h : c.Shape) (hn : n < c.size) :
    (c.flip n).bit p = if p = n then !c.bit n else c.bit p := by
  have hw : SameWidth c ((c.countUp 1).countDown (2 * (c.blockTest n).toNat)) :=
    sameWidth_countUp.trans sameWidth_countDown
  have hb (q : Nat) : ((c.countUp 1).countDown (2 * (c.blockTest n).toNat)).bit q = c.bit q :=
    bit_congr (by rw [mBlocks_countDown, mBlocks_countUp])
  unfold flip
  rw [bit_updateBlock writesBit_xor (hw.shape h) (by rwa [hw.size]), hb, hb]

theorem bit_insert (h : c.Shape) (hn : n < c.size) :
    (c.insert n).1.bit p = if p = n then true else c.bit p := by
  unfold insert
  rw [bit_congr (mBlocks_countUp _), bit_updateBlock writesBit_or h hn]

theorem bit_erase (h : c.Shape) (hn : n < c.size) :
    (c.erase n).1.bit p = if p = n then false else c.bit p := by
  unfold erase
  rw [bit_congr (mBlocks_countDown _), bit_updateBlock writesBit_and_not h hn]

theorem insert_snd (h : c.Shape) (hn : n < c.size) : (c.insert n).2 = !c.bit n := by
  unfold insert
  rw [blockTest_eq h hn]

theorem erase_snd (h : c.Shape) (hn : n < c.size) : (c.erase n).2 = c.bit n := by
  unfold erase
  rw [blockTest_eq h hn]

theorem Inv.set (h : c.Inv) (hn : n < c.size) : (c.set n).Inv := by
  refine h.update hn sameWidth_set (fun p => bit_set h.shape hn) fun hc => ?_
  rw [BitBlockContainer.set, mCount_updateBlock, mCount_countUp hc, blockTest_eq h.shape hn]
  cases c.bit n <;> simp

theorem Inv.reset (h : c.Inv) (hn : n < c.size) : (c.reset n).Inv := by
  refine h.update hn sameWidth_reset (fun p => bit_reset h.shape hn) fun hc => ?_
  rw [BitBlockContainer.reset, mCount_updateBlock, mCount_countDown hc, blockTest_eq h.shape hn]
  simp

theorem Inv.flip (h : c.Inv) (hn : n < c.size) : (c.flip n).Inv := by
  refine h.update hn sameWidth_flip (fun p => bit_flip h.shape hn) fun hc => ?_
  rw [BitBlockContainer.flip, mCount_updateBlock, mCount_countDown hc, mCount_countUp hc,
    blockTest_eq h.shape hn]
  cases c.bit n <;> simp

theorem Inv.insert (h : c.Inv) (hn : n < c.size) : (c.insert n).1.Inv := by
  refine h.update hn sameWidth_insert (fun p => bit_insert h.shape hn) fun hc => ?_
  simp only [BitBlockContainer.insert, mCount_countUp hc, mCount_updateBlock,
    blockTest_eq h.shape hn]
  cases c.bit n <;> simp

theorem Inv.erase (h : c.Inv) (hn : n < c.size) : (c.erase n).1.Inv := by
  refine h.update hn sameWidth_erase (fun p => bit_erase h.shape hn) fun hc => ?_
  simp only [BitBlockContainer.erase, mCount_countDown hc, mCount_updateBlock,
    blockTest_eq h.shape hn]
  simp

theorem sameWidth_assign {v : Bool} : SameWidth c (c.assign n v) := by
  unfold assign
  split
  · exact sameWidth_set
  · exact sameWidth_reset

theorem bit_assign (h : c.Shape) (hn : n < c.size) {v : Bool} :
    (c.assign n v).bit p = if p = n then v else c.bit p := by
  unfold assign
  cases v
  · exact bit_reset h hn
  · exact bit_set h hn

theorem Inv.assign (h : c.Inv) (hn : n < c.size) {v : Bool} : (c.assign n v).Inv := by
  unfold BitBlockContainer.assign
  cases v
  · exact h.reset hn
  · exact h.set hn

end OnePosition

/-! ## 2. Every block -/

/-- `d` holds the blocks of `c`, block `i` passed through `f i`. -/
structure MapsBlocks (f : Nat → BitVec w → BitVec w) (c d : BitBlockContainer V) : Prop where
  width : SameWidth c d
  block : ∀ i, i < c.mBlocks.elems.length → d.block i = f i (c.block i)

section MapsBlocks
variable {c} {d : BitBlockContainer V} {f : Nat → BitVec w → BitVec w}

theorem block_setBlock {i j : Nat} {b : BitVec w} :
    (c.setBlock i b).block j = if i = j ∧ j < c.mBlocks.elems.length then b else c.block j :=
  getD_set

theorem mapsBlocks_nil (hl : c.mBlocks.elems.length = 0) : MapsBlocks f c c :=
  ⟨SameWidth.refl, fun i hi => by omega⟩

theorem mapsBlocks_one {b : BitVec w} (hl : c.mBlocks.elems.length = 1) (hb : b = f 0 (c.block 0)) :
    MapsBlocks f c (c.setBlock 0 b) := by
  refine ⟨sameWidth_setBlock, fun i hi => ?_⟩
  obtain rfl : i = 0 := by omega
  rw [block_setBlock, if_pos ⟨rfl, hi⟩, hb]

theorem mapsBlocks_two {b b' : BitVec w} (hl : c.mBlocks.elems.length = 2)
    (hb : b = f 0 (c.block 0)) (hb' : b' = f 1 (c.block 1)) :
    MapsBlocks f c ((c.setBlock 0 b).setBlock 1 b') := by
  refine ⟨sameWidth_setBlock.trans sameWidth_setBlock, fun i hi => ?_⟩
  rw [block_setBlock, block_setBlock, sameWidth_setBlock.length]
  rcases (by omega : i = 0 ∨ i = 1) with rfl | rfl
  · simp [hl, hb]
  · simp [hl, hb']

theorem mapsBlocks_all : MapsBlocks f c (c.withElems (mapUp c.mBlocks.elems.length zero f)) := by
  have h := mapUp_spec (x := c.mBlocks.elems) (d := zero) (f := f) (Nat.le_refl _)
  refine ⟨sameWidth_withElems h.1, fun i hi => ?_⟩
  have := h.2 i
  rwa [if_pos hi] at this

/-- **A function that acts bit by bit acts on the positions.** -/
theorem MapsBlocks.bit (h : MapsBlocks f c d) {g : Nat → Bool → Bool}
    (hf : ∀ i b j, j < w → (f i b).getLsbD j = g (i * w + j) (b.getLsbD j)) {p : Nat}
    (hp : p < c.mBlocks.elems.length * w) : d.bit p = g p (c.bit p) := by
  obtain ⟨i, j, hj, rfl⟩ := exists_pos V.bits_pos p
  rw [bit_pos hj, bit_pos hj, h.block i ((pos_lt_iff hj).mp hp), hf _ _ _ hj]

end MapsBlocks

/-- `set()`. -/
def setAll : BitBlockContainer V :=
  let written :=
    if V.hasStaticSize ∧ V.staticNumBlocks ≤ 2 then
      c.withElems (writeUp 0 V.staticNumBlocks fun _ i =>
        if i = V.staticLastBlock then V.staticUsedBits else ones)
    else if V.staticHasUnusedBits then
      c.withElems fun elems => (fillRange 0 V.staticLastBlock ones elems).set V.staticLastBlock
        V.staticUsedBits
    else if V.hasStaticSize then
      c.withElems fun elems => fillRange 0 elems.length ones elems
    else
      (c.withElems fun elems => fillRange 0 elems.length ones elems).eraseUnused
  written.storeCount written.size

/-- `reset()`. -/
def resetAll : BitBlockContainer V :=
  let written :=
    if V.hasStaticSize ∧ V.staticNumBlocks ≤ 2 then
      c.withElems (writeUp 0 V.staticNumBlocks fun _ _ => zero)
    else
      c.withElems fun elems => fillRange 0 elems.length zero elems
  written.storeCount 0

/-- `flip()`. -/
def flipAll : BitBlockContainer V :=
  let complemented :=
    if V.unrolls 1 then c.setBlock 0 (~~~c.block 0)
    else if V.unrolls 2 then
      let c' := c.setBlock 0 (~~~c.block 0)
      c'.setBlock 1 (~~~c'.block 1)
    else if ¬ (V.hasStaticSize ∧ V.extent = 0) then
      c.withElems (mapUp c.numBlocks zero fun _ b => ~~~b)
    else c
  let erased := complemented.eraseUnused
  erased.storeCount (erased.size - erased.storedCount)

/-- `fill(value)`. -/
def fill (value : Bool) : BitBlockContainer V := if value then c.setAll else c.resetAll

section EveryBlock
variable {c} {p : Nat}

/-- Full blocks under a last one masked to the width hold exactly the positions below it. -/
theorem bit_of_usedBlocks (h : c.Shape) {d : BitBlockContainer V}
    (hd : ∀ i, i < c.mBlocks.elems.length → d.block i =
      if i = c.mBlocks.elems.length - 1 then shr ones (c.mBlocks.elems.length * w - c.size)
      else ones) (hw : SameWidth c d) : d.bit p = decide (p < c.size) := by
  have h1 := h.size_le
  have h2 := h.lt_size_add
  obtain ⟨i, j, hj, rfl⟩ := exists_pos V.bits_pos p
  by_cases hi : i < c.mBlocks.elems.length
  · rw [bit_pos hj, hd i hi]
    have hk : (i + 1) * w ≤ c.mBlocks.elems.length * w := Nat.mul_le_mul_right w hi
    rw [Nat.succ_mul] at hk
    split
    · rename_i hl
      have hle : c.mBlocks.elems.length * w = i * w + w := by
        rw [← Nat.succ_mul]
        congr 1
        omega
      rw [getLsbD_shr, getLsbD_ones, decide_eq_decide]
      omega
    · rename_i hl
      have hk2 : (i + 2) * w ≤ c.mBlocks.elems.length * w := Nat.mul_le_mul_right w (by omega)
      rw [Nat.add_mul] at hk2
      rw [getLsbD_ones, decide_eq_decide]
      omega
  · have hle : c.mBlocks.elems.length * w ≤ i * w := Nat.mul_le_mul_right w (by omega)
    rw [bit_of_le (by rw [hw.length]; omega)]
    simp
    omega

theorem sameWidth_fill {v : BitVec w} :
    SameWidth c (c.withElems fun elems => fillRange 0 elems.length v elems) :=
  sameWidth_withElems (length_fillRange (Nat.le_refl _))

theorem block_fill {v : BitVec w} {i : Nat} (hi : i < c.mBlocks.elems.length) :
    (c.withElems fun elems => fillRange 0 elems.length v elems).block i = v := by
  have := getD_fillRange (d := zero) (v := v) (Nat.le_refl c.mBlocks.elems.length) i (a := 0)
  rwa [if_pos ⟨Nat.zero_le _, hi⟩] at this

theorem setAll_spec (h : c.Shape) :
    SameWidth c c.setAll ∧ (∀ p, c.setAll.bit p = decide (p < c.size)) ∧
      (V.hasStoredCount = true → c.setAll.mCount = c.size) := by
  unfold setAll
  extract_lets written
  suffices hw : SameWidth c written ∧ ∀ p, written.bit p = decide (p < c.size) by
    refine ⟨hw.1.trans sameWidth_storeCount, fun p => ?_, fun hc => ?_⟩
    · rw [bit_congr (mBlocks_storeCount _)]
      exact hw.2 p
    · rw [mCount_storeCount hc, hw.1.size]
  have hlast (hs : V.hasStaticSize = true) :
      V.staticNumBlocks = c.mBlocks.elems.length ∧
      V.staticUsedBits = shr ones (c.mBlocks.elems.length * w - c.size) := by
    refine ⟨?_, staticUsedBits_eq h hs⟩
    rw [← h.numBlocks, numBlocks, if_pos hs]
  subst written
  split
  · rename_i hs
    obtain ⟨hn, hu⟩ := hlast hs.1
    have hwr := writeUp_spec (d := zero) (x := c.mBlocks.elems) (a := 0) (b := V.staticNumBlocks)
      (g := fun _ i => if i = V.staticLastBlock then V.staticUsedBits else ones) (by omega)
      fun _ _ _ _ _ _ => rfl
    have hsw := sameWidth_withElems (c := c) hwr.1
    refine ⟨hsw, fun p => bit_of_usedBlocks h (fun i hi => ?_) hsw⟩
    refine (hwr.2 i).trans ?_
    rw [if_pos ⟨Nat.zero_le _, by omega⟩, Vehicle.staticLastBlock, hn, hu]
  · split
    · rename_i hu
      have hs := staticSize_of_unused hu
      obtain ⟨hn, hused⟩ := hlast hs
      have hll : V.staticLastBlock ≤ c.mBlocks.elems.length := by
        unfold Vehicle.staticLastBlock
        omega
      have hfl := length_fillRange (a := 0) (v := (ones : BitVec w)) hll
      have hsw : SameWidth c (c.withElems fun elems =>
          (fillRange 0 V.staticLastBlock ones elems).set V.staticLastBlock V.staticUsedBits) :=
        sameWidth_withElems (by rw [List.length_set, hfl])
      refine ⟨hsw, fun p => bit_of_usedBlocks h (fun i hi => ?_) hsw⟩
      have hfill := getD_fillRange (d := zero) (a := 0) (v := (ones : BitVec w)) hll i
      have hset := getD_set (x := fillRange 0 V.staticLastBlock ones c.mBlocks.elems) (d := zero)
        (i := V.staticLastBlock) (j := i) (b := V.staticUsedBits)
      refine hset.trans ?_
      rw [hfl, hfill, hused]
      unfold Vehicle.staticLastBlock
      rw [hn]
      by_cases hi' : i = c.mBlocks.elems.length - 1
      · rw [if_pos ⟨hi'.symm, hi⟩, if_pos hi']
      · rw [if_neg fun hc => hi' hc.1.symm, if_neg hi', if_pos ⟨Nat.zero_le _, by omega⟩]
    · rename_i hnu
      split
      · rename_i hs
        refine ⟨sameWidth_fill, fun p => bit_of_usedBlocks h (fun i hi => ?_) sameWidth_fill⟩
        rw [block_fill hi]
        have he : c.mBlocks.elems.length * w = c.size := by
          by_contra hne
          exact hnu ((staticHasUnusedBits_iff h hs).mpr hne)
        rw [he, Nat.sub_self]
        unfold shr
        rw [BitVec.ushiftRight_zero, ite_self]
      · have hsh := (sameWidth_fill (c := c) (v := ones)).shape h
        refine ⟨sameWidth_fill.trans sameWidth_eraseUnused, fun p => ?_⟩
        rw [bit_eraseUnused hsh, sameWidth_fill.size]
        by_cases hp : p < c.size
        · obtain ⟨i, j, hj, rfl⟩ := exists_pos V.bits_pos p
          rw [bit_pos hj, block_fill (h.index_lt hp), getLsbD_ones]
          simp [hj]
        · simp [hp]

theorem resetAll_spec (h : c.Shape) :
    SameWidth c c.resetAll ∧ (∀ p, c.resetAll.bit p = false) ∧
      (V.hasStoredCount = true → c.resetAll.mCount = 0) := by
  unfold resetAll
  extract_lets written
  suffices hw : SameWidth c written ∧
      ∀ i, i < c.mBlocks.elems.length → written.block i = zero by
    refine ⟨hw.1.trans sameWidth_storeCount, fun p => ?_, fun hc => mCount_storeCount hc⟩
    rw [bit_congr (mBlocks_storeCount _)]
    obtain ⟨i, j, hj, rfl⟩ := exists_pos V.bits_pos p
    by_cases hi : i < c.mBlocks.elems.length
    · rw [bit_pos hj, hw.2 i hi]
      exact BitVec.getLsbD_zero
    · refine bit_of_le ?_
      have := Nat.mul_le_mul_right w (Nat.le_of_not_lt hi)
      rw [hw.1.length]
      omega
  subst written
  split
  · rename_i hs
    have hn : V.staticNumBlocks = c.mBlocks.elems.length := by
      rw [← h.numBlocks, numBlocks, if_pos hs.1]
    have hwr := writeUp_spec (d := zero) (x := c.mBlocks.elems) (a := 0) (b := V.staticNumBlocks)
      (g := fun _ _ => (zero : BitVec w)) (by omega) fun _ _ _ _ _ _ => rfl
    refine ⟨sameWidth_withElems hwr.1, fun i hi => ?_⟩
    have := hwr.2 i
    rwa [if_pos ⟨Nat.zero_le _, by omega⟩] at this
  · exact ⟨sameWidth_fill, fun i hi => block_fill hi⟩

theorem flipAll_spec (h : c.Inv) :
    SameWidth c c.flipAll ∧ (∀ p, c.flipAll.bit p = (decide (p < c.size) && !c.bit p)) ∧
      (V.hasStoredCount = true → c.flipAll.mCount = c.size - c.mCount) := by
  unfold flipAll
  extract_lets c' complemented erased
  have hmaps : MapsBlocks (fun _ b => ~~~b) c complemented ∧ complemented.mCount = c.mCount := by
    subst complemented
    split
    · rename_i hu
      exact ⟨mapsBlocks_one (h.shape.unrolls hu) rfl, rfl⟩
    · split
      · rename_i hu
        refine ⟨mapsBlocks_two (h.shape.unrolls hu) rfl ?_, rfl⟩
        subst c'
        rw [block_setBlock, if_neg (by simp)]
      · split
        · rw [h.shape.numBlocks]
          exact ⟨mapsBlocks_all, rfl⟩
        · rename_i hz
          rw [not_not] at hz
          refine ⟨mapsBlocks_nil ?_, rfl⟩
          rw [h.shape, size, if_pos hz.1, hz.2, blocksFor_zero]
  have hsw : SameWidth c erased := hmaps.1.width.trans sameWidth_eraseUnused
  refine ⟨hsw.trans sameWidth_storeCount, fun p => ?_, fun hc => ?_⟩
  · rw [bit_congr (mBlocks_storeCount _), bit_eraseUnused (hmaps.1.width.shape h.shape),
      hmaps.1.width.size]
    by_cases hp : p < c.size
    · have hle := h.shape.size_le
      rw [hmaps.1.bit (g := fun _ v => !v) (fun i b j hj => by
        rw [BitVec.getLsbD_not]; simp [hj]) (by omega)]
      simp [hp]
    · simp [hp]
  · rw [mCount_storeCount hc, hsw.size, storedCount_eq hc]
    show c.size - complemented.eraseUnused.mCount = _
    rw [mCount_eraseUnused, hmaps.2]

theorem Inv.setAll (h : c.Inv) : c.setAll.Inv := by
  obtain ⟨hw, hb, hc⟩ := setAll_spec h.shape
  refine h.write hw (fun p hp => ?_) fun hs => ?_
  · rw [hb]
    simp
    omega
  · rw [hc hs, countBits_const (v := true) fun p hp => by rw [hb]; simp [hp]]
    simp

theorem Inv.resetAll (h : c.Inv) : c.resetAll.Inv := by
  obtain ⟨hw, hb, hc⟩ := resetAll_spec h.shape
  refine h.write hw (fun p _ => hb p) fun hs => ?_
  rw [hc hs, countBits_eq_zero fun p _ => hb p]

theorem Inv.flipAll (h : c.Inv) : c.flipAll.Inv := by
  obtain ⟨hw, hb, hc⟩ := flipAll_spec h
  refine h.write hw (fun p hp => ?_) fun hs => ?_
  · rw [hb]
    simp
    omega
  · rw [hc hs, h.count hs, ← countBits_not]
    refine countBits_congr fun p hp => ?_
    rw [hb]
    simp [hp]

theorem fill_spec (h : c.Inv) {v : Bool} :
    SameWidth c (c.fill v) ∧ (∀ p, (c.fill v).bit p = (decide (p < c.size) && v)) ∧
      (c.fill v).Inv := by
  unfold fill
  cases v
  · obtain ⟨hw, hb, -⟩ := resetAll_spec h.shape
    exact ⟨hw, fun p => by rw [if_neg (by decide), hb, Bool.and_false], h.resetAll⟩
  · obtain ⟨hw, hb, -⟩ := setAll_spec h.shape
    exact ⟨hw, fun p => by rw [if_pos rfl, hb, Bool.and_true], h.setAll⟩

end EveryBlock

end BitBlockContainer

end XstdBits
