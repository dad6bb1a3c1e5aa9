/-
  File: XstdBits/Algorithm/Blit.lean
  Subject: bools written a block at a time from blocks of any type, at any two offsets.

  * `readBlock`: the bits of a source from a position on, its own block, or its blocks assembled or
    cut (`getLsbD_readBlock`).
  * `writeUp` and `writeDown` write a range under a mask a turn; a turn may read what the turns
    before it left, so each rule lets the turn assume where they have written (`writeUp_spec`,
    `writeDown_spec`).
  * a function of bools is asked once for each of its arguments, and is a table of blocks
    (`getLsbD_unaryTable`, `getLsbD_binaryTable`).
-/
import XstdBits.Container.Range

namespace XstdBits

namespace Blit

open BitBlockContainer

/-! ## 1. Reading a block -/

section Read
variable {w : Nat} {V : Vehicle w}

/-- The blocks of the source that touch the `count` bits from `n` on, each where it belongs. -/
def assembledBlock (u : Nat) (c : BitBlockContainer V) (n count : Nat) : BitVec u :=
  forStep w 0 count (fun j block => block ||| shl ((c.blockAt (n + j)).setWidth u) j) zero

/-- `read_block<Block>`: the `count` bits of `c` from position `n` at the bottom of a block of `u`
    bits. Two block types of one width read alike either way. -/
def readBlock (u : Nat) (c : BitBlockContainer V) (n count : Nat) : BitVec u :=
  if u = w then (c.blockAt n).setWidth u else assembledBlock u c n count

variable {c : BitBlockContainer V} {u n count j : Nat}

theorem getLsbD_assembledBlock (h : c.Shape) (hcount : count ≤ u) (hn : n + count ≤ c.size)
    (hj : j < count) : (assembledBlock u c n count).getLsbD j = c.bit (n + j) := by
  have hsz := h.size_le
  have hturn : ∀ q (block : BitVec u), q < count →
      ((∀ i, i < q → i < count → block.getLsbD i = c.bit (n + i)) ∧
        ∀ i, q ≤ i → block.getLsbD i = false) →
      (∀ i, i < q + w → i < count →
        (block ||| shl ((c.blockAt (n + q)).setWidth u) q).getLsbD i = c.bit (n + i)) ∧
        ∀ i, q + w ≤ i →
          (block ||| shl ((c.blockAt (n + q)).setWidth u) q).getLsbD i = false := by
    intro q block hq ⟨hread, hclear⟩
    have hshl (i : Nat) (hi : i < u) :
        (shl ((c.blockAt (n + q)).setWidth u) q).getLsbD i =
          (decide (q ≤ i) && (c.blockAt (n + q)).getLsbD (i - q)) := by
      rw [getLsbD_shl hi, BitVec.getLsbD_setWidth, decide_eq_true (show i - q < u by omega),
        Bool.true_and]
    refine ⟨fun i h1 h2 => ?_, fun i hi => ?_⟩
    · rw [BitVec.getLsbD_or, hshl i (by omega)]
      by_cases hlt : i < q
      · rw [hread i hlt h2, decide_eq_false (by omega), Bool.false_and, Bool.or_false]
      · rw [hclear i (by omega), decide_eq_true (by omega), Bool.false_or, Bool.true_and,
          getLsbD_blockAt h (by omega) (by omega), show n + q + (i - q) = n + i by omega]
    · by_cases hiu : i < u
      · rw [BitVec.getLsbD_or, hclear i (by omega), hshl i hiu, Bool.false_or,
          BitVec.getLsbD_of_ge _ _ (show w ≤ i - q by omega), Bool.and_false]
      · exact BitVec.getLsbD_of_ge _ _ (by omega)
  obtain ⟨q, hq, hread, -⟩ := forStep_inv (k := w) (a := 0) (b := count) (s := (zero : BitVec u))
    (f := fun j block => block ||| shl ((c.blockAt (n + j)).setWidth u) j)
    (fun q block => (∀ i, i < q → i < count → block.getLsbD i = c.bit (n + i)) ∧
      ∀ i, q ≤ i → block.getLsbD i = false) V.bits_pos
    ⟨fun i hi => absurd hi (Nat.not_lt_zero i), fun i _ => BitVec.getLsbD_zero⟩ hturn
  exact hread j (by omega) hj

/-- **A block read holds the source's bits.** -/
theorem getLsbD_readBlock (h : c.Shape) (hcount : count ≤ u) (hn : n + count ≤ c.size)
    (hj : j < count) : (readBlock u c n count).getLsbD j = c.bit (n + j) := by
  have hsz := h.size_le
  unfold readBlock
  split
  · rename_i he
    rw [BitVec.getLsbD_setWidth, decide_eq_true (by omega), Bool.true_and,
      getLsbD_blockAt h (by omega) (by omega)]
  · exact getLsbD_assembledBlock h hcount hn hj

end Read

/-! ## 2. Writing a range -/

section Write
variable {w : Nat} {V : Vehicle w}

/-- `write_up`: lowest first, `block(k, count)` giving the bits from `k`, read as they then are. -/
def writeUp (dst : BitBlockContainer V) (d len : Nat)
    (block : BitBlockContainer V → Nat → Nat → BitVec w) : BitBlockContainer V :=
  forStep w 0 len (fun k dst =>
    let count := min w (len - k)
    dst.writeBlockAt (d + k) (block dst k count) (partialBlockMask count)) dst

/-- `write_down`: highest first. -/
def writeDown (dst : BitBlockContainer V) (d len : Nat)
    (block : BitBlockContainer V → Nat → Nat → BitVec w) : BitBlockContainer V :=
  forDown 0 ((len + w - 1) / w) (fun j dst =>
    let count := min w (len - j * w)
    dst.writeBlockAt (d + j * w) (block dst (j * w) count) (partialBlockMask count)) dst

/-- **A range written**: positions `[d, d + len)` hold what `g` says, and the others what they
    held. -/
structure Written (dst : BitBlockContainer V) (d len : Nat) (g : Nat → Bool)
    (dst' : BitBlockContainer V) : Prop where
  sameWidth : SameWidth dst dst'
  bit : ∀ p, dst'.bit p = if d ≤ p ∧ p < d + len then g (p - d) else dst.bit p

variable {dst dst' : BitBlockContainer V} {d len k count : Nat} {g : Nat → Bool}
  {block : BitBlockContainer V → Nat → Nat → BitVec w}

theorem Written.shape (hw : Written dst d len g dst') (h : dst.Shape) : dst'.Shape :=
  hw.sameWidth.shape h

theorem Written.size (hw : Written dst d len g dst') : dst'.size = dst.size := hw.sameWidth.size

/-- One turn: `count` positions from `d + k` on. -/
theorem bit_turn (h : dst'.Shape) (hd : d + k + count ≤ dst'.size) (hpos : 0 < count)
    (hcount : count ≤ w) {value : BitVec w} (hvalue : ∀ i, i < count → value.getLsbD i = g (k + i))
    (p : Nat) : (dst'.writeBlockAt (d + k) value (partialBlockMask count)).bit p =
      if d + k ≤ p ∧ p < d + k + count then g (p - d) else dst'.bit p := by
  have hsz := h.size_le
  rw [bit_writePartial h (by omega) hcount (by omega)]
  split
  · rw [hvalue _ (by omega), show k + (p - (d + k)) = p - d by omega]
  · rfl

/-- A range written to `k`, `count` positions further. -/
theorem Written.further (hw : Written dst d k g dst') (h : dst.Shape)
    (hd : d + k + count ≤ dst.size) (hpos : 0 < count) (hcount : count ≤ w) {value : BitVec w}
    (hvalue : ∀ i, i < count → value.getLsbD i = g (k + i)) :
    Written dst d (k + count) g (dst'.writeBlockAt (d + k) value (partialBlockMask count)) := by
  have hsize := hw.size
  refine ⟨hw.sameWidth.trans sameWidth_writeBlockAt, fun p => ?_⟩
  rw [bit_turn (hw.shape h) (by omega) hpos hcount hvalue, hw.bit]
  by_cases h1 : d + k ≤ p ∧ p < d + k + count
  · rw [if_pos h1, if_pos (by omega)]
  · rw [if_neg h1]
    exact if_congr (by omega) rfl rfl

/-- **The rule of `write_up`**: each turn finds the positions below its own written. -/
theorem writeUp_spec (h : dst.Shape) (hd : d + len ≤ dst.size)
    (hblock : ∀ k dst', k < len → Written dst d k g dst' → ∀ i, i < min w (len - k) →
      (block dst' k (min w (len - k))).getLsbD i = g (k + i)) :
    Written dst d len g (writeUp dst d len block) := by
  have hturn : ∀ k dst', k < len → Written dst d (min k len) g dst' →
      Written dst d (min (k + w) len) g (dst'.writeBlockAt (d + k)
        (block dst' k (min w (len - k))) (partialBlockMask (min w (len - k)))) := by
    intro k dst' hk hdst
    have hw := V.bits_pos
    rw [Nat.min_eq_left (Nat.le_of_lt hk)] at hdst
    rw [show min (k + w) len = k + min w (len - k) by omega]
    exact hdst.further h (by omega) (by omega) (Nat.min_le_left _ _) (hblock k dst' hk hdst)
  obtain ⟨q, hq, hwritten⟩ := forStep_inv (k := w) (a := 0) (b := len) (s := dst)
    (f := fun k dst => dst.writeBlockAt (d + k) (block dst k (min w (len - k)))
      (partialBlockMask (min w (len - k))))
    (fun q dst' => Written dst d (min q len) g dst') V.bits_pos
    ⟨SameWidth.refl, fun p => by rw [if_neg (by omega)]⟩ hturn
  rwa [Nat.min_eq_right hq] at hwritten

/-- What is written where the range is taken from position `lo` on. -/
def WrittenFrom (dst : BitBlockContainer V) (d lo len : Nat) (g : Nat → Bool)
    (dst' : BitBlockContainer V) : Prop :=
  SameWidth dst dst' ∧
    ∀ p, dst'.bit p = if d + lo ≤ p ∧ p < d + len then g (p - d) else dst.bit p

/-- **The rule of `write_down`**: each turn finds the positions above its own written. -/
theorem writeDown_spec (h : dst.Shape) (hd : d + len ≤ dst.size)
    (hblock : ∀ k dst', k < len → WrittenFrom dst d (min (k + w) len) len g dst' →
      ∀ i, i < min w (len - k) → (block dst' k (min w (len - k))).getLsbD i = g (k + i)) :
    Written dst d len g (writeDown dst d len block) := by
  have hw := V.bits_pos
  have hlast : len ≤ (len + w - 1) / w * w := by
    rw [chunks_eq hw]
    exact le_blocksFor_mul hw
  have hchunk (j : Nat) (hj : j < (len + w - 1) / w) : j * w < len := by
    rwa [chunks_eq hw, lt_blocksFor_iff hw] at hj
  have hturn : ∀ j dst', 0 ≤ j → j < (len + w - 1) / w →
      WrittenFrom dst d (min ((j + 1) * w) len) len g dst' →
      WrittenFrom dst d (min (j * w) len) len g (dst'.writeBlockAt (d + j * w)
        (block dst' (j * w) (min w (len - j * w))) (partialBlockMask (min w (len - j * w)))) := by
    intro j dst' _ hj ⟨hsame, hbit⟩
    have hk := hchunk j hj
    rw [Nat.add_mul, Nat.one_mul] at hbit
    have hsize := hsame.size
    refine ⟨hsame.trans sameWidth_writeBlockAt, fun p => ?_⟩
    rw [bit_turn (g := g) (hsame.shape h) (by omega) (by omega) (Nat.min_le_left _ _)
      (hblock (j * w) dst' hk ⟨hsame, hbit⟩), hbit]
    by_cases h1 : d + j * w ≤ p ∧ p < d + j * w + min w (len - j * w)
    · rw [if_pos h1, if_pos (by omega)]
    · rw [if_neg h1]
      exact if_congr (by omega) rfl rfl
  obtain ⟨hsame, hbit⟩ := forDown_inv (a := 0) (b := (len + w - 1) / w) (s := dst)
    (f := fun j dst => dst.writeBlockAt (d + j * w) (block dst (j * w) (min w (len - j * w)))
      (partialBlockMask (min w (len - j * w))))
    (fun j dst' => WrittenFrom dst d (min (j * w) len) len g dst') (Nat.zero_le _)
    ⟨SameWidth.refl, fun p => by rw [if_neg (by omega)]⟩ hturn
  refine ⟨hsame, fun p => (hbit p).trans ?_⟩
  exact if_congr (by omega) rfl rfl

/-- Storage rewritten within its width. -/
structure Kept (dst dst' : BitBlockContainer V) : Prop where
  inv : dst'.Inv
  size : dst'.size = dst.size

theorem Kept.refl (h : dst.Inv) : Kept dst dst := ⟨h, rfl⟩

theorem Kept.trans {dst'' : BitBlockContainer V} (h : Kept dst dst') (h' : Kept dst' dst'') :
    Kept dst dst'' := ⟨h'.inv, h'.size.trans h.size⟩

/-- Whatever is written, it stays within the width where the range does. -/
theorem Kept.turn (h : Kept dst dst') (hu : V.hasStoredCount = false) {n : Nat} (hpos : 0 < count)
    (hcount : count ≤ w) (hn : n + count ≤ dst.size) {value : BitVec w} :
    Kept dst (dst'.writeBlockAt n value (partialBlockMask count)) :=
  h.trans ⟨h.inv.writePartial hu hpos hcount (h.size.symm ▸ hn), sameWidth_writeBlockAt.size⟩

theorem writeUp_kept (h : dst.Inv) (hu : V.hasStoredCount = false) (hd : d + len ≤ dst.size) :
    Kept dst (writeUp dst d len block) := by
  have hw := V.bits_pos
  obtain ⟨q, -, hkept⟩ := forStep_inv (k := w) (a := 0) (b := len) (s := dst)
    (f := fun k dst => dst.writeBlockAt (d + k) (block dst k (min w (len - k)))
      (partialBlockMask (min w (len - k))))
    (fun _ dst' => Kept dst dst') hw (.refl h) fun k dst' hk hdst =>
      hdst.turn hu (by omega) (Nat.min_le_left _ _) (by omega)
  exact hkept

theorem writeDown_kept (h : dst.Inv) (hu : V.hasStoredCount = false) (hd : d + len ≤ dst.size) :
    Kept dst (writeDown dst d len block) := by
  have hw := V.bits_pos
  refine forDown_inv (a := 0) (b := (len + w - 1) / w) (s := dst)
    (f := fun j dst => dst.writeBlockAt (d + j * w) (block dst (j * w) (min w (len - j * w)))
      (partialBlockMask (min w (len - j * w))))
    (fun _ dst' => Kept dst dst') (Nat.zero_le _) (.refl h) fun j dst' _ hj hdst => ?_
  have hk : j * w < len := by rwa [chunks_eq hw, lt_blocksFor_iff hw] at hj
  exact hdst.turn hu (by omega) (Nat.min_le_left _ _) (by omega)

end Write

/-! ## 3. Functions of bools -/

section Tables
variable {w : Nat} {j : Nat}

/-- The answer of a function of bools, in every bit of a block. -/
def tableEntry (w : Nat) (answer : Bool) : BitVec w := if answer then ~~~zero else zero

/-- `unary_table`. -/
def unaryTable (f : Bool → Bool) (x : BitVec w) : BitVec w :=
  (x &&& tableEntry w (f true)) ||| (~~~x &&& tableEntry w (f false))

/-- `binary_table`. -/
def binaryTable (f : Bool → Bool → Bool) (x y : BitVec w) : BitVec w :=
  let both := x &&& y &&& tableEntry w (f true true)
  let xOnly := x &&& ~~~y &&& tableEntry w (f true false)
  let yOnly := ~~~x &&& y &&& tableEntry w (f false true)
  let neither := ~~~x &&& ~~~y &&& tableEntry w (f false false)
  (both ||| xOnly) ||| (yOnly ||| neither)

theorem getLsbD_tableEntry {answer : Bool} (hj : j < w) :
    (tableEntry w answer).getLsbD j = answer := by
  unfold tableEntry zero
  cases answer <;> simp [hj]

theorem getLsbD_unaryTable {f : Bool → Bool} {x : BitVec w} (hj : j < w) :
    (unaryTable f x).getLsbD j = f (x.getLsbD j) := by
  unfold unaryTable
  rw [BitVec.getLsbD_or, BitVec.getLsbD_and, BitVec.getLsbD_and, BitVec.getLsbD_not,
    getLsbD_tableEntry hj, getLsbD_tableEntry hj]
  cases x.getLsbD j <;> simp [hj]

theorem getLsbD_binaryTable {f : Bool → Bool → Bool} {x y : BitVec w} (hj : j < w) :
    (binaryTable f x y).getLsbD j = f (x.getLsbD j) (y.getLsbD j) := by
  unfold binaryTable
  simp only [BitVec.getLsbD_or, BitVec.getLsbD_and, BitVec.getLsbD_not, getLsbD_tableEntry hj,
    decide_eq_true hj, Bool.true_and]
  cases x.getLsbD j <;> cases y.getLsbD j <;> simp

end Tables

end Blit

end XstdBits
