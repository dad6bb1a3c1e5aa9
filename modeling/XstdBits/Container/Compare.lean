/-
  File: XstdBits/Container/Compare.lean
  Subject: the equalities and orders of the two readings (`comparisons.hpp`, `storage_compare.hpp`).

  * within one storage type a block at a time: `setEqual`, `numericThreeWay`, `threeWay`;
  * across block types, offsets and storages a 64-bit word at a time, assembled from either side's
    own blocks: `equalWords`, `numericWordsThreeWay`, `ascendingWordsThreeWay`, `boolWordsThreeWay`.

  Both find the position that decides (`firstDiff_of_word`, `lastDiff_of_word`), and are the order of
  what the strings hold.
-/
import XstdBits.Container.Combine
import XstdBits.Container.Scan
import XstdBits.Lib.BitOrder

namespace XstdBits

/-- How a string of bits is read: as a set's keys, or as a sequence's bools. -/
inductive Reading where
  | sets
  | sequence
  deriving DecidableEq, Repr

/-! ## 1. The position that decides -/

section Word
variable {v : Nat} {f g : Nat → Bool} {a : Nat} {x y : BitVec v}

/-- The lowest difference of two words is the first one of the strings that agree below. -/
theorem firstDiff_of_word (hx : ∀ j, j < v → x.getLsbD j = f (a + j))
    (hy : ∀ j, j < v → y.getLsbD j = g (a + j)) (hlow : ∀ q, q < a → f q = g q)
    (hne : x ^^^ y ≠ zero) : FirstDiff f g (a + countrZero (x ^^^ y)) := by
  have hk := countrZero_lt hne
  have hbit := getLsbD_countrZero hne
  rw [BitVec.getLsbD_xor, hx _ hk, hy _ hk] at hbit
  refine ⟨fun q hq => ?_, fun he => ?_⟩
  · by_cases hqa : q < a
    · exact hlow q hqa
    · obtain ⟨j, rfl⟩ := Nat.exists_eq_add_of_le (Nat.le_of_not_lt hqa)
      have hj : j < countrZero (x ^^^ y) := by omega
      have hlo := getLsbD_of_lt_countrZero hj
      rw [BitVec.getLsbD_xor, hx j (by omega), hy j (by omega)] at hlo
      exact bne_eq_false_iff_eq.mp hlo
  · rw [he, Bool.xor_self] at hbit
    cases hbit

/-- The highest difference of two words orders them as numbers. -/
theorem lastDiff_of_word (hx : ∀ j, j < v → x.getLsbD j = f (a + j))
    (hy : ∀ j, j < v → y.getLsbD j = g (a + j)) (hup : ∀ q, a + v ≤ q → f q = g q)
    (hne : x ≠ y) : ∃ p, LastDiff f g p ∧ (x < y ↔ g p = true) := by
  have hxor : x ^^^ y ≠ zero := fun h => hne (BitVec.xor_eq_zero_iff.mp h)
  have hk := countlZero_lt hxor
  have hbit := getLsbD_countlZero hxor
  have hup' (j : Nat) (hj : v - 1 - countlZero (x ^^^ y) < j) : x.getLsbD j = y.getLsbD j := by
    have h := getLsbD_of_countlZero_lt hj
    rw [BitVec.getLsbD_xor] at h
    exact bne_eq_false_iff_eq.mp h
  generalize hj : v - 1 - countlZero (x ^^^ y) = j at hbit hup'
  have hjv : j < v := by omega
  have hdiff : x.getLsbD j ≠ y.getLsbD j := by
    intro he
    rw [BitVec.getLsbD_xor, he, Bool.xor_self] at hbit
    cases hbit
  refine ⟨a + j, ⟨fun q hq => ?_, by rw [← hx j hjv, ← hy j hjv]; exact hdiff⟩, ?_⟩
  · by_cases hqv : q < a + v
    · obtain ⟨i, rfl⟩ := Nat.exists_eq_add_of_le (show a ≤ q by omega)
      rw [← hx i (by omega), ← hy i (by omega)]
      exact hup' i (by omega)
    · exact hup q (by omega)
  · rw [← hy j hjv, BitVec.lt_def]
    constructor
    · intro hlt
      by_contra hyj
      rw [Bool.not_eq_true] at hyj
      have hxj : x.getLsbD j = true := by
        rw [hyj] at hdiff
        simpa using hdiff
      have := Nat.lt_of_testBit j hyj hxj fun i hi => (hup' i hi).symm
      omega
    · intro hyj
      have hxj : x.getLsbD j = false := by
        rw [hyj] at hdiff
        simpa using hdiff
      exact Nat.lt_of_testBit j hxj hyj hup'

end Word

/-! ## 2. Within one storage type -/

namespace BitBlockContainer
variable {w : Nat} {V : Vehicle w} (c : BitBlockContainer V)

/-- The first block at which two values of one width differ, with that block's xor; equal values
    answer a zero xor. -/
def firstDifference (other : BitBlockContainer V) : Nat × BitVec w :=
  if V.unrolls 1 then (0, c.block 0 ^^^ other.block 0)
  else if V.unrolls 2 then
    if c.block 0 ^^^ other.block 0 ≠ zero then (0, c.block 0 ^^^ other.block 0)
    else (1, c.block 1 ^^^ other.block 1)
  else if c.numBlocks = 0 then (0, zero)
  else
    let last := c.numBlocks - 1
    match findUp 0 last fun i => c.block i ^^^ other.block i != zero with
    | .some i => (i, c.block i ^^^ other.block i)
    | .none => (last, c.block last ^^^ other.block last)

/-- Whether any position strictly above a clear one is set. -/
def anyAbove (index offset : Nat) : Bool :=
  if shr (c.block index) offset != zero then true
  else if V.unrolls 1 then false
  else if V.unrolls 2 then index == 0 && c.block 1 != zero
  else (findUp (index + 1) c.numBlocks fun i => c.block i != zero).isSome

/-- Whether any block of `[first, last)` is set. -/
def anyBlockSet (first last : Nat) : Bool :=
  (findUp first (max first last) fun i => c.block i != zero).isSome

/-- `any_above` of a position that may lie past the last block. -/
def paddedAnyAbove (index offset : Nat) : Bool :=
  if index < c.numBlocks ∧ shr (c.block index) offset ≠ zero then true
  else c.anyBlockSet (min (index + 1) c.numBlocks) c.numBlocks

/-- The lowest of `n` blocks at which two storages differ, or `n`. -/
def paddedFirstDifference (other : BitBlockContainer V) (n : Nat) : Nat :=
  (findUp 0 n fun i => c.paddedBlock i != other.paddedBlock i).getD n

end BitBlockContainer

section Kernels
variable {w : Nat} {V : Vehicle w} (x y : BitBlockContainer V)

/-- `operator==`: a few static blocks folded, every xor or-ed together and tested once; else member
    by member. -/
def containerEqual : Bool :=
  if V.foldsBlocks then
    forUp 0 V.staticNumBlocks (fun i differ => differ ||| (x.block i ^^^ y.block i)) zero == zero
  else
    (if V.hasStoredSize && !V.hasZeroCapacity then x.mSize == y.mSize else true) &&
      (if V.hasStoredCount then x.mCount == y.mCount else true) &&
      x.mBlocks.elems == y.mBlocks.elems

/-- `set_equal`, where width is capacity. Blocks lent by span have no equality of their own. -/
def setEqual : Bool :=
  if V.hasStaticSize then containerEqual x y
  else if V.hasZeroCapacity then true
  else
    let shared := min x.numBlocks y.numBlocks
    x.mBlocks.elems.take shared == y.mBlocks.elems.take shared &&
      (if x.numBlocks < y.numBlocks then !y.anyBlockSet x.numBlocks y.numBlocks
        else !x.anyBlockSet y.numBlocks x.numBlocks)

/-- `numeric_three_way`: the masks as unsigned numbers. -/
def numericThreeWay : Ordering :=
  let n := max x.numBlocks y.numBlocks
  match findDown (fun i => x.paddedBlock i != y.paddedBlock i) n with
  | .some i => if x.paddedBlock i < y.paddedBlock i then .lt else .gt
  | .none => .eq

/-- `at_first_difference`: the order at the lowest position where two readings first differ. -/
def atFirstDifference (reading : Reading) (xHolds : Bool) (anyAbove : BitBlockContainer V → Bool) :
    Ordering :=
  match reading with
  | .sequence => if xHolds then .gt else .lt
  | .sets =>
      if xHolds then (if anyAbove y then .lt else .gt)
      else (if anyAbove x then .gt else .lt)

/-- `padded_three_way`: across two widths, the shorter padded with zero blocks. -/
def paddedThreeWay (reading : Reading) : Ordering :=
  let n := max x.numBlocks y.numBlocks
  let index := x.paddedFirstDifference y n
  if index = n then
    match reading with
    | .sequence => if x.size < y.size then .lt else .gt
    | .sets => .eq
  else
    let diff := x.paddedBlock index ^^^ y.paddedBlock index
    let offset := countrZero diff
    atFirstDifference x y reading (blockIntersects (x.paddedBlock index) (shl unit offset))
      fun b => b.paddedAnyAbove index offset

/-- `three_way`: a set's ascending keys or a sequence's bools, a block at a time. -/
def threeWay (reading : Reading) : Ordering :=
  if V.hasStaticSize ∧ V.extent = 0 then .eq
  else if V.hasStaticSize ∧ V.extent = 1 then compare (x.test 0) (y.test 0)
  else if (!V.hasStaticSize && !V.hasZeroCapacity) ∧ x.size ≠ y.size then paddedThreeWay x y reading
  else
    let index := (x.firstDifference y).1
    let diff := (x.firstDifference y).2
    if diff = zero then .eq
    else
      let offset := countrZero diff
      atFirstDifference x y reading (blockIntersects (x.block index) (shl unit offset))
        fun b => b.anyAbove index offset

end Kernels

section SameStorage
variable {w : Nat} {V : Vehicle w} {x y c : BitBlockContainer V}

open BitBlockContainer

theorem block_getLsbD {i j : Nat} (hj : j < w) : (c.block i).getLsbD j = c.bit (i * w + j) :=
  (bit_pos hj).symm

/-- Strings that agree in the blocks below agree below. -/
theorem agree_below {i : Nat} (h : ∀ k, k < i → x.block k = y.block k) (q : Nat) (hq : q < i * w) :
    x.bit q = y.bit q := by
  obtain ⟨k, j, hj, rfl⟩ := exists_pos V.bits_pos q
  rw [bit_pos hj, bit_pos hj, h k ((pos_lt_iff hj).mp hq)]

theorem block_eq_of_agree {i : Nat} (h : ∀ q, x.bit q = y.bit q) : x.block i = y.block i := by
  refine BitVec.eq_of_getLsbD_eq fun j hj => ?_
  rw [block_getLsbD hj, block_getLsbD hj, h]

/-- Past the blocks of both everything is clear. -/
theorem agree_past {n : Nat} (hx : x.mBlocks.elems.length * w ≤ n) (hy : y.mBlocks.elems.length * w ≤ n)
    (q : Nat) (hq : n ≤ q) : x.bit q = y.bit q := by
  rw [bit_of_le (Nat.le_trans hx hq), bit_of_le (Nat.le_trans hy hq)]

theorem firstDiff_of_block {i : Nat} (h : ∀ k, k < i → x.block k = y.block k)
    (hne : x.block i ^^^ y.block i ≠ zero) :
    FirstDiff x.bit y.bit (i * w + countrZero (x.block i ^^^ y.block i)) :=
  firstDiff_of_word (fun _ hj => block_getLsbD hj) (fun _ hj => block_getLsbD hj) (agree_below h) hne

/-- Blocks that are equal as far as both reach are equal strings. -/
theorem bit_eq_of_blocks {n : Nat} (hx : x.mBlocks.elems.length ≤ n)
    (hy : y.mBlocks.elems.length ≤ n) (h : ∀ i, i < n → x.block i = y.block i) (q : Nat) :
    x.bit q = y.bit q := by
  by_cases hq : q < n * w
  · exact agree_below h q hq
  · exact agree_past (Nat.mul_le_mul_right w hx) (Nat.mul_le_mul_right w hy) q (by omega)

/-- **What `first_difference` answers**: the first block of its own at which the two differ. -/
theorem firstDifference_blocks (hx : x.Shape) :
    ((x.firstDifference y).2 = zero ∧ ∀ i, i < x.mBlocks.elems.length → x.block i = y.block i) ∨
    ((x.firstDifference y).2 ≠ zero ∧ (x.firstDifference y).1 < x.mBlocks.elems.length ∧
      (x.firstDifference y).2 =
        x.block (x.firstDifference y).1 ^^^ y.block (x.firstDifference y).1 ∧
      ∀ k, k < (x.firstDifference y).1 → x.block k = y.block k) := by
  unfold firstDifference
  split
  · rename_i hu
    have h1 := hx.unrolls hu
    by_cases hd : x.block 0 ^^^ y.block 0 = zero
    · refine Or.inl ⟨hd, fun i hi => ?_⟩
      obtain rfl : i = 0 := by omega
      exact BitVec.xor_eq_zero_iff.mp hd
    · exact Or.inr ⟨hd, by simp only [h1]; omega, rfl, fun k hk => by simp at hk⟩
  · split
    · rename_i hu
      have h2 := hx.unrolls hu
      split
      · rename_i hd
        exact Or.inr ⟨hd, by simp only [h2]; omega, rfl, fun k hk => by simp at hk⟩
      · rename_i hd
        have h0 : x.block 0 = y.block 0 := BitVec.xor_eq_zero_iff.mp (not_not.mp hd)
        by_cases hd1 : x.block 1 ^^^ y.block 1 = zero
        · refine Or.inl ⟨hd1, fun i hi => ?_⟩
          rcases (show i = 0 ∨ i = 1 by omega) with rfl | rfl
          · exact h0
          · exact BitVec.xor_eq_zero_iff.mp hd1
        · refine Or.inr ⟨hd1, by simp only [h2]; omega, rfl, fun k hk => ?_⟩
          obtain rfl : k = 0 := by simpa using hk
          exact h0
    · rw [hx.numBlocks]
      split
      · rename_i h0
        exact Or.inl ⟨rfl, fun i hi => by omega⟩
      · rename_i h0
        dsimp only
        split
        · rename_i i hi
          obtain ⟨-, h2, h3, h4⟩ := findUp_some hi
          refine Or.inr ⟨by simpa using h3, by dsimp only; omega, rfl, fun k hk => ?_⟩
          have := h4 k (Nat.zero_le k) hk
          exact BitVec.xor_eq_zero_iff.mp (by simpa using this)
        · rename_i hnone
          have hlow (k : Nat) (hk : k < x.mBlocks.elems.length - 1) : x.block k = y.block k := by
            have := findUp_none hnone k (Nat.zero_le k) hk
            exact BitVec.xor_eq_zero_iff.mp (by simpa using this)
          by_cases hd : x.block (x.mBlocks.elems.length - 1) ^^^
              y.block (x.mBlocks.elems.length - 1) = zero
          · refine Or.inl ⟨hd, fun i hi => ?_⟩
            by_cases hlast : i < x.mBlocks.elems.length - 1
            · exact hlow i hlast
            · obtain rfl : i = x.mBlocks.elems.length - 1 := by omega
              exact BitVec.xor_eq_zero_iff.mp hd
          · exact Or.inr ⟨hd, by dsimp only; omega, rfl, hlow⟩

/-- Of two values of one width, it answers where they differ at all. -/
theorem firstDifference_spec (hx : x.Shape) (hy : y.Shape) (hs : x.size = y.size) :
    ((x.firstDifference y).2 = zero ∧ ∀ q, x.bit q = y.bit q) ∨
    ((x.firstDifference y).2 ≠ zero ∧ (x.firstDifference y).1 < x.mBlocks.elems.length ∧
      (x.firstDifference y).2 =
        x.block (x.firstDifference y).1 ^^^ y.block (x.firstDifference y).1 ∧
      ∀ k, k < (x.firstDifference y).1 → x.block k = y.block k) := by
  have hl : y.mBlocks.elems.length = x.mBlocks.elems.length := by rw [hx, hy, hs]
  rcases firstDifference_blocks (y := y) hx with ⟨hz, hall⟩ | hdiff
  · exact Or.inl ⟨hz, bit_eq_of_blocks (Nat.le_refl _) (Nat.le_of_eq hl) hall⟩
  · exact Or.inr hdiff

/-- **Whether anything is set above a clear position**: in its block, or in a later one. -/
theorem exists_above_iff {i o n : Nat} (ho : o < w) (hclear : c.bit (i * w + o) = false)
    (hn : c.mBlocks.elems.length ≤ n) :
    (∃ q, i * w + o < q ∧ c.bit q = true) ↔
      shr (c.block i) o ≠ zero ∨ ∃ k, i < k ∧ k < n ∧ c.block k ≠ zero := by
  constructor
  · intro ⟨q, hq, hb⟩
    obtain ⟨k, j, hj, rfl⟩ := exists_pos V.bits_pos q
    have hb' := hb
    rw [bit_pos hj] at hb'
    rcases block_trichotomy i k w with ⟨hik, -⟩ | ⟨rfl, -⟩ | ⟨-, hle⟩
    · refine Or.inr ⟨k, hik, ?_, ne_zero_iff.mpr ⟨j, hj, hb'⟩⟩
      by_contra hge
      have := Nat.mul_le_mul_right w (Nat.le_trans hn (Nat.le_of_not_lt hge))
      rw [bit_of_le (by omega)] at hb
      cases hb
    · refine Or.inl (ne_zero_iff.mpr ⟨j - o, by omega, ?_⟩)
      rw [getLsbD_shr, show o + (j - o) = j by omega]
      exact hb'
    · omega
  · intro h
    rcases h with h | ⟨k, hik, -, hk⟩
    · obtain ⟨j, hj, hb⟩ := ne_zero_iff.mp h
      rw [getLsbD_shr] at hb
      have hoj : o + j < w := by
        by_contra hge
        rw [BitVec.getLsbD_of_ge _ _ (by omega)] at hb
        cases hb
      rw [block_getLsbD hoj] at hb
      have hj0 : j ≠ 0 := by
        intro h0
        rw [h0, Nat.add_zero, hclear] at hb
        cases hb
      exact ⟨i * w + (o + j), by omega, hb⟩
    · obtain ⟨j, hj, hb⟩ := ne_zero_iff.mp hk
      rw [block_getLsbD hj] at hb
      refine ⟨k * w + j, ?_, hb⟩
      rcases block_trichotomy i k w with ⟨-, hle⟩ | ⟨rfl, -⟩ | ⟨hki, -⟩
      · omega
      · omega
      · omega

theorem findUp_isSome_iff {a b : Nat} {p : Nat → Bool} :
    (findUp a b p).isSome = true ↔ ∃ k, a ≤ k ∧ k < b ∧ p k = true := by
  cases h : findUp a b p with
  | some k =>
      obtain ⟨h1, h2, h3, -⟩ := findUp_some h
      exact iff_of_true rfl ⟨k, h1, h2, h3⟩
  | none =>
      refine iff_of_false (by simp) ?_
      intro ⟨k, h1, h2, h3⟩
      rw [findUp_none h k h1 h2] at h3
      cases h3

theorem anyBlockSet_iff {a b : Nat} :
    c.anyBlockSet a b = true ↔ ∃ k, a ≤ k ∧ k < b ∧ c.block k ≠ zero := by
  unfold anyBlockSet
  rw [findUp_isSome_iff]
  refine exists_congr fun k => and_congr_right fun hk => ?_
  rw [bne_iff_ne, lt_max_iff]
  exact and_congr_left fun _ => ⟨fun h => h.resolve_left (by omega), Or.inr⟩

theorem anyAbove_iff (h : c.Shape) {i o : Nat} (hi : i < c.mBlocks.elems.length) (ho : o < w)
    (hclear : c.bit (i * w + o) = false) :
    c.anyAbove i o = true ↔ ∃ q, i * w + o < q ∧ c.bit q = true := by
  rw [exists_above_iff ho hclear (Nat.le_refl _)]
  unfold anyAbove
  by_cases hs : shr (c.block i) o = zero
  · rw [if_neg (by simp [hs])]
    simp only [hs, ne_eq, not_true_eq_false, false_or]
    split
    · rename_i hu
      have := h.unrolls hu
      refine iff_of_false (by decide) ?_
      intro ⟨k, _, _, _⟩
      omega
    · split
      · rename_i hu
        have hl := h.unrolls hu
        rw [hl, Bool.and_eq_true, beq_iff_eq, bne_iff_ne]
        constructor
        · intro hb
          exact ⟨1, by omega, by omega, hb.2⟩
        · intro ⟨k, h1, h2, h3⟩
          obtain rfl : k = 1 := by omega
          exact ⟨by omega, h3⟩
      · rw [findUp_isSome_iff, h.numBlocks]
        simp only [bne_iff_ne, ne_eq]
        exact Iff.rfl
  · rw [if_pos (by simp [hs])]
    exact iff_of_true rfl (Or.inl hs)

theorem paddedAnyAbove_iff (h : c.Shape) {i o : Nat} (ho : o < w)
    (hclear : c.bit (i * w + o) = false) :
    c.paddedAnyAbove i o = true ↔ ∃ q, i * w + o < q ∧ c.bit q = true := by
  rw [exists_above_iff ho hclear (Nat.le_refl _)]
  unfold paddedAnyAbove
  rw [h.numBlocks]
  have hpast (hi : c.mBlocks.elems.length ≤ i) : shr (c.block i) o = zero := by
    rw [eq_zero_iff]
    intro j hj
    rw [getLsbD_shr]
    unfold block
    rw [List.getD_eq_default _ _ hi, getLsbD_zero']
  by_cases hs : shr (c.block i) o = zero
  · rw [if_neg fun hc => hc.2 hs, anyBlockSet_iff]
    simp only [hs, ne_eq, not_true_eq_false, false_or]
    constructor
    · intro ⟨k, h1, h2, h3⟩
      exact ⟨k, by omega, h2, h3⟩
    · intro ⟨k, h1, h2, h3⟩
      exact ⟨k, by omega, h2, h3⟩
  · have hi : i < c.mBlocks.elems.length := by
      by_contra hge
      exact hs (hpast (Nat.le_of_not_lt hge))
    rw [if_pos ⟨hi, hs⟩]
    exact iff_of_true rfl (Or.inl hs)

/-- The keys of a set's storage, upwards. -/
def keysUp (c : BitBlockContainer V) : List Nat := ascending c.bit c.size

/-- The keys of a set's storage, downwards. -/
def keysDown (c : BitBlockContainer V) : List Nat := descending c.bit c.size

/-- The bools of a sequence's storage. -/
def boolsOf (c : BitBlockContainer V) : List Bool := bools c.bit c.size

/-- **The first difference decides either reading**, where the kernel is right about what the side
    that lacks it holds above. -/
theorem atFirstDifference_eq (any : BitBlockContainer V → Bool) (hx : x.Inv) (hy : y.Inv) {p : Nat}
    (h : FirstDiff x.bit y.bit p) {xHolds : Bool} (hxp : xHolds = x.bit p)
    (hax : x.bit p = false → (any x = true ↔ ∃ q, p < q ∧ x.bit q = true))
    (hay : y.bit p = false → (any y = true ↔ ∃ q, p < q ∧ y.bit q = true)) :
    atFirstDifference x y .sets xHolds any = compare (keysUp x) (keysUp y) ∧
    atFirstDifference x y .sequence xHolds any = compare (boolsOf x) (boolsOf y) := by
  subst hxp
  exact ⟨compare_ascending_at hx.clear hy.clear h hax hay, compare_bools_at_clear hx.clear hy.clear h⟩

/-- Strings that agree throughout hold the same keys. -/
theorem keysUp_of_agree (hx : x.Inv) (hy : y.Inv) (h : ∀ q, x.bit q = y.bit q) :
    compare (keysUp x) (keysUp y) = .eq := by
  have he : keysUp x = keysUp y := (ascending_eq_iff hx.clear hy.clear).mpr h
  rw [he]
  exact compare_self _

theorem block_holds {i o : Nat} (ho : o < w) :
    blockIntersects (c.block i) (shl unit o) = c.bit (i * w + o) := by
  rw [blockIntersects_unit_shl ho]
  exact block_getLsbD ho

/-- **Across two widths**, either reading. -/
theorem paddedThreeWay_eq (hx : x.Inv) (hy : y.Inv) (hne : x.size ≠ y.size) :
    paddedThreeWay x y .sets = compare (keysUp x) (keysUp y) ∧
    paddedThreeWay x y .sequence = compare (boolsOf x) (boolsOf y) := by
  unfold paddedThreeWay paddedFirstDifference
  rw [hx.shape.numBlocks, hy.shape.numBlocks]
  simp only [paddedBlock_eq hx.shape, paddedBlock_eq hy.shape]
  cases hf : findUp 0 (max x.mBlocks.elems.length y.mBlocks.elems.length)
      fun i => x.block i != y.block i with
  | none =>
      have hagree := bit_eq_of_blocks (Nat.le_max_left _ _) (Nat.le_max_right _ _) fun i hi => by
        simpa using findUp_none hf i (Nat.zero_le i) hi
      rw [Option.getD_none, if_pos rfl, if_pos rfl]
      refine ⟨(keysUp_of_agree hx hy hagree).symm, ?_⟩
      unfold boolsOf
      rw [compare_bools_of_agree fun q _ _ => hagree q]
      split
      · rename_i hlt
        exact (Nat.compare_eq_lt.mpr hlt).symm
      · rename_i hge
        exact (Nat.compare_eq_gt.mpr (by omega)).symm
  | some i =>
      obtain ⟨-, h2, h3, h4⟩ := findUp_some hf
      have hxor : x.block i ^^^ y.block i ≠ zero := fun hc => by
        rw [BitVec.xor_eq_zero_iff.mp hc] at h3
        simp at h3
      have hk := countrZero_lt hxor
      have hfd := firstDiff_of_block (fun k hk => by simpa using h4 k (Nat.zero_le k) hk) hxor
      rw [Option.getD_some, if_neg (by omega), if_neg (by omega), block_holds hk]
      exact atFirstDifference_eq _ hx hy hfd rfl (paddedAnyAbove_iff hx.shape hk)
        (paddedAnyAbove_iff hy.shape hk)

/-- Two values of one width, either reading. -/
theorem blocks_three_way_eq (hx : x.Inv) (hy : y.Inv) (hs : x.size = y.size) (reading : Reading) :
    (if (x.firstDifference y).2 = zero then .eq
      else atFirstDifference x y reading
        (blockIntersects (x.block (x.firstDifference y).1)
          (shl unit (countrZero (x.firstDifference y).2)))
        fun b => b.anyAbove (x.firstDifference y).1 (countrZero (x.firstDifference y).2)) =
    match reading with
    | .sets => compare (keysUp x) (keysUp y)
    | .sequence => compare (boolsOf x) (boolsOf y) := by
  rcases firstDifference_spec hx.shape hy.shape hs with ⟨hd, hagree⟩ | ⟨hd, hi, hxor, hlow⟩
  · rw [if_pos hd]
    cases reading with
    | sets => exact (keysUp_of_agree hx hy hagree).symm
    | sequence =>
        unfold boolsOf
        dsimp only
        rw [compare_bools_of_agree fun q _ _ => hagree q, hs]
        exact (compare_eq_iff_eq.mpr rfl).symm
  · rw [if_neg hd]
    rw [hxor] at hd ⊢
    have hk := countrZero_lt hd
    have hfd := firstDiff_of_block hlow hd
    have hl : y.mBlocks.elems.length = x.mBlocks.elems.length := by rw [hx.shape, hy.shape, hs]
    obtain ⟨h1, h2⟩ := atFirstDifference_eq (fun b => b.anyAbove (x.firstDifference y).1
      (countrZero (x.block (x.firstDifference y).1 ^^^ y.block (x.firstDifference y).1)))
      hx hy hfd (block_holds hk)
      (anyAbove_iff hx.shape hi hk) (anyAbove_iff hy.shape (by rw [hl]; exact hi) hk)
    cases reading with
    | sets => exact h1
    | sequence => exact h2

/-- A width of one: nothing before its one position. -/
theorem one_position (hx : x.Inv) (h : x.size = 1) :
    keysUp x = (if x.bit 0 = true then [0] else []) ∧ boolsOf x = [x.bit 0] ∧
      x.test 0 = x.bit 0 := by
  unfold keysUp boolsOf
  rw [h]
  refine ⟨?_, rfl, test_eq hx.shape (by omega)⟩
  cases hb : x.bit 0 <;> simp [ascending, hb]

/-- **Block by block, a set's ascending keys and a sequence's bools compare lexicographically.** -/
theorem threeWay_eq (hx : x.Inv) (hy : y.Inv) (reading : Reading) : threeWay x y reading =
    match reading with
    | .sets => compare (keysUp x) (keysUp y)
    | .sequence => compare (boolsOf x) (boolsOf y) := by
  have hstatic (z : BitBlockContainer V) (hs : V.hasStaticSize = true) : z.size = V.extent := by
    unfold size
    rw [if_pos hs]
  unfold threeWay
  split
  · rename_i h0
    have hempty (z : BitBlockContainer V) : keysUp z = [] ∧ boolsOf z = [] := by
      unfold keysUp boolsOf
      rw [hstatic z h0.1, h0.2]
      exact ⟨rfl, rfl⟩
    cases reading with
    | sets =>
        dsimp only
        rw [(hempty x).1, (hempty y).1]
        rfl
    | sequence =>
        dsimp only
        rw [(hempty x).2, (hempty y).2]
        rfl
  · split
    · rename_i h1
      obtain ⟨hx1, hx2, hx3⟩ := one_position hx ((hstatic x h1.1).trans h1.2)
      obtain ⟨hy1, hy2, hy3⟩ := one_position hy ((hstatic y h1.1).trans h1.2)
      rw [hx3, hy3]
      cases reading with
      | sets =>
          dsimp only
          rw [hx1, hy1]
          cases x.bit 0 <;> cases y.bit 0 <;> rfl
      | sequence =>
          dsimp only
          rw [hx2, hy2]
          cases x.bit 0 <;> cases y.bit 0 <;> rfl
    · split
      · rename_i hne
        obtain ⟨h1, h2⟩ := paddedThreeWay_eq hx hy hne.2
        cases reading with
        | sets => exact h1
        | sequence => exact h2
      · rename_i hne
        refine blocks_three_way_eq hx hy ?_ reading
        by_contra hsize
        refine hne ⟨?_, hsize⟩
        rw [Bool.and_eq_true, Bool.not_eq_true', Bool.not_eq_true', Bool.eq_false_iff,
          Bool.eq_false_iff]
        refine ⟨fun hs => hsize ?_, fun hz => hsize ?_⟩
        · rw [hstatic x hs, hstatic y hs]
        · by_cases hs : V.hasStaticSize = true
          · rw [hstatic x hs, hstatic y hs]
          · unfold size
            rw [if_neg hs, if_neg hs, if_pos hz, if_pos hz]

/-- **The masks as numbers order the descending keys lexicographically**, at any two widths. -/
theorem numericThreeWay_eq (hx : x.Inv) (hy : y.Inv) :
    numericThreeWay x y = compare (keysDown x) (keysDown y) := by
  unfold numericThreeWay keysDown
  dsimp only
  rw [hx.shape.numBlocks, hy.shape.numBlocks]
  simp only [paddedBlock_eq hx.shape, paddedBlock_eq hy.shape]
  cases hf : findDown (fun i => x.block i != y.block i)
      (max x.mBlocks.elems.length y.mBlocks.elems.length) with
  | none =>
      have hagree := bit_eq_of_blocks (Nat.le_max_left _ _) (Nat.le_max_right _ _) fun i hi => by
        simpa using findDown_none hf i hi
      have he : ascending x.bit x.size = ascending y.bit y.size :=
        (ascending_eq_iff hx.clear hy.clear).mpr hagree
      unfold descending
      rw [he]
      exact (compare_self _).symm
  | some i =>
      obtain ⟨h1, h2, h3⟩ := findDown_some hf
      have hup (q : Nat) (hq : i * w + w ≤ q) : x.bit q = y.bit q := by
        by_cases hlast : q < max x.mBlocks.elems.length y.mBlocks.elems.length * w
        · obtain ⟨k, j, hj, rfl⟩ := exists_pos V.bits_pos q
          have hik : i < k := by
            rcases block_trichotomy i k w with ⟨h, -⟩ | ⟨rfl, -⟩ | ⟨-, h⟩ <;> omega
          have hk := h3 k hik ((pos_lt_iff hj).mp hlast)
          rw [bit_pos hj, bit_pos hj, show x.block k = y.block k by simpa using hk]
        · exact agree_past (Nat.mul_le_mul_right w (Nat.le_max_left _ _))
            (Nat.mul_le_mul_right w (Nat.le_max_right _ _)) q (by omega)
      obtain ⟨p, hp, hlt⟩ := lastDiff_of_word (fun _ hj => block_getLsbD hj)
        (fun _ hj => block_getLsbD hj) hup (show x.block i ≠ y.block i by simpa using h2)
      rw [← compare_descending_at hx.clear hy.clear hp]
      simp only [hlt]

/-- Blocks past both lengths aside, equal blocks are equal strings. -/
theorem elems_eq_iff (hl : x.mBlocks.elems.length = y.mBlocks.elems.length) :
    x.mBlocks.elems = y.mBlocks.elems ↔ ∀ q, x.bit q = y.bit q := by
  constructor
  · intro h q
    unfold bit
    rw [h]
  · intro h
    exact bitAt_ext hl fun q _ => h q

/-- The folded xors are zero when every block is equal. -/
theorem foldedXor_iff (n : Nat) :
    forUp 0 n (fun i differ => differ ||| (x.block i ^^^ y.block i)) zero = zero ↔
      ∀ i, i < n → x.block i = y.block i := by
  have key := forUp_inv (f := fun i differ => differ ||| (x.block i ^^^ y.block i))
    (s := (zero : BitVec w)) (fun k differ => ∀ j, j < w → (differ.getLsbD j = true ↔
      ∃ i, i < k ∧ (x.block i).getLsbD j ≠ (y.block i).getLsbD j)) (Nat.zero_le n)
    (fun j _ => by simp) ?_
  · rw [eq_zero_iff]
    constructor
    · intro hz i hi
      refine BitVec.eq_of_getLsbD_eq fun j hj => ?_
      by_contra hne
      have := (key j hj).mpr ⟨i, hi, hne⟩
      rw [hz j hj] at this
      cases this
    · intro h j hj
      rw [← Bool.not_eq_true, key j hj]
      intro ⟨i, hi, hne⟩
      exact hne (by rw [h i hi])
  · intro k differ _ hk ih j hj
    rw [BitVec.getLsbD_or, Bool.or_eq_true, ih j hj, BitVec.getLsbD_xor, bne_iff_ne]
    constructor
    · intro h
      rcases h with ⟨i, hi, hb⟩ | hb
      · exact ⟨i, by omega, hb⟩
      · exact ⟨k, by omega, hb⟩
    · intro ⟨i, hi, hb⟩
      by_cases hik : i = k
      · exact Or.inr (hik ▸ hb)
      · exact Or.inl ⟨i, by omega, hb⟩

/-- The width each value stores, where it stores one, is the width it has. -/
theorem storedSize_iff (hx : x.Inv) (hy : y.Inv)
    (hl : x.mBlocks.elems.length = y.mBlocks.elems.length) :
    (if (V.hasStoredSize && !V.hasZeroCapacity) = true then x.mSize == y.mSize else true) = true ↔
      x.size = y.size := by
  unfold size
  by_cases hst : V.hasStaticSize = true
  · have hns : V.hasStoredSize = false := by
      unfold Vehicle.hasStaticSize at hst
      unfold Vehicle.hasStoredSize
      split <;> simp_all
    simp [hns, hst]
  · by_cases hz : V.hasZeroCapacity = true
    · simp [hz]
    · by_cases hs : V.hasStoredSize = true
      · simp [hs, hz, hst]
      · simp only [hs, hst, hz, Bool.false_and, Bool.false_eq_true, if_false, true_iff]
        rw [hx.shape.numBlocks, hy.shape.numBlocks, hl]

/-- **The container's `operator==` holds of two values of the same bools.** -/
theorem containerEqual_iff (hx : x.Inv) (hy : y.Inv) :
    containerEqual x y = true ↔ boolsOf x = boolsOf y := by
  have hblocks (hs : x.size = y.size) : x.mBlocks.elems.length = y.mBlocks.elems.length := by
    rw [hx.shape, hy.shape, hs]
  have hpast (q : Nat) (hs : x.size = y.size) (hq : x.size ≤ q) : x.bit q = y.bit q := by
    rw [hx.clear q hq, hy.clear q (by omega)]
  unfold containerEqual boolsOf
  rw [bools_eq_iff]
  split
  · rename_i hf
    have hs : x.size = y.size := by
      unfold Vehicle.foldsBlocks at hf
      rw [Bool.and_eq_true] at hf
      unfold size
      rw [if_pos hf.1, if_pos hf.1]
    rw [beq_iff_eq, foldsBlocks_num hx.shape hf, foldedXor_iff]
    constructor
    · intro h
      exact ⟨hs, fun q _ => bit_eq_of_blocks (Nat.le_refl _) (Nat.le_of_eq (hblocks hs).symm) h q⟩
    · intro h i _
      refine block_eq_of_agree fun q => ?_
      by_cases hq : q < x.size
      · exact h.2 q hq
      · exact hpast q hs (by omega)
  · rw [Bool.and_eq_true, Bool.and_eq_true, beq_iff_eq]
    constructor
    · intro ⟨⟨h1, _⟩, h3⟩
      have hl : x.mBlocks.elems.length = y.mBlocks.elems.length := by rw [h3]
      exact ⟨(storedSize_iff hx hy hl).mp h1, fun q _ => (elems_eq_iff hl).mp h3 q⟩
    · intro ⟨hs, h⟩
      have hl := hblocks hs
      refine ⟨⟨(storedSize_iff hx hy hl).mpr hs, ?_⟩, (elems_eq_iff hl).mpr fun q => ?_⟩
      · split
        · rename_i hc
          rw [beq_iff_eq, hx.count hc, hy.count hc, ← hs]
          exact countBits_congr h
        · rfl
      · by_cases hq : q < x.size
        · exact h q hq
        · exact hpast q hs (by omega)

/-- **`set_equal` holds of two sets that hold the same keys.** -/
theorem setEqual_iff (hx : x.Inv) (hy : y.Inv) :
    setEqual x y = true ↔ ∀ q, x.bit q = y.bit q := by
  have htail {a b : BitBlockContainer V} (ha : a.Inv) (hb : b.Inv)
      (hle : a.mBlocks.elems.length ≤ b.mBlocks.elems.length) :
      a.mBlocks.elems.take a.mBlocks.elems.length = b.mBlocks.elems.take a.mBlocks.elems.length ∧
        b.anyBlockSet a.mBlocks.elems.length b.mBlocks.elems.length = false ↔
      ∀ q, a.bit q = b.bit q := by
    rw [← Bool.not_eq_true, anyBlockSet_iff]
    have hl : (a.mBlocks.elems.take a.mBlocks.elems.length).length =
        (b.mBlocks.elems.take a.mBlocks.elems.length).length := by
      rw [List.length_take, List.length_take]
      omega
    have hbits (q : Nat) (hq : q < a.mBlocks.elems.length * w) :
        bitAt (b.mBlocks.elems.take a.mBlocks.elems.length) q = b.bit q := by
      rw [bitAt_take V.bits_pos, if_pos hq]
      rfl
    constructor
    · intro ⟨htake, hnone⟩
      refine bit_eq_of_blocks hle (Nat.le_refl _) fun i hi => ?_
      refine BitVec.eq_of_getLsbD_eq fun j hj => ?_
      rw [block_getLsbD hj, block_getLsbD hj]
      by_cases hia : i < a.mBlocks.elems.length
      · rw [← hbits _ ((pos_lt_iff hj).mpr hia), ← htake, List.take_length]
        rfl
      · have hz : b.block i = zero := by
          by_contra hne
          exact hnone ⟨i, by omega, hi, hne⟩
        rw [bit_pos hj (c := b), hz, getLsbD_zero', bit_of_le]
        have := Nat.mul_le_mul_right w (Nat.le_of_not_lt hia)
        omega
    · intro h
      refine ⟨bitAt_ext hl fun q hq => ?_, fun ⟨k, h1, h2, h3⟩ => ?_⟩
      · rw [List.length_take, Nat.min_self] at hq
        rw [hbits q hq, List.take_length]
        exact h q
      · refine h3 (BitVec.eq_of_getLsbD_eq fun j hj => ?_)
        rw [block_getLsbD hj, ← h, getLsbD_zero']
        refine bit_of_le ?_
        have := Nat.mul_le_mul_right w h1
        omega
  unfold setEqual
  split
  · rename_i hs
    have hsize : x.size = y.size := by
      unfold size
      rw [if_pos hs, if_pos hs]
    rw [containerEqual_iff hx hy]
    unfold boolsOf
    rw [bools_eq_iff]
    constructor
    · intro h q
      by_cases hq : q < x.size
      · exact h.2 q hq
      · rw [hx.clear q (by omega), hy.clear q (by omega)]
    · intro h
      exact ⟨hsize, fun q _ => h q⟩
  · rename_i hs
    split
    · rename_i hz
      have hsize (c : BitBlockContainer V) : c.size = 0 := by
        unfold size
        rw [if_neg hs, if_pos hz]
      refine iff_of_true rfl fun q => ?_
      rw [hx.clear q (by rw [hsize]; omega), hy.clear q (by rw [hsize]; omega)]
    · dsimp only
      rw [hx.shape.numBlocks, hy.shape.numBlocks, Bool.and_eq_true, beq_iff_eq]
      by_cases hlt : x.mBlocks.elems.length < y.mBlocks.elems.length
      · rw [if_pos hlt, Nat.min_eq_left (Nat.le_of_lt hlt), Bool.not_eq_true']
        exact htail hx hy (Nat.le_of_lt hlt)
      · rw [if_neg hlt, Nat.min_eq_right (by omega), Bool.not_eq_true', eq_comm]
        refine (htail hy hx (by omega)).trans ?_
        exact forall_congr' fun q => eq_comm

end SameStorage

/-! ## 3. Across storages, a word at a time -/

/-- `word_at`: bits `[n, n + 64)` as one word, any at or past `last` reading as zero. -/
def wordAt {w : Nat} {V : Vehicle w} (c : BitBlockContainer V) (n last : Nat) : BitVec 64 :=
  if last ≤ n then 0#64
  else
    let count := min 64 (last - n)
    let word := forStep w 0 count
      (fun j word => word ||| (c.blockAt (n + j)).setWidth 64 <<< j) 0#64
    word &&& partialBlockMask count

/-- Whether a storage holds a position above `p`, which may lie at or past its width. -/
def holdsAbove {w : Nat} {V : Vehicle w} (c : BitBlockContainer V) (p : Nat) : Bool :=
  decide (p + 1 < c.size) && c.anyIn (p + 1) (c.size - p - 1)

/-- One turn of the loops that ask whether two words are equal. -/
def equalTurn (xw yw : BitVec 64) : Option Bool := if xw != yw then some false else .none

/-- One turn of `three_way_bools`: the first difference decides. -/
def boolTurn (xw yw : BitVec 64) : Option Ordering :=
  if xw != yw then
    let first := 1#64 <<< countrZero (xw ^^^ yw)
    some (if xw &&& first != 0#64 then .gt else .lt)
  else .none

section Words
variable {w w' : Nat} {V : Vehicle w} {V' : Vehicle w'} (x : BitBlockContainer V)
  (y : BitBlockContainer V')

/-- `equal_keys` across storages: words past a storage's width hold none. -/
def equalKeyWords : Bool :=
  (firstAnswer 64 0 (max x.size y.size) fun k =>
    equalTurn (wordAt x k x.size) (wordAt y k y.size)).getD true

/-- The loop of `equal_bools` across storages, over `n` bools from either position. -/
def equalBoolWords (xf yf n : Nat) : Bool :=
  (firstAnswer 64 0 n fun k =>
    equalTurn (wordAt x (xf + k) (xf + n)) (wordAt y (yf + k) (yf + n))).getD true

/-- The loop of `three_way_bools` across storages, over the `n` bools that both have. -/
def boolWordsThreeWay (xf yf n : Nat) : Option Ordering :=
  firstAnswer 64 0 n fun k =>
    boolTurn (wordAt x (xf + k) (xf + n)) (wordAt y (yf + k) (yf + n))

/-- `numeric_words_three_way`: highest word first, the order of descending keys. -/
def numericWordsThreeWay : Ordering :=
  let words := (max x.size y.size + 63) / 64
  match findDown (fun k => wordAt x (k * 64) x.size != wordAt y (k * 64) y.size) words with
  | .some k => if wordAt x (k * 64) x.size < wordAt y (k * 64) y.size then .lt else .gt
  | .none => .eq

/-- One turn of `ascending_words_three_way`: the lower key wins, unless its set ends there and the
    other goes on. -/
def ascendingTurn (k : Nat) : Option Ordering :=
  let xw := wordAt x k x.size
  let yw := wordAt y k y.size
  if xw != yw then
    let p := k + countrZero (xw ^^^ yw)
    if xw &&& (1#64 <<< (p - k)) != 0#64 then some (if holdsAbove y p then .lt else .gt)
    else some (if holdsAbove x p then .gt else .lt)
  else .none

/-- `ascending_words_three_way`: a word at a time from the lowest. -/
def ascendingWordsThreeWay : Ordering :=
  (firstAnswer 64 0 (max x.size y.size) (ascendingTurn x y)).getD .eq

end Words

section WordSpecs
variable {w w' : Nat} {V : Vehicle w} {V' : Vehicle w'} {x c : BitBlockContainer V}
  {y : BitBlockContainer V'} {n len last : Nat}

open BitBlockContainer

/-- **A word reads its positions**, those at or past the end as zero. -/
theorem getLsbD_wordAt (h : c.Inv) (hl : last ≤ c.size) {j : Nat} (hj : j < 64) :
    (wordAt c n last).getLsbD j = (decide (n + j < last) && c.bit (n + j)) := by
  unfold wordAt
  split
  · rename_i hge
    rw [decide_eq_false (by omega), Bool.false_and]
    exact BitVec.getLsbD_zero
  · rename_i hlt
    dsimp only
    have hsz := h.shape.size_le
    rw [BitVec.getLsbD_and, getLsbD_partialBlockMask (Nat.min_le_left _ _)]
    -- the turns write the positions below theirs
    have key := forStep_inv (f := fun j word => word ||| (c.blockAt (n + j)).setWidth 64 <<< j)
      (s := 0#64) (a := 0) (b := min 64 (last - n)) (k := w)
      (fun q word => ∀ i, i < 64 → word.getLsbD i = (decide (i < q) && c.bit (n + i)))
      V.bits_pos ?_ ?_
    · obtain ⟨q, hq, hword⟩ := key
      rw [hword j hj]
      by_cases hjl : n + j < last
      · rw [decide_eq_true (show j < q by omega), decide_eq_true (show j < min 64 (last - n) by omega),
          decide_eq_true hjl, Bool.and_true]
      · rw [decide_eq_false (show ¬ j < min 64 (last - n) by omega), decide_eq_false hjl,
          Bool.and_false, Bool.false_and]
    · intro i hi
      simp
    · intro q word hq hword i hi
      rw [BitVec.getLsbD_or, hword i hi, BitVec.getLsbD_shiftLeft, BitVec.getLsbD_setWidth]
      by_cases hiq : i < q
      · simp [hiq, show i < q + w by omega]
      · by_cases hiw : i - q < w
        · rw [getLsbD_blockAt h.shape (by omega) hiw, show n + q + (i - q) = n + i by omega]
          simp [hi, hiq, show i - q < 64 by omega, show i < q + w by omega]
        · rw [BitVec.getLsbD_of_ge (c.blockAt (n + q)) _ (by omega)]
          simp [hiq, show ¬ i < q + w by omega]

/-- Of a whole storage. -/
theorem getLsbD_wordAt_size (h : c.Inv) {j : Nat} (hj : j < 64) :
    (wordAt c n c.size).getLsbD j = c.bit (n + j) := by
  rw [getLsbD_wordAt h (Nat.le_refl _) hj]
  by_cases hlt : n + j < c.size
  · rw [decide_eq_true hlt, Bool.true_and]
  · rw [h.clear _ (by omega), Bool.and_false]

theorem holdsAbove_iff (h : c.Inv) {p : Nat} :
    holdsAbove c p = true ↔ ∃ q, p < q ∧ c.bit q = true := by
  unfold holdsAbove
  rw [Bool.and_eq_true, decide_eq_true_eq]
  constructor
  · intro ⟨hlt, hany⟩
    obtain ⟨q, h1, -, hb⟩ := (anyIn_iff h.shape (by omega)).mp hany
    exact ⟨q, h1, hb⟩
  · intro ⟨q, hpq, hb⟩
    have := h.lt_size hb
    refine ⟨by omega, (anyIn_iff h.shape (by omega)).mpr ⟨q, hpq, by omega, hb⟩⟩

/-- A walk by words over two strings stops at the first word in which they differ. -/
theorem words_cases {f g : Nat → Bool} {α : Type} (xw yw : Nat → BitVec 64)
    (body : Nat → Option α) (n : Nat) (hx : ∀ k j, j < 64 → (xw k).getLsbD j = f (k + j))
    (hy : ∀ k j, j < 64 → (yw k).getLsbD j = g (k + j))
    (hbody : ∀ k, k < n → xw k ≠ yw k → ∃ v, body k = some v)
    (hsame : ∀ k, k < n → xw k = yw k → body k = .none) :
    (∃ k, k < n ∧ xw k ≠ yw k ∧ FirstDiff f g (k + countrZero (xw k ^^^ yw k)) ∧
      firstAnswer 64 0 n body = body k) ∨
    ((∀ q, q < n → f q = g q) ∧ firstAnswer 64 0 n body = .none) := by
  have hnext (k : Nat) (hk : k < n) (hP : ∀ q, q < k → f q = g q) (hnone : body k = .none) :
      ∀ q, q < k + 64 → f q = g q := by
    intro q hq
    have hw : xw k = yw k := by
      by_contra hne
      obtain ⟨v, hv⟩ := hbody k hk hne
      rw [hv] at hnone
      cases hnone
    by_cases hqk : q < k
    · exact hP q hqk
    · obtain ⟨j, rfl⟩ := Nat.exists_eq_add_of_le (Nat.le_of_not_lt hqk)
      rw [← hx k j (by omega), ← hy k j (by omega), hw]
  rcases firstAnswer_cases (fun k => ∀ q, q < k → f q = g q) (by decide)
      (fun q hq => absurd hq (Nat.not_lt_zero q)) hnext with ⟨k, v, hk, hP, hv, hr⟩ | ⟨k, hk, hP, hr⟩
  · have hne : xw k ≠ yw k := by
      intro hw
      rw [hsame k hk hw] at hv
      cases hv
    have hxor : xw k ^^^ yw k ≠ zero := fun hz => hne (BitVec.xor_eq_zero_iff.mp hz)
    exact Or.inl ⟨k, hk, hne, firstDiff_of_word (hx k) (hy k) hP hxor, hr.trans hv.symm⟩
  · exact Or.inr ⟨fun q hq => hP q (by omega), hr⟩

/-- Where two words differ, their lowest difference is read off one of them. -/
theorem word_holds {f : Nat → Bool} {xw yw : BitVec 64} {k : Nat}
    (hx : ∀ j, j < 64 → xw.getLsbD j = f (k + j)) (hne : xw ≠ yw) :
    (xw &&& 1#64 <<< countrZero (xw ^^^ yw) != 0#64) = f (k + countrZero (xw ^^^ yw)) := by
  have hk : countrZero (xw ^^^ yw) < 64 :=
    countrZero_lt fun hz => hne (BitVec.xor_eq_zero_iff.mp hz)
  have hword : (xw &&& 1#64 <<< countrZero (xw ^^^ yw) != 0#64) =
      blockIntersects xw (shl unit (countrZero (xw ^^^ yw))) := by
    unfold blockIntersects
    rw [Bool.eq_iff_iff, bne_iff_ne, decide_eq_true_eq]
    rfl
  rw [hword, blockIntersects_unit_shl hk]
  exact hx _ hk

theorem equalTurn_ne {a b : BitVec 64} (hne : a ≠ b) : equalTurn a b = some false := by
  unfold equalTurn
  rw [if_pos (bne_iff_ne.mpr hne)]

theorem equalTurn_same {a b : BitVec 64} (h : a = b) : equalTurn a b = .none := by
  unfold equalTurn
  rw [h, bne_self_eq_false, if_neg (by decide)]

/-- **A walk by words finds two strings equal exactly where they agree** as far as it goes. -/
theorem equalWords_iff {f g : Nat → Bool} (xw yw : Nat → BitVec 64) (n : Nat)
    (hx : ∀ k j, j < 64 → (xw k).getLsbD j = f (k + j))
    (hy : ∀ k j, j < 64 → (yw k).getLsbD j = g (k + j))
    (hpast : ∀ q, n ≤ q → f q = g q) :
    (firstAnswer 64 0 n fun k => equalTurn (xw k) (yw k)).getD true = true ↔ ∀ q, f q = g q := by
  rcases words_cases xw yw (fun k => equalTurn (xw k) (yw k)) n hx hy
      (fun k _ hne => ⟨false, equalTurn_ne hne⟩) (fun k _ he => equalTurn_same he) with
    ⟨k, -, hne, hfd, hr⟩ | ⟨hagree, hr⟩
  · rw [hr, equalTurn_ne hne]
    exact iff_of_false (by decide) fun h => hfd.here (h _)
  · rw [hr]
    refine iff_of_true rfl fun q => ?_
    by_cases hq : q < n
    · exact hagree q hq
    · exact hpast q (by omega)

/-- Past both widths everything is clear. -/
theorem agree_past_sizes (hx : x.Inv) (hy : y.Inv) (q : Nat) (hq : max x.size y.size ≤ q) :
    x.bit q = y.bit q := by
  rw [hx.clear q (by omega), hy.clear q (by omega)]

/-- **Word by word, sets of any two storages are equal where they hold the same positions.** -/
theorem equalKeyWords_iff (hx : x.Inv) (hy : y.Inv) :
    equalKeyWords x y = true ↔ ∀ q, x.bit q = y.bit q :=
  equalWords_iff (fun k => wordAt x k x.size) (fun k => wordAt y k y.size) _
    (fun _ _ hj => getLsbD_wordAt_size hx hj) (fun _ _ hj => getLsbD_wordAt_size hy hj)
    (agree_past_sizes hx hy)

theorem ascendingTurn_same {k : Nat} (h : wordAt x k x.size = wordAt y k y.size) :
    ascendingTurn x y k = .none := by
  unfold ascendingTurn
  dsimp only
  rw [h, bne_self_eq_false, if_neg (by decide)]

theorem ascendingTurn_ne (hx : x.Inv) {k : Nat} (hne : wordAt x k x.size ≠ wordAt y k y.size) :
    ascendingTurn x y k =
      let p := k + countrZero (wordAt x k x.size ^^^ wordAt y k y.size)
      some (if x.bit p = true then (if holdsAbove y p = true then .lt else .gt)
        else if holdsAbove x p = true then .gt else .lt) := by
  have hheld := word_holds (fun j hj => getLsbD_wordAt_size hx hj) hne
  unfold ascendingTurn
  dsimp only
  rw [if_pos (bne_iff_ne.mpr hne), Nat.add_sub_cancel_left, hheld]
  split <;> rfl

/-- **Word by word, ascending keys compare lexicographically.** -/
theorem ascendingWordsThreeWay_eq (hx : x.Inv) (hy : y.Inv) :
    ascendingWordsThreeWay x y = compare (keysUp x) (keysUp y) := by
  unfold ascendingWordsThreeWay
  rcases words_cases (fun k => wordAt x k x.size) (fun k => wordAt y k y.size) (ascendingTurn x y)
      (max x.size y.size) (fun _ _ hj => getLsbD_wordAt_size hx hj)
      (fun _ _ hj => getLsbD_wordAt_size hy hj) (fun k _ hne => ⟨_, ascendingTurn_ne hx hne⟩)
      (fun k _ he => ascendingTurn_same he) with ⟨k, -, hne, hfd, hr⟩ | ⟨hagree, hr⟩
  · rw [hr, ascendingTurn_ne hx hne, Option.getD_some]
    exact compare_ascending_at hx.clear hy.clear hfd (fun _ => holdsAbove_iff hx)
      fun _ => holdsAbove_iff hy
  · have he : keysUp x = keysUp y := (ascending_eq_iff hx.clear hy.clear).mpr fun q => by
      by_cases hq : q < max x.size y.size
      · exact hagree q hq
      · exact agree_past_sizes hx hy q (by omega)
    rw [hr, Option.getD_none, he]
    exact (compare_self _).symm

/-- **Word by word from the highest, descending keys compare lexicographically.** -/
theorem numericWordsThreeWay_eq (hx : x.Inv) (hy : y.Inv) :
    numericWordsThreeWay x y = compare (keysDown x) (keysDown y) := by
  have hword (q : Nat) (h : wordAt x (q / 64 * 64) x.size = wordAt y (q / 64 * 64) y.size) :
      x.bit q = y.bit q := by
    have hj : q % 64 < 64 := Nat.mod_lt _ (by decide)
    have := congrArg (fun word => word.getLsbD (q % 64)) h
    rw [getLsbD_wordAt_size hx hj, getLsbD_wordAt_size hy hj, Nat.div_add_mod'] at this
    exact this
  unfold numericWordsThreeWay
  dsimp only
  cases hf : findDown (fun k => wordAt x (k * 64) x.size != wordAt y (k * 64) y.size)
      ((max x.size y.size + 63) / 64) with
  | none =>
      have he : ascending x.bit x.size = ascending y.bit y.size :=
        (ascending_eq_iff hx.clear hy.clear).mpr fun q => by
          by_cases hq : q < max x.size y.size
          · exact hword q (by simpa using findDown_none hf (q / 64) (by omega))
          · exact agree_past_sizes hx hy q (by omega)
      unfold keysDown descending
      rw [he]
      exact (compare_self _).symm
  | some k =>
      obtain ⟨h1, h2, h3⟩ := findDown_some hf
      have hup (q : Nat) (hq : k * 64 + 64 ≤ q) : x.bit q = y.bit q := by
        by_cases hlast : q < max x.size y.size
        · exact hword q (by simpa using h3 (q / 64) (by omega) (by omega))
        · exact agree_past_sizes hx hy q (by omega)
      obtain ⟨p, hp, hlt⟩ := lastDiff_of_word (fun _ hj => getLsbD_wordAt_size hx hj)
        (fun _ hj => getLsbD_wordAt_size hy hj) hup
        (show wordAt x (k * 64) x.size ≠ wordAt y (k * 64) y.size by simpa using h2)
      unfold keysDown
      rw [← compare_descending_at hx.clear hy.clear hp]
      simp only [hlt]

/-! ## 4. Windows of bools -/

/-- The bools of `[first, first + n)`. -/
def windowOf (c : BitBlockContainer V) (first n : Nat) : List Bool :=
  bools (fun q => c.bit (first + q)) n

/-- The positions of a window, clear past its end. -/
def windowBit (c : BitBlockContainer V) (first n q : Nat) : Bool :=
  decide (q < n) && c.bit (first + q)

theorem getLsbD_wordAt_window (h : c.Inv) {first k j : Nat} (hl : first + n ≤ c.size) (hj : j < 64) :
    (wordAt c (first + k) (first + n)).getLsbD j = windowBit c first n (k + j) := by
  rw [getLsbD_wordAt h hl hj, windowBit, Nat.add_assoc]
  congr 1
  rw [decide_eq_decide]
  omega

theorem windowBit_of_lt {first q : Nat} (hq : q < n) :
    windowBit c first n q = c.bit (first + q) := by
  rw [windowBit, decide_eq_true hq, Bool.true_and]

theorem windowBit_of_le {first q : Nat} (hq : n ≤ q) : windowBit c first n q = false := by
  rw [windowBit, decide_eq_false (by omega), Bool.false_and]

/-- **Word by word, windows of one length are equal where they hold the same bools.** -/
theorem equalBoolWords_iff (hx : x.Inv) (hy : y.Inv) {xf yf : Nat} (hxn : xf + n ≤ x.size)
    (hyn : yf + n ≤ y.size) : equalBoolWords x y xf yf n = true ↔ windowOf x xf n = windowOf y yf n := by
  unfold equalBoolWords windowOf
  rw [equalWords_iff (f := windowBit x xf n) (g := windowBit y yf n) _ _ _
    (fun _ _ hj => getLsbD_wordAt_window hx hxn hj) (fun _ _ hj => getLsbD_wordAt_window hy hyn hj)
    fun q hq => (windowBit_of_le hq).trans (windowBit_of_le hq).symm, bools_eq_iff]
  constructor
  · intro h
    refine ⟨rfl, fun q hq => ?_⟩
    have := h q
    rwa [windowBit_of_lt hq, windowBit_of_lt hq] at this
  · intro h q
    by_cases hq : q < n
    · rw [windowBit_of_lt hq, windowBit_of_lt hq]
      exact h.2 q hq
    · rw [windowBit_of_le (by omega), windowBit_of_le (by omega)]

theorem boolTurn_same {a b : BitVec 64} (h : a = b) : boolTurn a b = .none := by
  unfold boolTurn
  rw [h, bne_self_eq_false, if_neg (by decide)]

theorem boolTurn_ne {f : Nat → Bool} {a b : BitVec 64} {k : Nat}
    (hf : ∀ j, j < 64 → a.getLsbD j = f (k + j)) (hne : a ≠ b) :
    boolTurn a b = some (if f (k + countrZero (a ^^^ b)) = true then .gt else .lt) := by
  unfold boolTurn
  dsimp only
  rw [if_pos (bne_iff_ne.mpr hne), word_holds hf hne]

/-- **Word by word, the first difference of two windows decides**, and none where they agree as far
    as both reach. -/
theorem boolWordsThreeWay_cases (hx : x.Inv) (hy : y.Inv) {xf yf n m : Nat}
    (hxn : xf + n ≤ x.size) (hym : yf + m ≤ y.size) :
    (boolWordsThreeWay x y xf yf (min n m) = some (compare (windowOf x xf n) (windowOf y yf m))) ∨
    (boolWordsThreeWay x y xf yf (min n m) = .none ∧
      compare (windowOf x xf n) (windowOf y yf m) = compare n m) := by
  unfold boolWordsThreeWay windowOf
  rcases words_cases (f := windowBit x xf (min n m)) (g := windowBit y yf (min n m))
      (fun k => wordAt x (xf + k) (xf + min n m)) (fun k => wordAt y (yf + k) (yf + min n m))
      (fun k => boolTurn (wordAt x (xf + k) (xf + min n m)) (wordAt y (yf + k) (yf + min n m)))
      (min n m) (fun _ _ hj => getLsbD_wordAt_window hx (by omega) hj)
      (fun _ _ hj => getLsbD_wordAt_window hy (by omega) hj)
      (fun k _ hne => ⟨_, boolTurn_ne (fun _ hj => getLsbD_wordAt_window hx (by omega) hj) hne⟩)
      (fun k _ he => boolTurn_same he) with ⟨k, -, hne, hfd, hr⟩ | ⟨hagree, hr⟩
  · left
    rw [hr, boolTurn_ne (fun _ hj => getLsbD_wordAt_window hx (by omega) hj) hne]
    generalize k + countrZero (wordAt x (xf + k) (xf + min n m) ^^^
      wordAt y (yf + k) (yf + min n m)) = p at hfd
    have hp : p < min n m := by
      by_contra hge
      exact hfd.here ((windowBit_of_le (by omega)).trans (windowBit_of_le (by omega)).symm)
    have hfd' : FirstDiff (fun q => x.bit (xf + q)) (fun q => y.bit (yf + q)) p := by
      refine ⟨fun q hq => ?_, ?_⟩
      · have := hfd.below q hq
        rwa [windowBit_of_lt (by omega), windowBit_of_lt (by omega)] at this
      · have := hfd.here
        rwa [windowBit_of_lt hp, windowBit_of_lt hp] at this
    rw [windowBit_of_lt hp]
    exact congrArg some (compare_bools_at hfd' (show p < n by omega) (show p < m by omega))
  · right
    refine ⟨hr, compare_bools_of_agree fun q hqn hqm => ?_⟩
    have := hagree q (by omega)
    rwa [windowBit_of_lt (by omega), windowBit_of_lt (by omega)] at this

end WordSpecs

end XstdBits
