/-
  File: XstdBits/Container/Scan.lean
  Subject: the scans, and the two ends dropped.

  Every scan looks at the block of its position through a shift or a mask, then at whole blocks
  from there on; one and two static blocks are unrolled. What one block answers is said once for
  each direction (`nextSet_of_block`, `prevSet_of_block`); a scan is then the least or greatest
  set position of the bits (`nextSet`, `prevSet`).
-/
import XstdBits.Container.Range

namespace XstdBits

namespace BitBlockContainer
variable {w : Nat} {V : Vehicle w} (c : BitBlockContainer V)

/-! ## 1. Upwards -/

/-- The first block of `[lo, num_blocks)` that is not zero. -/
def nextBlock (lo : Nat) : Option Nat := findUp lo c.numBlocks fun i => c.block i != zero

/-- The last block below `n` that is not zero. -/
def prevBlock (n : Nat) : Option Nat := findDown (fun i => c.block i != zero) n

/-- `inclusive_find_next`: total at the width, which is in its domain. -/
def inclusiveFindNext (n : Nat) : Nat :=
  if n = c.size then c.size
  else if V.unrolls 1 then
    let block := shr (c.block 0) n
    if block ≠ zero then n + countrZero block else c.size
  else if V.unrolls 2 then
    let index := (indexOffset V n).1
    let offset := (indexOffset V n).2
    let block := shr (c.block index) offset
    if block ≠ zero then n + countrZero block
    else if index = 0 ∧ c.block 1 ≠ zero then w + countrZero (c.block 1)
    else c.size
  else
    let index := (indexOffset V n).1
    let offset := (indexOffset V n).2
    let block := shr (c.block index) offset
    if block ≠ zero then n + countrZero block
    else
      match c.nextBlock (index + 1) with
      | .some i => n + (w - offset) + countrZero (c.block i) + w * (i - (index + 1))
      | .none => c.size

/-- `find_first`: whole static blocks, where an empty block's count is the width. -/
def findFirst : Nat :=
  if V.unrolls 1 ∧ V.extent = w then countrZero (c.block 0)
  else if V.unrolls 2 ∧ V.extent = 2 * w then
    if c.block 0 ≠ zero then countrZero (c.block 0) else w + countrZero (c.block 1)
  else c.inclusiveFindNext 0

/-- `exclusive_find_next`: a mask over the position's own block. -/
def exclusiveFindNext (n : Nat) : Nat :=
  let index := (indexOffset V n).1
  let offset := (indexOffset V n).2
  let block := c.block index &&& shl (~~~unit) offset
  if V.unrolls 1 ∧ V.extent = w then countrZero block
  else if block ≠ zero then w * index + countrZero block
  else if V.unrolls 1 then c.size
  else if V.unrolls 2 then
    if index = 0 ∧ c.block 1 ≠ zero then w + countrZero (c.block 1) else c.size
  else
    match c.nextBlock (index + 1) with
    | .some i => w * i + countrZero (c.block i)
    | .none => c.size

/-- `find_front`, of a container that is not empty. -/
def findFront : Nat :=
  if V.unrolls 1 then countrZero (c.block 0)
  else if V.unrolls 2 then
    if c.block 0 ≠ zero then countrZero (c.block 0) else countrZero (c.block 1) + w
  else
    match c.nextBlock 0 with
    | .some i => w * i + countrZero (c.block i)
    | .none => 0

section Up
variable {c} {n p : Nat}

/-- **What one block answers upwards.** `x` shows the positions from `lo` to the end of block
    `index`, position `base + j` at bit `j`. -/
theorem nextSet_of_block (h : c.Inv) {x : BitVec w} {base a index : Nat} (hb : base ≤ a)
    (hx : ∀ j, j < w → x.getLsbD j =
      (decide (a ≤ base + j ∧ base + j < index * w + w) && c.bit (base + j))) (hne : x ≠ zero) :
    nextSet c.bit a c.size = base + countrZero x := by
  have hk := hx _ (countrZero_lt hne)
  rw [getLsbD_countrZero hne] at hk
  simp only [Bool.true_eq, Bool.and_eq_true, decide_eq_true_eq] at hk
  obtain ⟨⟨h1, h2⟩, h3⟩ := hk
  refine nextSet_eq h1 (h.lt_size h3) h3 fun p hp1 hp2 => ?_
  have hj : p - base < countrZero x := by omega
  have hz := hx (p - base) (by have := countrZero_lt hne; omega)
  rw [getLsbD_of_lt_countrZero hj, Nat.add_sub_cancel' (by omega)] at hz
  have hin : decide (a ≤ p ∧ p < index * w + w) = true := by
    rw [decide_eq_true_eq]
    omega
  rw [hin, Bool.true_and] at hz
  exact hz.symm

theorem clear_of_block {x : BitVec w} {base a index : Nat} (hb : base ≤ a)
    (hbase : index * w ≤ base)
    (hx : ∀ j, j < w → x.getLsbD j =
      (decide (a ≤ base + j ∧ base + j < index * w + w) && c.bit (base + j))) (hz : x = zero)
    (h1 : a ≤ p) (h2 : p < index * w + w) : c.bit p = false := by
  have := hx (p - base) (by omega)
  rw [hz, BitVec.getLsbD_zero, Nat.add_sub_cancel' (by omega)] at this
  have hin : decide (a ≤ p ∧ p < index * w + w) = true := by
    rw [decide_eq_true_eq]
    omega
  rw [hin, Bool.true_and] at this
  exact this.symm

/-- The view of a whole block. -/
theorem block_view (i : Nat) {j : Nat} (hj : j < w) : (c.block i).getLsbD j =
    (decide (i * w ≤ i * w + j ∧ i * w + j < i * w + w) && c.bit (i * w + j)) := by
  rw [bit_pos hj]
  have : decide (i * w ≤ i * w + j ∧ i * w + j < i * w + w) = true := by
    rw [decide_eq_true_eq]
    omega
  rw [this, Bool.true_and]

theorem clear_of_zero_block {i : Nat} (hz : c.block i = zero) (h1 : i * w ≤ p)
    (h2 : p < i * w + w) : c.bit p = false :=
  clear_of_block (Nat.le_refl _) (Nat.le_refl _) (fun _ hj => block_view i hj) hz h1 h2

theorem clear_of_zero_blocks {a b : Nat} (hz : ∀ i, a ≤ i → i < b → c.block i = zero)
    (h1 : a * w ≤ p) (h2 : p < b * w) : c.bit p = false := by
  obtain ⟨i, j, hj, rfl⟩ := exists_pos V.bits_pos p
  have ht := block_trichotomy i a w
  have ht' := block_trichotomy i b w
  exact clear_of_zero_block (hz i (by omega) (by omega)) (by omega) (by omega)

/-- The block found after the positions before it are clear. -/
theorem nextSet_of_later (h : c.Inv) {a m i : Nat} (hlo : a ≤ m * w)
    (hclear : ∀ p, a ≤ p → p < m * w → c.bit p = false) (hmi : m ≤ i)
    (hz : ∀ k, m ≤ k → k < i → c.block k = zero) (hne : c.block i ≠ zero) :
    nextSet c.bit a c.size = i * w + countrZero (c.block i) := by
  have hmul := Nat.mul_le_mul_right w hmi
  rw [nextSet_skip (m := i * w) (by omega) fun p h1 h2 => ?_]
  · exact nextSet_of_block h (Nat.le_refl _) (fun _ hj => block_view i hj) hne
  · by_cases hp : p < m * w
    · exact hclear p h1 hp
    · exact clear_of_zero_blocks hz (by omega) h2

theorem nextSet_of_none (h : c.Inv) {a m : Nat}
    (hclear : ∀ p, a ≤ p → p < m * w → c.bit p = false)
    (hz : ∀ k, m ≤ k → k < c.mBlocks.elems.length → c.block k = zero) :
    nextSet c.bit a c.size = c.size := by
  refine nextSet_none fun p h1 h2 => ?_
  by_cases hp : p < m * w
  · exact hclear p h1 hp
  · have := h.shape.size_le
    exact clear_of_zero_blocks hz (by omega) (by omega)

theorem nextBlock_some (h : c.Shape) {lo i : Nat} (hi : c.nextBlock lo = .some i) :
    lo ≤ i ∧ i < c.mBlocks.elems.length ∧ c.block i ≠ zero ∧
      ∀ k, lo ≤ k → k < i → c.block k = zero := by
  obtain ⟨h1, h2, h3, h4⟩ := findUp_some hi
  rw [h.numBlocks] at h2
  refine ⟨h1, h2, by simpa using h3, fun k hk1 hk2 => ?_⟩
  simpa using h4 k hk1 hk2

theorem nextBlock_none (h : c.Shape) {lo : Nat} (hi : c.nextBlock lo = .none) :
    ∀ k, lo ≤ k → k < c.mBlocks.elems.length → c.block k = zero := by
  intro k hk1 hk2
  have := findUp_none hi k hk1 (by rwa [h.numBlocks])
  simpa using this

/-- The shifted block of a position, seen from it. -/
theorem shr_view {q r : Nat} {j : Nat} :
    (shr (c.block q) r).getLsbD j =
      (decide (q * w + r ≤ q * w + r + j ∧
        q * w + r + j < q * w + w) && c.bit (q * w + r + j)) := by
  rw [getLsbD_shr]
  by_cases h : r + j < w
  · rw [Nat.add_assoc, bit_pos h]
    have : decide (q * w + r ≤ q * w + (r + j) ∧
        q * w + (r + j) < q * w + w) = true := by
      rw [decide_eq_true_eq]
      omega
    rw [this, Bool.true_and]
  · rw [BitVec.getLsbD_of_ge _ _ (by omega)]
    have : decide (q * w + r ≤ q * w + r + j ∧
        q * w + r + j < q * w + w) = false := by
      rw [decide_eq_false_iff_not]
      omega
    rw [this, Bool.false_and]

/-- The block of a position masked above it. -/
theorem above_view {q r : Nat} {j : Nat} (hj : j < w) :
    (c.block q &&& shl (~~~unit) r).getLsbD j =
      (decide (q * w + r + 1 ≤ q * w + j ∧
        q * w + j < q * w + w) && c.bit (q * w + j)) := by
  rw [BitVec.getLsbD_and, getLsbD_shl hj, BitVec.getLsbD_not, bit_pos hj, Bool.and_comm]
  congr 1
  rw [BitVec.getLsbD_one, ← Bool.decide_and]
  simp only [Bool.decide_and]
  rw [Bool.eq_iff_iff]
  simp
  omega

/-- **`inclusive_find_next` answers the least set position from `n` on, or the width.** -/
theorem inclusiveFindNext_eq (h : c.Inv) (hn : n ≤ c.size) :
    c.inclusiveFindNext n = nextSet c.bit n c.size := by
  unfold inclusiveFindNext
  split
  · rename_i he
    rw [he, nextSet_none fun j h1 h2 => by omega]
  · rename_i hne
    have hsz := h.shape.size_le
    obtain ⟨q, r, hqr, hdlt, hr, hdiv⟩ := exists_indexOffset h.shape (n := n) (by omega)
    rw [hqr]
    have hview (j : Nat) (_ : j < w) := shr_view (c := c) (q := q) (r := r) (j := j)
    rw [← hdiv] at hview
    have hhere (hb : shr (c.block q) r ≠ zero) := nextSet_of_block h (Nat.le_refl n) hview hb
    have hclear (hb : shr (c.block q) r = zero) (p : Nat) (h1 : n ≤ p) (h2 : p < (q + 1) * w) :
        c.bit p = false :=
      clear_of_block (Nat.le_refl n) (by omega) hview hb h1 (by rwa [Nat.succ_mul] at h2)
    split
    · rename_i hu
      have hl := h.shape.unrolls hu
      rw [hl] at hdlt
      obtain rfl : q = 0 := by omega
      obtain rfl : n = r := by omega
      dsimp only
      split
      · rename_i hb
        exact (hhere hb).symm
      · rename_i hb
        rw [not_not] at hb
        exact (nextSet_of_none h (hclear hb) fun k hk1 hk2 => by omega).symm
    · split
      · rename_i hu
        have hl := h.shape.unrolls hu
        rw [hl] at hdlt
        dsimp only
        split
        · rename_i hb
          exact (hhere hb).symm
        · rename_i hb
          rw [not_not] at hb
          split
          · rename_i h1
            have := nextSet_of_later h (a := n) (m := q + 1) (i := 1)
              (by rw [Nat.succ_mul]; omega) (hclear hb) (by omega) (fun k _ _ => by omega) h1.2
            rw [this, Nat.one_mul]
          · rename_i h1
            refine (nextSet_of_none h (hclear hb) fun k hk1 hk2 => ?_).symm
            have hk : k = 1 := by omega
            by_contra hc
            exact h1 ⟨by omega, hk ▸ hc⟩
      · dsimp only
        split
        · rename_i hb
          exact (hhere hb).symm
        · rename_i hb
          rw [not_not] at hb
          cases hf : c.nextBlock (q + 1) with
          | none => exact (nextSet_of_none h (hclear hb) (nextBlock_none h.shape hf)).symm
          | some i =>
              obtain ⟨h1, h2, h3, h4⟩ := nextBlock_some h.shape hf
              rw [nextSet_of_later h (m := q + 1) (by rw [Nat.succ_mul]; omega)
                (hclear hb) h1 h4 h3]
              have ht := block_trichotomy q i w
              simp only [Nat.mul_comm w, Nat.sub_mul, Nat.succ_mul]
              omega

/-- Whole static blocks end at the width. -/
theorem size_of_unrolls {k : Nat} (hu : V.unrolls k = true) : c.size = V.extent := by
  unfold Vehicle.unrolls at hu
  rw [Bool.and_eq_true] at hu
  unfold size
  rw [if_pos hu.1]

/-- **`find_first` answers the least set position, or the width.** -/
theorem findFirst_eq (h : c.Inv) : c.findFirst = nextSet c.bit 0 c.size := by
  unfold findFirst
  split
  · rename_i hu
    have hl := h.shape.unrolls hu.1
    by_cases hb : c.block 0 = zero
    · have hn := nextSet_of_none h (a := 0) (m := 1)
        (fun p _ hp => clear_of_zero_block hb (by omega) (by omega)) (fun k hk1 hk2 => by omega)
      rw [hn, size_of_unrolls hu.1, hb, countrZero_zero, hu.2]
    · have := nextSet_of_later h (a := 0) (m := 0) (i := 0) (by omega) (fun p _ hp => by omega)
        (Nat.le_refl 0) (fun k _ _ => by omega) hb
      rw [this, Nat.zero_mul, Nat.zero_add]
  · split
    · rename_i hu
      have hl := h.shape.unrolls hu.1
      split
      · rename_i hb
        have := nextSet_of_later h (a := 0) (m := 0) (i := 0) (by omega) (fun p _ hp => by omega)
          (Nat.le_refl 0) (fun k _ _ => by omega) hb
        rw [this, Nat.zero_mul, Nat.zero_add]
      · rename_i hb
        rw [not_not] at hb
        have hclear (p : Nat) (_ : 0 ≤ p) (hp : p < 1 * w) : c.bit p = false :=
          clear_of_zero_block hb (by omega) (by omega)
        by_cases hb1 : c.block 1 = zero
        · have hn := nextSet_of_none h (a := 0) hclear (fun k hk1 hk2 => by
            obtain rfl : k = 1 := by omega
            exact hb1)
          rw [hn, size_of_unrolls hu.1, hb1, countrZero_zero, hu.2]
          omega
        · have := nextSet_of_later h (a := 0) (i := 1) (by omega) hclear (Nat.le_refl 1)
            (fun k _ _ => by omega) hb1
          rw [this, Nat.one_mul]
    · exact inclusiveFindNext_eq h (Nat.zero_le _)

/-- **`exclusive_find_next` answers the least set position after `n`, or the width.** -/
theorem exclusiveFindNext_eq (h : c.Inv) (hn : n < c.size) :
    c.exclusiveFindNext n = nextSet c.bit (n + 1) c.size := by
  have hsz := h.shape.size_le
  unfold exclusiveFindNext
  obtain ⟨q, r, hqr, hdlt, hr, hdiv⟩ := exists_indexOffset h.shape (n := n) (by omega)
  rw [hqr]
  dsimp only
  have hview (j : Nat) (hj : j < w) := above_view (c := c) (q := q) (r := r) hj
  rw [← hdiv] at hview
  have hhere (hb : c.block q &&& shl (~~~unit) r ≠ zero) :=
    nextSet_of_block h (a := n + 1) (by omega) hview hb
  have hclear (hb : c.block q &&& shl (~~~unit) r = zero) (p : Nat) (h1 : n + 1 ≤ p)
      (h2 : p < (q + 1) * w) : c.bit p = false :=
    clear_of_block (by omega) (Nat.le_refl _) hview hb h1 (by rwa [Nat.succ_mul] at h2)
  have hmid : n + 1 ≤ (q + 1) * w := by
    rw [Nat.succ_mul]
    omega
  split
  · rename_i hu
    have hl := h.shape.unrolls hu.1
    obtain rfl : q = 0 := by omega
    by_cases hb : c.block 0 &&& shl (~~~unit) r = zero
    · rw [nextSet_of_none h (hclear hb) fun k hk1 hk2 => by omega, hb, countrZero_zero,
        size_of_unrolls hu.1, hu.2]
    · rw [hhere hb, Nat.zero_mul, Nat.zero_add]
  · split
    · rename_i hb
      rw [hhere hb, Nat.mul_comm]
    · rename_i hb
      rw [not_not] at hb
      split
      · rename_i hu
        have hl := h.shape.unrolls hu
        exact (nextSet_of_none h (hclear hb) fun k hk1 hk2 => by omega).symm
      · split
        · rename_i hu
          have hl := h.shape.unrolls hu
          split
          · rename_i h1
            rw [nextSet_of_later h hmid (hclear hb) (i := 1) (by omega) (fun k _ _ => by omega) h1.2,
              Nat.one_mul]
          · rename_i h1
            refine (nextSet_of_none h (hclear hb) fun k hk1 hk2 => ?_).symm
            have hk : k = 1 := by omega
            by_contra hc
            exact h1 ⟨by omega, hk ▸ hc⟩
        · cases hf : c.nextBlock (q + 1) with
          | none => exact (nextSet_of_none h (hclear hb) (nextBlock_none h.shape hf)).symm
          | some i =>
              obtain ⟨h1, h2, h3, h4⟩ := nextBlock_some h.shape hf
              rw [nextSet_of_later h hmid (hclear hb) h1 h4 h3, Nat.mul_comm]

/-- **`find_front` answers the least set position of a container that has one.** -/
theorem findFront_eq (h : c.Inv) (hany : ∃ p, p < c.size ∧ c.bit p = true) :
    c.findFront = nextSet c.bit 0 c.size := by
  have hfirst (hb : c.block 0 ≠ zero) : nextSet c.bit 0 c.size = countrZero (c.block 0) := by
    have := nextSet_of_later h (a := 0) (m := 0) (i := 0) (by omega) (fun p _ hp => by omega)
      (Nat.le_refl 0) (fun k _ _ => by omega) hb
    rw [this, Nat.zero_mul, Nat.zero_add]
  have hnot (hz : ∀ k, k < c.mBlocks.elems.length → c.block k = zero) : False := by
    obtain ⟨p, -, hp⟩ := hany
    rw [blocks_zero_iff.mp hz p] at hp
    cases hp
  unfold findFront
  split
  · rename_i hu
    have hl := h.shape.unrolls hu
    refine (hfirst fun hb => hnot fun k hk => ?_).symm
    obtain rfl : k = 0 := by omega
    exact hb
  · split
    · rename_i hu
      have hl := h.shape.unrolls hu
      split
      · rename_i hb
        exact (hfirst hb).symm
      · rename_i hb
        rw [not_not] at hb
        have hb1 : c.block 1 ≠ zero := fun hb1 => hnot fun k hk => by
          rcases (by omega : k = 0 ∨ k = 1) with rfl | rfl
          · exact hb
          · exact hb1
        rw [nextSet_of_later h (a := 0) (m := 1) (i := 1) (by omega)
          (fun p _ hp => clear_of_zero_block hb (by omega) (by omega)) (Nat.le_refl 1)
          (fun k _ _ => by omega) hb1, Nat.one_mul, Nat.add_comm]
    · cases hf : c.nextBlock 0 with
      | none => exact absurd (fun k hk => nextBlock_none h.shape hf k (by omega) hk) hnot
      | some i =>
          obtain ⟨h1, h2, h3, h4⟩ := nextBlock_some h.shape hf
          rw [nextSet_of_later h (a := 0) (m := 0) (by omega) (fun p _ hp => by omega) h1 h4 h3,
            Nat.mul_comm]

end Up

/-! ## 2. Downwards -/

/-- `total_find_prev`: the highest set position below `n`, or the width. -/
def totalFindPrev (n : Nat) : Nat :=
  if V.hasStaticSize ∧ V.extent = 0 then c.size
  else if n = 0 then c.size
  else
    let index := (indexOffset V (n - 1)).1
    let offset := (indexOffset V (n - 1)).2
    let block := shl (c.block index) (w - 1 - offset)
    if block ≠ zero then n - 1 - countlZero block
    else if V.unrolls 2 then
      if index = 1 ∧ c.block 0 ≠ zero then w - 1 - countlZero (c.block 0) else c.size
    else
      match c.prevBlock index with
      | .some i => w * i + (w - 1) - countlZero (c.block i)
      | .none => c.size

/-- `exclusive_find_prev`, below which some position is set. -/
def exclusiveFindPrev (n : Nat) : Nat :=
  let n := n - 1
  if V.unrolls 1 then n - countlZero (shl (c.block 0) (w - 1 - n))
  else if V.unrolls 2 then
    let index := (indexOffset V n).1
    let offset := (indexOffset V n).2
    let block := shl (c.block index) (w - 1 - offset)
    if block ≠ zero then n - countlZero block else w - 1 - countlZero (c.block 0)
  else
    let index := (indexOffset V n).1
    let offset := (indexOffset V n).2
    let reverseOffset := w - 1 - offset
    if reverseOffset ≠ 0 ∧ shl (c.block index) reverseOffset ≠ zero then
      n - countlZero (shl (c.block index) reverseOffset)
    else
      let start := if reverseOffset ≠ 0 then index - 1 else index
      let top := if reverseOffset ≠ 0 then n - (w - reverseOffset) else n
      match c.prevBlock (start + 1) with
      | .some i => top - countlZero (c.block i) - w * (start - i)
      | .none => 0

/-- `find_back`, of a container that is not empty. -/
def findBack : Nat :=
  if V.unrolls 1 then c.lastBit - countlZero (c.block 0)
  else if V.unrolls 2 then
    if c.block 1 ≠ zero then c.lastBit - countlZero (c.block 1) else w - 1 - countlZero (c.block 0)
  else
    match c.prevBlock (c.lastBlock + 1) with
    | .some i => w * i + (w - 1) - countlZero (c.block i)
    | .none => 0

section Down
variable {c} {n p : Nat}

/-- **What one block answers downwards.** `x` shows the positions of block `index` up to `top`,
    position `top - m` at bit `w - 1 - m`. -/
theorem prevSet_of_block {x : BitVec w} {top index b : Nat}
    (hx : ∀ m, m < w → x.getLsbD (w - 1 - m) =
      (decide (index * w + m ≤ top) && c.bit (top - m))) (hne : x ≠ zero) :
    prevSet c.bit (top + 1) b = top - countlZero x := by
  have hlt := countlZero_lt hne
  have hk := hx _ hlt
  rw [getLsbD_countlZero hne] at hk
  simp only [Bool.true_eq, Bool.and_eq_true, decide_eq_true_eq] at hk
  refine prevSet_eq (by omega) hk.2 fun p hp1 hp2 => ?_
  have hz := hx (top - p) (by omega)
  rw [getLsbD_of_countlZero_lt (by omega), show top - (top - p) = p by omega] at hz
  have hin : decide (index * w + (top - p) ≤ top) = true := by
    rw [decide_eq_true_eq]
    omega
  rw [hin, Bool.true_and] at hz
  exact hz.symm

theorem clear_of_lower {x : BitVec w} {top index : Nat} (htop : top < index * w + w)
    (hx : ∀ m, m < w → x.getLsbD (w - 1 - m) =
      (decide (index * w + m ≤ top) && c.bit (top - m))) (hz : x = zero)
    (h1 : index * w ≤ p) (h2 : p ≤ top) : c.bit p = false := by
  have := hx (top - p) (by omega)
  rw [hz, BitVec.getLsbD_zero, show top - (top - p) = p by omega] at this
  have hin : decide (index * w + (top - p) ≤ top) = true := by
    rw [decide_eq_true_eq]
    omega
  rw [hin, Bool.true_and] at this
  exact this.symm

/-- The block of a position shifted up so that the position is its top bit. -/
theorem shl_view {q r : Nat} (ho : r < w) {m : Nat} (hm : m < w) :
    (shl (c.block q) (w - 1 - r)).getLsbD (w - 1 - m) =
      (decide (q * w + m ≤ q * w + r) && c.bit (q * w + r - m)) := by
  rw [getLsbD_shl (by omega)]
  by_cases h : m ≤ r
  · have hbit : c.bit (q * w + r - m) = (c.block q).getLsbD (r - m) := by
      rw [← bit_pos (show r - m < w by omega)]
      congr 1
      omega
    have h1 : decide (w - 1 - r ≤ w - 1 - m) = true := by
      rw [decide_eq_true_eq]
      omega
    have h2 : decide (q * w + m ≤ q * w + r) = true := by
      rw [decide_eq_true_eq]
      omega
    rw [h1, h2, hbit, Bool.true_and, Bool.true_and]
    congr 1
    omega
  · have h1 : decide (w - 1 - r ≤ w - 1 - m) = false := by
      rw [decide_eq_false_iff_not]
      omega
    have h2 : decide (q * w + m ≤ q * w + r) = false := by
      rw [decide_eq_false_iff_not]
      omega
    rw [h1, h2, Bool.false_and, Bool.false_and]

/-- A whole block from its top bit down. -/
theorem block_view_down (i : Nat) {m : Nat} (hm : m < w) : (c.block i).getLsbD (w - 1 - m) =
    (decide (i * w + m ≤ i * w + (w - 1)) && c.bit (i * w + (w - 1) - m)) := by
  have := shl_view (c := c) (q := i) (r := w - 1) (by omega) hm
  rw [Nat.sub_self] at this
  rw [← this]
  unfold shl
  rw [BitVec.shiftLeft_zero]

/-- The block found below positions that are clear. -/
theorem prevSet_of_earlier {n b m i : Nat} (hmn : m * w ≤ n)
    (hclear : ∀ p, m * w ≤ p → p < n → c.bit p = false) (him : i < m)
    (hz : ∀ k, i < k → k < m → c.block k = zero) (hne : c.block i ≠ zero) :
    prevSet c.bit n b = i * w + (w - 1) - countlZero (c.block i) := by
  have hw := V.bits_pos
  have ht := block_trichotomy i m w
  rw [prevSet_skip (m := i * w + w) (by omega) fun p h1 h2 => ?_]
  · have := prevSet_of_block (b := b) (fun m hm => block_view_down (c := c) i hm) hne
    rw [← this]
    congr 1
    omega
  · by_cases hp : m * w ≤ p
    · exact hclear p hp h2
    · exact clear_of_zero_blocks (a := i + 1) (b := m) (fun k h1 h2 => hz k (by omega) h2)
        (by rwa [Nat.succ_mul]) (by omega)

theorem prevSet_of_none {n b m : Nat}
    (hclear : ∀ p, m * w ≤ p → p < n → c.bit p = false)
    (hz : ∀ k, k < m → c.block k = zero) : prevSet c.bit n b = b := by
  refine prevSet_none fun p hp => ?_
  by_cases hpm : m * w ≤ p
  · exact hclear p hpm hp
  · exact clear_of_zero_blocks (a := 0) (b := m) (fun k _ h2 => hz k h2) (by omega) (by omega)

theorem prevBlock_some {n i : Nat} (hi : c.prevBlock n = .some i) :
    i < n ∧ c.block i ≠ zero ∧ ∀ k, i < k → k < n → c.block k = zero := by
  obtain ⟨h1, h2, h3⟩ := findDown_some hi
  refine ⟨h1, by simpa using h2, fun k hk1 hk2 => ?_⟩
  simpa using h3 k hk1 hk2

theorem prevBlock_none {n : Nat} (hi : c.prevBlock n = .none) : ∀ k, k < n → c.block k = zero := by
  intro k hk
  have := findDown_none hi k hk
  simpa using this

/-- **Where some position below is set, the walk down the blocks meets its block.** -/
theorem prevBlock_of_any {n b m : Nat} (hmn : m * w ≤ n)
    (hclear : ∀ p, m * w ≤ p → p < n → c.bit p = false) (hany : ∃ p, p < n ∧ c.bit p = true) :
    ∃ i, c.prevBlock m = .some i ∧ i < m ∧ c.block i ≠ zero ∧
      prevSet c.bit n b = i * w + (w - 1) - countlZero (c.block i) := by
  obtain ⟨p, hp, hbp⟩ := hany
  cases hf : c.prevBlock m with
  | none =>
      have hz : c.bit p = false := by
        by_cases hpm : m * w ≤ p
        · exact hclear p hpm hp
        · exact clear_of_zero_blocks (a := 0) (fun k _ hk => prevBlock_none hf k hk) (by omega)
            (by omega)
      rw [hz] at hbp
      cases hbp
  | some i =>
      obtain ⟨h1, h2, h3⟩ := prevBlock_some hf
      exact ⟨i, rfl, h1, h2, prevSet_of_earlier hmn hclear h1 h3 h2⟩

/-- **`total_find_prev` answers the greatest set position below `n`, or the width.** -/
theorem totalFindPrev_eq (h : c.Inv) (hn : n ≤ c.size) :
    c.totalFindPrev n = prevSet c.bit n c.size := by
  have hsz := h.shape.size_le
  unfold totalFindPrev
  split
  · rename_i hz
    have h0 : c.size = 0 := by
      unfold size
      rw [if_pos hz.1, hz.2]
    rw [prevSet_none fun j hj => by omega]
  · split
    · rename_i h0
      rw [h0, prevSet_none fun j hj => by omega]
    · rename_i h0
      obtain ⟨q, r, hqr, hdlt, hr, hdiv⟩ := exists_indexOffset h.shape (n := n - 1) (by omega)
      rw [hqr]
      dsimp only
      have hview (m : Nat) (hm : m < w) := shl_view (c := c) (q := q) hr hm
      rw [← hdiv] at hview
      have hn1 : n - 1 + 1 = n := by omega
      split
      · rename_i hb
        have := prevSet_of_block (b := c.size) hview hb
        rw [hn1] at this
        exact this.symm
      · rename_i hb
        rw [not_not] at hb
        have hclear (p : Nat) (h1 : q * w ≤ p) (h2 : p < n) : c.bit p = false :=
          clear_of_lower (by omega) hview hb h1 (by omega)
        split
        · rename_i hu
          have hl := h.shape.unrolls hu
          split
          · rename_i h1
            have := prevSet_of_earlier (b := c.size) (i := 0) (by omega) hclear (by omega)
              (fun k _ _ => by omega) h1.2
            rw [this, Nat.zero_mul, Nat.zero_add]
          · rename_i h1
            refine (prevSet_of_none hclear fun k hk => ?_).symm
            obtain rfl : k = 0 := by omega
            by_contra hc
            exact h1 ⟨by omega, hc⟩
        · cases hf : c.prevBlock q with
          | none => exact (prevSet_of_none hclear (prevBlock_none hf)).symm
          | some i =>
              obtain ⟨h1, h2, h3⟩ := prevBlock_some hf
              rw [prevSet_of_earlier (by omega) hclear h1 h3 h2, Nat.mul_comm]

/-- **`exclusive_find_prev` answers the greatest set position below `n`, where there is one.** -/
theorem exclusiveFindPrev_eq (h : c.Inv) (hn : n ≤ c.size) (hany : ∃ p, p < n ∧ c.bit p = true) :
    c.exclusiveFindPrev n = prevSet c.bit n c.size := by
  have hsz := h.shape.size_le
  have hw := V.bits_pos
  have hn0 : 0 < n := by
    obtain ⟨p, hp, -⟩ := hany
    omega
  unfold exclusiveFindPrev
  dsimp only
  obtain ⟨q, r, hqr, hdlt, hr, hdiv⟩ := exists_indexOffset h.shape (n := n - 1) (by omega)
  rw [hqr]
  dsimp only
  have hview (m : Nat) (hm : m < w) := shl_view (c := c) (q := q) hr hm
  rw [← hdiv] at hview
  have hn1 : n - 1 + 1 = n := by omega
  have hhere (hb : shl (c.block q) (w - 1 - r) ≠ zero) :
      prevSet c.bit n c.size = n - 1 - countlZero (shl (c.block q) (w - 1 - r)) := by
    have := prevSet_of_block (b := c.size) hview hb
    rwa [hn1] at this
  have hclear (hb : shl (c.block q) (w - 1 - r) = zero) (p : Nat) (h1 : q * w ≤ p) (h2 : p < n) :
      c.bit p = false :=
    clear_of_lower (by omega) hview hb h1 (by omega)
  split
  · rename_i hu
    have hl := h.shape.unrolls hu
    obtain rfl : q = 0 := by omega
    obtain rfl : n - 1 = r := by omega
    refine (hhere fun hb => ?_).symm
    obtain ⟨i, -, hi, -⟩ := prevBlock_of_any (b := c.size) (m := 0) (by omega) (hclear hb) hany
    omega
  · split
    · rename_i hu
      have hl := h.shape.unrolls hu
      split
      · rename_i hb
        exact (hhere hb).symm
      · rename_i hb
        rw [not_not] at hb
        obtain ⟨i, -, hi, -, hprev⟩ :=
          prevBlock_of_any (b := c.size) (m := q) (by omega) (hclear hb) hany
        obtain rfl : i = 0 := by omega
        rw [hprev, Nat.zero_mul, Nat.zero_add]
    · split
      · rename_i hc
        exact (hhere hc.2).symm
      · rename_i hc
        by_cases hro : w - 1 - r = 0
        · -- the position is the top bit of its block, and the walk starts there
          have hn' : (q + 1) * w = n := by
            rw [Nat.succ_mul]
            omega
          obtain ⟨i, hf, hi, -, hprev⟩ := prevBlock_of_any (b := c.size) (m := q + 1) (by omega)
            (fun p h1 h2 => by omega) hany
          have ht := block_trichotomy i q w
          simp only [hro, ne_eq, not_true_eq_false, if_false, hf]
          rw [hprev, Nat.mul_comm w, Nat.sub_mul, hdiv]
          omega
        · have hb : shl (c.block q) (w - 1 - r) = zero := by
            by_contra hb
            exact hc ⟨hro, hb⟩
          obtain ⟨i, hf, hi, hne, hprev⟩ :=
            prevBlock_of_any (b := c.size) (m := q) (by omega) (hclear hb) hany
          have hq0 : 0 < q := by omega
          have ht := block_trichotomy i (q - 1) w
          have hlt := countlZero_lt hne
          have hqs : q * w = (q - 1) * w + w := by
            rw [← Nat.succ_mul]
            congr 1
            omega
          simp only [hro, ne_eq, not_false_eq_true, if_true, Nat.sub_add_cancel hq0, hf]
          rw [hprev, Nat.mul_comm w, Nat.sub_mul, hdiv]
          omega

/-- **`find_back` answers the greatest set position of a container that has one.** -/
theorem findBack_eq (h : c.Inv) (hany : ∃ p, p < c.size ∧ c.bit p = true) :
    c.findBack = prevSet c.bit c.size c.size := by
  have hw := V.bits_pos
  have hsz := h.shape.size_le
  have hlen : 0 < c.mBlocks.elems.length := by
    obtain ⟨p, hp, -⟩ := hany
    rcases Nat.eq_zero_or_pos c.mBlocks.elems.length with h0 | h0
    · rw [h0] at hsz
      omega
    · exact h0
  -- nothing is set past the width, so the search may start at the end of the last block
  have hend : prevSet c.bit c.size c.size = prevSet c.bit (c.mBlocks.elems.length * w) c.size :=
    (prevSet_skip hsz fun j hj _ => h.clear j hj).symm
  have hany' : ∃ p, p < c.mBlocks.elems.length * w ∧ c.bit p = true := by
    obtain ⟨p, hp, hbp⟩ := hany
    exact ⟨p, by omega, hbp⟩
  unfold findBack lastBit lastBlock
  rw [h.shape.numBlocks, Nat.sub_add_cancel hlen, hend]
  split
  · rename_i hu
    have hl := h.shape.unrolls hu
    obtain ⟨i, -, hi, -, hprev⟩ := prevBlock_of_any (b := c.size) (Nat.le_refl _)
      (fun p h1 h2 => by omega) hany'
    obtain rfl : i = 0 := by omega
    rw [hprev, hl]
    omega
  · split
    · rename_i hu
      have hl := h.shape.unrolls hu
      split
      · rename_i hb
        rw [prevSet_of_earlier (Nat.le_refl _) (fun p h1 h2 => by omega) (i := 1) (by omega)
          (fun k h1 h2 => by omega) hb, hl]
        omega
      · rename_i hb
        rw [not_not] at hb
        have hclear (p : Nat) (h1 : 1 * w ≤ p) (h2 : p < c.mBlocks.elems.length * w) :
            c.bit p = false := by
          rw [hl] at h2
          exact clear_of_zero_block hb h1 (by omega)
        obtain ⟨i, -, hi, -, hprev⟩ := prevBlock_of_any (b := c.size)
          (Nat.mul_le_mul_right w (by omega)) hclear hany'
        obtain rfl : i = 0 := by omega
        rw [hprev]
        omega
    · obtain ⟨i, hf, -, -, hprev⟩ := prevBlock_of_any (b := c.size) (Nat.le_refl _)
        (fun p h1 h2 => by omega) hany'
      rw [hf, hprev, Nat.mul_comm]

end Down

/-! ## 3. The two ends dropped -/

/-- `drop_front`: the lowest set position cleared on the first block that holds one. -/
def dropFront : BitBlockContainer V :=
  let dropped :=
    if V.unrolls 1 then c.setBlock 0 (dropLowest (c.block 0))
    else if V.unrolls 2 then
      if c.block 0 ≠ zero then c.setBlock 0 (dropLowest (c.block 0))
      else c.setBlock 1 (dropLowest (c.block 1))
    else
      match c.nextBlock 0 with
      | .some i => c.setBlock i (dropLowest (c.block i))
      | .none => c
  dropped.countDown 1

/-- `drop_back`: the highest set position cleared, mirrored from the last block down. -/
def dropBack : BitBlockContainer V :=
  let dropped :=
    if V.unrolls 1 then c.setBlock 0 (dropHighest (c.block 0))
    else if V.unrolls 2 then
      if c.block 1 ≠ zero then c.setBlock 1 (dropHighest (c.block 1))
      else c.setBlock 0 (dropHighest (c.block 0))
    else
      match c.prevBlock (c.lastBlock + 1) with
      | .some i => c.setBlock i (dropHighest (c.block i))
      | .none => c
  dropped.countDown 1

section Drop
variable {c} {p : Nat}

/-- What dropping one position leaves, before the count. -/
structure Dropped (c d : BitBlockContainer V) (k : Nat) : Prop where
  width : SameWidth c d
  count : d.mCount = c.mCount
  bit : ∀ p, d.bit p = if p = k then false else c.bit p

theorem dropped_setBlock {i k : Nat} {b : BitVec w} (hi : i < c.mBlocks.elems.length) (hk : k < w)
    (hb : ∀ j, j < w → b.getLsbD j = ((c.block i).getLsbD j && decide (j ≠ k))) :
    Dropped c (c.setBlock i b) (i * w + k) := by
  refine ⟨sameWidth_setBlock, rfl, fun p => ?_⟩
  rw [bit_setBlock hi]
  obtain ⟨i', j, hj, rfl⟩ := exists_pos V.bits_pos p
  simp only [pos_div hj, pos_mod hj, pos_inj hj hk, bit_pos hj]
  by_cases hi' : i' = i
  · subst hi'
    rw [if_pos rfl, hb j hj]
    by_cases hjk : j = k
    · simp [hjk]
    · simp [hjk]
  · simp [hi']

theorem dropped_lowest {i : Nat} (hi : i < c.mBlocks.elems.length) (hne : c.block i ≠ zero) :
    Dropped c (c.setBlock i (dropLowest (c.block i))) (i * w + countrZero (c.block i)) :=
  dropped_setBlock hi (countrZero_lt hne) fun _ hj => getLsbD_dropLowest hne hj

theorem dropped_highest {i : Nat} (hi : i < c.mBlocks.elems.length) (hne : c.block i ≠ zero) :
    Dropped c (c.setBlock i (dropHighest (c.block i))) (i * w + (w - 1 - countlZero (c.block i))) :=
  dropped_setBlock hi (by have := V.bits_pos; omega) fun _ hj => getLsbD_dropHighest hne hj

theorem dropFront_spec (h : c.Inv) (hany : ∃ p, p < c.size ∧ c.bit p = true) :
    ∃ d, c.dropFront = d.countDown 1 ∧ Dropped c d c.findFront := by
  have hnot (hz : ∀ k, k < c.mBlocks.elems.length → c.block k = zero) : False := by
    obtain ⟨p, -, hp⟩ := hany
    rw [blocks_zero_iff.mp hz p] at hp
    cases hp
  unfold dropFront findFront
  refine ⟨_, rfl, ?_⟩
  split
  · rename_i hu
    have hl := h.shape.unrolls hu
    have := dropped_lowest (c := c) (i := 0) (by omega) fun hb => hnot fun k hk => by
      obtain rfl : k = 0 := by omega
      exact hb
    rwa [Nat.zero_mul, Nat.zero_add] at this
  · split
    · rename_i hu
      have hl := h.shape.unrolls hu
      split
      · rename_i hb
        have := dropped_lowest (c := c) (i := 0) (by omega) hb
        rwa [Nat.zero_mul, Nat.zero_add] at this
      · rename_i hb
        rw [not_not] at hb
        have := dropped_lowest (c := c) (i := 1) (by omega) fun hb1 => hnot fun k hk => by
          rcases (by omega : k = 0 ∨ k = 1) with rfl | rfl
          · exact hb
          · exact hb1
        rwa [Nat.one_mul, Nat.add_comm] at this
    · cases hf : c.nextBlock 0 with
      | none => exact absurd (fun k hk => nextBlock_none h.shape hf k (by omega) hk) hnot
      | some i =>
          obtain ⟨h1, h2, h3, h4⟩ := nextBlock_some h.shape hf
          dsimp only
          rw [Nat.mul_comm]
          exact dropped_lowest h2 h3

theorem dropBack_spec (h : c.Inv) (hany : ∃ p, p < c.size ∧ c.bit p = true) :
    ∃ d, c.dropBack = d.countDown 1 ∧ Dropped c d c.findBack := by
  have hw := V.bits_pos
  have hnot (hz : ∀ k, k < c.mBlocks.elems.length → c.block k = zero) : False := by
    obtain ⟨p, -, hp⟩ := hany
    rw [blocks_zero_iff.mp hz p] at hp
    cases hp
  have hlen : 0 < c.mBlocks.elems.length := by
    rcases Nat.eq_zero_or_pos c.mBlocks.elems.length with h0 | h0
    · exact absurd (fun k hk => by omega) hnot
    · exact h0
  have hpos {i : Nat} (hne : c.block i ≠ zero) :
      i * w + (w - 1 - countlZero (c.block i)) = i * w + (w - 1) - countlZero (c.block i) := by
    have := countlZero_lt hne
    omega
  unfold dropBack findBack lastBit lastBlock
  rw [h.shape.numBlocks, Nat.sub_add_cancel hlen]
  refine ⟨_, rfl, ?_⟩
  split
  · rename_i hu
    have hl := h.shape.unrolls hu
    have hne : c.block 0 ≠ zero := fun hb => hnot fun k hk => by
      obtain rfl : k = 0 := by omega
      exact hb
    have := dropped_highest (c := c) (i := 0) (by omega) hne
    rwa [Nat.zero_mul, Nat.zero_add, ← show c.mBlocks.elems.length * w - 1 = w - 1 by
      rw [hl]; omega] at this
  · split
    · rename_i hu
      have hl := h.shape.unrolls hu
      split
      · rename_i hb
        have := dropped_highest (c := c) (i := 1) (by omega) hb
        rw [hpos hb] at this
        rwa [show c.mBlocks.elems.length * w - 1 = 1 * w + (w - 1) by rw [hl]; omega]
      · rename_i hb
        rw [not_not] at hb
        have := dropped_highest (c := c) (i := 0) (by omega) fun hb0 => hnot fun k hk => by
          rcases (by omega : k = 0 ∨ k = 1) with rfl | rfl
          · exact hb0
          · exact hb
        rwa [Nat.zero_mul, Nat.zero_add] at this
    · cases hf : c.prevBlock c.mBlocks.elems.length with
      | none => exact absurd (prevBlock_none hf) hnot
      | some i =>
          obtain ⟨h1, h2, h3⟩ := prevBlock_some hf
          dsimp only
          rw [Nat.mul_comm, ← hpos h2]
          exact dropped_highest h1 h2

theorem Dropped.inv (h : c.Inv) {d : BitBlockContainer V} {k : Nat} (hd : Dropped c d k)
    (hk : k < c.size) (hset : c.bit k = true) : (d.countDown 1).Inv := by
  refine h.update (v := false) hk (hd.width.trans sameWidth_countDown) (fun p => ?_) fun hs => ?_
  · rw [bit_congr (mBlocks_countDown d)]
    exact hd.bit p
  · rw [mCount_countDown hs, hd.count, hset]
    rfl

theorem findFront_spec (h : c.Inv) (hany : ∃ p, p < c.size ∧ c.bit p = true) :
    c.findFront < c.size ∧ c.bit c.findFront = true ∧
      ∀ p, p < c.findFront → c.bit p = false := by
  rw [findFront_eq h hany]
  obtain ⟨p, hp, hbp⟩ := hany
  rcases nextSet_spec c.bit 0 c.size with ⟨-, h2, h3, h4⟩ | ⟨-, h2⟩
  · exact ⟨h2, h3, fun p hp => h4 p (by omega) hp⟩
  · rw [h2 p (by omega) hp] at hbp
    cases hbp

theorem findBack_spec (h : c.Inv) (hany : ∃ p, p < c.size ∧ c.bit p = true) :
    c.findBack < c.size ∧ c.bit c.findBack = true ∧
      ∀ p, c.findBack < p → c.bit p = false := by
  rw [findBack_eq h hany]
  obtain ⟨p, hp, hbp⟩ := hany
  rcases prevSet_spec c.bit c.size c.size with ⟨h2, h3, h4⟩ | ⟨-, h2⟩
  · refine ⟨h2, h3, fun p hp => ?_⟩
    by_cases hps : p < c.size
    · exact h4 p hp hps
    · exact h.clear p (by omega)
  · rw [h2 p hp] at hbp
    cases hbp

theorem Inv.dropFront (h : c.Inv) (hany : ∃ p, p < c.size ∧ c.bit p = true) :
    c.dropFront.Inv := by
  obtain ⟨d, he, hd⟩ := dropFront_spec h hany
  obtain ⟨h1, h2, -⟩ := findFront_spec h hany
  rw [he]
  exact hd.inv h h1 h2

theorem Inv.dropBack (h : c.Inv) (hany : ∃ p, p < c.size ∧ c.bit p = true) : c.dropBack.Inv := by
  obtain ⟨d, he, hd⟩ := dropBack_spec h hany
  obtain ⟨h1, h2, -⟩ := findBack_spec h hany
  rw [he]
  exact hd.inv h h1 h2

/-- **`drop_front` clears the least set position and no other.** -/
theorem bit_dropFront (h : c.Inv) (hany : ∃ p, p < c.size ∧ c.bit p = true) :
    c.dropFront.bit p = if p = c.findFront then false else c.bit p := by
  obtain ⟨d, he, hd⟩ := dropFront_spec h hany
  rw [he, bit_congr (mBlocks_countDown d)]
  exact hd.bit p

/-- **`drop_back` clears the greatest set position and no other.** -/
theorem bit_dropBack (h : c.Inv) (hany : ∃ p, p < c.size ∧ c.bit p = true) :
    c.dropBack.bit p = if p = c.findBack then false else c.bit p := by
  obtain ⟨d, he, hd⟩ := dropBack_spec h hany
  rw [he, bit_congr (mBlocks_countDown d)]
  exact hd.bit p

end Drop

end BitBlockContainer

end XstdBits
