/-
  File: XstdBits/Container/Block.lean
  Subject: one block of bits, and the helpers over it.

  A block of an unsigned integer type of `w` digits is a `BitVec w`. The helpers keep the names of
  `shift.hpp`, `intrinsic.hpp`, `block_intersects.hpp`, `walk_block.hpp` and of the container's
  `reversed`; each comes with the one lemma that says which bits its result holds.
-/
import XstdBits.Lib.Loop

namespace XstdBits

variable {w : Nat}

/-! ## 1. Shifts and masks -/

abbrev zero : BitVec w := 0#w
abbrev ones : BitVec w := BitVec.allOnes w
abbrev unit : BitVec w := 1#w

def shl (block : BitVec w) (n : Nat) : BitVec w := block <<< n
def shr (block : BitVec w) (n : Nat) : BitVec w := block >>> n

/-- The lowest `count` bits, all of them at the block's width. -/
def partialBlockMask (count : Nat) : BitVec w :=
  if count = w then ~~~zero else shl unit count - unit

/-- Whether two blocks share a bit. -/
def blockIntersects (lhs rhs : BitVec w) : Bool := decide (lhs &&& rhs ≠ zero)

@[simp] theorem getLsbD_zero' {j : Nat} : (zero : BitVec w).getLsbD j = false :=
  BitVec.getLsbD_zero

@[simp] theorem getLsbD_ones {j : Nat} : (ones : BitVec w).getLsbD j = decide (j < w) := by
  unfold ones
  exact BitVec.getLsbD_allOnes

theorem getLsbD_shl {b : BitVec w} {n j : Nat} (hj : j < w) :
    (shl b n).getLsbD j = (decide (n ≤ j) && b.getLsbD (j - n)) := by
  unfold shl
  rw [BitVec.getLsbD_shiftLeft]
  by_cases h : n ≤ j
  · simp [hj, h, Nat.not_lt.mpr h]
  · simp [h, Nat.lt_of_not_le h]

theorem getLsbD_shr {b : BitVec w} {n j : Nat} : (shr b n).getLsbD j = b.getLsbD (n + j) := by
  unfold shr
  exact BitVec.getLsbD_ushiftRight ..

theorem getLsbD_unit_shl {n j : Nat} (hj : j < w) :
    (shl (unit : BitVec w) n).getLsbD j = decide (j = n) := by
  rw [getLsbD_shl hj]
  unfold unit
  rw [BitVec.getLsbD_one]
  by_cases h : j = n
  · subst h
    simp
    omega
  · by_cases hn : n ≤ j
    · simp [h]
      omega
    · simp [h, hn]

theorem getLsbD_two_pow_sub_one {k j : Nat} (hj : j < w) :
    (BitVec.ofNat w (2 ^ k - 1)).getLsbD j = decide (j < k) := by
  rw [BitVec.getLsbD_ofNat, Nat.testBit_two_pow_sub_one]
  simp [hj]

/-- One less than a power of two, as a block. -/
theorem unit_shl_sub_unit {k : Nat} : shl (unit : BitVec w) k - unit = BitVec.ofNat w (2 ^ k - 1) := by
  have hp : 1 ≤ 2 ^ k := Nat.one_le_two_pow
  have h : shl (unit : BitVec w) k = BitVec.ofNat w (2 ^ k - 1) + unit := by
    unfold shl unit
    rw [← BitVec.ofNat_add, Nat.sub_add_cancel hp]
    refine BitVec.eq_of_toNat_eq ?_
    rw [BitVec.toNat_shiftLeft, BitVec.toNat_ofNat, BitVec.toNat_ofNat, Nat.shiftLeft_eq,
      Nat.mod_mul_mod, Nat.one_mul]
  rw [h, BitVec.add_sub_cancel]

/-- **The partial mask holds exactly the positions below its count.** -/
theorem getLsbD_partialBlockMask {count j : Nat} (hc : count ≤ w) :
    (partialBlockMask count : BitVec w).getLsbD j = decide (j < count) := by
  unfold partialBlockMask
  by_cases hj : j < w
  · split
    · rename_i h
      unfold zero
      simp [hj, h]
    · rw [unit_shl_sub_unit, getLsbD_two_pow_sub_one hj]
  · rw [BitVec.getLsbD_of_ge _ _ (by omega)]
    simp
    omega

theorem eq_zero_iff {b : BitVec w} : b = zero ↔ ∀ j, j < w → b.getLsbD j = false := by
  constructor
  · rintro rfl j _
    exact getLsbD_zero'
  · intro h
    refine BitVec.eq_of_getLsbD_eq fun j hj => ?_
    rw [h j hj, getLsbD_zero']

theorem ne_zero_iff {b : BitVec w} : b ≠ zero ↔ ∃ j, j < w ∧ b.getLsbD j = true := by
  rw [Ne, eq_zero_iff]
  constructor
  · intro h
    by_contra hc
    exact h fun j hj => by
      cases hb : b.getLsbD j
      · rfl
      · exact absurd ⟨j, hj, hb⟩ hc
  · rintro ⟨j, hj, hb⟩ h
    rw [h j hj] at hb
    cases hb

/-- The mask of one position meets a block exactly where the block holds it. -/
theorem blockIntersects_unit_shl {b : BitVec w} {k : Nat} (hk : k < w) :
    blockIntersects b (shl unit k) = b.getLsbD k := by
  unfold blockIntersects
  by_cases h : b.getLsbD k = true
  · rw [h, decide_eq_true_eq, ne_zero_iff]
    exact ⟨k, hk, by rw [BitVec.getLsbD_and, getLsbD_unit_shl hk, h]; simp⟩
  · rw [Bool.not_eq_true] at h
    rw [h, decide_eq_false_iff_not, not_not, eq_zero_iff]
    intro j hj
    rw [BitVec.getLsbD_and, getLsbD_unit_shl hj]
    by_cases hjk : j = k
    · rw [hjk, h, Bool.false_and]
    · simp [hjk]

theorem blockIntersects_shr_unit {b : BitVec w} {k : Nat} (hw : 0 < w) :
    blockIntersects (shr b k) unit = b.getLsbD k := by
  have h := blockIntersects_unit_shl (b := shr b k) hw
  rw [getLsbD_shr, Nat.add_zero] at h
  rw [← h]
  unfold shl
  rw [BitVec.shiftLeft_zero]

/-! ## 2. Counting -/

/-- The number of set bits. -/
def popcount (block : BitVec w) : Nat := countBits block.getLsbD w

/-- The number of clear bits below the lowest set one, the block's width where none is set. -/
def countrZero (block : BitVec w) : Nat := block.ctz.toNat

/-- The number of clear bits above the highest set one, the block's width where none is set. -/
def countlZero (block : BitVec w) : Nat := block.clz.toNat

theorem countrZero_zero : countrZero (zero : BitVec w) = w := by
  have h : (0#w).ctz = w := by
    rw [BitVec.ctz_eq_reverse_clz]
    exact BitVec.clz_eq_iff_eq_zero.mpr (by simp)
  unfold countrZero zero
  rw [h, BitVec.natCast_eq_ofNat, BitVec.toNat_ofNat, Nat.mod_eq_of_lt Nat.lt_two_pow_self]

theorem countrZero_lt {b : BitVec w} (h : b ≠ zero) : countrZero b < w := by
  have hlt := (BitVec.ctz_lt_iff_ne_zero (x := b)).mpr h
  rw [BitVec.lt_def] at hlt
  unfold countrZero
  rwa [BitVec.natCast_eq_ofNat, BitVec.toNat_ofNat, Nat.mod_eq_of_lt Nat.lt_two_pow_self] at hlt

/-- **`countr_zero` names the lowest set bit.** -/
theorem getLsbD_countrZero {b : BitVec w} (h : b ≠ zero) : b.getLsbD (countrZero b) = true :=
  BitVec.getLsbD_true_ctz_of_ne_zero h

theorem getLsbD_of_lt_countrZero {b : BitVec w} {j : Nat} (h : j < countrZero b) :
    b.getLsbD j = false :=
  BitVec.getLsbD_false_of_lt_ctz h

theorem countlZero_lt {b : BitVec w} (h : b ≠ zero) : countlZero b < w := by
  have hlt := (BitVec.clz_lt_iff_ne_zero (x := b)).mpr h
  rw [BitVec.lt_def] at hlt
  unfold countlZero
  rwa [BitVec.natCast_eq_ofNat, BitVec.toNat_ofNat, Nat.mod_eq_of_lt Nat.lt_two_pow_self] at hlt

/-- **`countl_zero` names the highest set bit, counted from the top.** -/
theorem getLsbD_countlZero {b : BitVec w} (h : b ≠ zero) :
    b.getLsbD (w - 1 - countlZero b) = true :=
  BitVec.getLsbD_true_clz_of_ne_zero (by have := countlZero_lt h; omega) h

theorem getLsbD_of_countlZero_lt {b : BitVec w} {j : Nat} (h : w - 1 - countlZero b < j) :
    b.getLsbD j = false := by
  have hz := BitVec.getLsbD_false_of_clzAuxRec (x := b) (n := w - 1)
    (fun i hi => BitVec.getLsbD_of_ge _ _ (by omega)) (j - (w - countlZero b))
  by_cases hj : j < w
  · rw [← hz]
    congr 1
    show j = w - countlZero b + _
    omega
  · exact BitVec.getLsbD_of_ge _ _ (by omega)

/-! ## 3. The walk's steps -/

/-- The block without its lowest set bit. -/
def dropLowest (block : BitVec w) : BitVec w := block &&& (block - unit)

/-- The block without its highest set bit. -/
def dropHighest (block : BitVec w) : BitVec w :=
  block ^^^ shl unit (w - 1 - countlZero block)

/-- **`drop_lowest` clears the bit `countr_zero` names, and no other.** -/
theorem getLsbD_dropLowest {b : BitVec w} (h : b ≠ zero) {j : Nat} (hj : j < w) :
    (dropLowest b).getLsbD j = (b.getLsbD j && decide (j ≠ countrZero b)) := by
  have hk := countrZero_lt h
  have hbk := getLsbD_countrZero h
  have hlow : ∀ i, i < countrZero b → b.getLsbD i = false := fun i => getLsbD_of_lt_countrZero
  generalize countrZero b = k at hk hbk hlow ⊢
  -- `hi` is the block above bit `k`: the block is `hi` and bit `k`, one less is `hi` and all below
  obtain ⟨hi, hhi⟩ : ∃ hi : BitVec w, hi = b &&& ~~~(shl unit k) := ⟨_, rfl⟩
  have hbit : ∀ i, i < w → hi.getLsbD i = (b.getLsbD i && decide (i ≠ k)) := by
    intro i hiw
    rw [hhi, BitVec.getLsbD_and, BitVec.getLsbD_not, getLsbD_unit_shl hiw]
    simp [hiw]
  have hsum : b = hi + shl unit k := by
    rw [BitVec.add_eq_or_of_and_eq_zero]
    · refine BitVec.eq_of_getLsbD_eq fun i hiw => ?_
      rw [BitVec.getLsbD_or, hbit i hiw, getLsbD_unit_shl hiw]
      by_cases hik : i = k
      · subst hik
        simp [hbk]
      · simp [hik]
    · refine BitVec.eq_of_getLsbD_eq fun i hiw => ?_
      rw [BitVec.getLsbD_and, hbit i hiw, getLsbD_unit_shl hiw, BitVec.getLsbD_zero]
      by_cases hik : i = k <;> simp [hik]
  have hpred : b - unit = hi ||| BitVec.ofNat w (2 ^ k - 1) := by
    have hadd : b - unit = hi + BitVec.ofNat w (2 ^ k - 1) := by
      conv_lhs => rw [hsum]
      rw [BitVec.sub_eq_add_neg, BitVec.add_assoc, ← BitVec.sub_eq_add_neg, unit_shl_sub_unit]
    rw [hadd, BitVec.add_eq_or_of_and_eq_zero]
    refine BitVec.eq_of_getLsbD_eq fun i hiw => ?_
    rw [BitVec.getLsbD_and, hbit i hiw, getLsbD_two_pow_sub_one hiw, BitVec.getLsbD_zero]
    by_cases hik : i < k
    · simp [hlow i hik]
    · simp [hik]
  unfold dropLowest
  rw [hpred, BitVec.getLsbD_and, BitVec.getLsbD_or, hbit j hj, getLsbD_two_pow_sub_one hj]
  by_cases hjk : j < k
  · simp [hlow j hjk]
  · simp [hjk]

/-- **`drop_highest` clears the bit `countl_zero` names, and no other.** -/
theorem getLsbD_dropHighest {b : BitVec w} (h : b ≠ zero) {j : Nat} (hj : j < w) :
    (dropHighest b).getLsbD j = (b.getLsbD j && decide (j ≠ w - 1 - countlZero b)) := by
  unfold dropHighest
  rw [BitVec.getLsbD_xor, getLsbD_unit_shl hj]
  by_cases hjk : j = w - 1 - countlZero b
  · rw [hjk, getLsbD_countlZero h]
    simp
  · simp [hjk]

/-! ## 4. A block's bits end for end -/

/-- Whether a width has one set bit, so that its halves can be swapped down to single bits. -/
def hasSingleBit (n : Nat) : Bool := n ≠ 0 && n &&& (n - 1) == 0

theorem hasSingleBit_pow {n : Nat} : hasSingleBit n = true ↔ ∃ k, n = 2 ^ k := by
  unfold hasSingleBit
  rw [Bool.and_eq_true, decide_eq_true_eq, beq_iff_eq]
  exact Nat.ne_zero_and_sub_one_eq_zero_iff_isPowerOfTwo

/-- The swaps of ever narrower halves: `width` is halved until it is zero. -/
def reversedHalves : (fuel width : Nat) → (block mask : BitVec w) → BitVec w
  | 0, _, block, _ => block
  | fuel + 1, width, block, mask =>
      if 0 < width then
        reversedHalves fuel (width / 2)
          ((shr block width &&& mask) ||| shl (block &&& mask) width)
          (mask ^^^ shl mask (width / 2))
      else block

/-- The block's bits end for end: halves swapped where the width has them, else one by one. -/
def reversed (block : BitVec w) : BitVec w :=
  if hasSingleBit w then
    reversedHalves w (w / 2) block (shr ones (w / 2))
  else
    forUp 0 w (fun i reversedBlock =>
      if blockIntersects block (shl unit i) then reversedBlock ||| shl unit (w - 1 - i)
      else reversedBlock) zero

/-- What the swaps have done before the one of `width`: tiles of `2 * width` bits stand in the
    reversed order, each still the right way round, and the mask holds each tile's lower half. -/
structure HalvesSwapped (b : BitVec w) (tiles tile : Nat) (block : BitVec w) : Prop where
  width : w = tiles * tile
  bit : ∀ h r, h < tiles → r < tile →
    block.getLsbD (h * tile + r) = b.getLsbD ((tiles - 1 - h) * tile + r)

/-- The mask before the swap of `width`. -/
def HalfMask (width : Nat) (mask : BitVec w) : Prop :=
  ∀ h r, h * width + r < w → r < width → mask.getLsbD (h * width + r) = decide (h % 2 = 0)

theorem tile_bound {tiles tile h r : Nat} (hh : h < tiles) (hr : r < tile) :
    h * tile + r < tiles * tile :=
  (pos_lt_iff hr).mpr hh

theorem HalfMask.half {width : Nat} {mask : BitVec w} (hm : HalfMask (2 * width) mask) :
    HalfMask width (mask ^^^ shl mask width) := by
  intro h r hw hr
  obtain ⟨q, hq⟩ : ∃ q, h = 2 * q ∨ h = 2 * q + 1 := ⟨h / 2, by omega⟩
  rw [BitVec.getLsbD_xor, getLsbD_shl hw]
  have e : q * (2 * width) = 2 * (q * width) := Nat.mul_left_comm ..
  rcases hq with rfl | rfl
  · have e2 : 2 * q * width = 2 * (q * width) := Nat.mul_assoc ..
    have h1 : mask.getLsbD (2 * q * width + r) = decide (q % 2 = 0) := by
      have := hm q r (by omega) (by omega)
      rwa [e, ← e2] at this
    rw [h1]
    rcases Nat.eq_zero_or_pos q with rfl | hq0
    · simp
      omega
    · have hq1 := Nat.mul_le_mul_right width hq0
      have e3 : (q - 1) * (2 * width) + (width + r) = 2 * q * width + r - width := by
        rw [Nat.sub_mul, e, e2]
        omega
      have h2 := hm (q - 1) (width + r) (by rw [e3]; omega) (by omega)
      rw [e3] at h2
      rw [h2]
      have hle : width ≤ 2 * q * width + r := by omega
      simp only [hle, decide_true, Bool.true_and, Nat.mul_mod_right]
      rcases Nat.mod_two_eq_zero_or_one q with hp | hp
      · rw [hp, show (q - 1) % 2 = 1 by omega]
        rfl
      · rw [hp, show (q - 1) % 2 = 0 by omega]
        rfl
  · have e2 : (2 * q + 1) * width = 2 * (q * width) + width := by
      rw [Nat.succ_mul, Nat.mul_assoc]
    have h1 := hm q (width + r) (by omega) (by omega)
    have h2 := hm q r (by omega) (by omega)
    rw [e] at h1 h2
    rw [e2, Nat.add_assoc, h1, show 2 * (q * width) + (width + r) - width = 2 * (q * width) + r by
      omega, h2]
    rw [show (2 * q + 1) % 2 = 1 by omega]
    have hle : width ≤ 2 * (q * width) + (width + r) := by omega
    simp [hle]

/-- **One swap**: the halves of every tile change places. -/
theorem HalvesSwapped.swap {b block mask : BitVec w} {tiles width : Nat}
    (hs : HalvesSwapped b tiles (2 * width) block) (hm : HalfMask width mask) :
    HalvesSwapped b (2 * tiles) width ((shr block width &&& mask) ||| shl (block &&& mask) width) := by
  have hw : w = 2 * tiles * width := by
    rw [hs.width]
    ring
  refine ⟨hw, fun h r hh hr => ?_⟩
  have hlt : h * width + r < w := by
    rw [hw]
    exact tile_bound hh hr
  obtain ⟨q, hq⟩ : ∃ q, h = 2 * q ∨ h = 2 * q + 1 := ⟨h / 2, by omega⟩
  have hqt : q < tiles := by omega
  have e : q * (2 * width) = 2 * (q * width) := Nat.mul_left_comm ..
  have eg : (tiles - 1 - q) * (2 * width) = 2 * ((tiles - 1 - q) * width) := Nat.mul_left_comm ..
  rw [BitVec.getLsbD_or, BitVec.getLsbD_and, getLsbD_shr, hm h r hlt hr, getLsbD_shl hlt]
  rcases hq with rfl | rfl
  · have e2 : 2 * q * width = 2 * (q * width) := Nat.mul_assoc ..
    have h1 := hs.bit q (width + r) hqt (by omega)
    rw [e, eg] at h1
    have hgoal : (2 * tiles - 1 - 2 * q) * width + r =
        2 * ((tiles - 1 - q) * width) + (width + r) := by
      rw [show 2 * tiles - 1 - 2 * q = 2 * (tiles - 1 - q) + 1 by omega, Nat.succ_mul, Nat.mul_assoc]
      omega
    rw [hgoal, ← h1, e2, show width + (2 * (q * width) + r) = 2 * (q * width) + (width + r) by omega]
    -- the upper half of the tile below is not in the mask
    have hlow : (decide (width ≤ 2 * (q * width) + r) &&
        (block &&& mask).getLsbD (2 * (q * width) + r - width)) = false := by
      rcases Nat.eq_zero_or_pos q with rfl | hq0
      · simp
        omega
      · have := Nat.mul_le_mul_right width hq0
        have e3 : (2 * (q - 1) + 1) * width + r = 2 * (q * width) + r - width := by
          rw [Nat.succ_mul, Nat.mul_assoc, Nat.sub_mul]
          omega
        have h2 := hm (2 * (q - 1) + 1) r (by rw [e3]; omega) hr
        rw [e3, show (2 * (q - 1) + 1) % 2 = 1 by omega] at h2
        rw [BitVec.getLsbD_and, h2]
        simp
    rw [hlow]
    simp
  · have e2 : (2 * q + 1) * width = 2 * (q * width) + width := by rw [Nat.succ_mul, Nat.mul_assoc]
    have h1 := hs.bit q r hqt (by omega)
    rw [e, eg] at h1
    have hgoal : (2 * tiles - 1 - (2 * q + 1)) * width + r =
        2 * ((tiles - 1 - q) * width) + r := by
      rw [show 2 * tiles - 1 - (2 * q + 1) = 2 * (tiles - 1 - q) by omega, Nat.mul_assoc]
    have h2 := hm (2 * q) r (by rw [Nat.mul_assoc]; omega) hr
    rw [Nat.mul_assoc] at h2
    rw [hgoal, ← h1, e2, show 2 * (q * width) + width + r - width = 2 * (q * width) + r by omega,
      BitVec.getLsbD_and, h2]
    have hle : width ≤ 2 * (q * width) + width + r := by omega
    simp [hle]

theorem reversedHalves_spec {b : BitVec w} : ∀ (fuel k tiles : Nat) (block mask : BitVec w),
    k < fuel → HalvesSwapped b tiles (2 ^ k) block → (0 < k → HalfMask (2 ^ (k - 1)) mask) →
    HalvesSwapped b w 1 (reversedHalves fuel (2 ^ k / 2) block mask)
  | 0, _, _, _, _, hf, _, _ => by omega
  | fuel + 1, 0, tiles, block, mask, _, hs, _ => by
      have hw : w = tiles := by
        have := hs.width
        omega
      unfold reversedHalves
      rw [if_neg (by decide)]
      rw [pow_zero, ← hw] at hs
      exact hs
  | fuel + 1, k + 1, tiles, block, mask, hf, hs, hm => by
      have he : 2 ^ (k + 1) / 2 = 2 ^ k := by rw [pow_succ, Nat.mul_div_cancel _ (by decide)]
      have hpos : 0 < 2 ^ k := Nat.two_pow_pos k
      unfold reversedHalves
      rw [he, if_pos hpos]
      have hm' := hm (by omega)
      rw [show k + 1 - 1 = k by omega] at hm'
      rw [pow_succ, Nat.mul_comm] at hs
      refine reversedHalves_spec fuel k (2 * tiles) _ _ (by omega) (hs.swap hm') fun hk => ?_
      have hk2 : 2 ^ k = 2 * 2 ^ (k - 1) := by
        rw [← pow_succ', show k - 1 + 1 = k by omega]
      rw [hk2] at hm'
      rw [show 2 ^ k / 2 = 2 ^ (k - 1) by omega]
      exact hm'.half

/-- **`reversed` holds at `j` what the block holds at `w - 1 - j`.** -/
theorem getLsbD_reversed {b : BitVec w} {j : Nat} (hj : j < w) :
    (reversed b).getLsbD j = b.getLsbD (w - 1 - j) := by
  unfold reversed
  split
  · rename_i hp
    obtain ⟨k, rfl⟩ := hasSingleBit_pow.mp hp
    have h := reversedHalves_spec (b := b) (2 ^ k) k 1 b (shr ones (2 ^ k / 2))
      Nat.lt_two_pow_self ⟨(Nat.one_mul _).symm, fun h r hh _ => by
        rw [show h = 0 by omega]⟩ fun hk h r hw hr => ?_
    · have := h.bit j 0 hj (by decide)
      simpa using this
    · have hk2 : 2 ^ k = 2 * 2 ^ (k - 1) := by
        rw [← pow_succ', show k - 1 + 1 = k by omega]
      rw [getLsbD_shr, getLsbD_ones]
      have hh : h < 2 := by
        have h3 : h * 2 ^ (k - 1) < 2 * 2 ^ (k - 1) := by omega
        exact Nat.lt_of_mul_lt_mul_right h3
      rw [show 2 ^ k / 2 = 2 ^ (k - 1) by omega]
      rcases (by omega : h = 0 ∨ h = 1) with rfl | rfl
      · simp
        omega
      · simp
        omega
  · have h := forUp_inv (f := fun i r => if blockIntersects b (shl unit i) then
        r ||| shl unit (w - 1 - i) else r) (s := (zero : BitVec w))
      (fun k r => ∀ j, j < w → r.getLsbD j = (b.getLsbD (w - 1 - j) && decide (w - 1 - j < k)))
      (Nat.zero_le w) (fun j _ => by simp) ?_
    · rw [h j hj]
      simp
      omega
    · intro k r _ hk ih j hj
      rw [blockIntersects_unit_shl hk]
      by_cases hjk : w - 1 - j = k
      · have hj' : j = w - 1 - k := by omega
        cases hb : b.getLsbD k
        · rw [if_neg (by simp), ih j hj, hjk, hb]
          simp
        · rw [if_pos rfl, BitVec.getLsbD_or, getLsbD_unit_shl hj, hjk, hb]
          simp [hj']
      · have hne : decide (j = w - 1 - k) = false := by
          rw [decide_eq_false_iff_not]
          omega
        have hlt : decide (w - 1 - j < k + 1) = decide (w - 1 - j < k) := by
          rw [decide_eq_decide]
          omega
        split
        · rw [BitVec.getLsbD_or, getLsbD_unit_shl hj, hne, Bool.or_false, ih j hj, hlt]
        · rw [ih j hj, hlt]

end XstdBits
