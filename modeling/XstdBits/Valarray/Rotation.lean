/-
  File: XstdBits/Valarray/Rotation.lean
  Subject: rotation and reversal, of the storage and of a valarray over it.

  * a container is its width, its positions below it and its kept count (`Alike`), so that what
    moves positions alone composes as the moves do: `rotate_rotate`, `reverse_reverse`.
  * `shift` and `cshift` take a count of either sign; `magnitude` is exact at the least `int`.
-/
import XstdBits.Container.Machine

namespace XstdBits

/-! ## 1. The storage -/

namespace BitBlockContainer
variable {w : Nat} {V : Vehicle w} {c d e : BitBlockContainer V}

/-- **Alike**: the width, the blocks and the kept count. -/
structure Alike (c d : BitBlockContainer V) : Prop where
  size : d.size = c.size
  elems : d.mBlocks.elems = c.mBlocks.elems
  count : d.mCount = c.mCount

/-- Two moves of the same positions over the same storage leave the same. -/
theorem Alike.of_bits (hd : SameWidth c d) (he : SameWidth c e) (hdc : d.mCount = c.mCount)
    (hec : e.mCount = c.mCount) (hbit : ∀ p, e.bit p = d.bit p) : Alike d e where
  size := he.size.trans hd.size.symm
  elems := bitAt_ext (he.length.trans hd.length.symm) fun p _ => hbit p
  count := hec.trans hdc.symm

/-- **Two turns are one by their sum.** -/
theorem rotate_rotate (h : c.Inv) (a b : Nat) : Alike ((c.rotate a).rotate b) (c.rotate (a + b)) := by
  obtain ⟨ha, hac, habit⟩ := rotate_spec h a
  obtain ⟨hb, hbc, hbbit⟩ := rotate_spec (h.rotate a) b
  obtain ⟨hs, hsc, hsbit⟩ := rotate_spec h (a + b)
  refine .of_bits (ha.trans hb) hs (hbc.trans hac) hsc fun p => ?_
  rw [hsbit, hbbit, ha.size]
  by_cases hp : p < c.size
  · have hlt := Nat.mod_lt (p + b) (show c.size > 0 by omega)
    rw [if_pos hp, if_pos hp, habit, if_pos hlt, Nat.mod_add_mod, Nat.add_assoc, Nat.add_comm b a]
  · rw [if_neg hp, if_neg hp]

/-- **A reversal undoes itself.** -/
theorem reverse_reverse (h : c.Inv) : Alike c.reverse.reverse c := by
  obtain ⟨h1, h1c, h1bit⟩ := reverse_spec h
  obtain ⟨h2, h2c, h2bit⟩ := reverse_spec h.reverse
  refine .of_bits (h1.trans h2) .refl (h2c.trans h1c) rfl fun p => ?_
  rw [h2bit, h1.size]
  by_cases hp : p < c.size
  · rw [if_pos hp, h1bit, if_pos (by omega), show c.size - 1 - (c.size - 1 - p) = p by omega]
  · rw [if_neg hp]
    exact h.clear p (by omega)

end BitBlockContainer

/-! ## 2. The valarray -/

namespace Valarray

open BitBlockContainer (Alike rotate_rotate reverse_reverse rotate_spec reverse_spec)

/-- `magnitude(n)`: the count a shift or a rotation by `n` moves, the subtraction being modular. -/
def magnitude (n : BitVec 32) : BitVec 64 :=
  if n.slt 0#32 then 0#64 - n.signExtend 64 else n.signExtend 64

variable {w : Nat} {V : Vehicle w} (c : BitBlockContainer V)

/-- `shift(n)`, `c` being the copy it returns. -/
def shift (n : BitVec 32) : BitBlockContainer V :=
  let count := (magnitude n).toNat
  if c.size ≤ count then c.fill false
  else if (0#32).slt n then c.shrAssign count
  else c.shlAssign count

/-- `cshift(n)`. -/
def cshift (n : BitVec 32) : BitBlockContainer V :=
  if (0#32).sle n then c.rotate (n.signExtend 64).toNat
  else if c.size ≠ 0 then c.rotate (c.size - (magnitude n).toNat % c.size)
  else c

/-- The bounds of an `int`. -/
theorem toInt_bounds (n : BitVec 32) : -2 ^ 31 ≤ n.toInt ∧ n.toInt < 2 ^ 31 := by
  have hn := n.isLt
  rw [BitVec.toInt_eq_toNat_cond]
  split <;> omega

/-- A widened `int` of no sign is its value. -/
theorem toNat_signExtend {n : BitVec 32} (h0 : 0 ≤ n.toInt) :
    ((n.signExtend 64).toNat : Int) = n.toInt := by
  have hx : (n.signExtend 64).toInt = n.toInt := BitVec.toInt_signExtend_of_le (by omega)
  rw [BitVec.toInt_eq_toNat_cond] at hx
  have hlt := (n.signExtend 64).isLt
  split at hx <;> omega

/-- **The magnitude is the absolute value**, at the least `int` too. -/
theorem toNat_magnitude (n : BitVec 32) : (magnitude n).toNat = n.toInt.natAbs := by
  have hx : (n.signExtend 64).toInt = n.toInt := BitVec.toInt_signExtend_of_le (by omega)
  rw [BitVec.toInt_eq_toNat_cond] at hx
  have hlt := (n.signExtend 64).isLt
  obtain ⟨hlo, hhi⟩ := toInt_bounds n
  unfold magnitude
  rw [BitVec.slt_eq_decide, BitVec.toInt_zero]
  by_cases h0 : n.toInt < 0
  · rw [if_pos (decide_eq_true h0), BitVec.zero_sub, BitVec.toNat_neg]
    split at hx <;> omega
  · rw [if_neg (by simpa using h0)]
    have := toNat_signExtend (n := n) (by omega)
    omega

/-- A turn back by `-n` is a turn by what it leaves of the width. -/
theorem mod_turned_back {s : Nat} {n : Int} (i : Nat) (hs : 0 < s) (hn : n ≤ 0) :
    (i + (s - n.natAbs % s)) % s = ((i + n) % s).toNat := by
  have hlt := Nat.mod_lt n.natAbs hs
  have hdiv := Nat.div_add_mod n.natAbs s
  have hcast : ((i + (s - n.natAbs % s) : Nat) : Int) = i + n + s * (1 + (n.natAbs / s : Nat)) := by
    rw [Int.mul_add, Int.mul_one, ← Int.natCast_mul]
    omega
  have hmod : (((i + (s - n.natAbs % s)) % s : Nat) : Int) = (i + n) % s := by
    rw [Int.natCast_emod, hcast, Int.add_mul_emod_self_left]
  omega

variable {c}

/-- **`shift(n)`: element `i` takes element `i + n`**, false where that lies outside. -/
theorem shift_spec (h : c.Inv) (n : BitVec 32) : (shift c n).Inv ∧ (shift c n).size = c.size ∧
    ∀ i, i < c.size → (shift c n).bit i =
      if 0 ≤ i + n.toInt ∧ i + n.toInt < c.size then c.bit (i + n.toInt).toNat else false := by
  have hm := toNat_magnitude n
  unfold shift
  dsimp only
  rw [hm, BitVec.slt_eq_decide, BitVec.toInt_zero]
  split
  · obtain ⟨hsw, hbit, hf⟩ := BitBlockContainer.fill_spec h (v := false)
    refine ⟨hf, hsw.size, fun i hi => ?_⟩
    rw [hbit, if_neg (by omega), Bool.and_false]
  · rename_i hlt
    by_cases hpos : 0 < n.toInt
    · rw [if_pos (decide_eq_true hpos)]
      have hn : n.toInt.natAbs < c.size := by omega
      refine ⟨h.shrAssign hn, (BitBlockContainer.sameWidth_shrAssign h.shape hn).size,
        fun i hi => ?_⟩
      rw [BitBlockContainer.bit_shrAssign h.shape hn]
      split
      · congr 1
        omega
      · exact h.clear _ (by omega)
    · rw [if_neg (by simpa using hpos)]
      have hn : n.toInt.natAbs < c.size := by omega
      refine ⟨h.shlAssign hn, (BitBlockContainer.sameWidth_shlAssign h.shape hn).size,
        fun i hi => ?_⟩
      rw [BitBlockContainer.bit_shlAssign h.shape hn]
      by_cases hin : n.toInt.natAbs ≤ i
      · rw [decide_eq_true ⟨hin, hi⟩, Bool.true_and, if_pos (by omega)]
        congr 1
        omega
      · rw [decide_eq_false (by omega), Bool.false_and, if_neg (by omega)]

/-- **`cshift(n)`: element `i` takes element `(i + n) mod size()`**, whatever the sign of `n`. -/
theorem cshift_spec (h : c.Inv) (n : BitVec 32) : (cshift c n).Inv ∧ (cshift c n).size = c.size ∧
    ∀ i, i < c.size → (cshift c n).bit i = c.bit ((i + n.toInt) % c.size).toNat := by
  have hm := toNat_magnitude n
  unfold cshift
  rw [BitVec.sle_eq_decide, BitVec.toInt_zero]
  by_cases h0 : 0 ≤ n.toInt
  · rw [if_pos (decide_eq_true h0)]
    obtain ⟨hsw, -, hbit⟩ := rotate_spec h (n.signExtend 64).toNat
    refine ⟨h.rotate _, hsw.size, fun i hi => ?_⟩
    rw [hbit, if_pos hi, ← toNat_signExtend h0]
    congr 1
  · rw [if_neg (by simpa using h0), hm]
    by_cases hz : c.size = 0
    · rw [if_neg (not_not_intro hz)]
      exact ⟨h, rfl, fun i hi => absurd hi (by omega)⟩
    · rw [if_pos hz]
      obtain ⟨hsw, -, hbit⟩ :=
        rotate_spec h (c.size - n.toInt.natAbs % c.size)
      refine ⟨h.rotate _, hsw.size, fun i hi => ?_⟩
      rw [hbit, if_pos hi]
      exact congrArg c.bit (mod_turned_back i (by omega) (by omega))

/-- **Rotation and reversal**: every position comes from where the turn says, at every width, and
    the tail stays clear; turns add up, a reversal undoes itself, and a valarray's `cshift` and
    `shift` follow for a count of either sign. -/
theorem turns_exact (h : c.Inv) :
    (∀ n, (c.rotate n).Inv ∧ (c.rotate n).size = c.size ∧ ∀ p, (c.rotate n).bit p =
      if p < c.size then c.bit ((p + n) % c.size) else false) ∧
    (c.reverse.Inv ∧ c.reverse.size = c.size ∧ ∀ p, c.reverse.bit p =
      if p < c.size then c.bit (c.size - 1 - p) else false) ∧
    (∀ a b, Alike ((c.rotate a).rotate b) (c.rotate (a + b))) ∧ Alike c.reverse.reverse c ∧
    (∀ n, (cshift c n).Inv ∧ (cshift c n).size = c.size ∧ ∀ i, i < c.size →
      (cshift c n).bit i = c.bit ((i + n.toInt) % c.size).toNat) ∧
    (∀ n, (shift c n).Inv ∧ (shift c n).size = c.size ∧ ∀ i, i < c.size → (shift c n).bit i =
      if 0 ≤ i + n.toInt ∧ i + n.toInt < c.size then c.bit (i + n.toInt).toNat else false) := by
  refine ⟨fun n => ?_, ?_, rotate_rotate h, reverse_reverse h, cshift_spec h, shift_spec h⟩
  · obtain ⟨hsw, -, hbit⟩ := rotate_spec h n
    exact ⟨h.rotate n, hsw.size, hbit⟩
  · obtain ⟨hsw, -, hbit⟩ := reverse_spec h
    exact ⟨h.reverse, hsw.size, hbit⟩

/-- Four elements of twelve: turned by five, reversed, turned back by one, and moved down by three
    with false ones after them. -/
theorem turns_exact_twelve :
    (∀ p, ((fourOfTwelve true).rotate 5).bit p =
      if p < 12 then (fourOfTwelve true).bit ((p + 5) % 12) else false) ∧
    (∀ p, (fourOfTwelve true).reverse.bit p =
      if p < 12 then (fourOfTwelve true).bit (12 - 1 - p) else false) ∧
    (cshift (fourOfTwelve true) (BitVec.ofInt 32 (-1))).bit 0 = false ∧
    (cshift (fourOfTwelve true) (BitVec.ofInt 32 (-1))).bit 1 = true ∧
    (shift (fourOfTwelve true) 3).bit 7 = true ∧ (shift (fourOfTwelve true) 3).bit 10 = false := by
  obtain ⟨hrotate, hreverse, -, -, hcshift, hshift⟩ := turns_exact (fourOfTwelve_inv true)
  refine ⟨(hrotate 5).2.2, hreverse.2.2, ?_, ?_, ?_, ?_⟩
  · exact ((hcshift _).2.2 0 (Nat.le_of_ble_eq_true rfl)).trans (by decide)
  · exact ((hcshift _).2.2 1 (Nat.le_of_ble_eq_true rfl)).trans (by decide)
  · exact ((hshift 3).2.2 7 (Nat.le_of_ble_eq_true rfl)).trans (by decide)
  · exact ((hshift 3).2.2 10 (Nat.le_of_ble_eq_true rfl)).trans (by decide)

end Valarray

end XstdBits
