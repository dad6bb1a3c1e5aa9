/-
  File: XstdBits/Container/Contents.lean
  Subject: what ranged access and a change of width do to the contents.

  The ranged write, the three ranged queries and both sides of `block_at` are put together, and what
  `resize` and `append` leave beside that they complete where they fit.
-/
import XstdBits.Container.Machine
import XstdBits.Container.Reserve

namespace XstdBits

namespace BitBlockContainer
variable {w : Nat} {V : Vehicle w} (c : BitBlockContainer V)

/-! ## 1. The ranged access -/

section Exact
variable {c}

/-- **Ranged access is exact**: a ranged write changes its positions alone, the ranged queries speak
    of their positions alone, and a block at any position reads and writes the positions from there
    on, a write under its mask. -/
theorem ranged_exact (h : c.Inv) :
    (∀ n len, n ≤ c.size → len ≤ c.size - n →
      (∀ v, (c.setRange n len v).Inv ∧ (c.setRange n len v).size = c.size ∧
        ∀ p, (c.setRange n len v).bit p = if n ≤ p ∧ p < n + len then v else c.bit p) ∧
      c.countRange n len = countIn c.bit n len ∧
      (c.anyIn n len = true ↔ ∃ p, n ≤ p ∧ p < n + len ∧ c.bit p = true) ∧
      (c.allIn n len = true ↔ ∀ p, n ≤ p → p < n + len → c.bit p = true)) ∧
    ∀ n, n < c.size →
      (∀ i, i < w → (c.blockAt n).getLsbD i = c.bit (n + i)) ∧
      (∀ i, c.size ≤ n + i → (c.blockAt n).getLsbD i = false) ∧
      ∀ value mask, c.MaskWithin n mask →
        (c.writeBlockAt n value mask).size = c.size ∧
        (∀ i, i < w → (c.writeBlockAt n value mask).bit (n + i) =
          if mask.getLsbD i = true then value.getLsbD i else c.bit (n + i)) ∧
        ∀ p, p < n ∨ n + w ≤ p → (c.writeBlockAt n value mask).bit p = c.bit p := by
  have hsz := h.shape.size_le
  refine ⟨fun n len h1 h2 => ?_, fun n hn => ?_⟩
  · have hlen : n + len ≤ c.size := by omega
    exact ⟨fun v => ⟨h.setRange hlen, (sameWidth_setRange h.shape hlen).size,
      fun p => bit_setRange h.shape hlen⟩, countRange_eq h.shape hlen, anyIn_iff h.shape hlen,
      allIn_iff h.shape hlen⟩
  · have hread (i : Nat) (hi : i < w) : (c.blockAt n).getLsbD i = c.bit (n + i) :=
      getLsbD_blockAt h.shape (by omega) hi
    refine ⟨hread, fun i hi => ?_, fun value mask hm => ?_⟩
    · by_cases hiw : i < w
      · rw [hread i hiw]
        exact h.clear _ hi
      · exact BitVec.getLsbD_of_ge _ _ (by omega)
    · have hbit (p : Nat) : (c.writeBlockAt n value mask).bit p =
          if n ≤ p ∧ mask.getLsbD (p - n) = true then value.getLsbD (p - n) else c.bit p :=
        bit_writeBlockAt h.shape (by omega) fun j _ hj => Nat.lt_of_lt_of_le (hm.lt hj) hsz
      refine ⟨sameWidth_writeBlockAt.size, fun i hi => ?_, fun p hp => ?_⟩
      · rw [hbit, Nat.add_sub_cancel_left]
        exact if_congr (and_iff_right (Nat.le_add_right n i)) rfl rfl
      · rw [hbit, if_neg]
        intro ⟨h1, h2⟩
        have := BitVec.lt_of_getLsbD h2
        omega

/-- Of four positions of twelve: five are cleared from the third on, where two were set, and a block
    is written from there under a mask of five. -/
theorem ranged_exact_twelve :
    (∀ p, ((fourOfTwelve true).setRange 3 5 false).bit p =
      if 3 ≤ p ∧ p < 3 + 5 then false else (fourOfTwelve true).bit p) ∧
    (fourOfTwelve true).countRange 3 5 = 2 ∧
    ∀ i, i < 8 → ((fourOfTwelve true).writeBlockAt 3 0xF0#8 (partialBlockMask 5)).bit (3 + i) =
      if (partialBlockMask 5 : BitVec 8).getLsbD i = true then (0xF0#8).getLsbD i
      else (fourOfTwelve true).bit (3 + i) := by
  obtain ⟨hranges, hblocks⟩ := ranged_exact (fourOfTwelve_inv true)
  obtain ⟨hwrite, hcount, -⟩ := hranges 3 5 (Nat.le_of_ble_eq_true rfl) (Nat.le_of_ble_eq_true rfl)
  obtain ⟨-, -, hmasked⟩ := hblocks 3 (Nat.le_of_ble_eq_true rfl)
  exact ⟨(hwrite false).2.2, hcount.trans (by decide),
    (hmasked 0xF0#8 (partialBlockMask 5) (Or.inl (Nat.le_of_ble_eq_true rfl))).2.1⟩

end Exact

/-! ## 2. The width -/

section Width
variable {c}

/-- **A change of width is exact**: a resize keeps the positions both widths have, gives the new
    ones its value and clears the tail, an append adds its block's bits at the old width, aligned or
    not, and a kept count is the number of set positions. Both complete where the storage can hold
    the width. -/
theorem width_exact (h : c.Inv) (hs : V.hasStoredSize = true) (mem : Memory) :
    (∀ n v,
      (∀ d, resize mem n v c = .ok () d → d.Inv ∧ d.size = n ∧
        (∀ p, p < min c.size n → d.bit p = c.bit p) ∧ (∀ p, c.size ≤ p → p < n → d.bit p = v) ∧
        (∀ p, n ≤ p → d.bit p = false) ∧
        (V.hasStoredCount = true → d.mCount = countBits d.bit n)) ∧
      (overCapacity V n = false → Grants V mem (blocksFor w n) →
        ∃ d, resize mem n v c = .ok () d)) ∧
    ∀ value,
      (∀ d, append mem value c = .ok () d → d.Inv ∧ d.size = c.size + w ∧
        (∀ p, p < c.size → d.bit p = c.bit p) ∧
        (∀ j, j < w → d.bit (c.size + j) = value.getLsbD j) ∧
        (∀ p, c.size + w ≤ p → d.bit p = false) ∧
        (V.hasStoredCount = true → d.mCount = countBits d.bit (c.size + w))) ∧
      (overCapacity V (c.size + w) = false → Grants V mem (blocksFor w (c.size + w)) →
        ∃ d, append mem value c = .ok () d) := by
  refine ⟨fun n v => ⟨fun d hd => ?_, resizeTo_of_grants⟩,
    fun value => ⟨fun d hd => ?_, fun hover hg => ?_⟩⟩
  · obtain ⟨hinv, hsize, hbit⟩ := resizeTo_ok h hs hd
    refine ⟨hinv, hsize, fun p hp => ?_, fun p h1 h2 => ?_, fun p hp => ?_, fun hc => ?_⟩
    · rw [hbit, if_pos (by omega), if_pos (by omega)]
    · rw [hbit, if_pos h2, if_neg (by omega)]
    · rw [hbit, if_neg (by omega)]
    · rw [hinv.count hc, hsize]
  · obtain ⟨hinv, hsize, hbit⟩ := append_ok h hs hd
    refine ⟨hinv, hsize, fun p hp => ?_, fun j hj => ?_, fun p hp => ?_, fun hc => ?_⟩
    · rw [hbit, if_pos hp]
    · rw [hbit, if_neg (by omega), decide_eq_true (by omega), Bool.true_and,
        Nat.add_sub_cancel_left]
    · rw [hbit, if_neg (by omega), decide_eq_false (by omega), Bool.false_and]
    · rw [hinv.count hc, hsize]
  · exact append_of_room h.shape hover (makeRoom_of_grants (blocks_fit hover) hg)

/-- Twelve bools of a counted byte vector, resized to nine, which are three ones, and appended to. -/
theorem width_exact_twelve : ∃ d e : BitBlockContainer (byteVector true),
    resize .ample 9 false (fourOfTwelve true) = .ok () d ∧ d.size = 9 ∧
      (∀ p, p < 9 → d.bit p = decide (p ∈ [0, 3, 5])) ∧
    append .ample 0x41#8 (fourOfTwelve true) = .ok () e ∧ e.size = 20 ∧
      (∀ p, p < 12 → e.bit p = decide (p ∈ [0, 3, 5, 10])) ∧
      ∀ j, j < 8 → e.bit (12 + j) = decide (j ∈ [0, 6]) := by
  have hx := width_exact (fourOfTwelve_inv true) rfl .ample
  obtain ⟨d, hd⟩ := (hx.1 9 false).2 rfl (grants_byteVector (by decide))
  obtain ⟨e, he⟩ := (hx.2 0x41#8).2 rfl fun _ => ⟨_, rfl⟩
  obtain ⟨-, hdsize, hdkept, -⟩ := (hx.1 9 false).1 d hd
  obtain ⟨-, hesize, hekept, henew, -⟩ := (hx.2 0x41#8).1 e he
  have hfour : ∀ p, p < 12 → (fourOfTwelve true).bit p = decide (p ∈ [0, 3, 5, 10]) := by decide
  have hnine : ∀ p, p < 9 → decide (p ∈ [0, 3, 5, 10]) = decide (p ∈ [0, 3, 5]) := by decide
  have hblock : ∀ j, j < 8 → (0x41#8).getLsbD j = decide (j ∈ [0, 6]) := by decide
  refine ⟨d, e, hd, hdsize, fun p hp => ?_, he, hesize, fun p hp => ?_, fun j hj => ?_⟩
  · rw [hdkept p (Nat.lt_min.mpr ⟨Nat.lt_trans hp (by decide), hp⟩), hfour p (by omega), hnine p hp]
  · rw [hekept p hp, hfour p hp]
  · exact (henew j hj).trans (hblock j hj)

end Width

end BitBlockContainer

end XstdBits
