/-
  File: XstdBits/Lib/BlockString.lean
  Subject: a list of equally wide blocks read as one string of bits.

  Position `p` of the string is bit `p % w` of block `p / w` (`bitAt`), clear past the last
  block. A position is handled as `i * w + j` with `j < w` (`exists_pos`), after which the
  arithmetic of block indices is linear in the atoms `i * w`. The file carries
  * the reads of a list written, cut, extended or reversed (`getD_…`);
  * the same over the positions (`bitAt_…`), and extensionality (`bitAt_ext`);
  * the bit at a shifted position as the splice of two blocks (`bitAt_splice`);
  * the sum of the blocks' own counts as the count over the string (`sum_countBits`).
-/
import XstdBits.Lib.Count
import Mathlib.Data.List.GetD
import Mathlib.Tactic.Ring

namespace XstdBits

/-! ## 1. Reading a list with a default -/

section GetD
variable {α : Type} {x y : List α} {d : α}

theorem getD_set {i j : Nat} {b : α} :
    (x.set i b).getD j d = if i = j ∧ j < x.length then b else x.getD j d := by
  simp only [List.getD_eq_getElem?_getD, List.getElem?_set]
  by_cases hij : i = j
  · subst hij
    by_cases hl : i < x.length
    · simp [hl]
    · simp [hl]
  · simp [hij]

theorem getD_set_self {i : Nat} {b : α} (h : i < x.length) : (x.set i b).getD i d = b := by
  rw [getD_set, if_pos ⟨rfl, h⟩]

theorem getD_set_ne {i j : Nat} {b : α} (h : i ≠ j) : (x.set i b).getD j d = x.getD j d := by
  rw [getD_set, if_neg fun hc => h hc.1]

theorem getD_append' {i : Nat} :
    (x ++ y).getD i d = if i < x.length then x.getD i d else y.getD (i - x.length) d := by
  split
  · rename_i h
    exact List.getD_append x y d i h
  · rename_i h
    exact List.getD_append_right x y d i (by omega)

theorem getD_replicate {n i : Nat} {b : α} :
    (List.replicate n b).getD i d = if i < n then b else d := by
  by_cases h : i < n
  · simp [h]
  · simp [h]

theorem getD_take {n i : Nat} : (x.take n).getD i d = if i < n then x.getD i d else d := by
  simp only [List.getD_eq_getElem?_getD, List.getElem?_take]
  split <;> rfl

theorem getD_drop {n i : Nat} : (x.drop n).getD i d = x.getD (n + i) d := by
  simp only [List.getD_eq_getElem?_getD, List.getElem?_drop]

theorem ext_getD (hl : x.length = y.length) (h : ∀ i, i < x.length → x.getD i d = y.getD i d) :
    x = y := by
  refine List.ext_getElem hl fun i h1 h2 => ?_
  have := h i h1
  rwa [List.getD_eq_getElem _ _ h1, List.getD_eq_getElem _ _ h2] at this

end GetD

/-! ## 2. Positions -/

section Positions
variable {w : Nat}

/-- Every position lies in a block at an offset. -/
theorem exists_pos (hw : 0 < w) (p : Nat) : ∃ i j, j < w ∧ p = i * w + j :=
  ⟨p / w, p % w, Nat.mod_lt _ hw, (Nat.div_add_mod' p w).symm⟩

theorem pos_div {i j : Nat} (hj : j < w) : (i * w + j) / w = i := by
  rw [Nat.add_comm, Nat.add_mul_div_right _ _ (by omega), Nat.div_eq_of_lt hj, Nat.zero_add]

theorem pos_mod {i j : Nat} (hj : j < w) : (i * w + j) % w = j := by
  rw [Nat.add_comm, Nat.add_mul_mod_self_right, Nat.mod_eq_of_lt hj]

theorem pos_lt_iff {i j n : Nat} (hj : j < w) : i * w + j < n * w ↔ i < n := by
  constructor
  · intro h
    by_contra hc
    have := Nat.mul_le_mul_right w (Nat.le_of_not_lt hc)
    omega
  · intro h
    have := Nat.mul_le_mul_right w (Nat.succ_le_of_lt h)
    rw [Nat.succ_mul] at this
    omega

theorem pos_inj {i j i' j' : Nat} (hj : j < w) (hj' : j' < w) :
    i * w + j = i' * w + j' ↔ i = i' ∧ j = j' := by
  constructor
  · intro h
    have h1 : i = i' := by
      have := congrArg (· / w) h
      rwa [pos_div hj, pos_div hj'] at this
    subst h1
    exact ⟨rfl, by omega⟩
  · rintro ⟨rfl, rfl⟩
    rfl

/-- Two blocks compare as their first positions do, a whole block apart. -/
theorem block_trichotomy (i k w : Nat) :
    (i < k ∧ i * w + w ≤ k * w) ∨ (i = k ∧ i * w = k * w) ∨ (k < i ∧ k * w + w ≤ i * w) := by
  have hlt {a b : Nat} (h : a < b) : a * w + w ≤ b * w := by
    rw [← Nat.succ_mul]
    exact Nat.mul_le_mul_right w h
  rcases Nat.lt_trichotomy i k with h | rfl | h
  · exact Or.inl ⟨h, hlt h⟩
  · exact Or.inr (Or.inl ⟨rfl, rfl⟩)
  · exact Or.inr (Or.inr ⟨h, hlt h⟩)

theorem block_lt_of_mul_lt {i n : Nat} (h : i * w < n * w) : i < n := by
  by_contra hc
  have := Nat.mul_le_mul_right w (Nat.le_of_not_lt hc)
  omega

end Positions

/-! ## 3. The string -/

section BitAt
variable {w : Nat}

/-- Bit `p` of the string the blocks make, clear past the last block. -/
def bitAt (bs : List (BitVec w)) (p : Nat) : Bool :=
  (bs.getD (p / w) 0#w).getLsbD (p % w)

variable {bs cs : List (BitVec w)} {p : Nat}

theorem bitAt_pos {i j : Nat} (hj : j < w) : bitAt bs (i * w + j) = (bs.getD i 0#w).getLsbD j := by
  unfold bitAt
  rw [pos_div hj, pos_mod hj]

theorem bitAt_of_lt {j : Nat} (hj : j < w) : bitAt bs j = (bs.getD 0 0#w).getLsbD j := by
  rw [← bitAt_pos hj, Nat.zero_mul, Nat.zero_add]

theorem bitAt_of_le (hw : 0 < w) (h : bs.length * w ≤ p) : bitAt bs p = false := by
  unfold bitAt
  rw [List.getD_eq_default _ _ ((Nat.le_div_iff_mul_le hw).mpr h), BitVec.getLsbD_zero]

@[simp] theorem bitAt_nil : bitAt ([] : List (BitVec w)) p = false := by
  unfold bitAt
  simp

/-- **Blocks that agree at every position are equal.** -/
theorem bitAt_ext (hl : bs.length = cs.length)
    (h : ∀ p, p < bs.length * w → bitAt bs p = bitAt cs p) : bs = cs := by
  refine ext_getD (d := 0#w) hl fun i hi => ?_
  refine BitVec.eq_of_getLsbD_eq fun j hj => ?_
  have := h (i * w + j) ((pos_lt_iff hj).mpr hi)
  rwa [bitAt_pos hj, bitAt_pos hj] at this

theorem bitAt_set {i : Nat} {b : BitVec w} (hi : i < bs.length) :
    bitAt (bs.set i b) p = if p / w = i then b.getLsbD (p % w) else bitAt bs p := by
  unfold bitAt
  rw [getD_set]
  by_cases h : p / w = i
  · rw [if_pos ⟨h.symm, h ▸ hi⟩, if_pos h]
  · rw [if_neg fun hc => h hc.1.symm, if_neg h]

theorem bitAt_append (hw : 0 < w) :
    bitAt (bs ++ cs) p = if p < bs.length * w then bitAt bs p else bitAt cs (p - bs.length * w) := by
  obtain ⟨i, j, hj, rfl⟩ := exists_pos hw p
  simp only [bitAt_pos hj, getD_append', pos_lt_iff hj]
  split
  · rfl
  · rename_i h
    have hm : bs.length * w ≤ i * w := Nat.mul_le_mul_right w (by omega)
    have he : i * w + j - bs.length * w = (i - bs.length) * w + j := by
      rw [Nat.sub_mul]
      omega
    rw [he, bitAt_pos hj]

theorem bitAt_singleton (hw : 0 < w) {b : BitVec w} : bitAt [b] p = b.getLsbD p := by
  by_cases hp : p < w
  · rw [bitAt_of_lt hp]
    rfl
  · rw [bitAt_of_le hw (by simp only [List.length_singleton]; omega)]
    exact (BitVec.getLsbD_of_ge b p (by omega)).symm

theorem bitAt_replicate (hw : 0 < w) {n : Nat} {b : BitVec w} :
    bitAt (List.replicate n b) p = if p < n * w then b.getLsbD (p % w) else false := by
  obtain ⟨i, j, hj, rfl⟩ := exists_pos hw p
  simp only [bitAt_pos hj, getD_replicate, pos_lt_iff hj, pos_mod hj]
  split
  · rfl
  · exact BitVec.getLsbD_zero

theorem bitAt_take (hw : 0 < w) {n : Nat} :
    bitAt (bs.take n) p = if p < n * w then bitAt bs p else false := by
  obtain ⟨i, j, hj, rfl⟩ := exists_pos hw p
  simp only [bitAt_pos hj, getD_take, pos_lt_iff hj]
  split
  · rfl
  · exact BitVec.getLsbD_zero

theorem bitAt_drop (hw : 0 < w) {n : Nat} : bitAt (bs.drop n) p = bitAt bs (n * w + p) := by
  obtain ⟨i, j, hj, rfl⟩ := exists_pos hw p
  rw [bitAt_pos hj, getD_drop, ← Nat.add_assoc, ← Nat.add_mul, bitAt_pos hj]

/-! ## 4. Splices -/

/-- **The bits from an offset on are the splice of two neighbouring blocks.** -/
theorem bitAt_splice {i r j : Nat} (hrw : r < w) (hj : j < w) :
    (bs.getD (i + 1) 0#w <<< (w - r) ||| bs.getD i 0#w >>> r).getLsbD j =
      bitAt bs (i * w + r + j) := by
  rw [BitVec.getLsbD_or, BitVec.getLsbD_shiftLeft, BitVec.getLsbD_ushiftRight]
  by_cases h : j < w - r
  · rw [Nat.add_assoc, bitAt_pos (show r + j < w by omega)]
    simp [h]
  · have he : i * w + r + j = (i + 1) * w + (j - (w - r)) := by
      rw [Nat.succ_mul]
      omega
    have hz : (bs.getD i 0#w).getLsbD (r + j) = false := BitVec.getLsbD_of_ge _ _ (by omega)
    rw [he, bitAt_pos (show j - (w - r) < w by omega), hz]
    simp [hj, h]

/-! ## 5. Counting -/

/-- **The blocks' counts sum to the count over the string.** -/
theorem sum_countBits (hw : 0 < w) (bs : List (BitVec w)) :
    (bs.map fun b => countBits b.getLsbD w).sum = countBits (bitAt bs) (bs.length * w) := by
  induction bs with
  | nil => simp
  | cons b bs ih =>
      rw [List.map_cons, List.sum_cons, ih, List.length_cons, Nat.succ_mul, Nat.add_comm _ w,
        countBits_add]
      have h1 : countBits (bitAt (b :: bs)) w = countBits b.getLsbD w :=
        countBits_congr fun j hj => by rw [bitAt_of_lt hj]; rfl
      have h2 : countIn (bitAt (b :: bs)) w (bs.length * w) =
          countBits (bitAt bs) (bs.length * w) := by
        unfold countIn
        refine countBits_congr fun p _ => ?_
        have h : bitAt ((b :: bs).drop 1) p = bitAt (b :: bs) (1 * w + p) := bitAt_drop hw
        rw [Nat.one_mul] at h
        rw [← h]
        rfl
      rw [h1, h2]

end BitAt

end XstdBits
