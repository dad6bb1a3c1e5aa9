/-
  File: XstdBits/Container/Reduce.lean
  Subject: the reductions over every block.

  `count`, `none`, `any` and `all` fold the blocks of a few static blocks and walk the others.
  Under the invariant they speak of the positions below the width: `count_eq`, `none_iff`,
  `any_iff`, `all_iff`. The kept count is read only through `count_eq`.
-/
import XstdBits.Container.Write

namespace XstdBits

namespace BitBlockContainer
variable {w : Nat} {V : Vehicle w} (c : BitBlockContainer V)

/-- The popcount itself, which `count()` answers with where no count is kept. -/
def countBlocks : Nat :=
  if V.hasStaticSize ∧ V.extent = 0 then 0
  else if V.unrolls 1 then popcount (c.block 0)
  else if V.unrolls 2 then popcount (c.block 0) + popcount (c.block 1)
  else (c.mBlocks.elems.map popcount).sum

def count : Nat := if V.hasStoredCount then c.storedCount else c.countBlocks

def recount : BitBlockContainer V :=
  if V.hasStoredCount then c.storeCount c.countBlocks else c

/-- A few static blocks or-ed together and tested once, else a stop at the first set one. -/
def none : Bool :=
  if V.foldsBlocks then
    forUp 0 V.staticNumBlocks (fun i some => some ||| c.block i) zero == zero
  else c.mBlocks.elems.all (· == zero)

def any : Bool := !c.none

def allButLastAreOnes : Bool := (c.mBlocks.elems.take c.lastBlock).all (· == ones)

/-- A few static blocks and-ed together with their padding filled in and tested once, else a stop at
    the first block that is not full. -/
def all : Bool :=
  if V.foldsBlocks then
    forUp 0 V.staticNumBlocks (fun i every =>
      every &&& (c.block i ||| if i = V.staticLastBlock then V.staticUnusedBits else zero)) ones ==
        ones
  else c.numBlocks == 0 || (c.allButLastAreOnes && c.block c.lastBlock == c.usedBits)

variable {c}

/-- The popcounts of the blocks count every position of them. -/
theorem sum_popcounts : (c.mBlocks.elems.map popcount).sum =
    countBits c.bit (c.mBlocks.elems.length * w) := sum_countBits V.bits_pos c.mBlocks.elems

/-- **`count_blocks` counts every position of the blocks.** -/
theorem countBlocks_eq (h : c.Shape) :
    c.countBlocks = countBits c.bit (c.mBlocks.elems.length * w) := by
  rw [← sum_popcounts]
  unfold countBlocks block
  split
  · rename_i hz
    have hl : c.mBlocks.elems.length = 0 := by
      rw [h, size, if_pos hz.1, hz.2, blocksFor_zero]
    rw [List.eq_nil_of_length_eq_zero hl]
    rfl
  · split
    · rename_i hu
      obtain ⟨b, hb⟩ := List.length_eq_one_iff.mp (h.unrolls hu)
      simp [hb]
    · split
      · rename_i hu
        obtain ⟨b, b', hb⟩ := List.length_eq_two.mp (h.unrolls hu)
        simp [hb]
      · rfl

theorem countBlocks_eq_size (h : c.Shape) (hc : ∀ p, c.size ≤ p → c.bit p = false) :
    c.countBlocks = countBits c.bit c.size := by
  rw [countBlocks_eq h]
  exact countBits_of_clear h.size_le fun p hp _ => hc p hp

/-- **`count` is the number of set positions**, kept or counted. -/
theorem count_eq (h : c.Inv) : c.count = countBits c.bit c.size := by
  unfold count
  split
  · rename_i hc
    rw [storedCount_eq hc, h.count hc]
  · exact countBlocks_eq_size h.shape h.clear

theorem sameWidth_recount : SameWidth c c.recount := by
  unfold recount
  split
  · exact sameWidth_storeCount
  · exact SameWidth.refl

theorem mBlocks_recount : c.recount.mBlocks = c.mBlocks := by
  unfold recount
  split
  · exact mBlocks_storeCount c
  · rfl

theorem mCount_recount (h : c.Shape) (hc : ∀ p, c.size ≤ p → c.bit p = false)
    (hs : V.hasStoredCount = true) : c.recount.mCount = countBits c.bit c.size := by
  unfold recount
  rw [if_pos hs, mCount_storeCount hs, countBlocks_eq_size h hc]

/-! ## None and any -/

theorem all_zero_iff : c.mBlocks.elems.all (· == zero) = true ↔
    ∀ i, i < c.mBlocks.elems.length → c.block i = zero := by
  rw [List.all_eq_true]
  constructor
  · intro ha i hi
    have := ha _ (List.getElem_mem hi)
    rw [beq_iff_eq] at this
    unfold block
    rwa [List.getD_eq_getElem _ _ hi]
  · intro ha b hb
    obtain ⟨i, hi, rfl⟩ := List.getElem_of_mem hb
    have := ha i hi
    unfold block at this
    rw [List.getD_eq_getElem _ _ hi] at this
    rw [beq_iff_eq]
    exact this

theorem foldsBlocks_num (h : c.Shape) (hf : V.foldsBlocks = true) :
    V.staticNumBlocks = c.mBlocks.elems.length := by
  unfold Vehicle.foldsBlocks at hf
  rw [Bool.and_eq_true] at hf
  rw [← h.numBlocks, numBlocks, if_pos hf.1]

/-- The folded or is zero when every block is. -/
theorem none_eq_true_iff (h : c.Shape) : c.none = true ↔
    ∀ i, i < c.mBlocks.elems.length → c.block i = zero := by
  unfold none
  split
  · rename_i hf
    rw [foldsBlocks_num h hf, beq_iff_eq, eq_zero_iff]
    have key := forUp_inv (f := fun i some => some ||| c.block i) (s := (zero : BitVec w))
      (fun k some => ∀ j, j < w → (some.getLsbD j = true ↔
        ∃ i, i < k ∧ (c.block i).getLsbD j = true)) (Nat.zero_le c.mBlocks.elems.length)
      (fun j _ => by simp) ?_
    · constructor
      · intro hz i hi
        rw [eq_zero_iff]
        intro j hj
        cases hb : (c.block i).getLsbD j
        · rfl
        · have := (key j hj).mpr ⟨i, hi, hb⟩
          rw [hz j hj] at this
          cases this
      · intro hz j hj
        rw [Bool.eq_false_iff]
        intro ht
        obtain ⟨i, hi, hb⟩ := (key j hj).mp ht
        rw [hz i hi] at hb
        simp at hb
    · intro k some _ _ ih j hj
      rw [BitVec.getLsbD_or, Bool.or_eq_true, ih j hj]
      constructor
      · rintro (⟨i, hi, hb⟩ | hb)
        · exact ⟨i, by omega, hb⟩
        · exact ⟨k, by omega, hb⟩
      · rintro ⟨i, hi, hb⟩
        rcases (by omega : i < k ∨ i = k) with hlt | rfl
        · exact Or.inl ⟨i, hlt, hb⟩
        · exact Or.inr hb
  · exact all_zero_iff

/-- Every block is zero when no position is set. -/
theorem blocks_zero_iff : (∀ i, i < c.mBlocks.elems.length → c.block i = zero) ↔
    ∀ p, c.bit p = false := by
  constructor
  · intro hz p
    obtain ⟨i, j, hj, rfl⟩ := exists_pos V.bits_pos p
    rw [bit_pos hj]
    by_cases hi : i < c.mBlocks.elems.length
    · rw [hz i hi]
      exact BitVec.getLsbD_zero
    · rw [← bit_pos hj]
      refine bit_of_le ?_
      have := Nat.mul_le_mul_right w (Nat.le_of_not_lt hi)
      omega
  · intro hz i _
    rw [eq_zero_iff]
    intro j hj
    rw [← bit_pos hj]
    exact hz _

/-- **`none`: no position is set.** -/
theorem none_iff (h : c.Shape) : c.none = true ↔ ∀ p, c.bit p = false := by
  rw [none_eq_true_iff h, blocks_zero_iff]

/-- **`any`: some position below the width is set.** -/
theorem any_iff (h : c.Inv) : c.any = true ↔ ∃ p, p < c.size ∧ c.bit p = true := by
  have hn : c.any = true ↔ ¬ c.none = true := by
    unfold any
    simp
  rw [hn, none_iff h.shape]
  constructor
  · intro hne
    by_contra hc
    refine hne fun p => ?_
    cases hb : c.bit p
    · rfl
    · exact absurd ⟨p, h.lt_size hb, hb⟩ hc
  · rintro ⟨p, -, hb⟩ hz
    rw [hz p] at hb
    cases hb

/-! ## All -/

theorem eq_ones_iff {b : BitVec w} : b = ones ↔ ∀ j, j < w → b.getLsbD j = true := by
  constructor
  · rintro rfl j hj
    simp [hj]
  · intro h
    refine BitVec.eq_of_getLsbD_eq fun j hj => ?_
    simp [h j hj, hj]

/-- Every position of a block before the last lies below the width. -/
theorem Shape.full_block (h : c.Shape) {i j : Nat} (hi : i + 1 < c.mBlocks.elems.length)
    (hj : j < w) : i * w + j < c.size := by
  have hnext := Nat.mul_le_mul_right w (show i + 2 ≤ c.mBlocks.elems.length by omega)
  have hlt := h.lt_size_add
  rw [Nat.add_mul] at hnext
  omega

/-- The used bits of the last block are its positions below the width. -/
theorem getLsbD_usedBits (h : c.Shape) (h0 : 0 < c.mBlocks.elems.length) {j : Nat} :
    (shr ones (c.mBlocks.elems.length * w - c.size) : BitVec w).getLsbD j =
      decide ((c.mBlocks.elems.length - 1) * w + j < c.size) := by
  have hle := h.size_le
  have hlt := h.lt_size_add
  have hsucc : c.mBlocks.elems.length * w = (c.mBlocks.elems.length - 1) * w + w := by
    rw [← Nat.succ_mul]
    congr 1
    omega
  rw [getLsbD_shr, getLsbD_ones, decide_eq_decide]
  omega

/-- A block with its padding filled in. -/
theorem getLsbD_filled (h : c.Shape) {i j : Nat} (hi : i < c.mBlocks.elems.length) (hj : j < w) :
    (c.block i ||| if i = c.mBlocks.elems.length - 1 then
      ~~~shr ones (c.mBlocks.elems.length * w - c.size) else zero).getLsbD j =
      (c.bit (i * w + j) || decide (c.size ≤ i * w + j)) := by
  rw [BitVec.getLsbD_or, bit_pos hj]
  congr 1
  split
  · rename_i hlast
    rw [BitVec.getLsbD_not, getLsbD_usedBits h (by omega), ← hlast, decide_eq_true hj,
      Bool.true_and, ← decide_not, decide_eq_decide, Nat.not_lt]
  · rename_i hlast
    have hp := h.full_block (show i + 1 < _ by omega) hj
    rw [decide_eq_false (Nat.not_le.mpr hp)]
    exact getLsbD_zero'

/-- The folded and: full where every block is, its padding filled in. -/
theorem folded_all (h : c.Shape) (hf : V.foldsBlocks = true) :
    forUp 0 V.staticNumBlocks (fun i every =>
      every &&& (c.block i ||| if i = V.staticLastBlock then V.staticUnusedBits else zero)) ones =
        ones ↔ ∀ p, p < c.size → c.bit p = true := by
  have hs : V.hasStaticSize = true := by
    unfold Vehicle.foldsBlocks at hf
    rw [Bool.and_eq_true] at hf
    exact hf.1
  unfold Vehicle.staticLastBlock Vehicle.staticUnusedBits
  rw [staticUsedBits_eq h hs, foldsBlocks_num h hf]
  have key := forUp_inv (f := fun i every => every &&& (c.block i |||
      if i = c.mBlocks.elems.length - 1 then
        ~~~shr ones (c.mBlocks.elems.length * w - c.size) else zero)) (s := (ones : BitVec w))
    (fun k every => ∀ j, j < w → (every.getLsbD j = true ↔
      ∀ i, i < k → i * w + j < c.size → c.bit (i * w + j) = true))
    (Nat.zero_le c.mBlocks.elems.length) (fun j hj => by simp [hj]) ?_
  · rw [eq_ones_iff]
    constructor
    · intro ho p hp
      obtain ⟨i, j, hj, rfl⟩ := exists_pos V.bits_pos p
      exact (key j hj).mp (ho j hj) i (h.index_lt hp) hp
    · intro hall j hj
      exact (key j hj).mpr fun i _ hp => hall _ hp
  · intro k every _ hk ih j hj
    rw [BitVec.getLsbD_and, Bool.and_eq_true, ih j hj, getLsbD_filled h hk hj, Bool.or_eq_true,
      decide_eq_true_eq, Nat.forall_lt_succ_right]
    refine and_congr_right fun _ => ⟨fun hor hp => ?_, fun himp => ?_⟩
    · exact hor.resolve_right (Nat.not_le.mpr hp)
    · by_cases hp : k * w + j < c.size
      · exact Or.inl (himp hp)
      · exact Or.inr (Nat.le_of_not_lt hp)

/-- Full blocks under a last one that holds its used bits. -/
theorem scanned_all (h : c.Inv) : (c.numBlocks == 0 ||
      (c.allButLastAreOnes && c.block c.lastBlock == c.usedBits)) = true ↔
    ∀ p, p < c.size → c.bit p = true := by
  have hle := h.shape.size_le
  unfold allButLastAreOnes lastBlock usedBits
  rw [h.shape.numBlocks]
  by_cases h0 : c.mBlocks.elems.length = 0
  · rw [h0, Nat.zero_mul] at hle
    simp only [h0, beq_self_eq_true, Bool.true_or, true_iff]
    intro p hp
    omega
  · rw [beq_eq_false_iff_ne.mpr h0, Bool.false_or, Bool.and_eq_true, beq_iff_eq,
      List.all_eq_true]
    constructor
    · rintro ⟨hones, hlast⟩ p hp
      obtain ⟨i, j, hj, rfl⟩ := exists_pos V.bits_pos p
      have hi := h.shape.index_lt hp
      rw [bit_pos hj]
      by_cases hil : i = c.mBlocks.elems.length - 1
      · rw [hil] at hp ⊢
        rw [hlast, getLsbD_usedBits h.shape (by omega), decide_eq_true hp]
      · have hmem : c.block i ∈ c.mBlocks.elems.take (c.mBlocks.elems.length - 1) := by
          unfold block
          rw [List.getD_eq_getElem _ _ hi, List.mem_take_iff_getElem]
          exact ⟨i, by omega, rfl⟩
        rw [beq_iff_eq.mp (hones _ hmem), getLsbD_ones, decide_eq_true hj]
    · intro hall
      refine ⟨fun b hb => ?_, ?_⟩
      · obtain ⟨i, hi, rfl⟩ := List.mem_take_iff_getElem.mp hb
        rw [beq_iff_eq, eq_ones_iff]
        intro j hj
        have hbit := hall (i * w + j) (h.shape.full_block (by omega) hj)
        rwa [bit_pos hj, block, List.getD_eq_getElem _ _ (by omega)] at hbit
      · refine BitVec.eq_of_getLsbD_eq fun j hj => ?_
        rw [getLsbD_usedBits h.shape (by omega), ← bit_pos hj]
        by_cases hp : (c.mBlocks.elems.length - 1) * w + j < c.size
        · rw [hall _ hp, decide_eq_true hp]
        · rw [h.clear _ (by omega), decide_eq_false hp]

/-- **`all`: every position below the width is set.** -/
theorem all_iff (h : c.Inv) : c.all = true ↔ ∀ p, p < c.size → c.bit p = true := by
  unfold all
  split
  · rename_i hf
    rw [beq_iff_eq]
    exact folded_all h.shape hf
  · exact scanned_all h

end BitBlockContainer

end XstdBits
