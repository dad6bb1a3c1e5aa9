/-
  File: XstdBits/Set/Predicates.lean
  Subject: inclusion, intersection and a single key (`bit_includes.hpp`, `bit_intersects.hpp`,
  `has_single_bit.hpp`).

  * each predicate asks a block at a time; past the blocks both sets have, the other's are read as
    empty (`includes_blocks`, `intersects_blocks`), which is what every path of the three comes to.
  * a block of one bit is xstd-ints' question; the first block that holds any is asked it, and every
    block after that one has to be zero.
  * `bitIncludes_iff`, `bitIntersects_iff`, `hasSingleBit_iff`: what they say of the positions, and so
    of the keys, whatever the two widths.
-/
import XstdBits.Container.Compare
import XstdBits.Set.Refinement

namespace XstdBits

/-! ## 1. One block -/

section Blocks
variable {w : Nat} {a b : BitVec w}

/-- `block_includes(lhs, rhs)`: no position of `rhs` outside `lhs`. -/
def blockIncludes (lhs rhs : BitVec w) : Bool := (rhs &&& ~~~lhs) == zero

theorem blockIncludes_iff : blockIncludes a b = true ↔
    ∀ j, j < w → b.getLsbD j = true → a.getLsbD j = true := by
  unfold blockIncludes
  rw [beq_iff_eq, eq_zero_iff]
  refine forall₂_congr fun j hj => ?_
  rw [BitVec.getLsbD_and, BitVec.getLsbD_not, decide_eq_true hj, Bool.true_and]
  cases a.getLsbD j <;> cases b.getLsbD j <;> simp

theorem blockIntersects_iff : blockIntersects a b = true ↔
    ∃ j, j < w ∧ a.getLsbD j = true ∧ b.getLsbD j = true := by
  unfold blockIntersects
  rw [decide_eq_true_eq, ne_eq, eq_zero_iff]
  simp only [not_forall, exists_prop, BitVec.getLsbD_and, Bool.not_eq_false, Bool.and_eq_true]

/-- **A power of two has one bit set.** -/
theorem popcount_eq_one_iff : popcount b = 1 ↔ ∃ k, b.toNat = 2 ^ k := by
  unfold popcount
  rw [countBits_eq_one_iff]
  constructor
  · rintro ⟨k, hk, hone⟩
    refine ⟨k, Nat.eq_of_testBit_eq fun j => ?_⟩
    rw [BitVec.testBit_toNat, Nat.testBit_two_pow, Bool.eq_iff_iff, decide_eq_true_eq]
    by_cases hj : j < w
    · rw [hone j hj, eq_comm]
    · rw [BitVec.getLsbD_of_ge _ _ (by omega)]
      exact iff_of_false (by decide) (by omega)
  · rintro ⟨k, hk⟩
    have hlt : k < w := (Nat.pow_lt_pow_iff_right (by decide)).mp (hk ▸ b.isLt)
    refine ⟨k, hlt, fun q _ => ?_⟩
    rw [← BitVec.testBit_toNat, hk, Nat.testBit_two_pow, decide_eq_true_eq, eq_comm]

end Blocks

/-! ## 2. The predicates -/

namespace BitBlockContainer
variable {w : Nat} {V : Vehicle w} (x y : BitBlockContainer V)

/-- `bit_includes(s1, s2)`: a few static blocks one by one, else the blocks both have, and above them
    only `s2` can hold a key that `s1` lacks. -/
def bitIncludes : Bool :=
  if V.hasStaticSize ∧ V.staticNumBlocks = 0 then true
  else if V.unrolls 1 then blockIncludes (x.block 0) (y.block 0)
  else if V.unrolls 2 then
    blockIncludes (x.block 0) (y.block 0) && blockIncludes (x.block 1) (y.block 1)
  else
    let shared := (x.mBlocks.elems.zip y.mBlocks.elems).all fun (lhs, rhs) => blockIncludes lhs rhs
    if V.hasStaticSize then shared else shared && !y.anyBlockSet x.numBlocks y.numBlocks

/-- `bit_intersects(s1, s2)`: only the blocks both have can meet. -/
def bitIntersects : Bool :=
  if V.hasStaticSize ∧ V.staticNumBlocks = 0 then false
  else if V.unrolls 1 then blockIntersects (x.block 0) (y.block 0)
  else if V.unrolls 2 then
    blockIntersects (x.block 0) (y.block 0) || blockIntersects (x.block 1) (y.block 1)
  else (x.mBlocks.elems.zip y.mBlocks.elems).any fun (lhs, rhs) => blockIntersects lhs rhs

/-- `has_single_bit(x)`, `single` being that of one block: the first block holding any is a power of
    two, and every block after it is zero. -/
def hasSingleBit (single : BitVec w → Bool) : Bool :=
  match x.mBlocks.elems.dropWhile fun block => !(block != zero) with
  | [] => false
  | first :: after => single first && !after.any fun block => block != zero

/-! ## 3. What they say of the positions -/

section Exact
variable {x y}

/-- The blocks both have, in pairs. -/
theorem mem_zip_iff {p : BitVec w × BitVec w} : p ∈ x.mBlocks.elems.zip y.mBlocks.elems ↔
    ∃ i, i < x.mBlocks.elems.length ∧ i < y.mBlocks.elems.length ∧ (x.block i, y.block i) = p := by
  rw [List.mem_iff_getElem]
  unfold block
  constructor
  · rintro ⟨i, hi, rfl⟩
    rw [List.length_zip] at hi
    refine ⟨i, by omega, by omega, ?_⟩
    rw [List.getElem_zip, List.getD_eq_getElem _ _ (by omega), List.getD_eq_getElem _ _ (by omega)]
  · rintro ⟨i, hx, hy, rfl⟩
    refine ⟨i, by rw [List.length_zip]; omega, ?_⟩
    rw [List.getElem_zip, List.getD_eq_getElem _ _ hx, List.getD_eq_getElem _ _ hy]

/-- A block past the last one reads as zero. -/
theorem block_past {i : Nat} (hi : x.mBlocks.elems.length ≤ i) : x.block i = zero :=
  List.getD_eq_default _ _ hi

theorem blockIncludes_zero {b : BitVec w} : blockIncludes zero b = true ↔ b = zero := by
  rw [blockIncludes_iff, eq_zero_iff]
  refine forall₂_congr fun j _ => ?_
  rw [getLsbD_zero']
  cases b.getLsbD j <;> simp

/-- **Inclusion block by block**, those a set lacks being empty. -/
theorem includes_blocks (x y : BitBlockContainer V) :
    (∀ i, i < y.mBlocks.elems.length → blockIncludes (x.block i) (y.block i) = true) ↔
      ∀ p, y.bit p = true → x.bit p = true := by
  constructor
  · intro h p hp
    obtain ⟨i, j, hj, rfl⟩ := exists_pos V.bits_pos p
    have hi : i < y.mBlocks.elems.length := by
      by_contra hi
      rw [bit_pos hj, block_past (by omega), getLsbD_zero'] at hp
      cases hp
    rw [bit_pos hj] at hp ⊢
    exact blockIncludes_iff.mp (h i hi) j hj hp
  · intro h i _
    rw [blockIncludes_iff]
    intro j hj hb
    rw [← bit_pos hj] at hb ⊢
    exact h _ hb

/-- **Intersection block by block**, of those both sets have. -/
theorem intersects_blocks (x y : BitBlockContainer V) :
    (∃ i, i < x.mBlocks.elems.length ∧ i < y.mBlocks.elems.length ∧
      blockIntersects (x.block i) (y.block i) = true) ↔ ∃ p, x.bit p = true ∧ y.bit p = true := by
  constructor
  · rintro ⟨i, -, -, h⟩
    obtain ⟨j, hj, hx, hy⟩ := blockIntersects_iff.mp h
    exact ⟨i * w + j, (bit_pos hj).trans hx, (bit_pos hj).trans hy⟩
  · rintro ⟨p, hx, hy⟩
    obtain ⟨i, j, hj, rfl⟩ := exists_pos V.bits_pos p
    have hlt {c : BitBlockContainer V} (hc : c.bit (i * w + j) = true) :
        i < c.mBlocks.elems.length := by
      by_contra hi
      rw [bit_pos hj, block_past (by omega), getLsbD_zero'] at hc
      cases hc
    rw [bit_pos hj] at hx hy
    refine ⟨i, hlt ((bit_pos hj).trans hx), hlt ((bit_pos hj).trans hy), ?_⟩
    exact blockIntersects_iff.mpr ⟨j, hj, hx, hy⟩

/-- Sets of one static width have blocks alike. -/
theorem length_eq_of_static (hx : x.Shape) (hy : y.Shape) (hs : V.hasStaticSize = true) :
    x.mBlocks.elems.length = y.mBlocks.elems.length := by
  rw [← hx.numBlocks, ← hy.numBlocks, numBlocks, numBlocks, if_pos hs, if_pos hs]

/-- No blocks at all. -/
theorem length_eq_zero (hx : x.Shape) (h : V.hasStaticSize = true ∧ V.staticNumBlocks = 0) :
    x.mBlocks.elems.length = 0 := by
  rw [← hx.numBlocks, numBlocks, if_pos h.1, h.2]

/-- The blocks both have, tested in pairs. -/
theorem zip_all_iff {test : BitVec w → BitVec w → Bool} :
    ((x.mBlocks.elems.zip y.mBlocks.elems).all fun (lhs, rhs) => test lhs rhs) = true ↔
      ∀ i, i < x.mBlocks.elems.length → i < y.mBlocks.elems.length →
        test (x.block i) (y.block i) = true := by
  rw [List.all_eq_true]
  constructor
  · intro h i hxi hyi
    exact h _ (mem_zip_iff.mpr ⟨i, hxi, hyi, rfl⟩)
  · intro h p hp
    obtain ⟨i, hxi, hyi, rfl⟩ := mem_zip_iff.mp hp
    exact h i hxi hyi

/-- Above the blocks `x` has, it includes what `y` has none of. -/
theorem shared_includes_iff :
    ((∀ i, i < x.mBlocks.elems.length → i < y.mBlocks.elems.length →
        blockIncludes (x.block i) (y.block i) = true) ∧
      ¬ ∃ i, x.mBlocks.elems.length ≤ i ∧ i < y.mBlocks.elems.length ∧ y.block i ≠ zero) ↔
    ∀ i, i < y.mBlocks.elems.length → blockIncludes (x.block i) (y.block i) = true := by
  constructor
  · rintro ⟨h, hnone⟩ i hi
    by_cases hxi : i < x.mBlocks.elems.length
    · exact h i hxi hi
    · rw [block_past (Nat.le_of_not_lt hxi), blockIncludes_zero]
      by_contra hne
      exact hnone ⟨i, Nat.le_of_not_lt hxi, hi, hne⟩
  · intro h
    refine ⟨fun i _ hi => h i hi, ?_⟩
    rintro ⟨i, hxi, hi, hne⟩
    have hinc := h i hi
    rw [block_past hxi, blockIncludes_zero] at hinc
    exact hne hinc

/-- **Inclusion**, whatever the two widths: above the shared blocks only `y` can hold a key that `x`
    lacks. -/
theorem bitIncludes_iff (hx : x.Inv) (hy : y.Inv) :
    x.bitIncludes y = true ↔ ∀ p, y.bit p = true → x.bit p = true := by
  rw [← includes_blocks]
  unfold bitIncludes
  split
  · rename_i h0
    rw [length_eq_zero hy.shape h0]
    exact iff_of_true rfl fun i hi => absurd hi (by omega)
  · split
    · rename_i hu
      rw [hy.shape.unrolls hu]
      simp
    · split
      · rename_i hu
        rw [hy.shape.unrolls hu, Bool.and_eq_true, Nat.forall_lt_succ_right]
        simp
      · dsimp only
        split
        · rename_i hs
          rw [zip_all_iff, length_eq_of_static hx.shape hy.shape hs]
          exact ⟨fun h i hi => h i hi hi, fun h i hi _ => h i hi⟩
        · rw [Bool.and_eq_true, zip_all_iff, Bool.not_eq_true', ← Bool.not_eq_true,
            hx.shape.numBlocks, hy.shape.numBlocks, anyBlockSet_iff]
          exact shared_includes_iff

/-- **Intersection**, whatever the two widths. -/
theorem bitIntersects_iff (hx : x.Inv) (hy : y.Inv) :
    x.bitIntersects y = true ↔ ∃ p, x.bit p = true ∧ y.bit p = true := by
  rw [← intersects_blocks]
  unfold bitIntersects
  split
  · rename_i h0
    rw [length_eq_zero hx.shape h0]
    simp
  · split
    · rename_i hu
      rw [hx.shape.unrolls hu, hy.shape.unrolls hu]
      simp
    · split
      · rename_i hu
        rw [hx.shape.unrolls hu, hy.shape.unrolls hu, Bool.or_eq_true]
        constructor
        · rintro (h | h)
          · exact ⟨0, by decide, by decide, h⟩
          · exact ⟨1, by decide, by decide, h⟩
        · rintro ⟨i, hi, -, h⟩
          rcases (show i = 0 ∨ i = 1 by omega) with rfl | rfl
          · exact Or.inl h
          · exact Or.inr h
      · rw [List.any_eq_true]
        constructor
        · rintro ⟨p, hp, h⟩
          obtain ⟨i, hxi, hyi, rfl⟩ := mem_zip_iff.mp hp
          exact ⟨i, hxi, hyi, h⟩
        · rintro ⟨i, hxi, hyi, h⟩
          exact ⟨_, mem_zip_iff.mpr ⟨i, hxi, hyi, rfl⟩, h⟩

/-- The first block holding any is asked, and none after it holds more: one bit in all of them. -/
theorem single_blocks {single : BitVec w → Bool}
    (hsingle : ∀ b, single b = true ↔ ∃ k, b.toNat = 2 ^ k) : ∀ bs : List (BitVec w),
    (match bs.dropWhile fun block => !(block != zero) with
      | [] => false
      | first :: after => single first && !after.any fun block => block != zero) = true ↔
      (bs.map popcount).sum = 1
  | [] => by simp
  | b :: bs => by
      have hcount (a : BitVec w) : popcount a = 0 ↔ a = zero := by
        unfold popcount
        rw [countBits_eq_zero_iff, eq_zero_iff]
      by_cases hb : b = zero
      · rw [List.dropWhile_cons_of_pos (by simp [hb]), List.map_cons, List.sum_cons,
          (hcount b).mpr hb, Nat.zero_add]
        exact single_blocks hsingle bs
      · have hrest : (!bs.any fun block => block != zero) = true ↔ (bs.map popcount).sum = 0 := by
          rw [List.sum_eq_zero_iff_forall_eq_nat, Bool.not_eq_true', List.any_eq_false,
            List.forall_mem_map]
          refine forall₂_congr fun a _ => ?_
          rw [hcount, bne_iff_ne, ne_eq, not_not]
        have hpos : popcount b ≠ 0 := (hcount b).not.mpr hb
        rw [List.dropWhile_cons_of_neg (by simp [hb]), List.map_cons, List.sum_cons,
          Bool.and_eq_true, hsingle, ← popcount_eq_one_iff, hrest]
        omega

/-- **A single bit**, wherever it is. -/
theorem hasSingleBit_iff {single : BitVec w → Bool}
    (hsingle : ∀ b, single b = true ↔ ∃ k, b.toNat = 2 ^ k) (hx : x.Inv) :
    x.hasSingleBit single = true ↔ ∃ p, ∀ q, x.bit q = true ↔ q = p := by
  refine (single_blocks hsingle x.mBlocks.elems).trans ?_
  rw [sum_popcounts, countBits_eq_one_iff]
  constructor
  · rintro ⟨p, hp, hone⟩
    refine ⟨p, fun q => ?_⟩
    by_cases hq : q < x.mBlocks.elems.length * w
    · exact hone q hq
    · rw [bit_of_le (by omega)]
      exact iff_of_false (by decide) (by omega)
  · rintro ⟨p, hone⟩
    have hsize := hx.shape.size_le
    have hlt := hx.lt_size ((hone p).mpr rfl)
    exact ⟨p, by omega, fun q _ => hone q⟩

variable {Key : Type} [LinearOrder Key] {M : KeyMapping Key} {desc : Bool} {U : Nat}
  {s t : KeySet Key desc}

/-- Keys of both are positions of both. -/
theorem subset_iff (hM : M.Bijective U) (hx : Represents M desc x s) (hy : Represents M desc y t) :
    (∀ p, y.bit p = true → x.bit p = true) ↔ ∀ k, k ∈ t → k ∈ s := by
  constructor
  · intro h k hk
    have hkey := hy.isKey k hk
    exact (hx.mem_iff hM hkey).mpr (h _ ((hy.mem_iff hM hkey).mp hk))
  · intro h p hp
    obtain ⟨k, hk, rfl⟩ := (hy.bit p).mp hp
    exact (hx.bit _).mpr ⟨k, h k hk, rfl⟩

theorem meet_iff (hM : M.Bijective U) (hx : Represents M desc x s) (hy : Represents M desc y t) :
    (∃ p, x.bit p = true ∧ y.bit p = true) ↔ ∃ k, k ∈ s ∧ k ∈ t := by
  constructor
  · rintro ⟨p, hp, hq⟩
    obtain ⟨k, hk, rfl⟩ := (hx.bit p).mp hp
    exact ⟨k, hk, (hy.mem_iff hM (hx.isKey k hk)).mpr hq⟩
  · rintro ⟨k, hk, hl⟩
    exact ⟨M.toIndex k, (hx.bit _).mpr ⟨k, hk, rfl⟩, (hy.bit _).mpr ⟨k, hl, rfl⟩⟩

theorem single_iff (hM : M.Bijective U) (hx : Represents M desc x s) :
    (∃ p, ∀ q, x.bit q = true ↔ q = p) ↔ ∃ k, ∀ j, j ∈ s ↔ j = k := by
  constructor
  · rintro ⟨p, hone⟩
    obtain ⟨k, hk, rfl⟩ := (hx.bit p).mp ((hone p).mpr rfl)
    refine ⟨k, fun j => ⟨fun hj => ?_, fun hj => hj ▸ hk⟩⟩
    have heq := (hone _).mp ((hx.bit _).mpr ⟨j, hj, rfl⟩)
    exact hM.inj (hx.isKey j hj) (hx.isKey k hk) heq
  · rintro ⟨k, hone⟩
    refine ⟨M.toIndex k, fun q => ?_⟩
    rw [hx.bit]
    constructor
    · rintro ⟨j, hj, rfl⟩
      rw [(hone j).mp hj]
    · rintro rfl
      exact ⟨k, (hone k).mpr rfl, rfl⟩

/-- **Set predicates**, over one type and any two widths, by owners and views alike: of the positions
    and, through whatever mapping the sets have, of their keys. `single` is the predicate of one
    block, which is true of the powers of two. -/
theorem set_predicates_exact {single : BitVec w → Bool}
    (hsingle : ∀ b, single b = true ↔ ∃ k, b.toNat = 2 ^ k) (hx : x.Inv) (hy : y.Inv) :
    (x.bitIncludes y = true ↔ ∀ p, y.bit p = true → x.bit p = true) ∧
    (x.bitIntersects y = true ↔ ∃ p, x.bit p = true ∧ y.bit p = true) ∧
    (x.hasSingleBit single = true ↔ ∃ p, ∀ q, x.bit q = true ↔ q = p) ∧
    ∀ {Key : Type} [LinearOrder Key] {M : KeyMapping Key} {desc : Bool} {U : Nat}
      {s t : KeySet Key desc}, M.Bijective U → Represents M desc x s → Represents M desc y t →
      (x.bitIncludes y = true ↔ ∀ k, k ∈ t → k ∈ s) ∧
      (x.bitIntersects y = true ↔ ∃ k, k ∈ s ∧ k ∈ t) ∧
      (x.hasSingleBit single = true ↔ ∃ k, ∀ j, j ∈ s ↔ j = k) := by
  refine ⟨bitIncludes_iff hx hy, bitIntersects_iff hx hy, hasSingleBit_iff hsingle hx, ?_⟩
  intro Key _ M desc U s t hM hs ht
  rw [bitIncludes_iff hx hy, bitIntersects_iff hx hy, hasSingleBit_iff hsingle hx]
  exact ⟨subset_iff hM hs ht, meet_iff hM hs ht, single_iff hM hs⟩

/-- The sets of nine and of three, over two byte blocks and over one. -/
theorem set_predicates_exact_nine : ∃ x y : BitBlockContainer (byteVector true),
    x.mBlocks.elems.length = 2 ∧ y.mBlocks.elems.length = 1 ∧ y.bitIncludes x = false ∧
    x.bitIntersects y = false ∧
    x.hasSingleBit (fun b => XstdBits.hasSingleBit b.toNat) = true := by
  have hM := unsignedMapping_bijective 8
  have hx := ((SetRun.start 0 : SetRun (byteVector true) (unsignedMapping 8) false true _ .empty).step
    .ample (.insert 9) (show (unsignedMapping 8).isKey 9 = true by decide) rfl).represents
    (by decide) hM
  have hy := ((SetRun.start 0 : SetRun (byteVector true) (unsignedMapping 8) false true _ .empty).step
    .ample (.insert 3) (show (unsignedMapping 8).isKey 3 = true by decide) rfl).represents
    (by decide) hM
  have hsingle (b : BitVec 8) : XstdBits.hasSingleBit b.toNat = true ↔ ∃ k, b.toNat = 2 ^ k :=
    hasSingleBit_pow
  obtain ⟨-, -, -, hxy⟩ := set_predicates_exact hsingle hx.inv hy.inv
  obtain ⟨-, -, -, hyx⟩ := set_predicates_exact hsingle hy.inv hx.inv
  obtain ⟨-, hmeet, hone⟩ := hxy hM hx hy
  obtain ⟨hsub, -, -⟩ := hyx hM hy hx
  have hnine (k : Fin (2 ^ 8)) : k ∈ (OrderedKeys.empty.insert 9 : KeySet _ false) ↔ k = 9 := by
    rw [OrderedKeys.mem_insert, or_iff_left OrderedKeys.not_mem_empty]
  have hthree (k : Fin (2 ^ 8)) : k ∈ (OrderedKeys.empty.insert 3 : KeySet _ false) ↔ k = 3 := by
    rw [OrderedKeys.mem_insert, or_iff_left OrderedKeys.not_mem_empty]
  refine ⟨_, _, ?_, ?_, Bool.eq_false_iff.mpr (hsub.not.mpr fun h => ?_),
    Bool.eq_false_iff.mpr (hmeet.not.mpr ?_), hone.mpr ⟨9, hnine⟩⟩
  · rfl
  · rfl
  · exact absurd ((hthree 9).mp (h 9 ((hnine 9).mpr rfl))) (by decide)
  · rintro ⟨k, hk, hl⟩
    rw [(hnine k).mp hk] at hl
    exact absurd ((hthree 9).mp hl) (by decide)

end Exact

end BitBlockContainer

end XstdBits
