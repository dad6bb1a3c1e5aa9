/-
  File: XstdBits/Valarray/Masks.lean
  Subject: the masks a selection is walked by, a block at a time.

  * a `MaskStep` is one call of a `for_each`; `Walks` says that the calls come to ascending blocks
    with the bits of one string `f` as their masks, and `selected` lists the positions they select.
  * `wordMask_bits`: a block of the stored words is the stored words, at every block width.
  * a mask that is stored, the array's own among them, and the words of a gslice are walked as they
    stand (`storedMasks_walks`, `wordMasks_walks`).
-/
import XstdBits.Valarray.Subscript

namespace XstdBits

/-! ## 1. Walks -/

/-- One call of a `for_each`: the block, its mask, which may be that block of the array itself, and
    the number of bits the call says the mask has. -/
structure MaskStep (w : Nat) where
  block : Nat
  mask : BitVec w → Option (BitVec w)
  count : BitVec w → Nat

/-- The call is for block `k` of `bs`, and its mask has the bits of `f` there. -/
def MaskStep.Visits {w : Nat} (bs : List (BitVec w)) (f : Nat → Bool) (s : MaskStep w) (k : Nat) :
    Prop :=
  s.block = k ∧ ∃ m, s.mask (bs.getD k zero) = some m ∧ s.count m = popcount m ∧
    ∀ j, j < w → m.getLsbD j = f (k * w + j)

/-- **The calls come to the blocks `ks`**, upwards and within `bs`, with the bits of `f`. -/
structure Walks {w : Nat} (bs : List (BitVec w)) (f : Nat → Bool) (ks : List Nat)
    (steps : List (MaskStep w)) : Prop where
  visits : List.Forall₂ (MaskStep.Visits bs f) steps ks
  ascends : ks.Pairwise (· < ·)
  within : ∀ k, k ∈ ks → k < bs.length

section Walks
variable {w : Nat} {bs : List (BitVec w)} {f : Nat → Bool} {ks : List Nat}
  {steps : List (MaskStep w)}

/-- Every call is for one of the blocks. -/
theorem Walks.visit_of_mem (h : Walks bs f ks steps) {s : MaskStep w} (hs : s ∈ steps) :
    s.block ∈ ks ∧ s.Visits bs f s.block := by
  have hall : ∀ {ks : List Nat} {steps : List (MaskStep w)},
      List.Forall₂ (MaskStep.Visits bs f) steps ks → s ∈ steps →
        s.block ∈ ks ∧ s.Visits bs f s.block := by
    intro ks steps hvisits
    induction hvisits with
    | nil =>
        intro hs
        exact absurd hs List.not_mem_nil
    | cons hv _ ih =>
        intro hs
        rcases List.mem_cons.mp hs with rfl | hs
        · obtain rfl := hv.1
          exact ⟨List.mem_cons_self, hv⟩
        · obtain ⟨h1, h2⟩ := ih hs
          exact ⟨List.mem_cons_of_mem _ h1, h2⟩
  exact hall h.visits hs

/-- Their blocks are the blocks of the walk. -/
theorem Walks.blocks_eq (h : Walks bs f ks steps) : steps.map MaskStep.block = ks := by
  have hall := h.visits.imp fun _ _ hv => hv.1
  rwa [← List.forall₂_map_left_iff (f := MaskStep.block), List.forall₂_eq_eq_eq] at hall

/-- Steps to the blocks of a range, one for each. -/
theorem Walks.of_range' {a n : Nat} {step : Nat → MaskStep w} (hn : a + n ≤ bs.length)
    (h : ∀ k, a ≤ k → k < a + n → (step k).Visits bs f k) :
    Walks bs f (List.range' a n) ((List.range' a n).map step) where
  visits := by
    rw [List.forall₂_map_left_iff, List.forall₂_same]
    intro k hk
    rw [List.mem_range'_1] at hk
    exact h k hk.1 hk.2
  ascends := List.pairwise_lt_range'
  within k hk := by
    rw [List.mem_range'_1] at hk
    omega

end Walks

/-! ## 2. The words of a gslice -/

section WordMasks
variable {w : Nat}

/-- The mask `word_masks` reads of block `k`; a block of up to a word lies in one word, which has to
    be there, and a wider one across several, the last of which may be missing. -/
def wordMask (w : Nat) (words : List (BitVec 64)) (k : Nat) : Option (BitVec w) :=
  let pos := k * w
  if w ≤ 64 then
    if pos / 64 < words.length then
      some ((shr (words.getD (pos / 64) 0) (pos % 64)).setWidth w)
    else none
  else
    some (forUp 0 (w / 64) (fun i mask =>
      let index := pos / 64 + i
      let bits := if index < words.length then (words.getD index 0).setWidth w else zero
      mask ||| shl bits (i * 64)) zero)

/-- How many blocks hold the first `width` positions. -/
def wordBlocks (w : Nat) (width : SizeT) : Nat :=
  ((width + BitVec.ofNat 64 w - 1) / BitVec.ofNat 64 w).toNat

variable {words : List (BitVec 64)} {k : Nat}

/-- The words put together: after `i` of them the bits below `i * 64` are theirs. -/
theorem wideMask_bits (hd : w % 64 = 0) {j : Nat} (hj : j < w) :
    (forUp 0 (w / 64) (fun i (mask : BitVec w) =>
      mask ||| shl (if k * w / 64 + i < words.length then
        (words.getD (k * w / 64 + i) 0).setWidth w else zero) (i * 64)) zero).getLsbD j =
      bitAt words (k * w + j) := by
  have hinv := forUp_inv
    (f := fun i (mask : BitVec w) =>
      mask ||| shl (if k * w / 64 + i < words.length then
        (words.getD (k * w / 64 + i) 0).setWidth w else zero) (i * 64))
    (P := fun i (mask : BitVec w) => ∀ j, j < w →
      mask.getLsbD j = (decide (j < i * 64) && bitAt words (k * w + j)))
    (a := 0) (b := w / 64) (s := zero) (Nat.zero_le _)
    (fun j _ => by rw [getLsbD_zero', decide_eq_false (by omega), Bool.false_and]) ?_
  · rw [hinv j hj, decide_eq_true (by omega), Bool.true_and]
  · intro i mask _ hi ih j hj
    have hmul : k * w % 64 = 0 := by rw [Nat.mul_mod, hd, Nat.mul_zero, Nat.zero_mod]
    rw [BitVec.getLsbD_or, ih j hj, getLsbD_shl hj, Nat.succ_mul]
    have hword : i * 64 ≤ j → j < i * 64 + 64 →
        (if k * w / 64 + i < words.length then (words.getD (k * w / 64 + i) 0).setWidth w
          else (zero : BitVec w)).getLsbD (j - i * 64) = bitAt words (k * w + j) := by
      intro h1 h2
      have hdiv : (k * w + j) / 64 = k * w / 64 + i := by omega
      have hmod : (k * w + j) % 64 = j - i * 64 := by omega
      unfold bitAt
      rw [hdiv, hmod]
      split
      · rw [BitVec.getLsbD_setWidth, decide_eq_true (by omega), Bool.true_and]
        rfl
      · rw [getLsbD_zero', List.getD_eq_default _ _ (by omega), BitVec.getLsbD_zero]
    by_cases h1 : j < i * 64
    · rw [decide_eq_true h1, decide_eq_true (show j < i * 64 + 64 by omega),
        decide_eq_false (show ¬ i * 64 ≤ j by omega), Bool.false_and, Bool.or_false]
    · rw [decide_eq_false h1, Bool.false_and, Bool.false_or,
        decide_eq_true (show i * 64 ≤ j by omega), Bool.true_and]
      by_cases h2 : j < i * 64 + 64
      · rw [hword (by omega) h2, decide_eq_true h2, Bool.true_and]
      · rw [decide_eq_false h2, Bool.false_and]
        split
        · rw [BitVec.getLsbD_setWidth, BitVec.getLsbD_of_ge _ _ (by omega), Bool.and_false]
        · exact getLsbD_zero'

/-- **A block of the stored words is the stored words**, at every width a block may have. -/
theorem wordMask_bits (hw : tilingBlock w = true) (hk : k * w < words.length * 64) :
    ∃ mask, wordMask w words k = some mask ∧
      ∀ j, j < w → mask.getLsbD j = bitAt words (k * w + j) := by
  obtain ⟨e, -, rfl⟩ := tilingBlock_pow hw
  unfold wordMask
  dsimp only
  by_cases hle : 2 ^ e ≤ 64
  · -- The width divides a word's, so no block straddles two.
    have hdvd : 2 ^ e ∣ 64 := by
      rw [show 64 = 2 ^ 6 from rfl] at hle ⊢
      exact Nat.pow_dvd_pow 2 ((Nat.pow_le_pow_iff_right (by decide)).mp hle)
    obtain ⟨m, hm⟩ := hdvd
    have hin : k * 2 ^ e / 64 < words.length := by omega
    rw [if_pos hle, if_pos hin]
    refine ⟨_, rfl, fun j hj => ?_⟩
    have hfit : k * 2 ^ e % 64 + 2 ^ e ≤ 64 := by
      have hmod : k * 2 ^ e % 64 = 2 ^ e * (k % m) := by
        rw [hm, Nat.mul_comm k, Nat.mul_mod_mul_left]
      have hpos : 0 < m := Nat.pos_of_ne_zero fun hz => by
        rw [hz, Nat.mul_zero] at hm
        cases hm
      have hlt : 2 ^ e * (k % m + 1) ≤ 2 ^ e * m := Nat.mul_le_mul_left _ (Nat.mod_lt k hpos)
      rw [hmod]
      rw [Nat.mul_succ] at hlt
      omega
    have hdiv : (k * 2 ^ e + j) / 64 = k * 2 ^ e / 64 := by omega
    have hmod : (k * 2 ^ e + j) % 64 = k * 2 ^ e % 64 + j := by omega
    rw [BitVec.getLsbD_setWidth, decide_eq_true hj, Bool.true_and, getLsbD_shr]
    unfold bitAt
    rw [hdiv, hmod]
    rfl
  · rw [if_neg hle]
    have hd : 2 ^ e % 64 = 0 := by
      have he : 6 ≤ e := by
        by_contra hlt
        exact hle (Nat.pow_le_pow_right (by decide) (show e ≤ 6 by omega))
      exact Nat.mod_eq_zero_of_dvd (Nat.pow_dvd_pow 2 he)
    exact ⟨_, rfl, fun j hj => wideMask_bits hd hj⟩

end WordMasks

/-! ## 3. Stored masks and words -/

/-- The blocks an array lends to an operation on another: those it writes itself, or different
    ones. -/
inductive LentBlocks (w : Nat) where
  | own
  | of (blocks : List (BitVec w))

section Stored
variable {w : Nat} {bs : List (BitVec w)}

/-- Block `k` of a mask, where the array's own is `b`. -/
def LentBlocks.mask (masks : LentBlocks w) (k : Nat) (b : BitVec w) : Option (BitVec w) :=
  match masks with
  | own => some b
  | of blocks => blocks[k]?

/-- The blocks that are lent, while those written are `bs`. -/
def LentBlocks.get (lent : LentBlocks w) (bs : List (BitVec w)) : List (BitVec w) :=
  match lent with
  | own => bs
  | of blocks => blocks

/-- Their bits, while those of the array written are `s`. -/
def LentBlocks.bits (lent : LentBlocks w) (s : Nat → Bool) : Nat → Bool :=
  match lent with
  | own => s
  | of blocks => bitAt blocks

@[simp] theorem LentBlocks.bitAt_get {lent : LentBlocks w} :
    bitAt (lent.get bs) = lent.bits (bitAt bs) := by
  cases lent <;> rfl

/-- `stored_masks`: every block of the mask array. -/
def storedMasks (masks : LentBlocks w) (bs : List (BitVec w)) : List (MaskStep w) :=
  (List.range (masks.get bs).length).map fun k => ⟨k, masks.mask k, popcount⟩

/-- `word_masks`: the blocks of the stored words that hold the first `width` positions. -/
def wordMasks (w : Nat) (words : List (BitVec 64)) (width : SizeT) : List (MaskStep w) :=
  (List.range (wordBlocks w width)).map fun k => ⟨k, fun _ => wordMask w words k, popcount⟩

theorem storedMasks_walks {masks : LentBlocks w} (h : (masks.get bs).length = bs.length) :
    Walks bs (bitAt (masks.get bs)) (List.range bs.length) (storedMasks masks bs) := by
  unfold storedMasks
  rw [h, List.range_eq_range']
  refine .of_range' (by omega) fun k _ hk => ⟨rfl, (masks.get bs).getD k zero, ?_, rfl,
    fun j hj => (bitAt_pos hj).symm⟩
  have hin : k < (masks.get bs).length := by omega
  cases masks with
  | own => rfl
  | of blocks =>
      have hin : k < blocks.length := hin
      show blocks[k]? = some (blocks.getD k zero)
      rw [List.getD_eq_getElem _ _ hin]
      exact List.getElem?_eq_getElem hin

/-- Blocks that a `std::size_t` counts the bits of leave room for one more. -/
theorem whole_block_left (hw : tilingBlock w = true) (hint : w < 2 ^ 31) {n : Nat}
    (hn : n * w < 2 ^ 64) : n * w + w ≤ 2 ^ 64 := by
  obtain ⟨e, -, rfl⟩ := tilingBlock_pow hw
  have he : e < 31 := (Nat.pow_lt_pow_iff_right (by decide)).mp hint
  have hsplit : (2 : Nat) ^ 64 = 2 ^ (64 - e) * 2 ^ e := by
    rw [← Nat.pow_add, Nat.sub_add_cancel (by omega)]
  rw [hsplit] at hn ⊢
  have hlt : n < 2 ^ (64 - e) := block_lt_of_mul_lt hn
  have := Nat.mul_le_mul_right (2 ^ e) (show n + 1 ≤ 2 ^ (64 - e) from hlt)
  rwa [Nat.succ_mul] at this

/-- Where the array's blocks are counted, so are the blocks of a width inside it. -/
theorem wordBlocks_eq {width : SizeT} (hw : tilingBlock w = true) (hint : w < 2 ^ 31) {n : Nat}
    (hn : n * w < 2 ^ 64) (hle : width.toNat ≤ n * w) :
    wordBlocks w width = blocksFor w width.toNat := by
  -- the next whole block still ends within the size type
  have hsum := whole_block_left hw hint hn
  obtain ⟨e, -, rfl⟩ := tilingBlock_pow hw
  have he : e < 31 := (Nat.pow_lt_pow_iff_right (by decide)).mp hint
  have hpos := Nat.two_pow_pos e
  have hwid : (BitVec.ofNat 64 (2 ^ e)).toNat = 2 ^ e := by
    rw [BitVec.toNat_ofNat, Nat.mod_eq_of_lt (Nat.pow_lt_pow_right (by decide) (by omega))]
  have hadd : (width + BitVec.ofNat 64 (2 ^ e) - 1).toNat = width.toNat + 2 ^ e - 1 := by
    rw [BitVec.toNat_sub, BitVec.toNat_add, hwid, show (1 : SizeT).toNat = 1 from rfl,
      Nat.add_mod_mod, show 2 ^ 64 - 1 + (width.toNat + 2 ^ e) = 2 ^ 64 + (width.toNat + 2 ^ e - 1)
        by omega, Nat.add_mod_left, Nat.mod_eq_of_lt (by omega)]
  unfold wordBlocks
  rw [BitVec.toNat_udiv, hadd, hwid, eq_comm, blocksFor_eq_iff hpos]
  have h1 := Nat.div_add_mod' (width.toNat + 2 ^ e - 1) (2 ^ e)
  have h2 := Nat.mod_lt (width.toNat + 2 ^ e - 1) hpos
  omega

/-- **The words are walked as they stand**, up to a width the array and the words cover. -/
theorem wordMasks_walks {words : List (BitVec 64)} {width : SizeT} (hw : tilingBlock w = true)
    (hint : w < 2 ^ 31) (hn : bs.length * w < 2 ^ 64) (hle : width.toNat ≤ bs.length * w)
    (hwords : width.toNat ≤ words.length * 64) :
    Walks bs (bitAt words) (List.range (blocksFor w width.toNat)) (wordMasks w words width) := by
  have hpos := pos_of_tilingBlock hw
  have hlt := blocksFor_mul_lt (n := width.toNat) hpos
  unfold wordMasks
  rw [wordBlocks_eq hw hint hn hle, List.range_eq_range']
  refine .of_range' ?_ fun k _ hk => ?_
  · rw [Nat.zero_add]
    exact (blocksFor_le_iff hpos).mpr hle
  · have hk : (k + 1) * w ≤ blocksFor w width.toNat * w := Nat.mul_le_mul_right w (by omega)
    rw [Nat.succ_mul] at hk
    obtain ⟨mask, hmask, hbits⟩ := wordMask_bits hw (show k * w < words.length * 64 by omega)
    exact ⟨rfl, mask, hmask, rfl, hbits⟩

end Stored

end XstdBits
