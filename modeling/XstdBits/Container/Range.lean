/-
  File: XstdBits/Container/Range.lean
  Subject: the blocks at any position, and the ranged operations.

  * `blockAt n` reads the bits `[n, n + w)`, straddling two blocks where `n` is not aligned;
    `writeBlockAt n value mask` is its write side, under a mask (`getLsbD_blockAt`,
    `bit_writeBlockAt`).
  * `forEachBlock` walks a range a block at a time, a partial one at the end; `countRange` counts
    over it (`countRange_eq`).
  * `findBlock` walks a range the same way and ends at the first block its predicate takes;
    `any(n, len)` and `all(n, len)` are it, over the masked bits (`findBlock_iff`).
  * `setRange` masks the first and the last block and stores the whole ones between
    (`bit_setRange`), and moves the kept count by what the range held and holds.
-/
import XstdBits.Container.Reduce

namespace XstdBits

namespace BitBlockContainer
variable {w : Nat} {V : Vehicle w} (c : BitBlockContainer V)

/-! ## 1. A block at any position -/

/-- The block straddling `index` and `index + 1`, spliced from a shift up and a shift down. -/
def straddled (elems : List (BitVec w)) (index lShift rShift : Nat) : BitVec w :=
  shl (elems.getD (index + 1) zero) lShift ||| shr (elems.getD index zero) rShift

def straddledBlock (index lShift rShift : Nat) : BitVec w :=
  straddled c.mBlocks.elems index lShift rShift

/-- The bits `[n, n + w)`, the clear tail and nothing beyond. -/
def blockAt (n : Nat) : BitVec w :=
  let index := (indexOffset V n).1
  let offset := (indexOffset V n).2
  if offset = 0 ∨ index = c.lastBlock then shr (c.block index) offset
  else c.straddledBlock index (w - offset) offset

/-- The write side of `block_at`, masked. -/
def writeBlockAt (n : Nat) (value mask : BitVec w) : BitBlockContainer V :=
  let index := (indexOffset V n).1
  let offset := (indexOffset V n).2
  let bits := value &&& mask
  let lowKept := c.block index &&& ~~~(shl mask offset)
  let low := c.setBlock index (lowKept ||| shl bits offset)
  if offset ≠ 0 ∧ index ≠ c.lastBlock then
    let shift := w - offset
    let highKept := low.block (index + 1) &&& ~~~(shr mask shift)
    low.setBlock (index + 1) (highKept ||| shr bits shift)
  else low

section BlockAt
variable {c} {n p j : Nat}

theorem getLsbD_straddledBlock {i r : Nat} (hr : r < w) (hj : j < w) :
    (c.straddledBlock i (w - r) r).getLsbD j = c.bit (i * w + r + j) :=
  bitAt_splice hr hj

/-- **`block_at(n)` holds position `n + j` at bit `j`**, clear past the last block. -/
theorem getLsbD_blockAt (h : c.Shape) (hn : n < c.mBlocks.elems.length * w) (hj : j < w) :
    (c.blockAt n).getLsbD j = c.bit (n + j) := by
  unfold blockAt
  rw [indexOffset_eq h hn]
  have hmod := Nat.mod_lt n V.bits_pos
  have hdiv := Nat.div_add_mod' n w
  simp only
  split
  · rename_i hc
    rw [getLsbD_shr]
    by_cases hjr : n % w + j < w
    · rw [← bit_pos hjr, ← Nat.add_assoc, hdiv]
    · rw [BitVec.getLsbD_of_ge _ _ (by omega)]
      symm
      rcases hc with h0 | hlast
      · omega
      · refine bit_of_le ?_
        have hlt : n / w < c.mBlocks.elems.length := Nat.div_lt_of_lt_mul (by rwa [Nat.mul_comm])
        have hl : c.mBlocks.elems.length = n / w + 1 := by
          rw [hlast, lastBlock, h.numBlocks]
          omega
        rw [hl, Nat.succ_mul]
        omega
  · rw [getLsbD_straddledBlock hmod hj, hdiv]

theorem sameWidth_writeBlockAt {value mask : BitVec w} :
    SameWidth c (c.writeBlockAt n value mask) := by
  unfold writeBlockAt
  extract_lets index offset bits lowKept low shift highKept
  split
  · exact sameWidth_setBlock.trans sameWidth_setBlock
  · exact sameWidth_setBlock

@[simp] theorem mCount_writeBlockAt {value mask : BitVec w} :
    (c.writeBlockAt n value mask).mCount = c.mCount := by
  unfold writeBlockAt
  extract_lets index offset bits lowKept low shift highKept
  split <;> rfl

/-- The low half of a masked write. -/
theorem getLsbD_maskedLow {b value mask : BitVec w} {r : Nat} (hj : j < w) :
    (b &&& ~~~(shl mask r) ||| shl (value &&& mask) r).getLsbD j =
      if r ≤ j ∧ mask.getLsbD (j - r) = true then value.getLsbD (j - r) else b.getLsbD j := by
  rw [BitVec.getLsbD_or, BitVec.getLsbD_and, BitVec.getLsbD_not, getLsbD_shl hj, getLsbD_shl hj,
    BitVec.getLsbD_and]
  by_cases hr : r ≤ j
  · cases hm : mask.getLsbD (j - r) <;> simp [hr, hj]
  · simp [hr, hj]

/-- The high half of a masked write. -/
theorem getLsbD_maskedHigh {b value mask : BitVec w} {s : Nat} (hj : j < w) :
    (b &&& ~~~(shr mask s) ||| shr (value &&& mask) s).getLsbD j =
      if mask.getLsbD (s + j) = true then value.getLsbD (s + j) else b.getLsbD j := by
  rw [BitVec.getLsbD_or, BitVec.getLsbD_and, BitVec.getLsbD_not, getLsbD_shr, getLsbD_shr,
    BitVec.getLsbD_and]
  cases hm : mask.getLsbD (s + j) <;> simp [hj]

/-- **A masked write of a block changes the masked positions, to the value's bits.** -/
theorem bit_writeBlockAt (h : c.Shape) (hn : n < c.mBlocks.elems.length * w) {value mask : BitVec w}
    (hm : ∀ j, j < w → mask.getLsbD j = true → n + j < c.mBlocks.elems.length * w) :
    (c.writeBlockAt n value mask).bit p =
      if n ≤ p ∧ mask.getLsbD (p - n) = true then value.getLsbD (p - n) else c.bit p := by
  obtain ⟨q, r, hqr, hq, hmod, rfl⟩ := exists_indexOffset h hn
  unfold writeBlockAt
  rw [hqr]
  extract_lets index offset bits lowKept low shift highKept
  obtain ⟨i, j, hj, rfl⟩ := exists_pos V.bits_pos p
  -- the first block takes the mask's low part
  have hlow : low.bit (i * w + j) = if i = q ∧ r ≤ j ∧ mask.getLsbD (j - r) = true
      then value.getLsbD (j - r) else c.bit (i * w + j) := by
    rw [bit_setBlock hq, pos_div hj, pos_mod hj, getLsbD_maskedLow hj]
    by_cases hi : i = q
    · subst hi
      simp only [if_true, true_and, bit_pos hj]
      rfl
    · simp [hi]
  split
  · rename_i hc
    have hlt : q + 1 < c.mBlocks.elems.length := by
      have := hc.2
      unfold lastBlock at this
      rw [h.numBlocks] at this
      omega
    rw [bit_setBlock (by rw [sameWidth_setBlock.length]; exact hlt), pos_div hj, pos_mod hj,
      getLsbD_maskedHigh hj]
    have ht := block_trichotomy i (q + 1) w
    rw [Nat.succ_mul] at ht
    by_cases hi : i = q + 1
    · have hb : low.block (q + 1) = c.block (q + 1) := by
        rw [block_setBlock, if_neg (by omega)]
      have he : i * w + j - (q * w + r) = w - r + j := by omega
      have hle : q * w + r ≤ i * w + j := by omega
      rw [if_pos hi, he, hb, bit_pos hj, hi]
      simp only [hi ▸ hle, true_and]
      rfl
    · rw [if_neg hi, hlow]
      by_cases hiq : i = q
      · rw [hiq, show q * w + j - (q * w + r) = j - r by omega]
        simp
      · rw [if_neg (by tauto)]
        symm
        rw [if_neg]
        rintro ⟨hle, hbit⟩
        have hge : w ≤ i * w + j - (q * w + r) := by
          have h2 := block_trichotomy i (q + 2) w
          have h0 := block_trichotomy i q w
          rw [Nat.add_mul] at h2
          omega
        rw [BitVec.getLsbD_of_ge _ _ hge] at hbit
        cases hbit
  · rename_i hc
    rw [hlow]
    have ht := block_trichotomy i q w
    by_cases hiq : i = q
    · rw [hiq, show q * w + j - (q * w + r) = j - r by omega]
      simp
    · rw [if_neg (by tauto)]
      symm
      rw [if_neg]
      rintro ⟨hle, hbit⟩
      have hlt : i * w + j - (q * w + r) < w := BitVec.lt_of_getLsbD hbit
      have hin := hm _ hlt hbit
      rw [Nat.add_sub_cancel' hle] at hin
      have hi : i < c.mBlocks.elems.length := (pos_lt_iff hj).mp hin
      refine hc ⟨?_, ?_⟩
      · show r ≠ 0
        omega
      · show q ≠ c.lastBlock
        unfold lastBlock
        rw [h.numBlocks]
        omega

/-- What the write side asserts: the mask stays inside the width. -/
def MaskWithin (n : Nat) (mask : BitVec w) : Prop :=
  n + w ≤ c.size ∨ shr mask (c.size - n) = zero

theorem MaskWithin.lt {n j : Nat} {mask : BitVec w} (h : c.MaskWithin n mask)
    (hm : mask.getLsbD j = true) : n + j < c.size := by
  have hj : j < w := BitVec.lt_of_getLsbD hm
  rcases h with h | h
  · omega
  · by_contra hge
    have hz := congrArg (fun b => b.getLsbD (j - (c.size - n))) h
    simp only [getLsbD_shr, BitVec.getLsbD_zero] at hz
    rw [show c.size - n + (j - (c.size - n)) = j by omega, hm] at hz
    cases hz

theorem Inv.writeBlockAt (h : c.Inv) (hu : V.hasStoredCount = false)
    (hn : n < c.mBlocks.elems.length * w) {value mask : BitVec w} (hm : c.MaskWithin n mask) :
    (c.writeBlockAt n value mask).Inv := by
  have hsz := h.shape.size_le
  refine h.write sameWidth_writeBlockAt (fun p hp => ?_) fun hs => ?_
  · rw [bit_writeBlockAt h.shape hn fun j _ hj => by have := hm.lt hj; omega, if_neg]
    · exact h.clear p hp
    · intro hc
      have := hm.lt hc.2
      omega
  · rw [hu] at hs
    cases hs

/-- **A write under a partial mask** changes `m` positions from `n` on. -/
theorem bit_writePartial (h : c.Shape) (hn : n < c.mBlocks.elems.length * w) {m : Nat} (hm : m ≤ w)
    (hin : n + m ≤ c.mBlocks.elems.length * w) {value : BitVec w} :
    (c.writeBlockAt n value (partialBlockMask m)).bit p =
      if n ≤ p ∧ p < n + m then value.getLsbD (p - n) else c.bit p := by
  rw [bit_writeBlockAt h hn fun j _ hj => by
    rw [getLsbD_partialBlockMask hm, decide_eq_true_eq] at hj
    omega]
  refine if_congr ?_ rfl rfl
  rw [getLsbD_partialBlockMask hm, decide_eq_true_eq]
  omega

theorem Inv.writePartial (h : c.Inv) (hu : V.hasStoredCount = false) {m : Nat} (hm0 : 0 < m)
    (hm : m ≤ w) (hin : n + m ≤ c.size) {value : BitVec w} :
    (c.writeBlockAt n value (partialBlockMask m)).Inv := by
  have hsz := h.shape.size_le
  refine h.writeBlockAt hu (by omega) (Or.inr (BitVec.eq_of_getLsbD_eq fun j hj => ?_))
  rw [getLsbD_shr, getLsbD_partialBlockMask hm, BitVec.getLsbD_zero, decide_eq_false (by omega)]

end BlockAt

/-! ## 2. A range, a block at a time -/

/-- The blocks a range of positions spans, each with its mask. -/
def forEachBlock {σ : Type} (w n len : Nat) (f : Nat → BitVec w → σ → σ) (s : σ) : σ :=
  forStep w n (n + len) (fun pos s => f pos (partialBlockMask (min w (n + len - pos))) s) s

/-- `count(n, len)`. -/
def countRange (n len : Nat) : Nat :=
  forEachBlock w n len (fun pos mask sum => sum + popcount (c.blockAt pos &&& mask)) 0

/-- The bits set in `[n, n + len)` where a count is kept. -/
def countedIn (n len : Nat) : Nat := if V.hasStoredCount then c.countRange n len else 0

section CountRange
variable {c} {n len : Nat}

theorem popcount_blockAt (h : c.Shape) (hn : n < c.mBlocks.elems.length * w) {m : Nat}
    (hm : m ≤ w) : popcount (c.blockAt n &&& partialBlockMask m) = countIn c.bit n m := by
  unfold popcount
  rw [countBits_of_clear hm fun p hp _ => by
    rw [BitVec.getLsbD_and, getLsbD_partialBlockMask hm]; simp; omega]
  unfold countIn
  refine countBits_congr fun j hj => ?_
  rw [BitVec.getLsbD_and, getLsbD_partialBlockMask hm, getLsbD_blockAt h hn (by omega)]
  simp [hj]

/-- **`count(n, len)` counts the set positions of the range.** -/
theorem countRange_eq (h : c.Shape) (hlen : n + len ≤ c.size) :
    c.countRange n len = countIn c.bit n len := by
  have hsz := h.size_le
  unfold countRange forEachBlock
  have key := forStep_inv (k := w) (a := n) (b := n + len)
    (f := fun pos sum => sum + popcount (c.blockAt pos &&&
      partialBlockMask (min w (n + len - pos)))) (s := 0)
    (fun q sum => n ≤ q ∧ sum = countIn c.bit n (min (q - n) len)) V.bits_pos
    ⟨Nat.le_refl n, by simp [countIn]⟩ ?_
  · obtain ⟨q, hq, -, hsum⟩ := key
    rw [hsum, show min (q - n) len = len by omega]
  · rintro q sum hlt ⟨hle, rfl⟩
    refine ⟨by omega, ?_⟩
    rw [popcount_blockAt h (by omega) (by omega), show min (q - n) len = q - n by omega]
    have he : min (q + w - n) len = (q - n) + min w (n + len - q) := by omega
    rw [he, countIn_add, show n + (q - n) = q by omega]

theorem countedIn_eq (h : c.Shape) (hlen : n + len ≤ c.size) (hs : V.hasStoredCount = true) :
    c.countedIn n len = countIn c.bit n len := by
  unfold countedIn
  rw [if_pos hs, countRange_eq h hlen]

end CountRange

/-! ## 3. The ranged queries -/

/-- Whether a block of `[n, n + len)`, masked to the range, satisfies `pred`; the first that does
    ends the walk. -/
def findBlock (n len : Nat) (pred : BitVec w → BitVec w → Bool) : Bool :=
  (firstAnswer w n (n + len) fun pos =>
    if pred (c.blockAt pos) (partialBlockMask (min w (n + len - pos))) then .some () else .none).isSome

/-- `any(n, len)`. -/
def anyIn (n len : Nat) : Bool := c.findBlock n len fun block mask => (block &&& mask) != zero

/-- `all(n, len)`: a clear position ends it. -/
def allIn (n len : Nat) : Bool := !c.findBlock n len fun block mask => (block &&& mask) != mask

section Queries
variable {c} {n len m : Nat}

/-- **A block of the range is found** where a position of the range is such as the predicate says
    of the positions under its mask. -/
theorem findBlock_iff {pred : BitVec w → BitVec w → Bool} {P : Nat → Prop}
    (hlen : n + len ≤ c.size)
    (hpred : ∀ q m, q + m ≤ c.size → 0 < m → m ≤ w →
      (pred (c.blockAt q) (partialBlockMask m) = true ↔ ∃ p, q ≤ p ∧ p < q + m ∧ P p)) :
    c.findBlock n len pred = true ↔ ∃ p, n ≤ p ∧ p < n + len ∧ P p := by
  have hw := V.bits_pos
  obtain ⟨body, hbody⟩ : ∃ body : Nat → Option Unit, body = fun pos =>
    if pred (c.blockAt pos) (partialBlockMask (min w (n + len - pos))) then .some () else .none :=
    ⟨_, rfl⟩
  have hturn : ∀ q, q < n + len → (n ≤ q ∧ ∀ p, n ≤ p → p < min q (n + len) → ¬ P p) →
      body q = .none → n ≤ q + w ∧ ∀ p, n ≤ p → p < min (q + w) (n + len) → ¬ P p := by
    intro q hq ⟨hnq, hall⟩ hb
    refine ⟨by omega, fun p h1 h2 hP => ?_⟩
    by_cases hlt : p < q
    · exact hall p h1 (by omega) hP
    · simp only [hbody] at hb
      rw [if_pos ((hpred q (min w (n + len - q)) (by omega) (by omega) (by omega)).mpr
        ⟨p, by omega, by omega, hP⟩)] at hb
      cases hb
  have hfind : c.findBlock n len pred = (firstAnswer w n (n + len) body).isSome := by
    rw [hbody]
    rfl
  rw [hfind]
  rcases firstAnswer_cases _ hw ⟨Nat.le_refl n, fun p h1 h2 => by omega⟩ hturn with
    ⟨q, v, hq, ⟨hnq, -⟩, hb, hfound⟩ | ⟨q, hq, ⟨-, hall⟩, hnone⟩
  · rw [hfound]
    refine iff_of_true rfl ?_
    simp only [hbody] at hb
    split at hb
    · rename_i hp
      obtain ⟨p, h1, h2, hP⟩ := (hpred q _ (by omega) (by omega) (by omega)).mp hp
      exact ⟨p, by omega, by omega, hP⟩
    · cases hb
  · rw [hnone]
    exact iff_of_false Bool.false_ne_true fun ⟨p, h1, h2, hP⟩ => hall p h1 (by omega) hP

/-- The bits of a block under a partial mask, as positions. -/
theorem getLsbD_blockUnder (h : c.Shape) {q : Nat} (hq : q + m ≤ c.size) (hm0 : 0 < m)
    (hm : m ≤ w) {j : Nat} (hj : j < w) :
    (c.blockAt q &&& partialBlockMask m).getLsbD j = (decide (j < m) && c.bit (q + j)) := by
  have hsz := h.size_le
  rw [BitVec.getLsbD_and, getLsbD_blockAt h (by omega) hj, getLsbD_partialBlockMask hm,
    Bool.and_comm]

/-- **`any(n, len)`: some position of the range is set.** -/
theorem anyIn_iff (h : c.Shape) (hlen : n + len ≤ c.size) :
    c.anyIn n len = true ↔ ∃ p, n ≤ p ∧ p < n + len ∧ c.bit p = true := by
  refine findBlock_iff hlen fun q m hq hm0 hm => ?_
  rw [bne_iff_ne, ne_zero_iff]
  constructor
  · intro ⟨j, hj, hb⟩
    rw [getLsbD_blockUnder h hq hm0 hm hj, Bool.and_eq_true, decide_eq_true_eq] at hb
    exact ⟨q + j, by omega, by omega, hb.2⟩
  · intro ⟨p, h1, h2, hb⟩
    refine ⟨p - q, by omega, ?_⟩
    rw [getLsbD_blockUnder h hq hm0 hm (by omega), decide_eq_true (by omega), Bool.true_and,
      show q + (p - q) = p by omega]
    exact hb

/-- **`all(n, len)`: every position of the range is set.** -/
theorem allIn_iff (h : c.Shape) (hlen : n + len ≤ c.size) :
    c.allIn n len = true ↔ ∀ p, n ≤ p → p < n + len → c.bit p = true := by
  have hclear : c.findBlock n len (fun block mask => (block &&& mask) != mask) = true ↔
      ∃ p, n ≤ p ∧ p < n + len ∧ c.bit p = false := by
    refine findBlock_iff hlen fun q m hq hm0 hm => ?_
    rw [bne_iff_ne]
    constructor
    · intro hne
      by_contra hall
      refine hne (BitVec.eq_of_getLsbD_eq fun j hj => ?_)
      rw [getLsbD_blockUnder h hq hm0 hm hj, getLsbD_partialBlockMask hm]
      by_cases hjm : j < m
      · have hset : c.bit (q + j) = true := by
          rw [← Bool.not_eq_false]
          exact fun hc => hall ⟨q + j, by omega, by omega, hc⟩
        rw [hset, Bool.and_true]
      · rw [decide_eq_false hjm, Bool.false_and]
    · intro ⟨p, h1, h2, hb⟩ heq
      have hbit := getLsbD_blockUnder h hq hm0 hm (j := p - q) (by omega)
      rw [heq, getLsbD_partialBlockMask hm, decide_eq_true (by omega), Bool.true_and,
        show q + (p - q) = p by omega, hb] at hbit
      cases hbit
  unfold allIn
  rw [Bool.not_eq_true', ← Bool.not_eq_true, hclear]
  constructor
  · intro hno p h1 h2
    rw [← Bool.not_eq_false]
    exact fun hc => hno ⟨p, h1, h2, hc⟩
  · intro hall ⟨p, h1, h2, hc⟩
    rw [hall p h1 h2] at hc
    cases hc

end Queries

/-! ## 4. A range written -/

/-- A block written with one value under a mask. -/
def writeMasked (value : Bool) (index : Nat) (mask : BitVec w) : BitBlockContainer V :=
  c.setBlock index (if value then c.block index ||| mask else c.block index &&& ~~~mask)

/-- `set(n, len, value)`: the first and last blocks masked, the whole blocks between stored. -/
def setRange (n len : Nat) (value : Bool) : BitBlockContainer V :=
  let before := c.countedIn n len
  let written :=
    if len ≠ 0 then
      let first := (indexOffset V n).1
      let head := (indexOffset V n).2
      let last := (indexOffset V (n + len - 1)).1
      let tail := (indexOffset V (n + len - 1)).2
      let fromHead := shl ones head
      let toTail := shr ones (w - 1 - tail)
      if first = last then c.writeMasked value first (fromHead &&& toTail)
      else
        ((c.writeMasked value first fromHead).withElems
          (fillRange (first + 1) last (if value then ones else zero))).writeMasked value last toTail
    else c
  written.storeCount (c.storedCount - before + len * value.toNat)

section SetRange
variable {c} {n len p : Nat} {v : Bool}

theorem bit_writeMasked {i : Nat} {mask : BitVec w} (hi : i < c.mBlocks.elems.length) :
    (c.writeMasked v i mask).bit p =
      if p / w = i ∧ mask.getLsbD (p % w) = true then v else c.bit p := by
  unfold writeMasked
  rw [bit_setBlock hi]
  have hj := Nat.mod_lt p V.bits_pos
  by_cases hp : p / w = i
  · have hb : c.bit p = (c.block i).getLsbD (p % w) := by
      rw [← hp]
      rfl
    rw [if_pos hp, hb]
    cases v
    · rw [if_neg (by decide), BitVec.getLsbD_and, BitVec.getLsbD_not]
      cases hm : mask.getLsbD (p % w) <;> simp [hp, hj]
    · rw [if_pos rfl, BitVec.getLsbD_or]
      cases hm : mask.getLsbD (p % w) <;> simp [hp]
  · rw [if_neg hp, if_neg fun hc => hp hc.1]

theorem sameWidth_writeMasked {i : Nat} {mask : BitVec w} :
    SameWidth c (c.writeMasked v i mask) := sameWidth_setBlock

theorem bit_fillRange {lo hi : Nat} (hhi : hi ≤ c.mBlocks.elems.length) :
    (c.withElems (fillRange lo hi (if v then ones else zero))).bit p =
      if lo * w ≤ p ∧ p < hi * w then v else c.bit p := by
  obtain ⟨i, j, hj, rfl⟩ := exists_pos V.bits_pos p
  have hf := getD_fillRange (d := zero) (v := if v then (ones : BitVec w) else zero) (a := lo) hhi i
  rw [bit_pos hj, bit_pos hj]
  show ((fillRange lo hi _ c.mBlocks.elems).getD i zero).getLsbD j = _
  have h1 := block_trichotomy i lo w
  have h2 := block_trichotomy i hi w
  rw [hf]
  by_cases hin : lo ≤ i ∧ i < hi
  · have hin' : lo * w ≤ i * w + j ∧ i * w + j < hi * w := by omega
    rw [if_pos hin, if_pos hin']
    cases v
    · exact BitVec.getLsbD_zero
    · simp [hj]
  · rw [if_neg hin, if_neg (by omega)]
    rfl

/-- The blocks of a ranged write, before the count. -/
theorem setRange_spec (h : c.Shape) (hlen : n + len ≤ c.size) :
    SameWidth c (c.setRange n len v) ∧
      ∀ p, (c.setRange n len v).bit p = if n ≤ p ∧ p < n + len then v else c.bit p := by
  have hsz := h.size_le
  unfold setRange
  extract_lets before first head last tail fromHead toTail written
  suffices hw : SameWidth c written ∧
      ∀ p, written.bit p = if n ≤ p ∧ p < n + len then v else c.bit p by
    refine ⟨hw.1.trans sameWidth_storeCount, fun p => ?_⟩
    rw [bit_congr (mBlocks_storeCount _)]
    exact hw.2 p
  subst written
  split
  · rename_i hl0
    obtain ⟨hfi, hhead, hn⟩ : first < c.mBlocks.elems.length ∧ head < w ∧ n = first * w + head := by
      obtain ⟨q, r, hqr, h1, h2, h3⟩ := exists_indexOffset h (n := n) (by omega)
      simp only [first, head, hqr]
      exact ⟨h1, h2, h3⟩
    obtain ⟨hla, htail, hn'⟩ : last < c.mBlocks.elems.length ∧ tail < w ∧
        n + len - 1 = last * w + tail := by
      obtain ⟨q, r, hqr, h1, h2, h3⟩ := exists_indexOffset h (n := n + len - 1) (by omega)
      simp only [last, tail, hqr]
      exact ⟨h1, h2, h3⟩
    have hfrom (j : Nat) (hj : j < w) : fromHead.getLsbD j = true ↔ head ≤ j := by
      show (shl ones head).getLsbD j = true ↔ _
      rw [getLsbD_shl hj, getLsbD_ones]
      simp
      omega
    have hto (j : Nat) : toTail.getLsbD j = true ↔ j ≤ tail := by
      show (shr ones (w - 1 - tail)).getLsbD j = true ↔ _
      rw [getLsbD_shr, getLsbD_ones, decide_eq_true_eq]
      omega
    clear_value first head last tail fromHead toTail
    have hfl := block_trichotomy first last w
    split
    · rename_i he
      subst he
      refine ⟨sameWidth_writeMasked, fun p => ?_⟩
      rw [bit_writeMasked hfi]
      obtain ⟨i, j, hj, rfl⟩ := exists_pos V.bits_pos p
      have hi := block_trichotomy i first w
      simp only [pos_div hj, pos_mod hj, BitVec.getLsbD_and, Bool.and_eq_true, hfrom j hj, hto j]
      split_ifs <;> first | rfl | omega
    · rename_i hne
      have hlen1 : (c.writeMasked v first fromHead).mBlocks.elems.length = c.mBlocks.elems.length :=
        sameWidth_writeMasked.length
      have hsw : SameWidth c ((c.writeMasked v first fromHead).withElems
          (fillRange (first + 1) last (if v then ones else zero))) :=
        sameWidth_writeMasked.trans (sameWidth_withElems (length_fillRange (by omega)))
      refine ⟨hsw.trans sameWidth_writeMasked, fun p => ?_⟩
      rw [bit_writeMasked (by rw [hsw.length]; exact hla), bit_fillRange (by omega),
        bit_writeMasked hfi]
      obtain ⟨i, j, hj, rfl⟩ := exists_pos V.bits_pos p
      have hi := block_trichotomy i first w
      have hi' := block_trichotomy i last w
      simp only [pos_div hj, pos_mod hj, hfrom j hj, hto j, Nat.succ_mul]
      split_ifs <;> first | rfl | omega
  · rename_i hl0
    refine ⟨SameWidth.refl, fun p => ?_⟩
    rw [if_neg (by omega)]

/-- **`set(n, len, value)` changes exactly the range.** -/
theorem bit_setRange (h : c.Shape) (hlen : n + len ≤ c.size) :
    (c.setRange n len v).bit p = if n ≤ p ∧ p < n + len then v else c.bit p :=
  (setRange_spec h hlen).2 p

theorem sameWidth_setRange (h : c.Shape) (hlen : n + len ≤ c.size) :
    SameWidth c (c.setRange n len v) :=
  (setRange_spec h hlen).1

theorem mCount_setRange (h : c.Shape) (hlen : n + len ≤ c.size) (hs : V.hasStoredCount = true) :
    (c.setRange n len v).mCount = c.mCount - countIn c.bit n len + len * v.toNat := by
  unfold setRange
  rw [mCount_storeCount hs, storedCount_eq hs, countedIn_eq h hlen hs]

theorem Inv.setRange (h : c.Inv) (hlen : n + len ≤ c.size) : (c.setRange n len v).Inv := by
  refine h.write (sameWidth_setRange h.shape hlen) (fun p hp => ?_) fun hs => ?_
  · rw [bit_setRange h.shape hlen, if_neg (by omega)]
    exact h.clear p hp
  · have hw := countBits_write (f := c.bit) (g := (c.setRange n len v).bit) (v := v) hlen
      (fun p h1 h2 => by rw [bit_setRange h.shape hlen, if_pos ⟨h1, h2⟩])
      (fun p hp => by rw [bit_setRange h.shape hlen, if_neg hp])
    have hle : countIn c.bit n len ≤ c.mCount := by
      rw [h.count hs, countBits_split hlen]
      omega
    rw [mCount_setRange h.shape hlen hs, h.count hs]
    rw [h.count hs] at hle
    omega

end SetRange

end BitBlockContainer

end XstdBits
