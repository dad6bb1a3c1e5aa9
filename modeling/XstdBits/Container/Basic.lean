/-
  File: XstdBits/Container/Basic.lean
  Subject: `bit_block_container`, its representation invariant, and the writes of one position.

  * `BitBlockContainer V` holds the width, the kept count and the blocks; `size()` reads the one
    the storage stores, and `bit p` is position `p` of the blocks, past the width too.
  * `Inv` is the invariant: as many blocks as the width needs, a clear tail, a width the storage
    can hold, and a kept count that is the number of set positions.
  * every write of one position is `updateBlock` with one function on the block and its mask; it
    keeps the invariant when the count moves by what the position gained and lost
    (`Inv.updateBlock`).
-/
import XstdBits.Container.Storage

namespace XstdBits

/-! ## 1. The vehicle -/

/-- The members of `bit_block_container`: a width or a count the storage does not store is
    never read. -/
structure BitBlockContainer {w : Nat} (V : Vehicle w) where
  mSize : Nat
  mCount : Nat
  mBlocks : Blocks w
  deriving DecidableEq, Repr

namespace BitBlockContainer
variable {w : Nat} {V : Vehicle w} (c : BitBlockContainer V)

def numBlocks : Nat := if V.hasStaticSize then V.staticNumBlocks else c.mBlocks.elems.length

def size : Nat :=
  if V.hasStaticSize then V.extent
  else if V.hasZeroCapacity then 0
  else if V.hasStoredSize then c.mSize
  else c.numBlocks * w

/-- `m_blocks[i]`. -/
def block (i : Nat) : BitVec w := c.mBlocks.elems.getD i zero

/-- The container with other elements in its blocks. -/
def withElems (f : List (BitVec w) → List (BitVec w)) : BitBlockContainer V :=
  { c with mBlocks := { c.mBlocks with elems := f c.mBlocks.elems } }

/-- `m_blocks[i] = b`. -/
def setBlock (i : Nat) (b : BitVec w) : BitBlockContainer V := c.withElems (·.set i b)

def lastBlock : Nat := c.numBlocks - 1

def lastBit : Nat := c.numBlocks * w - 1

/-- Whether the blocks hold more bits than the width names. -/
def hasUnusedBits : Bool := c.numBlocks * w != c.size

/-- The bits of the last block that the width names. -/
def usedBits : BitVec w := shr ones (c.numBlocks * w - c.size)

/-- A position as a block and an offset; one static block is block zero. -/
def indexOffset (V : Vehicle w) (n : Nat) : Nat × Nat :=
  if V.unrolls 1 then (0, n) else (n / w, n % w)

def eraseUnused : BitBlockContainer V :=
  if V.staticHasUnusedBits then
    c.setBlock V.staticLastBlock (c.block V.staticLastBlock &&& V.staticUsedBits)
  else if V.hasStoredSize then
    if c.hasUnusedBits then c.setBlock c.lastBlock (c.block c.lastBlock &&& c.usedBits) else c
  else c

def storeSize (n : Nat) : BitBlockContainer V :=
  if V.hasZeroCapacity then c else { c with mSize := n }

def storedCount : Nat := if V.hasStoredCount then c.mCount else 0

def storeCount (n : Nat) : BitBlockContainer V :=
  if V.hasStoredCount then { c with mCount := n } else c

def countUp (n : Nat) : BitBlockContainer V := c.storeCount (c.storedCount + n)

def countDown (n : Nat) : BitBlockContainer V := c.storeCount (c.storedCount - n)

/-- `check_capacity`: a capacity short of the blocks' last bit is held here. -/
def overCapacity (V : Vehicle w) (n : Nat) : Bool := V.hasStaticCapacity && V.extent < n

/-! ## 2. Positions -/

/-- Position `p` of the blocks. -/
def bit (p : Nat) : Bool := bitAt c.mBlocks.elems p

/-- As many blocks as the width needs. -/
def Shape : Prop := c.mBlocks.elems.length = blocksFor w c.size

/-- **The representation invariant.** -/
structure Inv : Prop where
  shape : c.Shape
  clear : ∀ p, c.size ≤ p → c.bit p = false
  capacity : V.hasStaticCapacity = true → c.size ≤ V.extent
  bound : V.hasStoredSize = true → c.numBlocks ≤ V.maxNumBlocks
  count : V.hasStoredCount = true → c.mCount = countBits c.bit c.size

/-- The same width over the same number of blocks in the same storage: what every write but growth
    leaves. -/
structure SameWidth (c d : BitBlockContainer V) : Prop where
  mSize : d.mSize = c.mSize
  length : d.mBlocks.elems.length = c.mBlocks.elems.length
  reserved : d.mBlocks.reserved = c.mBlocks.reserved

section Frame

@[simp] theorem elems_withElems {f : List (BitVec w) → List (BitVec w)} :
    (c.withElems f).mBlocks.elems = f c.mBlocks.elems := rfl

@[simp] theorem mBlocks_storeCount {n : Nat} : (c.storeCount n).mBlocks = c.mBlocks := by
  unfold storeCount
  split <;> rfl

@[simp] theorem mBlocks_countUp {n : Nat} : (c.countUp n).mBlocks = c.mBlocks :=
  mBlocks_storeCount c

@[simp] theorem mBlocks_countDown {n : Nat} : (c.countDown n).mBlocks = c.mBlocks :=
  mBlocks_storeCount c

variable {c} {d e : BitBlockContainer V} {n p : Nat}

/-- A set position is below the width. -/
theorem Inv.lt_size (h : c.Inv) (hb : c.bit p = true) : p < c.size := by
  by_contra hge
  rw [h.clear p (Nat.le_of_not_lt hge)] at hb
  cases hb

theorem mCount_storeCount (h : V.hasStoredCount = true) : (c.storeCount n).mCount = n := by
  unfold storeCount
  rw [if_pos h]

theorem storedCount_eq (h : V.hasStoredCount = true) : c.storedCount = c.mCount := by
  unfold storedCount
  rw [if_pos h]

theorem mCount_countUp (h : V.hasStoredCount = true) : (c.countUp n).mCount = c.mCount + n := by
  unfold countUp
  rw [mCount_storeCount h, storedCount_eq h]

theorem mCount_countDown (h : V.hasStoredCount = true) : (c.countDown n).mCount = c.mCount - n := by
  unfold countDown
  rw [mCount_storeCount h, storedCount_eq h]

theorem bit_congr (h : d.mBlocks = c.mBlocks) : d.bit p = c.bit p := by
  unfold bit
  rw [h]

theorem SameWidth.refl : SameWidth c c := ⟨rfl, rfl, rfl⟩

theorem SameWidth.trans (h : SameWidth c d) (h' : SameWidth d e) : SameWidth c e :=
  ⟨h'.mSize.trans h.mSize, h'.length.trans h.length, h'.reserved.trans h.reserved⟩

theorem sameWidth_withElems {f : List (BitVec w) → List (BitVec w)}
    (h : (f c.mBlocks.elems).length = c.mBlocks.elems.length) : SameWidth c (c.withElems f) :=
  ⟨rfl, h, rfl⟩

theorem sameWidth_setBlock {i : Nat} {b : BitVec w} : SameWidth c (c.setBlock i b) :=
  ⟨rfl, List.length_set .., rfl⟩

theorem sameWidth_storeCount : SameWidth c (c.storeCount n) := by
  unfold storeCount
  split <;> exact ⟨rfl, rfl, rfl⟩

theorem sameWidth_countUp : SameWidth c (c.countUp n) := sameWidth_storeCount

theorem sameWidth_countDown : SameWidth c (c.countDown n) := sameWidth_storeCount

theorem SameWidth.numBlocks (h : SameWidth c d) : d.numBlocks = c.numBlocks := by
  unfold BitBlockContainer.numBlocks
  rw [h.length]

theorem SameWidth.size (h : SameWidth c d) : d.size = c.size := by
  unfold BitBlockContainer.size
  rw [h.mSize, h.numBlocks]

theorem SameWidth.shape (h : SameWidth c d) (hc : c.Shape) : d.Shape := by
  unfold Shape
  rw [h.length, h.size]
  exact hc

/-- **A write within the width keeps the invariant** when it keeps the tail clear and the count. -/
theorem Inv.write (h : c.Inv) (hw : SameWidth c d) (hclear : ∀ p, c.size ≤ p → d.bit p = false)
    (hcount : V.hasStoredCount = true → d.mCount = countBits d.bit c.size) : d.Inv where
  shape := hw.shape h.shape
  clear p hp := hclear p (by rwa [hw.size] at hp)
  capacity hc := by
    rw [hw.size]
    exact h.capacity hc
  bound hc := by
    rw [hw.numBlocks]
    exact h.bound hc
  count hc := by
    rw [hw.size]
    exact hcount hc

end Frame

section Shape
variable {c}

theorem numBlocks_of_static (hs : V.hasStaticSize = true) : c.numBlocks = V.staticNumBlocks := by
  unfold numBlocks
  rw [if_pos hs]

theorem size_of_static (hs : V.hasStaticSize = true) : c.size = V.extent := by
  unfold size
  rw [if_pos hs]

theorem Shape.numBlocks (h : c.Shape) : c.numBlocks = c.mBlocks.elems.length := by
  unfold BitBlockContainer.numBlocks
  split
  · rename_i hs
    rw [h]
    unfold Vehicle.staticNumBlocks size
    rw [if_pos hs, if_pos hs]
  · rfl

theorem Shape.size_le (h : c.Shape) : c.size ≤ c.mBlocks.elems.length * w := by
  rw [h]
  exact le_blocksFor_mul V.bits_pos

theorem Shape.lt_size_add (h : c.Shape) : c.mBlocks.elems.length * w < c.size + w := by
  rw [h]
  exact blocksFor_mul_lt V.bits_pos

theorem Shape.index_lt (h : c.Shape) {i j : Nat} (hp : i * w + j < c.size) :
    i < c.mBlocks.elems.length := by
  rw [h]
  exact lt_blocksFor V.bits_pos hp

theorem Shape.div_lt (h : c.Shape) {n : Nat} (hn : n < c.size) :
    n / w < c.mBlocks.elems.length := by
  refine h.index_lt (j := n % w) ?_
  rw [Nat.div_add_mod']
  exact hn

theorem Shape.unrolls (h : c.Shape) {k : Nat} (hk : V.unrolls k = true) :
    c.mBlocks.elems.length = k := by
  unfold Vehicle.unrolls at hk
  rw [Bool.and_eq_true, beq_iff_eq] at hk
  rw [← h.numBlocks, BitBlockContainer.numBlocks, if_pos hk.1, hk.2]

theorem indexOffset_eq (h : c.Shape) {n : Nat} (hn : n < c.mBlocks.elems.length * w) :
    indexOffset V n = (n / w, n % w) := by
  unfold indexOffset
  split
  · rename_i hu
    rw [h.unrolls hu, Nat.one_mul] at hn
    rw [Nat.div_eq_of_lt hn, Nat.mod_eq_of_lt hn]
  · rfl

/-- The block of a position, and its offset there. -/
theorem exists_indexOffset (h : c.Shape) {n : Nat} (hn : n < c.mBlocks.elems.length * w) :
    ∃ q r, indexOffset V n = (q, r) ∧ q < c.mBlocks.elems.length ∧ r < w ∧ n = q * w + r := by
  obtain ⟨q, r, hr, rfl⟩ := exists_pos V.bits_pos n
  refine ⟨q, r, ?_, (pos_lt_iff hr).mp hn, hr, rfl⟩
  rw [indexOffset_eq h hn, pos_div hr, pos_mod hr]

end Shape

/-! ## 3. The tail -/

section Tail
variable {c}

theorem bit_of_le (h : c.mBlocks.elems.length * w ≤ p) : c.bit p = false :=
  bitAt_of_le V.bits_pos h

theorem bit_pos {i j : Nat} (hj : j < w) : c.bit (i * w + j) = (c.block i).getLsbD j :=
  bitAt_pos hj

/-- The positions of the first block. -/
theorem getLsbD_first {j : Nat} (hj : j < w) : (c.block 0).getLsbD j = c.bit j := by
  have h := bit_pos (c := c) (i := 0) hj
  rw [Nat.zero_mul, Nat.zero_add] at h
  exact h.symm

theorem bit_setBlock {i : Nat} {b : BitVec w} (hi : i < c.mBlocks.elems.length) {p : Nat} :
    (c.setBlock i b).bit p = if p / w = i then b.getLsbD (p % w) else c.bit p :=
  bitAt_set hi

/-- The last block masked to the width leaves exactly the positions below it. -/
theorem bit_maskLast (h : c.Shape) (hu : c.mBlocks.elems.length * w ≠ c.size) {p : Nat} :
    (c.setBlock (c.mBlocks.elems.length - 1) (c.block (c.mBlocks.elems.length - 1) &&&
      shr ones (c.mBlocks.elems.length * w - c.size))).bit p = (c.bit p && decide (p < c.size)) := by
  have h1 := h.size_le
  have h2 := h.lt_size_add
  generalize hk : c.mBlocks.elems.length = k at h1 h2 hu ⊢
  have hkpos : 0 < k := by
    rcases Nat.eq_zero_or_pos k with rfl | hp
    · simp at h1 hu
      omega
    · exact hp
  have hke : k * w = (k - 1) * w + w := by
    rw [← Nat.succ_mul]
    congr 1
    omega
  rw [bit_setBlock (by omega)]
  obtain ⟨i, j, hj, rfl⟩ := exists_pos V.bits_pos p
  rw [pos_div hj, pos_mod hj, bit_pos hj]
  by_cases hi : i = k - 1
  · subst hi
    rw [if_pos rfl, BitVec.getLsbD_and, getLsbD_shr, getLsbD_ones]
    congr 1
    rw [decide_eq_decide]
    omega
  · rw [if_neg hi]
    rcases Nat.lt_or_ge i (k - 1) with hlt | hge
    · have := Nat.mul_le_mul_right w (Nat.succ_le_of_lt hlt)
      rw [Nat.succ_mul] at this
      have hp : i * w + j < c.size := by omega
      simp [hp]
    · have hz : (c.block i).getLsbD j = false := by
        rw [← bit_pos hj]
        refine bit_of_le ?_
        have := Nat.mul_le_mul_right w (show k ≤ i by omega)
        rw [hk]
        omega
      rw [hz, Bool.false_and]

theorem staticUsedBits_eq (h : c.Shape) (hs : V.hasStaticSize = true) :
    V.staticUsedBits = shr ones (c.mBlocks.elems.length * w - c.size) := by
  unfold Vehicle.staticUsedBits Vehicle.staticNumUnusedBits size
  rw [if_pos hs, if_pos hs, ← h.numBlocks, numBlocks, if_pos hs]

theorem staticHasUnusedBits_iff (h : c.Shape) (hs : V.hasStaticSize = true) :
    V.staticHasUnusedBits = true ↔ c.mBlocks.elems.length * w ≠ c.size := by
  have h1 := h.size_le
  have h2 := h.lt_size_add
  unfold Vehicle.staticHasUnusedBits
  rw [hs, Bool.true_and, decide_eq_true_eq, staticUsedBits_eq h hs]
  constructor
  · intro hne he
    refine hne ?_
    rw [he, Nat.sub_self]
    unfold shr
    exact BitVec.ushiftRight_zero _
  · intro hne he
    have hw := V.bits_pos
    have := congrArg (fun b => b.getLsbD (w - 1)) he
    simp only [getLsbD_shr, getLsbD_ones] at this
    rw [decide_eq_decide] at this
    omega

theorem hasUnusedBits_iff (h : c.Shape) :
    c.hasUnusedBits = true ↔ c.mBlocks.elems.length * w ≠ c.size := by
  unfold hasUnusedBits
  rw [bne_iff_ne, h.numBlocks]

/-- Unused bits that the type itself knows of come with a width it knows. -/
theorem staticSize_of_unused (hu : V.staticHasUnusedBits = true) : V.hasStaticSize = true := by
  unfold Vehicle.staticHasUnusedBits at hu
  rw [Bool.and_eq_true] at hu
  exact hu.1

theorem sameWidth_eraseUnused : SameWidth c c.eraseUnused := by
  unfold eraseUnused
  split
  · exact sameWidth_setBlock
  · split
    · split
      · exact sameWidth_setBlock
      · exact SameWidth.refl
    · exact SameWidth.refl

theorem mCount_eraseUnused : c.eraseUnused.mCount = c.mCount := by
  unfold eraseUnused
  split
  · rfl
  · split
    · split <;> rfl
    · rfl

/-- **`erase_unused` clears every position past the width and no other.** -/
theorem bit_eraseUnused (h : c.Shape) {p : Nat} :
    c.eraseUnused.bit p = (c.bit p && decide (p < c.size)) := by
  have hkeep (he : c.mBlocks.elems.length * w = c.size) :
      c.bit p = (c.bit p && decide (p < c.size)) := by
    by_cases hp : p < c.size
    · simp [hp]
    · rw [bit_of_le (by omega), Bool.false_and]
  unfold eraseUnused
  split
  · rename_i hu
    have hs := staticSize_of_unused hu
    have hlast : V.staticLastBlock = c.mBlocks.elems.length - 1 := by
      unfold Vehicle.staticLastBlock
      rw [← h.numBlocks, numBlocks, if_pos hs]
    rw [hlast, staticUsedBits_eq h hs]
    exact bit_maskLast h ((staticHasUnusedBits_iff h hs).mp hu)
  · rename_i hu
    split
    · split
      · rename_i hun
        unfold lastBlock usedBits
        rw [h.numBlocks]
        exact bit_maskLast h ((hasUnusedBits_iff h).mp hun)
      · rename_i hun
        rw [hasUnusedBits_iff h, not_not] at hun
        exact hkeep hun
    · rename_i hns
      refine hkeep ?_
      by_cases hs : V.hasStaticSize = true
      · by_contra hne
        exact hu ((staticHasUnusedBits_iff h hs).mpr hne)
      · -- a lent span: every bit is a position
        have hz : V.hasZeroCapacity = false := by
          unfold Vehicle.hasStoredSize at hns
          unfold Vehicle.hasZeroCapacity
          split <;> simp_all
        unfold size
        rw [if_neg hs, hz, if_neg (by decide), if_neg hns, h.numBlocks]

end Tail

/-! ## 4. A lent span -/

section Lent
variable {c}

theorem lent_flags (hv : V.storage = .lent) : V.hasStaticSize = false ∧ V.hasStoredSize = false ∧
    V.hasZeroCapacity = false ∧ V.hasStaticCapacity = false ∧ V.hasStoredCount = false := by
  unfold Vehicle.hasStaticSize Vehicle.hasStoredSize Vehicle.hasZeroCapacity
    Vehicle.hasStaticCapacity Vehicle.hasStoredCount
  rw [hv]
  exact ⟨rfl, rfl, rfl, rfl, rfl⟩

/-- Every bit of the span is a position. -/
theorem lent_size (hv : V.storage = .lent) : c.size = c.mBlocks.elems.length * w := by
  obtain ⟨h1, h2, h3, -, -⟩ := lent_flags hv
  unfold size numBlocks
  simp only [h1, h2, h3, Bool.false_eq_true, if_false]

/-- **Any blocks that are lent satisfy the invariant.** -/
theorem lent_inv (hv : V.storage = .lent) : c.Inv := by
  obtain ⟨-, h2, -, h4, h5⟩ := lent_flags hv
  have hsize := lent_size hv (c := c)
  refine ⟨?_, fun p hp => ?_, fun h => ?_, fun h => ?_, fun h => ?_⟩
  · unfold Shape
    rw [hsize, blocksFor_mul_self V.bits_pos]
  · exact bit_of_le (by omega)
  · rw [h4] at h
    cases h
  · rw [h2] at h
    cases h
  · rw [h5] at h
    cases h

end Lent

/-! ## 5. What a `std::size_t` counts -/

section Counted
variable {c}

/-- Whatever owner, its blocks hold no more than a `std::size_t` counts. -/
theorem Inv.addressable (h : c.Inv) (hV : V.storage ≠ .lent) :
    c.mBlocks.elems.length * w < 2 ^ 64 ∧ c.size < 2 ^ 64 := by
  have hsize := le_blocksFor_mul (n := c.size) V.bits_pos
  suffices hle : blocksFor w c.size * w ≤ sizeMax by
    rw [show c.mBlocks.elems.length = blocksFor w c.size from h.shape]
    unfold sizeMax at hle
    omega
  rcases V.owned_of_not_lent hV with hs | hs
  · have hbound := h.bound hs
    have hns : V.hasStaticSize = false := by
      unfold Vehicle.hasStoredSize at hs
      unfold Vehicle.hasStaticSize
      split at hs <;> simp_all
    unfold numBlocks at hbound
    rw [hns, if_neg (by decide), show c.mBlocks.elems.length = blocksFor w c.size from h.shape]
      at hbound
    exact Nat.le_trans (Nat.mul_le_mul_right w hbound) V.maxWidth_le
  · have hwhole := V.whole_blocks
    unfold size Vehicle.extent
    rw [if_pos hs]
    unfold Vehicle.hasStaticSize at hs
    unfold Storage.wholeBlocks at hwhole
    split at hs
    · rename_i n hn
      rw [hn] at hwhole ⊢
      exact of_decide_eq_true hwhole
    · cases hs

/-- Nor do lent ones, as long as their width is one. -/
theorem Inv.numBlocks_lt (h : c.Inv) (hlent : V.storage = .lent → c.numBlocks ≤ V.maxNumBlocks) :
    c.numBlocks < 2 ^ 64 := by
  have hle : c.numBlocks * w ≤ sizeMax := by
    by_cases hV : V.storage = .lent
    · exact Nat.le_trans (Nat.mul_le_mul_right w (hlent hV)) V.maxWidth_le
    · have := (h.addressable hV).1
      rw [h.shape.numBlocks]
      unfold sizeMax
      omega
  have := Nat.le_mul_of_pos_right c.numBlocks V.bits_pos
  unfold sizeMax at hle
  omega

end Counted

end BitBlockContainer

end XstdBits
