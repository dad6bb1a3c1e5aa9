/-
  File: XstdBits/Container/Growth.lean
  Subject: the operations that move the width.

  * `resizeTo` grows or shrinks the blocks and then fills the rest of the old last block, or clears
    the tail; the count moves by what left and what arrived. `resizeTo_ok` says what a completed
    call leaves, `resizeTo_strong` that a refused one leaves everything as it was.
  * `append` adds a block at any width, `growingInsert` and `growToAdmit` widen to a position.
-/
import XstdBits.Lib.Outcome
import XstdBits.Container.Shift

namespace XstdBits

/-- An action on one container. -/
abbrev Action {w : Nat} (V : Vehicle w) (α : Type) := EStateM Exn (BitBlockContainer V) α

/-- Saturated at the top of `size_t` rather than wrapped. -/
def widthSum (base count : Nat) : Nat := if sizeMax - base < count then sizeMax else base + count

namespace BitBlockContainer
variable {w : Nat} {V : Vehicle w} (c : BitBlockContainer V)

/-- `max_size()`, in bits. -/
def maxSize : Nat :=
  if V.hasStaticCapacity then V.extent
  else if V.hasStoredSize then min V.maxBlocks V.maxNumBlocks * w
  else c.size

/-- `check_width`: a width no positions of which a `size_t` counts is refused. -/
def checkWidth (V : Vehicle w) (n : Nat) : Except Exn Nat :=
  if V.maxWidth < n then .error (.lengthError n V.maxWidth) else .ok n

/-- `check_addressable_width`: the same against the ceiling a `difference_type` sets. -/
def checkAddressableWidth (V : Vehicle w) (n : Nat) : Except Exn Nat :=
  if V.maxAddressableWidth < n then .error (.lengthError n V.maxAddressableWidth) else .ok n

/-! ## 1. Resizing -/

/-- The blocks of a growth with ones: which bits become new is read off the old width, and written
    only once the blocks have grown. -/
def growOnes (mem : Memory) (count : Nat) : Except Exn (BitBlockContainer V) :=
  let ragged := c.hasUnusedBits
  let tail := if ragged then ~~~c.usedBits else zero
  let oldCount := c.numBlocks
  match c.mBlocks.resize V mem count ones with
  | .error e => .error e
  | .ok blocks =>
      let d := { c with mBlocks := blocks }
      .ok (if ragged then d.setBlock (oldCount - 1) (d.block (oldCount - 1) ||| tail) else d)

/-- No new block can be a one here: either the value is false or the width is not growing. -/
def growZeros (mem : Memory) (count : Nat) : Except Exn (BitBlockContainer V) :=
  match c.mBlocks.resize V mem count zero with
  | .error e => .error e
  | .ok blocks => .ok { c with mBlocks := blocks }

/-- `resize_to(n, value)`. -/
def resizeTo (mem : Memory) (n : Nat) (value : Bool) : Action V Unit := fun c =>
  if overCapacity V n then .error .badAlloc c
  else
    let kept := min n c.size
    let leaving := c.countedIn kept (c.size - kept)
    let arrived := (max n c.size - c.size) * value.toNat
    let count := blocksFor w n
    let grown := if value = true ∧ c.size < n then c.growOnes mem count else c.growZeros mem count
    match grown with
    | .error e => .error e c
    | .ok d =>
        let erased := (d.storeSize n).eraseUnused
        .ok () (erased.storeCount (erased.storedCount - leaving + arrived))

def resize (mem : Memory) (n : Nat) (value : Bool) : Action V Unit := resizeTo mem n value

/-- `clear()`: width zero and no blocks. -/
def clear (mem : Memory) : Action V Unit := resizeTo mem 0 false

def pushBack (mem : Memory) (value : Bool) : Action V Unit := fun c =>
  resize mem (c.size + 1) value c

def popBack (mem : Memory) : Action V Unit := fun c => resizeTo mem (c.size - 1) false c

/-- `append(value)`: the block's bits become `[size(), size() + w)`, split where unaligned. -/
def append (mem : Memory) (value : BitVec w) : Action V Unit := fun c =>
  if overCapacity V (c.size + w) then .error .badAlloc c
  else
    let offset := c.size % w
    let pushed : Except Exn (BitBlockContainer V) :=
      if offset ≠ 0 then
        -- pushed first, so that a refused push leaves the old last block's unused bits clear
        match c.mBlocks.pushBack V mem (shr value (w - offset)) with
        | .error e => .error e
        | .ok blocks =>
            let d := { c with mBlocks := blocks }
            .ok (d.setBlock (d.lastBlock - 1) (d.block (d.lastBlock - 1) ||| shl value offset))
      else
        match c.mBlocks.pushBack V mem value with
        | .error e => .error e
        | .ok blocks => .ok { c with mBlocks := blocks }
    match pushed with
    | .error e => .error e c
    | .ok d => .ok () ((d.storeSize (c.size + w)).countUp (popcount value))

/-- `growing_insert(n)`: total, where `insert(n)` takes a position below the width. -/
def growingInsert (mem : Memory) (n : Nat) : Action V Bool := fun c =>
  if V.hasStoredSize ∧ c.size ≤ n then
    -- `width_sum`, not `n + 1`: at the top of `size_t` that is a width of zero
    match resize mem (widthSum n 1) false c with
    | .error e d => .error e d
    | .ok _ d => .ok true (d.set n)
  else .ok (c.insert n).2 (c.insert n).1

/-- `grow_to_admit(other)`: as wide as the other's largest element, not its size. -/
def growToAdmit (mem : Memory) (other : Operand V) : Action V Unit := fun c =>
  if V.hasStoredSize then
    if !(other.get c).any then .ok () c
    else
      let n := (other.get c).exclusiveFindPrev (other.get c).size + 1
      if c.size < n then resizeTo mem n false c else .ok () c
  else .ok () c

/-- A container grown to admit its operand, then combined with it. -/
def admitThen (mem : Memory) (other : Operand V) (op : BitVec w → BitVec w → BitVec w) :
    Action V Unit := fun c =>
  match growToAdmit mem other c with
  | .error e d => .error e d
  | .ok _ d => .ok () (d.combine other op)

/-- `grow_to_admit` and `|=`, as every reading calls them. -/
def orAdmitted (mem : Memory) (other : Operand V) : Action V Unit :=
  admitThen mem other fun lhs rhs => lhs ||| rhs

/-- `grow_to_admit` and `^=`. -/
def xorAdmitted (mem : Memory) (other : Operand V) : Action V Unit :=
  admitThen mem other fun lhs rhs => lhs ^^^ rhs

section Resize
variable {c} {mem : Memory} {n p : Nat} {v : Bool} {d : BitBlockContainer V}

theorem stored_not_static (hs : V.hasStoredSize = true) : V.hasStaticSize = false := by
  unfold Vehicle.hasStoredSize at hs
  unfold Vehicle.hasStaticSize
  split <;> simp_all

theorem size_of_stored (hs : V.hasStoredSize = true) :
    c.size = if V.hasZeroCapacity then 0 else c.mSize := by
  unfold size
  rw [stored_not_static hs, if_neg (by decide), if_pos hs]

theorem numBlocks_of_stored (hs : V.hasStoredSize = true) :
    c.numBlocks = c.mBlocks.elems.length := by
  unfold numBlocks
  rw [stored_not_static hs, if_neg (by decide)]

@[simp] theorem mBlocks_storeSize : (c.storeSize n).mBlocks = c.mBlocks := by
  unfold storeSize
  split <;> rfl

@[simp] theorem mCount_storeSize : (c.storeSize n).mCount = c.mCount := by
  unfold storeSize
  split <;> rfl

/-- The width a stored width reads back, which a capacity of nought keeps at zero. -/
theorem size_storeSize (hs : V.hasStoredSize = true) (hn : V.hasZeroCapacity = true → n = 0) :
    (c.storeSize n).size = n := by
  rw [size_of_stored hs]
  unfold storeSize
  split
  · rename_i hz
    exact (hn hz).symm
  · rfl

theorem zeroCapacity_of_fits (hn : overCapacity V n = false) :
    V.hasZeroCapacity = true → n = 0 := by
  intro hz
  unfold overCapacity at hn
  unfold Vehicle.hasZeroCapacity at hz
  unfold Vehicle.hasStaticCapacity Vehicle.extent at hn
  split at hz
  · rename_i m hst
    rw [beq_iff_eq] at hz
    subst hz
    simp only [hst, Bool.true_and, decide_eq_false_iff_not] at hn
    omega
  · cases hz

theorem fits_capacity (hn : overCapacity V n = false) (hc : V.hasStaticCapacity = true) :
    n ≤ V.extent := by
  unfold overCapacity at hn
  rw [hc, Bool.true_and, decide_eq_false_iff_not] at hn
  omega

/-- A width that leaves bits unused ends inside the last block. -/
theorem ragged_last (h : c.Shape) (hu : c.hasUnusedBits = true) :
    0 < c.mBlocks.elems.length ∧
      c.mBlocks.elems.length * w = (c.mBlocks.elems.length - 1) * w + w := by
  have hne := (hasUnusedBits_iff h).mp hu
  have hle := h.size_le
  have hpos : 0 < c.mBlocks.elems.length := by
    rcases Nat.eq_zero_or_pos c.mBlocks.elems.length with h0 | h0
    · rw [h0] at hne hle
      omega
    · exact h0
  refine ⟨hpos, ?_⟩
  rw [← Nat.succ_mul]
  congr 1
  omega

/-- The tail of the last block: the positions in it from the width on. -/
theorem getLsbD_not_usedBits (h : c.Shape) (hu : c.hasUnusedBits = true) {j : Nat} (hj : j < w) :
    (~~~c.usedBits).getLsbD j =
      decide (c.size ≤ (c.mBlocks.elems.length - 1) * w + j) := by
  have hlast := (ragged_last h hu).2
  have hlt := h.lt_size_add
  have hle := h.size_le
  unfold usedBits
  rw [BitVec.getLsbD_not, getLsbD_shr, getLsbD_ones, h.numBlocks, decide_eq_true hj, Bool.true_and]
  by_cases hs : c.size ≤ (c.mBlocks.elems.length - 1) * w + j
  · rw [decide_eq_true hs, decide_eq_false (by omega)]
    rfl
  · rw [decide_eq_false hs, decide_eq_true (by omega)]
    rfl

/-- **What growing with ones leaves**: every position between the widths, and no other, is new. -/
theorem growOnes_spec (h : c.Shape) (hs : V.hasStoredSize = true) (hn : c.size < n)
    (hg : c.growOnes mem (blocksFor w n) = .ok d) :
    d.mBlocks.elems.length = blocksFor w n ∧ d.mCount = c.mCount ∧
      blocksFor w n ≤ V.maxNumBlocks ∧
      ∀ p, p < n → d.bit p = if p < c.size then c.bit p else true := by
  have hw := V.bits_pos
  have hle := le_blocksFor_mul (w := w) (n := n) hw
  have hsz := h.size_le
  unfold growOnes at hg
  dsimp only at hg
  split at hg
  · cases hg
  · rename_i blocks hb
    obtain ⟨he, -, hmax⟩ := Blocks.resize_ok hs hb
    have hlen : blocks.elems.length = blocksFor w n := by
      rw [he]
      exact Blocks.length_resize _
    -- the new blocks are ones, the old ones as they were
    have hbit (p : Nat) (hp : p < blocksFor w n * w) : bitAt blocks.elems p =
        if p < c.mBlocks.elems.length * w then c.bit p else true := by
      rw [he, Blocks.bitAt_resize hw hp, getLsbD_ones, decide_eq_true (Nat.mod_lt _ hw)]
      rfl
    by_cases hu : c.hasUnusedBits = true
    · simp only [hu, if_true] at hg
      cases hg
      obtain ⟨hpos, hsub⟩ := ragged_last h hu
      have hlt := h.lt_size_add
      have hblocks : c.mBlocks.elems.length ≤ blocksFor w n := by
        rw [h]
        exact blocksFor_mono hw (by omega)
      have hin := Nat.mul_le_mul_right w hblocks
      refine ⟨by rw [sameWidth_setBlock.length, hlen], rfl, hmax, fun p hp => ?_⟩
      rw [h.numBlocks, bit_setBlock (by rw [hlen]; omega)]
      obtain ⟨i, j, hj, rfl⟩ := exists_pos hw p
      have ht := block_trichotomy i (c.mBlocks.elems.length - 1) w
      rw [pos_div hj, pos_mod hj]
      by_cases hi : i = c.mBlocks.elems.length - 1
      · have hold : (block (V := V) { c with mBlocks := blocks }
            (c.mBlocks.elems.length - 1)).getLsbD j = c.bit (i * w + j) := by
          have := hbit (i * w + j) (by omega)
          rw [if_pos (by omega), hi, bitAt_pos hj] at this
          rw [hi]
          exact this
        rw [if_pos hi, BitVec.getLsbD_or, hold, getLsbD_not_usedBits h hu hj, ← hi]
        by_cases hps : i * w + j < c.size
        · rw [if_pos hps, decide_eq_false (by omega), Bool.or_false]
        · rw [if_neg hps, decide_eq_true (by omega), Bool.or_true]
      · rw [if_neg hi]
        refine (hbit _ (by omega)).trans ?_
        by_cases hps : i * w + j < c.size
        · rw [if_pos hps, if_pos (by omega)]
        · rw [if_neg hps, if_neg (by omega)]
    · have hfull : c.mBlocks.elems.length * w = c.size := by
        by_contra hne
        exact hu ((hasUnusedBits_iff h).mpr hne)
      simp only [hu, Bool.false_eq_true, if_false] at hg
      cases hg
      refine ⟨hlen, rfl, hmax, fun p hp => (hbit p (by omega)).trans ?_⟩
      rw [hfull]

/-- **What the other growth leaves**: the positions below both widths, and zeros above them. -/
theorem growZeros_spec (h : c.Inv) (hs : V.hasStoredSize = true)
    (hg : c.growZeros mem (blocksFor w n) = .ok d) :
    d.mBlocks.elems.length = blocksFor w n ∧ d.mCount = c.mCount ∧
      blocksFor w n ≤ V.maxNumBlocks ∧
      ∀ p, p < n → d.bit p = if p < c.size then c.bit p else false := by
  have hw := V.bits_pos
  have hle := le_blocksFor_mul (w := w) (n := n) hw
  have hsz := h.shape.size_le
  unfold growZeros at hg
  split at hg
  · cases hg
  · rename_i blocks hb
    cases hg
    obtain ⟨he, -, hmax⟩ := Blocks.resize_ok hs hb
    refine ⟨by rw [he]; exact Blocks.length_resize _, rfl, hmax, fun p hp => ?_⟩
    show bitAt blocks.elems p = _
    rw [he, Blocks.bitAt_resize hw (by omega), getLsbD_zero']
    have hold : bitAt c.mBlocks.elems p = c.bit p := rfl
    by_cases hps : p < c.size
    · rw [if_pos hps, if_pos (by omega), hold]
    · rw [if_neg hps, hold, h.clear p (by omega), ite_self]

/-- The blocks of a resized container, before the width is stored. -/
theorem grown_spec (h : c.Inv) (hs : V.hasStoredSize = true)
    (hg : (if v = true ∧ c.size < n then c.growOnes mem (blocksFor w n)
      else c.growZeros mem (blocksFor w n)) = .ok d) :
    d.mBlocks.elems.length = blocksFor w n ∧ d.mCount = c.mCount ∧
      blocksFor w n ≤ V.maxNumBlocks ∧
      ∀ p, p < n → d.bit p = if p < c.size then c.bit p else v := by
  split at hg
  · rename_i hgrow
    obtain ⟨hlen, hcount, hmax, hbits⟩ := growOnes_spec h.shape hs hgrow.2 hg
    exact ⟨hlen, hcount, hmax, fun p hp => by rw [hbits p hp, hgrow.1]⟩
  · rename_i hgrow
    obtain ⟨hlen, hcount, hmax, hbits⟩ := growZeros_spec h hs hg
    refine ⟨hlen, hcount, hmax, fun p hp => (hbits p hp).trans ?_⟩
    -- a value of true is here only where the width does not grow
    by_cases hps : p < c.size
    · rw [if_pos hps, if_pos hps]
    · have hv : v = false := by
        by_contra hv
        exact hgrow ⟨by simpa using hv, by omega⟩
      rw [hv]

/-- The memory grants `n` blocks to a container that asks for them. -/
def Grants (V : Vehicle w) (mem : Memory) (n : Nat) : Prop :=
  V.hasStaticCapacity = false → ∃ k, Blocks.allocateFor V mem n = .ok k

/-- A vector of bytes gets two blocks of ample memory. -/
theorem grants_byteVector {counted : Bool} {k : Nat} (hk : k ≤ 2) :
    Grants (byteVector counted) .ample k := by
  intro _
  have hblocks : 2 ≤ (byteVector counted).maxBlocks := Nat.le_of_ble_eq_true rfl
  have hnum : 2 ≤ (byteVector counted).maxNumBlocks := Nat.le_of_ble_eq_true rfl
  exact ⟨k, Blocks.allocateFor_ok.mpr ⟨by omega, by omega, rfl⟩⟩

theorem makeRoom_of_grants {b : Blocks w} (hc : V.hasStaticCapacity = true → n ≤ V.maxBlocks)
    (hg : Grants V mem n) : ∃ b', b.makeRoom V mem n = .ok b' := by
  unfold Blocks.makeRoom
  split
  · rename_i hs
    rw [if_neg (Nat.not_lt.mpr (hc hs))]
    exact ⟨_, rfl⟩
  · rename_i hs
    split
    · exact ⟨_, rfl⟩
    · obtain ⟨k, hk⟩ := hg (by simpa using hs)
      rw [hk]
      exact ⟨_, rfl⟩

/-- The blocks of a width within the capacity are within theirs. -/
theorem blocks_fit (hover : overCapacity V n = false) (hc : V.hasStaticCapacity = true) :
    blocksFor w n ≤ V.maxBlocks := by
  have hle := blocksFor_mono V.bits_pos (fits_capacity hover hc)
  unfold Vehicle.hasStaticCapacity at hc
  unfold Vehicle.maxBlocks
  unfold Vehicle.extent at hle
  split at hc
  · rename_i m hst
    rw [hst] at hle ⊢
    exact hle
  · cases hc

/-- A resize within the capacity completes where there is room for its blocks. -/
theorem resizeTo_of_room (hover : overCapacity V n = false)
    (hroom : ∃ b, c.mBlocks.makeRoom V mem (blocksFor w n) = .ok b) :
    ∃ d, resizeTo mem n v c = .ok () d := by
  obtain ⟨b', hb'⟩ := hroom
  unfold resizeTo growOnes growZeros Blocks.resize
  rw [if_neg (by rw [hover]; decide)]
  dsimp only
  rw [hb']
  by_cases hgrow : v = true ∧ c.size < n
  · rw [if_pos hgrow]
    exact ⟨_, rfl⟩
  · rw [if_neg hgrow]
    exact ⟨_, rfl⟩

/-- **A granted resize within the capacity completes.** -/
theorem resizeTo_of_grants (hover : overCapacity V n = false) (hg : Grants V mem (blocksFor w n)) :
    ∃ d, resizeTo mem n v c = .ok () d :=
  resizeTo_of_room hover (makeRoom_of_grants (blocks_fit hover) hg)

/-- **What a completed `resize_to` leaves.** -/
theorem resizeTo_ok (h : c.Inv) (hs : V.hasStoredSize = true)
    (hr : resizeTo mem n v c = .ok () d) :
    d.Inv ∧ d.size = n ∧
      ∀ p, d.bit p = if p < n then (if p < c.size then c.bit p else v) else false := by
  unfold resizeTo at hr
  split at hr
  · cases hr
  · rename_i hover
    rw [Bool.not_eq_true] at hover
    dsimp only at hr
    split at hr
    · cases hr
    · rename_i g hg
      obtain ⟨hlen, hcount, hmax, hbit⟩ := grown_spec h hs hg
      simp only [EStateM.Result.ok.injEq, true_and] at hr
      have hsize : (g.storeSize n).size = n := size_storeSize hs (zeroCapacity_of_fits hover)
      have hshape : (g.storeSize n).Shape := by
        unfold Shape
        rw [mBlocks_storeSize, hlen, hsize]
      have hsw : SameWidth (g.storeSize n) d := by
        rw [← hr]
        exact sameWidth_eraseUnused.trans sameWidth_storeCount
      have hdbit (p : Nat) :
          d.bit p = if p < n then (if p < c.size then c.bit p else v) else false := by
        rw [← hr, bit_congr (mBlocks_storeCount _), bit_eraseUnused hshape, hsize,
          bit_congr mBlocks_storeSize]
        by_cases hp : p < n
        · rw [hbit p hp, if_pos hp]
          simp [hp]
        · simp [hp]
      have hdcount (hc : V.hasStoredCount = true) : d.mCount = c.mCount -
          countIn c.bit (min n c.size) (c.size - min n c.size) +
            (max n c.size - c.size) * v.toNat := by
        rw [← hr, mCount_storeCount hc, storedCount_eq hc, mCount_eraseUnused, mCount_storeSize,
          hcount, countedIn_eq h.shape (by omega) hc]
      refine ⟨⟨hsw.shape hshape, fun p hp => ?_, fun hc => ?_, fun _ => ?_, fun hc => ?_⟩,
        by rw [hsw.size, hsize], hdbit⟩
      · rw [hsw.size, hsize] at hp
        rw [hdbit, if_neg (by omega)]
      · rw [hsw.size, hsize]
        exact fits_capacity hover hc
      · rw [numBlocks_of_stored hs, hsw.length, mBlocks_storeSize, hlen]
        exact hmax
      · rw [hsw.size, hsize, hdcount hc, h.count hc]
        rcases Nat.le_total n c.size with hle | hle
        · -- the positions from `n` on leave
          rw [Nat.min_eq_left hle, Nat.max_eq_right hle, Nat.sub_self, Nat.zero_mul, Nat.add_zero]
          have hsplit : countBits c.bit c.size =
              countBits c.bit n + countIn c.bit n (c.size - n) := by
            rw [← countBits_add]
            congr 1
            omega
          have hnew : countBits d.bit n = countBits c.bit n := countBits_congr fun p hp => by
            rw [hdbit, if_pos hp, if_pos (by omega)]
          omega
        · -- the positions from the old width on arrive
          rw [Nat.min_eq_right hle, Nat.max_eq_left hle, Nat.sub_self]
          have hsplit : countBits d.bit n =
              countBits d.bit c.size + countIn d.bit c.size (n - c.size) := by
            rw [← countBits_add]
            congr 1
            omega
          have hold : countBits d.bit c.size = countBits c.bit c.size :=
            countBits_congr fun p hp => by rw [hdbit, if_pos (by omega), if_pos hp]
          have hnew : countIn d.bit c.size (n - c.size) = (n - c.size) * v.toNat :=
            countIn_const fun p h1 h2 => by rw [hdbit, if_pos (by omega), if_neg (by omega)]
          rw [hsplit, hold, hnew]
          unfold countIn
          rw [countBits_zero, Nat.sub_zero]

/-- **A refused `resize_to` leaves everything as it was.** -/
theorem resizeTo_strong : Strong (resizeTo mem n v) c := by
  intro e t he
  unfold resizeTo at he
  split at he
  · cases he
    rfl
  · dsimp only at he
    split at he
    · cases he
      rfl
    · cases he

end Resize

/-! ## 2. A block appended -/

section Append
variable {c} {mem : Memory} {value : BitVec w} {d : BitBlockContainer V}

/-- A block pushed where the width is aligned: its bits stand above the old ones. -/
theorem pushed_aligned (h : c.Shape) {q : Nat} (hq : c.size = q * w) {blocks : Blocks w}
    (he : blocks.elems = c.mBlocks.elems ++ [value]) (p : Nat) :
    bit (V := V) { c with mBlocks := blocks } p =
      if p < c.size then c.bit p else value.getLsbD (p - c.size) := by
  have hw := V.bits_pos
  have hle := h.size_le
  have hlt := h.lt_size_add
  have ht := block_trichotomy c.mBlocks.elems.length q w
  show bitAt blocks.elems p = _
  rw [he, bitAt_append hw, show c.mBlocks.elems.length * w = c.size by omega, bitAt_singleton hw]
  rfl

/-- A block pushed in two parts: its low bits fill the old last block, the rest stand in the new. -/
theorem pushed_split (h : c.Inv) {q r : Nat} (hqr : c.size = q * w + r) (hr0 : 0 < r) (hr : r < w)
    (hlen : c.mBlocks.elems.length = q + 1) {blocks : Blocks w}
    (he : blocks.elems = c.mBlocks.elems ++ [shr value (w - r)]) (p : Nat) :
    (setBlock (V := V) { c with mBlocks := blocks } q
      (block (V := V) { c with mBlocks := blocks } q ||| shl value r)).bit p =
        if p < c.size then c.bit p else value.getLsbD (p - c.size) := by
  have hw := V.bits_pos
  have hpushed (p : Nat) : bitAt blocks.elems p =
      if p < q * w + w then c.bit p else value.getLsbD (w - r + (p - (q * w + w))) := by
    rw [he, bitAt_append hw, hlen, Nat.succ_mul, bitAt_singleton hw, getLsbD_shr]
    rfl
  rw [bit_setBlock (by simp only [he, List.length_append, hlen]; omega), hqr]
  obtain ⟨i, j, hj, rfl⟩ := exists_pos hw p
  have ht := block_trichotomy i q w
  rw [pos_div hj, pos_mod hj]
  by_cases hiq : i = q
  · -- the old last block keeps its low bits and takes the first ones
    have hblock : (block (V := V) { c with mBlocks := blocks } q).getLsbD j =
        c.bit (i * w + j) := by
      have := hpushed (i * w + j)
      rw [if_pos (by omega), hiq, bitAt_pos hj] at this
      rw [hiq]
      exact this
    rw [if_pos hiq, BitVec.getLsbD_or, getLsbD_shl hj, hblock]
    by_cases hjr : j < r
    · rw [if_pos (by omega), decide_eq_false (by omega), Bool.false_and, Bool.or_false]
    · rw [if_neg (by omega), h.clear _ (by omega), Bool.false_or, decide_eq_true (by omega),
        Bool.true_and, show i * w + j - (q * w + r) = j - r by omega]
  · rw [if_neg hiq]
    show bitAt blocks.elems (i * w + j) = _
    rw [hpushed]
    by_cases hlow : i < q
    · rw [if_pos (by omega), if_pos (by omega)]
    · rw [if_neg (by omega), if_neg (by omega),
        show i * w + j - (q * w + r) = w - r + (i * w + j - (q * w + w)) by omega]

/-- The blocks once the new one is pushed and the old last one completed. -/
theorem pushed_spec (h : c.Inv) (hs : V.hasStoredSize = true)
    (hp : (if c.size % w ≠ 0 then
        match c.mBlocks.pushBack V mem (shr value (w - c.size % w)) with
        | .error e => .error e
        | .ok blocks =>
            .ok (setBlock (V := V) { c with mBlocks := blocks }
              (lastBlock (V := V) { c with mBlocks := blocks } - 1)
              (block (V := V) { c with mBlocks := blocks }
                (lastBlock (V := V) { c with mBlocks := blocks } - 1) |||
                  shl value (c.size % w)))
      else
        match c.mBlocks.pushBack V mem value with
        | .error e => .error e
        | .ok blocks => .ok { c with mBlocks := blocks } : Except Exn (BitBlockContainer V)) = .ok d) :
    d.mBlocks.elems.length = c.mBlocks.elems.length + 1 ∧ d.mCount = c.mCount ∧
      c.mBlocks.elems.length + 1 ≤ V.maxNumBlocks ∧
      ∀ p, d.bit p = if p < c.size then c.bit p else
        (decide (p < c.size + w) && value.getLsbD (p - c.size)) := by
  have hw := V.bits_pos
  have hsz := h.shape.size_le
  have hlt := h.shape.lt_size_add
  obtain ⟨q, r, hr, hqr⟩ := exists_pos hw c.size
  have hcut (p : Nat) : (decide (p < c.size + w) && value.getLsbD (p - c.size)) =
      value.getLsbD (p - c.size) := by
    by_cases hp : p < c.size + w
    · rw [decide_eq_true hp, Bool.true_and]
    · rw [BitVec.getLsbD_of_ge _ _ (by omega), Bool.and_false]
  simp only [hcut]
  rw [hqr, pos_mod hr] at hp
  split at hp
  · rename_i hr0
    split at hp
    · cases hp
    · rename_i blocks hb
      obtain ⟨he, -, hmax⟩ := Blocks.pushBack_ok hs hb
      have hlen : c.mBlocks.elems.length = q + 1 := by
        have := block_trichotomy c.mBlocks.elems.length (q + 1) w
        rw [Nat.succ_mul] at this
        omega
      have hlast : lastBlock (V := V) { c with mBlocks := blocks } - 1 = q := by
        unfold lastBlock
        rw [numBlocks_of_stored hs]
        show blocks.elems.length - 1 - 1 = q
        rw [he, List.length_append, hlen]
        simp
      cases hp
      rw [hlast]
      refine ⟨by rw [sameWidth_setBlock.length]; simp [he], rfl, hmax, ?_⟩
      exact pushed_split h hqr (by omega) hr hlen he
  · rename_i hr0
    split at hp
    · cases hp
    · rename_i blocks hb
      obtain ⟨he, -, hmax⟩ := Blocks.pushBack_ok hs hb
      cases hp
      have hq : c.size = q * w := by omega
      exact ⟨by simp [he], rfl, hmax, pushed_aligned h.shape hq he⟩

/-- **What a completed `append` leaves**: the block's bits above the old ones. -/
theorem append_ok (h : c.Inv) (hs : V.hasStoredSize = true)
    (hr : append mem value c = .ok () d) :
    d.Inv ∧ d.size = c.size + w ∧ ∀ p, d.bit p = if p < c.size then c.bit p else
      (decide (p < c.size + w) && value.getLsbD (p - c.size)) := by
  unfold append at hr
  split at hr
  · cases hr
  · rename_i hover
    rw [Bool.not_eq_true] at hover
    dsimp only at hr
    split at hr
    · cases hr
    · rename_i g hg
      obtain ⟨hlen, hcount, hmax, hbit⟩ := pushed_spec h hs hg
      simp only [EStateM.Result.ok.injEq, true_and] at hr
      have hsize : (g.storeSize (c.size + w)).size = c.size + w :=
        size_storeSize hs (zeroCapacity_of_fits hover)
      have hshape : (g.storeSize (c.size + w)).Shape := by
        unfold Shape
        rw [mBlocks_storeSize, hlen, hsize, blocksFor_add_self V.bits_pos, h.shape]
      have hsw : SameWidth (g.storeSize (c.size + w)) d := by
        rw [← hr]
        exact sameWidth_countUp
      have hdbit (p : Nat) : d.bit p = if p < c.size then c.bit p else
          (decide (p < c.size + w) && value.getLsbD (p - c.size)) := by
        rw [← hbit p, ← hr, bit_congr (mBlocks_countUp _), bit_congr mBlocks_storeSize]
      refine ⟨⟨hsw.shape hshape, fun p hp => ?_, fun hc => ?_, fun _ => ?_, fun hc => ?_⟩,
        by rw [hsw.size, hsize], hdbit⟩
      · rw [hsw.size, hsize] at hp
        rw [hdbit, if_neg (by omega)]
        simp
        omega
      · rw [hsw.size, hsize]
        exact fits_capacity hover hc
      · rw [numBlocks_of_stored hs, hsw.length, mBlocks_storeSize, hlen]
        exact hmax
      · rw [hsw.size, hsize, countBits_add, ← hr, mCount_countUp hc, mCount_storeSize, hcount,
          h.count hc, hr]
        congr 1
        · exact countBits_congr fun p hp => by rw [hdbit, if_pos hp]
        · unfold popcount countIn
          refine countBits_congr fun j hj => ?_
          rw [hdbit, if_neg (by omega), Nat.add_sub_cancel_left]
          simp [hj]

/-- **A refused `append` leaves everything as it was.** -/
theorem append_strong : Strong (append mem value) c := by
  intro e t he
  unfold append at he
  split at he
  · cases he
    rfl
  · dsimp only at he
    split at he
    · cases he
      rfl
    · cases he

end Append

/-! ## 3. Growth to a position -/

section Admit
variable {c} {mem : Memory} {n : Nat} {d : BitBlockContainer V} {b : Bool}

/-- A resize to the saturated width of a position completes only below the top of `size_t`. -/
theorem widthSum_of_resized (hs : V.hasStoredSize = true) (hd : d.Inv)
    (hsize : d.size = widthSum n 1) : widthSum n 1 = n + 1 := by
  unfold widthSum at hsize ⊢
  split
  · rename_i htop
    rw [if_pos htop] at hsize
    exfalso
    refine V.top_not_stored hs ?_ fun hc => ?_
    · have := hd.bound hs
      rwa [hd.shape.numBlocks, hd.shape, hsize] at this
    · rw [← hsize]
      exact hd.capacity hc
  · rfl

/-- **What a completed `growing_insert` leaves**: the position and what was set before, at a width
    that grew by no more than the position needs. -/
theorem growingInsert_ok (h : c.Inv) (hn : V.hasStoredSize = true ∨ n < c.size)
    (hr : growingInsert mem n c = .ok b d) :
    d.Inv ∧ d.size = max c.size (n + 1) ∧ b = !c.bit n ∧
      ∀ p, d.bit p = if p = n then true else c.bit p := by
  unfold growingInsert at hr
  split at hr
  · rename_i hgrow
    obtain ⟨hs, hge⟩ := hgrow
    split at hr
    · cases hr
    · rename_i g hg
      obtain ⟨hinv, hsize, hbit⟩ := resizeTo_ok h hs hg
      have hsum := widthSum_of_resized hs hinv hsize
      rw [hsum] at hsize hbit
      cases hr
      have hin : n < g.size := by omega
      refine ⟨hinv.set hin, by rw [sameWidth_set.size, hsize]; omega,
        by rw [h.clear n hge]; rfl, fun p => ?_⟩
      rw [bit_set hinv.shape hin, hbit]
      by_cases hpn : p = n
      · rw [if_pos hpn, if_pos hpn]
      · rw [if_neg hpn, if_neg hpn]
        split
        · split
          · rfl
          · rw [h.clear p (by omega)]
        · rw [h.clear p (by omega)]
  · rename_i hgrow
    have hlt : n < c.size := by
      rcases hn with hs | hlt
      · by_contra hge
        exact hgrow ⟨hs, by omega⟩
      · exact hlt
    cases hr
    refine ⟨h.insert hlt, by rw [sameWidth_insert.size]; omega, insert_snd h.shape hlt, fun p => ?_⟩
    rw [bit_insert h.shape hlt]

/-- Nothing grows for a position below the width. -/
theorem growingInsert_within (hn : n < c.size) :
    growingInsert mem n c = .ok (c.insert n).2 (c.insert n).1 := by
  unfold growingInsert
  rw [if_neg fun hc => absurd hc.2 (by omega)]

/-- **A refused `growing_insert` leaves everything as it was.** -/
theorem growingInsert_strong : Strong (growingInsert mem n) c := by
  intro e t he
  unfold growingInsert at he
  split at he
  · split at he
    · rename_i hg
      cases he
      exact resizeTo_strong e t hg
    · cases he
  · cases he

/-- The largest element of a container that has one. -/
theorem largest_spec {o : BitBlockContainer V} (ho : o.Inv) (hany : o.any = true) :
    o.bit (o.exclusiveFindPrev o.size) = true ∧
      ∀ p, o.exclusiveFindPrev o.size < p → o.bit p = false := by
  obtain ⟨q, hq, hbq⟩ := (any_iff ho).mp hany
  rw [exclusiveFindPrev_eq ho (Nat.le_refl _) ⟨q, hq, hbq⟩]
  rcases prevSet_spec o.bit o.size o.size with ⟨-, hset, hup⟩ | ⟨-, hnone⟩
  · refine ⟨hset, fun p hp => ?_⟩
    by_cases hps : p < o.size
    · exact hup p hp hps
    · exact ho.clear p (by omega)
  · rw [hnone q hq] at hbq
    cases hbq

/-- **What a completed `grow_to_admit` leaves**: the same positions, at a width past every one the
    other holds. -/
theorem growToAdmit_ok (h : c.Inv) {other : Operand V} (ho : (other.get c).Inv)
    (hr : growToAdmit mem other c = .ok () d) :
    d.Inv ∧ c.size ≤ d.size ∧ (∀ p, d.bit p = c.bit p) ∧
      (V.hasStoredSize = true → ∀ p, d.size ≤ p → (other.get c).bit p = false) := by
  unfold growToAdmit at hr
  split at hr
  · rename_i hs
    split at hr
    · rename_i hany
      cases hr
      refine ⟨h, Nat.le_refl _, fun _ => rfl, fun _ p _ => ?_⟩
      rw [Bool.not_eq_true', Bool.eq_false_iff, ne_eq, any_iff ho] at hany
      by_cases hp : p < (other.get c).size
      · by_contra hb
        exact hany ⟨p, hp, by simpa using hb⟩
      · exact ho.clear p (by omega)
    · rename_i hany
      dsimp only at hr
      rw [Bool.not_eq_true, Bool.not_eq_false'] at hany
      have hpast := (largest_spec ho hany).2
      split at hr
      · rename_i hlt
        obtain ⟨hinv, hsize, hbit⟩ := resizeTo_ok h hs hr
        refine ⟨hinv, by omega, fun p => ?_, fun _ p hp => hpast p (by omega)⟩
        rw [hbit]
        split
        · split
          · rfl
          · rw [h.clear p (by omega)]
        · rw [h.clear p (by omega)]
      · cases hr
        exact ⟨h, Nat.le_refl _, fun _ => rfl, fun _ p hp => hpast p (by omega)⟩
  · rename_i hs
    cases hr
    exact ⟨h, Nat.le_refl _, fun _ => rfl, fun hc => absurd hc hs⟩

/-- Nothing grows for an operand whose elements are positions already. -/
theorem growToAdmit_within {other : Operand V} (ho : (other.get c).Inv)
    (hin : ∀ p, c.size ≤ p → (other.get c).bit p = false) :
    growToAdmit mem other c = .ok () c := by
  unfold growToAdmit
  split
  · split
    · rfl
    · rename_i hany
      dsimp only
      rw [Bool.not_eq_true, Bool.not_eq_false'] at hany
      have hset := (largest_spec ho hany).1
      rw [if_neg]
      intro hlt
      rw [hin _ (by omega)] at hset
      cases hset
  · rfl

/-- **A refused `grow_to_admit` leaves everything as it was.** -/
theorem growToAdmit_strong {other : Operand V} : Strong (growToAdmit mem other) c := by
  intro e t he
  unfold growToAdmit at he
  split at he
  · split at he
    · cases he
    · dsimp only at he
      split at he
      · exact resizeTo_strong e t he
      · cases he
  · cases he

/-- **What a union or a symmetric difference leaves of an owner**: the operation on the two bits at
    every position, and a width past both. -/
theorem admitThen_ok (h : c.Inv) {other : Operand V} (ho : (other.get c).Inv)
    (hv : V.hasStoredSize = true ∨ V.hasStaticSize = true)
    {op : BitVec w → BitVec w → BitVec w} {g : Bool → Bool → Bool} (hop : ActsBitwise op g)
    (hg : g false false = false) (hr : admitThen mem other op c = .ok () d) :
    d.Inv ∧ c.size ≤ d.size ∧ ∀ p, d.bit p = g (c.bit p) ((other.get c).bit p) := by
  unfold admitThen at hr
  split at hr
  · cases hr
  · rename_i e he
    obtain ⟨hinv, hle, hbit, hpast⟩ := growToAdmit_ok h ho he
    cases hr
    have hsame : (other.get e).Inv ∧ ∀ p, (other.get e).bit p = (other.get c).bit p := by
      cases other with
      | self => exact ⟨hinv, hbit⟩
      | of o => exact ⟨ho, fun _ => rfl⟩
    have hclear (p : Nat) (hp : e.size ≤ p) : (other.get e).bit p = false := by
      rcases hv with hs | hs
      · rw [hsame.2]
        exact hpast hs p hp
      · -- a static width is the same on both sides
        refine hsame.1.clear p ?_
        unfold size at hp ⊢
        rw [if_pos hs] at hp ⊢
        exact hp
    obtain ⟨hsw, hres, hd⟩ := combine_spec _ hinv hsame.1 hop fun p hp => by rw [hclear p hp, hg]
    refine ⟨hd, by rw [hsw.size]; exact hle, fun p => ?_⟩
    rw [hres, hbit, hsame.2]

theorem admitThen_within {other : Operand V} {op : BitVec w → BitVec w → BitVec w}
    (ho : (other.get c).Inv) (hin : ∀ p, c.size ≤ p → (other.get c).bit p = false) :
    ∃ x d, admitThen mem other op c = .ok x d := by
  unfold admitThen
  rw [growToAdmit_within ho hin]
  exact ⟨_, _, rfl⟩

theorem admitThen_strong {other : Operand V} {op : BitVec w → BitVec w → BitVec w} :
    Strong (admitThen mem other op) c := by
  intro e t he
  unfold admitThen at he
  split at he
  · rename_i hg
    cases he
    exact growToAdmit_strong e t hg
  · cases he

end Admit

end BitBlockContainer

end XstdBits
