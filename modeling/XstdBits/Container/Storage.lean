/-
  File: XstdBits/Container/Storage.lean
  Subject: the template arguments of `bit_block_container`, and the blocks it holds.

  * `Storage` is what the type `Blocks` and the width `N` decide together: a fixed width, a
    run-time width over growing blocks, a run-time width under a capacity, or a lent span.
  * `Vehicle w` bundles the storage with what `holds_width` asks of a block of `w` bits, so that
    an ill-formed instantiation cannot be written down.
  * `Blocks w` are the blocks as a container: their elements, what is reserved and under which
    allocator. Whatever grows them asks the `Memory`, which may refuse.
-/
import XstdBits.Container.Block

namespace XstdBits

/-! ## 1. Widths -/

/-- The largest `std::size_t`. -/
def sizeMax : Nat := 2 ^ 64 - 1

/-- The largest `std::ptrdiff_t`. -/
def ptrdiffMax : Nat := 2 ^ 63 - 1

/-- How many blocks of `w` bits a width of `n` needs. -/
def blocksFor (w n : Nat) : Nat := n / w + (if n % w ≠ 0 then 1 else 0)

section BlocksFor
variable {w n : Nat}

theorem le_blocksFor_mul (hw : 0 < w) : n ≤ blocksFor w n * w := by
  unfold blocksFor
  have h := Nat.div_add_mod' n w
  split
  · have := Nat.mod_lt n hw
    rw [Nat.succ_mul]
    omega
  · rw [Nat.add_zero]
    omega

theorem blocksFor_mul_lt (hw : 0 < w) : blocksFor w n * w < n + w := by
  unfold blocksFor
  have h := Nat.div_add_mod' n w
  split
  · rw [Nat.succ_mul]
    omega
  · rw [Nat.add_zero]
    omega

theorem blocksFor_mul_self (hw : 0 < w) {k : Nat} : blocksFor w (k * w) = k := by
  unfold blocksFor
  rw [Nat.mul_mod_left, Nat.mul_div_cancel _ hw]
  rfl

@[simp] theorem blocksFor_zero : blocksFor w 0 = 0 := by
  unfold blocksFor
  simp

theorem blocksFor_eq_iff (hw : 0 < w) {k : Nat} :
    blocksFor w n = k ↔ n ≤ k * w ∧ k * w < n + w := by
  have h1 := le_blocksFor_mul (n := n) hw
  have h2 := blocksFor_mul_lt (n := n) hw
  constructor
  · rintro rfl
    exact ⟨h1, h2⟩
  · rintro ⟨h3, h4⟩
    have h5 : blocksFor w n < k + 1 := by
      refine block_lt_of_mul_lt (w := w) ?_
      rw [Nat.succ_mul]
      omega
    have h6 : k < blocksFor w n + 1 := by
      refine block_lt_of_mul_lt (w := w) ?_
      rw [Nat.succ_mul]
      omega
    omega

theorem blocksFor_le_iff (hw : 0 < w) {k : Nat} : blocksFor w n ≤ k ↔ n ≤ k * w := by
  have h1 := le_blocksFor_mul (n := n) hw
  have h2 := blocksFor_mul_lt (n := n) hw
  constructor
  · intro h
    exact Nat.le_trans h1 (Nat.mul_le_mul_right w h)
  · intro h
    have h5 : blocksFor w n < k + 1 := by
      refine block_lt_of_mul_lt (w := w) ?_
      rw [Nat.succ_mul]
      omega
    omega

theorem lt_blocksFor_iff (hw : 0 < w) {k : Nat} : k < blocksFor w n ↔ k * w < n := by
  rw [← Nat.not_le, blocksFor_le_iff hw, Nat.not_le]

/-- As one division, rounded up. -/
theorem chunks_eq (hw : 0 < w) : (n + w - 1) / w = blocksFor w n := by
  have hdiv := Nat.div_add_mod' (n + w - 1) w
  have hmod := Nat.mod_lt (n + w - 1) hw
  exact ((blocksFor_eq_iff hw).mpr (by omega)).symm

theorem lt_blocksFor (hw : 0 < w) {i j : Nat} (h : i * w + j < n) : i < blocksFor w n := by
  have h1 := le_blocksFor_mul (n := n) hw
  exact block_lt_of_mul_lt (w := w) (by omega)

theorem blocksFor_add_self (hw : 0 < w) : blocksFor w (n + w) = blocksFor w n + 1 := by
  have h1 := le_blocksFor_mul (n := n) hw
  have h2 := blocksFor_mul_lt (n := n) hw
  rw [blocksFor_eq_iff hw, Nat.succ_mul]
  omega

theorem blocksFor_mono (hw : 0 < w) {m : Nat} (h : n ≤ m) : blocksFor w n ≤ blocksFor w m :=
  (blocksFor_le_iff hw).mpr (Nat.le_trans h (le_blocksFor_mul hw))

end BlocksFor

/-! ## 2. The storage -/

/-- What growing blocks bring besides their elements: whether a count is kept beside them, their
    own `max_size`, and what their allocator propagates. -/
structure GrowthTraits where
  counted : Bool
  maxBlocks : Nat
  hasCapacity : Bool
  isAlwaysEqual : Bool
  propagateOnCopy : Bool
  propagateOnMove : Bool
  propagateOnSwap : Bool
  nothrowMoveAssignable : Bool
  deriving DecidableEq, Repr

/-- What `Blocks` and `N` decide together. -/
inductive Storage where
  /-- a static width over an array of its blocks -/
  | fixed (n : Nat)
  /-- a run-time width without bound -/
  | growing (traits : GrowthTraits)
  /-- a run-time width under a static capacity -/
  | capped (n : Nat)
  /-- a span of someone else's blocks, every bit of which is a position -/
  | lent
  deriving DecidableEq, Repr

/-- A power of two of at least a byte's bits: a block whose copies tile a larger width. -/
def tilingBlock (w : Nat) : Bool := hasSingleBit w && 8 ≤ w

theorem tilingBlock_pow {w : Nat} (h : tilingBlock w = true) : ∃ k, 3 ≤ k ∧ w = 2 ^ k := by
  unfold tilingBlock at h
  rw [Bool.and_eq_true, decide_eq_true_eq, hasSingleBit_pow] at h
  obtain ⟨⟨k, rfl⟩, hle⟩ := h
  refine ⟨k, ?_, rfl⟩
  by_contra hlt
  have : 2 ^ k ≤ 2 ^ 2 := Nat.pow_le_pow_right (by decide) (by omega)
  omega

theorem pos_of_tilingBlock {w : Nat} (h : tilingBlock w = true) : 0 < w := by
  obtain ⟨k, -, rfl⟩ := tilingBlock_pow h
  exact Nat.two_pow_pos k

theorem dvd_of_tilingBlock {w : Nat} (h : tilingBlock w = true) : 8 ∣ w := by
  obtain ⟨k, hk, rfl⟩ := tilingBlock_pow h
  exact Nat.pow_dvd_pow 2 hk

/-- The narrower of two tiling blocks divides the wider. -/
theorem min_dvd_of_tilingBlock {w u : Nat} (hw : tilingBlock w = true) (hu : tilingBlock u = true) :
    min w u ∣ u := by
  obtain ⟨k, -, rfl⟩ := tilingBlock_pow hw
  obtain ⟨l, -, rfl⟩ := tilingBlock_pow hu
  rcases Nat.le_total k l with hkl | hkl
  · rw [Nat.min_eq_left (Nat.pow_le_pow_right (by decide) hkl)]
    exact Nat.pow_dvd_pow 2 hkl
  · rw [Nat.min_eq_right (Nat.pow_le_pow_right (by decide) hkl)]

/-- A block of any width holds a width it covers alone; a wider one it has to tile. -/
def Storage.holdsWidth (w : Nat) : Storage → Bool
  | .fixed n => tilingBlock w || n ≤ w
  | .capped n => tilingBlock w || n ≤ w
  | .growing _ => tilingBlock w
  | .lent => tilingBlock w

/-- The whole blocks of a width the type carries are counted by a `std::size_t`. -/
def Storage.wholeBlocks (w : Nat) : Storage → Bool
  | .fixed n => blocksFor w n * w ≤ sizeMax
  | .capped n => blocksFor w n * w ≤ sizeMax
  | _ => true

/-- The arguments of one `bit_block_container` over blocks of `w` bits, which an `int` counts. -/
structure Vehicle (w : Nat) where
  storage : Storage
  bits_pos : 0 < w
  bits_int : w < 2 ^ 31
  holds_width : storage.holdsWidth w = true
  whole_blocks : storage.wholeBlocks w = true

namespace Vehicle
variable {w : Nat} (V : Vehicle w)

def hasStoredSize : Bool :=
  match V.storage with
  | .growing _ => true
  | .capped _ => true
  | _ => false

def hasStaticSize : Bool :=
  match V.storage with
  | .fixed _ => true
  | _ => false

def hasStaticCapacity : Bool :=
  match V.storage with
  | .capped _ => true
  | _ => false

def hasZeroCapacity : Bool :=
  match V.storage with
  | .capped n => n == 0
  | _ => false

def hasStoredCount : Bool :=
  match V.storage with
  | .growing t => t.counted
  | _ => false

/-- The width or the capacity the type carries. -/
def extent : Nat :=
  match V.storage with
  | .fixed n => n
  | .capped n => n
  | _ => 0

/-- Zero where the width is carried at run time. -/
def staticNumBlocks : Nat := if V.hasStaticSize then blocksFor w V.extent else 0

def staticLastBlock : Nat := V.staticNumBlocks - 1

def staticNumUnusedBits : Nat := V.staticNumBlocks * w - (if V.hasStaticSize then V.extent else 0)

def staticUsedBits : BitVec w := shr ones V.staticNumUnusedBits

def staticUnusedBits : BitVec w := ~~~V.staticUsedBits

def staticHasUnusedBits : Bool := V.hasStaticSize && decide (V.staticUsedBits ≠ ones)

/-- Reductions fold one to eight static blocks. -/
def foldsBlocks : Bool := V.hasStaticSize && decide (0 < V.staticNumBlocks ∧ V.staticNumBlocks ≤ 8)

/-- Whether reordering the positions can move a bit. -/
def canPermute : Bool := if V.hasStaticSize then decide (1 < V.extent) else !V.hasZeroCapacity

/-- A static width of exactly `k` blocks: the arms the source unrolls. -/
def unrolls (k : Nat) : Bool := V.hasStaticSize && V.staticNumBlocks == k

def maxNumBlocks (_ : Vehicle w) : Nat := sizeMax / w

def maxWidth : Nat := V.maxNumBlocks * w

def maxAddressableNumBlocks (_ : Vehicle w) : Nat := ptrdiffMax / w

def maxAddressableWidth : Nat := V.maxAddressableNumBlocks * w

/-- What the growing blocks bring; blocks held inline have one allocator and move as they copy. -/
def traits : GrowthTraits :=
  match V.storage with
  | .growing t => t
  | _ =>
      { counted := false, maxBlocks := 0, hasCapacity := true, isAlwaysEqual := true,
        propagateOnCopy := false, propagateOnMove := false, propagateOnSwap := false,
        nothrowMoveAssignable := true }

/-- The blocks' own `max_size()`, where they grow. -/
def maxBlocks : Nat :=
  match V.storage with
  | .growing t => t.maxBlocks
  | .capped n => blocksFor w n
  | _ => 0

theorem maxWidth_le : V.maxWidth ≤ sizeMax := Nat.div_mul_le_self _ _

/-- A width or a capacity the type carries is counted by a `std::size_t`. -/
theorem extent_le : V.extent ≤ sizeMax := by
  have hw := V.whole_blocks
  unfold extent
  unfold Storage.wholeBlocks at hw
  split at hw
  · exact Nat.le_trans (le_blocksFor_mul V.bits_pos) (of_decide_eq_true hw)
  · exact Nat.le_trans (le_blocksFor_mul V.bits_pos) (of_decide_eq_true hw)
  · exact Nat.zero_le _

/-- An owner carries its width or stores it. -/
theorem owned_of_not_lent (hv : V.storage ≠ .lent) :
    V.hasStoredSize = true ∨ V.hasStaticSize = true := by
  unfold hasStoredSize hasStaticSize
  cases hst : V.storage with
  | lent => exact absurd hst hv
  | _ => simp

/-- No stored width is the top of `size_t`: a tiling block's whole blocks fall short of it, and a
    block that covers its capacity alone is far below. -/
theorem top_not_stored (hs : V.hasStoredSize = true) (hn : blocksFor w sizeMax ≤ V.maxNumBlocks)
    (hc : V.hasStaticCapacity = true → sizeMax ≤ V.extent) : False := by
  have htop : sizeMax ≤ V.maxWidth := (blocksFor_le_iff V.bits_pos).mp hn
  have hle := V.maxWidth_le
  by_cases ht : tilingBlock w = true
  · have hdvd : 8 ∣ V.maxWidth := Dvd.dvd.mul_left (dvd_of_tilingBlock ht) _
    unfold sizeMax at htop hle
    omega
  · have hi := V.bits_int
    have hh := V.holds_width
    unfold sizeMax at hc
    unfold Storage.holdsWidth at hh
    unfold hasStoredSize at hs
    unfold hasStaticCapacity extent at hc
    split at hs
    · rename_i heq
      rw [heq] at hh
      exact ht hh
    · rename_i heq
      simp only [heq, Bool.or_eq_true, decide_eq_true_eq] at hh hc
      have := hc trivial
      rcases hh with h | h
      · exact ht h
      · omega
    · cases hs

end Vehicle

theorem byte_pos : 0 < 8 := by decide

theorem byte_int : 8 < 2 ^ 31 := by decide

theorem word_pos : 0 < 64 := by decide

theorem word_int : 64 < 2 ^ 31 := by decide

/-- A `std::vector` of bytes, as a set or a sequence holds it. -/
def byteVector (counted : Bool) : Vehicle 8 where
  storage := .growing
    { counted := counted, maxBlocks := ptrdiffMax, hasCapacity := true, isAlwaysEqual := true,
      propagateOnCopy := false, propagateOnMove := true, propagateOnSwap := false,
      nothrowMoveAssignable := true }
  bits_pos := byte_pos
  bits_int := byte_int
  holds_width := rfl
  whole_blocks := rfl

/-! ## 3. The blocks -/

/-- What the library throws, or lets pass, and the end of the program at an assertion that does not
    hold. -/
inductive Exn where
  | badAlloc
  | lengthError (n ceiling : Nat)
  | outOfRange (n size : Nat)
  | overflowError
  | abort
  /-- what reading a caller's range throws -/
  | reading
  deriving DecidableEq, Repr

/-- What answers the requests of one operation, each of them for more blocks than the one before: the
    capacity that came of asking for so many, which may be more than they need, or a refusal. -/
structure Memory where
  allocate : Nat → Except Exn Nat

/-- Memory that grants every request. -/
def Memory.ample : Memory := ⟨fun n => .ok n⟩

/-- Memory that refuses every request. -/
def Memory.refusing : Memory := ⟨fun _ => .error .badAlloc⟩

/-- The blocks as a container: elements, capacity and allocator. -/
structure Blocks (w : Nat) where
  elems : List (BitVec w)
  reserved : Nat
  alloc : Nat
  deriving DecidableEq, Repr

namespace Blocks
variable {w : Nat}

/-- No blocks, under an allocator. -/
def empty (alloc : Nat) : Blocks w := { elems := [], reserved := 0, alloc := alloc }

/-- Storage for `n` blocks, from the memory. A block count whose bits a `std::size_t` cannot
    count exceeds the address space, so no memory grants it. -/
def allocateFor (V : Vehicle w) (mem : Memory) (n : Nat) : Except Exn Nat :=
  if V.maxBlocks < n then .error (.lengthError n V.maxBlocks)
  else if V.maxNumBlocks < n then .error .badAlloc
  else mem.allocate n

/-- Room for `n` blocks: at a static capacity held inline, else reserved or asked for. A vector may ask
    for more than it needs, as twice its size: what the memory says of `n` is the answer to that. -/
def makeRoom (V : Vehicle w) (mem : Memory) (b : Blocks w) (n : Nat) : Except Exn (Blocks w) :=
  if V.hasStaticCapacity then
    if V.maxBlocks < n then .error .badAlloc else .ok b
  else if n ≤ b.reserved ∧ n ≤ V.maxNumBlocks then .ok b
  else
    match allocateFor V mem n with
    | .error e => .error e
    | .ok capacity => .ok { b with reserved := max n capacity }

/-- `resize(n, value)`. -/
def resize (V : Vehicle w) (mem : Memory) (b : Blocks w) (n : Nat) (value : BitVec w) :
    Except Exn (Blocks w) :=
  match b.makeRoom V mem n with
  | .error e => .error e
  | .ok b => .ok { b with elems := b.elems.take n ++ List.replicate (n - b.elems.length) value }

/-- `push_back(value)`. -/
def pushBack (V : Vehicle w) (mem : Memory) (b : Blocks w) (value : BitVec w) :
    Except Exn (Blocks w) :=
  match b.makeRoom V mem (b.elems.length + 1) with
  | .error e => .error e
  | .ok b => .ok { b with elems := b.elems ++ [value] }

/-- `Blocks(source, alloc)`: a copy built under the given allocator. -/
def copyOf (V : Vehicle w) (mem : Memory) (source : Blocks w) (alloc : Nat) :
    Except Exn (Blocks w) :=
  match (empty alloc : Blocks w).makeRoom V mem source.elems.length with
  | .error e => .error e
  | .ok b => .ok { b with elems := source.elems }

def clear (b : Blocks w) : Blocks w := { b with elems := [] }

variable {V : Vehicle w} {mem : Memory} {b b' : Blocks w}

/-- A request is granted within both ceilings, by the memory. -/
theorem allocateFor_ok {n k : Nat} : allocateFor V mem n = .ok k ↔
    n ≤ V.maxBlocks ∧ n ≤ V.maxNumBlocks ∧ mem.allocate n = .ok k := by
  unfold allocateFor
  by_cases hblocks : V.maxBlocks < n
  · rw [if_pos hblocks]
    exact iff_of_false nofun fun h => absurd h.1 (Nat.not_le.mpr hblocks)
  · rw [if_neg hblocks]
    by_cases hnum : V.maxNumBlocks < n
    · rw [if_pos hnum]
      exact iff_of_false nofun fun h => absurd h.2.1 (Nat.not_le.mpr hnum)
    · rw [if_neg hnum]
      exact ⟨fun h => ⟨Nat.not_lt.mp hblocks, Nat.not_lt.mp hnum, h⟩, fun h => h.2.2⟩

theorem makeRoom_ok {n : Nat} (hs : V.hasStoredSize = true) (h : b.makeRoom V mem n = .ok b') :
    b'.elems = b.elems ∧ b'.alloc = b.alloc ∧ n ≤ V.maxNumBlocks ∧
      (V.hasStaticCapacity = true → n ≤ blocksFor w V.extent) := by
  unfold makeRoom at h
  split at h
  · rename_i hc
    split at h
    · cases h
    · rename_i hn
      cases h
      obtain ⟨st, hp, hi, hh, hwb⟩ := V
      cases st with
      | capped m =>
          simp only [Vehicle.maxBlocks, Storage.wholeBlocks, decide_eq_true_eq] at hn hwb
          refine ⟨rfl, rfl, ?_, fun _ => by simpa [Vehicle.extent] using hn⟩
          unfold Vehicle.maxNumBlocks
          rw [Nat.le_div_iff_mul_le hp]
          have := Nat.mul_le_mul_right w (Nat.le_of_not_lt hn)
          omega
      | _ => simp [Vehicle.hasStaticCapacity] at hc
  · rename_i hc
    split at h
    · rename_i hr
      cases h
      exact ⟨rfl, rfl, hr.2, fun h => absurd h hc⟩
    · split at h
      · cases h
      · rename_i cap ha
        cases h
        obtain ⟨-, hnum, -⟩ := allocateFor_ok.mp ha
        exact ⟨rfl, rfl, hnum, fun h => absurd h hc⟩

/-- Room is within a static capacity, in reserve or granted. -/
theorem makeRoom_iff {n : Nat} : (∃ b', b.makeRoom V mem n = .ok b') ↔
    if V.hasStaticCapacity then n ≤ V.maxBlocks
    else n ≤ b.reserved ∧ n ≤ V.maxNumBlocks ∨ ∃ k, allocateFor V mem n = .ok k := by
  unfold makeRoom
  by_cases hc : V.hasStaticCapacity = true
  · rw [if_pos hc, if_pos hc]
    split
    · rename_i hlt
      exact iff_of_false nofun (by omega)
    · rename_i hge
      exact iff_of_true ⟨b, rfl⟩ (by omega)
  · rw [if_neg hc, if_neg hc]
    split
    · rename_i hr
      exact iff_of_true ⟨b, rfl⟩ (Or.inl hr)
    · rename_i hr
      cases ha : allocateFor V mem n with
      | error e => exact iff_of_false nofun fun h => by rcases h with h | ⟨k, hk⟩ <;> trivial
      | ok k => exact iff_of_true ⟨_, rfl⟩ (Or.inr ⟨k, rfl⟩)

/-- **What a completed `resize` of the blocks leaves.** -/
theorem resize_ok {n : Nat} {v : BitVec w} (hs : V.hasStoredSize = true)
    (h : b.resize V mem n v = .ok b') :
    b'.elems = b.elems.take n ++ List.replicate (n - b.elems.length) v ∧ b'.alloc = b.alloc ∧
      n ≤ V.maxNumBlocks := by
  unfold resize at h
  split at h
  · cases h
  · rename_i b1 h1
    obtain ⟨he, ha, hn, -⟩ := makeRoom_ok hs h1
    cases h
    simp only [he]
    exact ⟨trivial, ha, hn⟩

theorem pushBack_ok {v : BitVec w} (hs : V.hasStoredSize = true)
    (h : b.pushBack V mem v = .ok b') :
    b'.elems = b.elems ++ [v] ∧ b'.alloc = b.alloc ∧ b.elems.length + 1 ≤ V.maxNumBlocks := by
  unfold pushBack at h
  split at h
  · cases h
  · rename_i b1 h1
    obtain ⟨he, ha, hn, -⟩ := makeRoom_ok hs h1
    cases h
    simp only [he]
    exact ⟨trivial, ha, hn⟩

theorem copyOf_ok {source : Blocks w} {a : Nat} (hs : V.hasStoredSize = true)
    (h : copyOf V mem source a = .ok b') :
    b'.elems = source.elems ∧ b'.alloc = a ∧ source.elems.length ≤ V.maxNumBlocks := by
  unfold copyOf at h
  split at h
  · cases h
  · rename_i b1 h1
    obtain ⟨-, ha, hn, -⟩ := makeRoom_ok hs h1
    cases h
    exact ⟨rfl, ha, hn⟩

theorem length_resize {n : Nat} {v : BitVec w} (l : List (BitVec w)) :
    (l.take n ++ List.replicate (n - l.length) v).length = n := by
  rw [List.length_append, List.length_take, List.length_replicate]
  omega

/-- The bits of resized blocks: the old ones that stay, and the value in every new block. -/
theorem bitAt_resize (hw : 0 < w) {l : List (BitVec w)} {n p : Nat} {v : BitVec w}
    (hp : p < n * w) :
    bitAt (l.take n ++ List.replicate (n - l.length) v) p =
      if p < l.length * w then bitAt l p else v.getLsbD (p % w) := by
  obtain ⟨i, j, hj, rfl⟩ := exists_pos hw p
  have hi := (pos_lt_iff hj).mp hp
  rw [bitAt_append hw, List.length_take]
  simp only [pos_lt_iff hj, pos_mod hj]
  by_cases hl : i < l.length
  · rw [if_pos (by omega), if_pos hl, bitAt_take hw, if_pos hp]
  · -- every old block stays, as there are no more of them than new ones
    have hin : i * w + j - min n l.length * w = (i - l.length) * w + j := by
      have := Nat.mul_le_mul_right w (Nat.le_of_not_lt hl)
      rw [Nat.min_eq_right (by omega), Nat.sub_mul]
      omega
    rw [if_neg (by omega), if_neg hl, hin, bitAt_replicate hw, pos_mod hj]
    exact if_pos ((pos_lt_iff hj).mpr (by omega))

/-- The blocks held are within what is reserved for them. -/
def Roomy (V : Vehicle w) (b : Blocks w) : Prop :=
  V.hasStaticCapacity = false → b.elems.length ≤ b.reserved

theorem makeRoom_reserved {n : Nat} (h : b.makeRoom V mem n = .ok b') :
    V.hasStaticCapacity = false → n ≤ b'.reserved := by
  intro hc
  unfold makeRoom at h
  rw [hc, if_neg (by decide)] at h
  split at h
  · rename_i hr
    cases h
    exact hr.1
  · split at h
    · cases h
    · cases h
      exact Nat.le_max_left _ _

theorem makeRoom_keeps {n : Nat} (h : b.makeRoom V mem n = .ok b') : b.reserved ≤ b'.reserved := by
  unfold makeRoom at h
  split at h
  · split at h
    · cases h
    · cases h
      exact Nat.le_refl _
  · split at h
    · cases h
      exact Nat.le_refl _
    · rename_i hr
      split at h
      · cases h
      · rename_i capacity ha
        cases h
        -- a count past the address space is reserved nowhere, and granted nowhere
        obtain ⟨-, hnum, -⟩ := allocateFor_ok.mp ha
        show b.reserved ≤ max n capacity
        omega

theorem elems_makeRoom {n : Nat} (h : b.makeRoom V mem n = .ok b') : b'.elems = b.elems := by
  unfold makeRoom at h
  split at h
  · split at h
    · cases h
    · cases h
      rfl
  · split at h
    · cases h
      rfl
    · split at h
      · cases h
      · cases h
        rfl

theorem resize_reserved {n : Nat} {v : BitVec w} (h : b.resize V mem n v = .ok b') :
    b'.elems.length = n ∧ (V.hasStaticCapacity = false → n ≤ b'.reserved) := by
  unfold resize at h
  split at h
  · cases h
  · rename_i b1 h1
    have hr := makeRoom_reserved h1
    cases h
    exact ⟨length_resize _, hr⟩

theorem reserved_resize {n : Nat} {v : BitVec w} (h : b.resize V mem n v = .ok b') :
    b.reserved ≤ b'.reserved := by
  unfold resize at h
  split at h
  · cases h
  · rename_i b1 h1
    have hk := makeRoom_keeps h1
    cases h
    exact hk

theorem reserved_pushBack {v : BitVec w} (h : b.pushBack V mem v = .ok b') :
    b.reserved ≤ b'.reserved := by
  unfold pushBack at h
  split at h
  · cases h
  · rename_i b1 h1
    have hk := makeRoom_keeps h1
    cases h
    exact hk

theorem resize_roomy {n : Nat} {v : BitVec w} (h : b.resize V mem n v = .ok b') :
    b'.Roomy V := by
  obtain ⟨hl, hr⟩ := resize_reserved h
  intro hc
  rw [hl]
  exact hr hc

theorem pushBack_roomy {v : BitVec w} (h : b.pushBack V mem v = .ok b') : b'.Roomy V := by
  unfold pushBack at h
  split at h
  · cases h
  · rename_i b1 h1
    have hr := makeRoom_reserved h1
    have he := elems_makeRoom h1
    cases h
    intro hc
    rw [List.length_append, he]
    exact hr hc

theorem copyOf_roomy {source : Blocks w} {a : Nat} (h : copyOf V mem source a = .ok b') :
    b'.Roomy V := by
  unfold copyOf at h
  split at h
  · cases h
  · rename_i b1 h1
    have hr := makeRoom_reserved h1
    cases h
    exact hr

end Blocks

end XstdBits
