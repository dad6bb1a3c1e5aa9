/-
  File: XstdBits/Container/Combine.lean
  Subject: the four compound operators, and the elementwise kernel.

  * `combine` is the one kernel of `&=`, `|=`, `^=` and `-=`: unrolled at one and two static
    blocks, else a loop in which the blocks the other storage lacks read as zero; at a kept count
    the loop sums it in the same pass. The other operand may be the container itself
    (`Operand.self`), whose blocks the loop then reads while it writes them.
  * `combine_spec`: the result holds, at every position, the operation on the two bits. It keeps
    the invariant where the operation leaves clear what the other holds past this width.
  * `transform` passes each block through a function and clears the padding afterwards.
-/
import XstdBits.Container.Scan

namespace XstdBits

/-- The right operand of a compound operator: the container itself or another one. -/
inductive Operand {w : Nat} (V : Vehicle w) where
  | self
  | of (other : BitBlockContainer V)

namespace Operand
variable {w : Nat} {V : Vehicle w}

/-- The operand's value before the operator runs. -/
def get (o : Operand V) (c : BitBlockContainer V) : BitBlockContainer V :=
  match o with
  | .self => c
  | .of other => other

/-- The operand's blocks while the operator runs: its own, or those being written. -/
def elems (o : Operand V) (current : List (BitVec w)) : List (BitVec w) :=
  match o with
  | .self => current
  | .of other => other.mBlocks.elems

end Operand

namespace BitBlockContainer
variable {w : Nat} {V : Vehicle w} (c : BitBlockContainer V)

/-! ## 1. The kernel -/

/-- The blocks a storage lacks read as zero, which the invariant restates. -/
def paddedBlock (index : Nat) : BitVec w :=
  if index < c.numBlocks then c.block index else zero

/-- A run-time width's loop, which sums the kept count in the same pass. -/
def combineBlocks (op : BitVec w → BitVec w → BitVec w)
    (operand : List (BitVec w) → Nat → BitVec w) : BitBlockContainer V :=
  if V.hasStoredCount then
    let run := forUp 0 c.numBlocks (fun i (s : List (BitVec w) × Nat) =>
      let written := s.1.set i (op (s.1.getD i zero) (operand s.1 i))
      (written, s.2 + popcount (written.getD i zero))) (c.mBlocks.elems, 0)
    (c.withElems fun _ => run.1).storeCount run.2
  else
    c.withElems (writeUp 0 c.numBlocks fun xs i => op (xs.getD i zero) (operand xs i))

def combine (other : Operand V) (op : BitVec w → BitVec w → BitVec w) : BitBlockContainer V :=
  if V.unrolls 1 then c.setBlock 0 (op (c.block 0) ((other.get c).block 0))
  else if V.unrolls 2 then
    -- both operand blocks are loaded before the first store
    let rhs0 := (other.get c).block 0
    let rhs1 := (other.get c).block 1
    let c' := c.setBlock 0 (op (c.block 0) rhs0)
    c'.setBlock 1 (op (c'.block 1) rhs1)
  else if V.hasStaticSize ∧ V.extent ≠ 0 then
    c.withElems (writeUp 0 c.numBlocks fun xs i =>
      op (xs.getD i zero) ((other.elems xs).getD i zero))
  else if ¬ V.hasStaticSize ∧ ¬ V.hasZeroCapacity then
    if c.size ≠ (other.get c).size then
      c.combineBlocks op fun xs i =>
        if i < (other.get c).numBlocks then (other.elems xs).getD i zero else zero
    else
      c.combineBlocks op fun xs i => (other.elems xs).getD i zero
  else c

def andAssign (other : Operand V) : BitBlockContainer V := c.combine other fun lhs rhs => lhs &&& rhs

def orAssign (other : Operand V) : BitBlockContainer V := c.combine other fun lhs rhs => lhs ||| rhs

def xorAssign (other : Operand V) : BitBlockContainer V := c.combine other fun lhs rhs => lhs ^^^ rhs

def subAssign (other : Operand V) : BitBlockContainer V :=
  c.combine other fun lhs rhs => lhs &&& ~~~rhs

/-- What a block operation does to every bit. -/
def ActsBitwise (op : BitVec w → BitVec w → BitVec w) (g : Bool → Bool → Bool) : Prop :=
  ∀ (a b : BitVec w) (j : Nat), j < w → (op a b).getLsbD j = g (a.getLsbD j) (b.getLsbD j)

theorem actsBitwise_and : ActsBitwise (w := w) (fun a b => a &&& b) (fun x y => x && y) :=
  fun _ _ _ _ => BitVec.getLsbD_and

theorem actsBitwise_or : ActsBitwise (w := w) (fun a b => a ||| b) (fun x y => x || y) :=
  fun _ _ _ _ => BitVec.getLsbD_or

theorem actsBitwise_xor : ActsBitwise (w := w) (fun a b => a ^^^ b) (fun x y => x ^^ y) :=
  fun _ _ _ _ => BitVec.getLsbD_xor

theorem actsBitwise_sub : ActsBitwise (w := w) (fun a b => a &&& ~~~b) (fun x y => x && !y) := by
  intro a b j hj
  rw [BitVec.getLsbD_and, BitVec.getLsbD_not]
  simp [hj]

section Combine
variable {c} {other : Operand V} {op : BitVec w → BitVec w → BitVec w}

theorem getD_operand_elems {xs : List (BitVec w)} {i : Nat}
    (h : xs.getD i zero = c.mBlocks.elems.getD i zero) :
    (other.elems xs).getD i zero = (other.get c).block i := by
  cases other with
  | self => exact h
  | of d => rfl

theorem paddedBlock_eq (h : c.Shape) {i : Nat} : c.paddedBlock i = c.block i := by
  unfold paddedBlock
  rw [h.numBlocks]
  split
  · rfl
  · rename_i hi
    exact (List.getD_eq_default _ _ (by omega)).symm

/-- The loop over an operand that reads, at each place, what it held before. -/
theorem combineBlocks_spec (h : c.Shape) {operand : List (BitVec w) → Nat → BitVec w}
    {r : Nat → BitVec w}
    (hr : ∀ xs i, i < c.mBlocks.elems.length → xs.getD i zero = c.mBlocks.elems.getD i zero →
      operand xs i = r i) :
    MapsBlocks (fun i b => op b (r i)) c (c.combineBlocks op operand) ∧
      (V.hasStoredCount = true → (c.combineBlocks op operand).mCount =
        countBits (c.combineBlocks op operand).bit (c.mBlocks.elems.length * w)) := by
  unfold combineBlocks
  rw [h.numBlocks]
  split
  · rename_i hs
    extract_lets run
    have key := forUp_inv (f := fun i (s : List (BitVec w) × Nat) =>
        (s.1.set i (op (s.1.getD i zero) (operand s.1 i)),
          s.2 + popcount ((s.1.set i (op (s.1.getD i zero) (operand s.1 i))).getD i zero)))
      (s := (c.mBlocks.elems, 0))
      (fun k s => s.1.length = c.mBlocks.elems.length ∧
        (∀ j, s.1.getD j zero = if j < k then op (c.block j) (r j) else c.block j) ∧
        s.2 = countBits (bitAt s.1) (k * w)) (Nat.zero_le c.mBlocks.elems.length)
      ⟨rfl, fun j => by rw [if_neg (by omega)]; rfl, by simp⟩ ?_
    · obtain ⟨h1, h2, h3⟩ := key
      refine ⟨⟨(sameWidth_withElems h1).trans sameWidth_storeCount, fun i hi => ?_⟩, fun _ => ?_⟩
      · have := h2 i
        rw [if_pos hi] at this
        unfold block
        rw [mBlocks_storeCount]
        exact this
      · rw [mCount_storeCount hs]
        refine h3.trans ?_
        refine countBits_congr fun p _ => ?_
        unfold bit
        rw [mBlocks_storeCount]
        rfl
    · rintro k ⟨xs, sum⟩ _ hk ⟨h1, h2, h3⟩
      dsimp only at h1 h2 h3 ⊢
      have hxk : xs.getD k zero = c.block k := by rw [h2 k, if_neg (by omega)]
      have hrk : operand xs k = r k := hr xs k hk hxk
      rw [hrk, hxk]
      refine ⟨by rw [List.length_set, h1], fun j => ?_, ?_⟩
      · rw [getD_set, h2 j]
        by_cases hjk : k = j
        · subst hjk
          rw [if_pos ⟨rfl, by omega⟩, if_pos (by omega)]
        · rw [if_neg fun hc => hjk hc.1]
          by_cases hlt : j < k
          · rw [if_pos hlt, if_pos (by omega)]
          · rw [if_neg hlt, if_neg (by omega)]
      · -- the blocks below are as they were, and this one is counted
        rw [Nat.succ_mul, countBits_add, h3]
        congr 1
        · refine countBits_congr fun p hp => ?_
          rw [bitAt_set (by omega), if_neg]
          have := block_trichotomy (p / w) k w
          have := Nat.div_mul_le_self p w
          omega
        · unfold popcount countIn
          refine countBits_congr fun j hj => ?_
          rw [bitAt_pos hj]
  · rename_i hs
    have hspec := writeUp_spec (d := zero) (x := c.mBlocks.elems) (a := 0)
      (g := fun xs i => op (xs.getD i zero) (operand xs i)) (Nat.le_refl _)
      fun ys i _ hi _ hy => by
        rw [hy i (Nat.le_refl i), hr ys i hi (hy i (Nat.le_refl i)),
          hr c.mBlocks.elems i hi rfl]
    refine ⟨⟨sameWidth_withElems hspec.1, fun i hi => ?_⟩, fun hc => absurd hc hs⟩
    refine (hspec.2 i).trans ?_
    rw [if_pos ⟨Nat.zero_le _, hi⟩, hr c.mBlocks.elems i hi rfl]
    rfl

theorem not_counted_of_static (hs : V.hasStaticSize = true) : V.hasStoredCount = false := by
  unfold Vehicle.hasStaticSize at hs
  unfold Vehicle.hasStoredCount
  split <;> simp_all

theorem not_counted_of_unrolls {k : Nat} (hu : V.unrolls k = true) : V.hasStoredCount = false := by
  unfold Vehicle.unrolls at hu
  rw [Bool.and_eq_true] at hu
  exact not_counted_of_static hu.1

/-- **Every arm of `combine` maps the blocks**, and a kept count is that of the result. -/
theorem combine_maps (other : Operand V) (op : BitVec w → BitVec w → BitVec w) (h : c.Shape)
    (ho : (other.get c).Shape) :
    MapsBlocks (fun i b => op b ((other.get c).block i)) c (c.combine other op) ∧
      (V.hasStoredCount = true → (c.combine other op).mCount =
        countBits (c.combine other op).bit (c.mBlocks.elems.length * w)) := by
  unfold combine
  split
  · rename_i hu
    refine ⟨mapsBlocks_one (h.unrolls hu) rfl, fun hc => ?_⟩
    rw [not_counted_of_unrolls hu] at hc
    cases hc
  · split
    · rename_i hu
      refine ⟨mapsBlocks_two (h.unrolls hu) rfl ?_, fun hc => ?_⟩
      · rw [block_setBlock, if_neg (by simp)]
      · rw [not_counted_of_unrolls hu] at hc
        cases hc
    · split
      · rename_i hs
        rw [h.numBlocks]
        have hspec := writeUp_spec (d := zero) (x := c.mBlocks.elems) (a := 0)
          (g := fun xs i => op (xs.getD i zero) ((other.elems xs).getD i zero)) (Nat.le_refl _)
          fun ys i _ hi _ hy => by
            rw [hy i (Nat.le_refl i), getD_operand_elems (c := c) (hy i (Nat.le_refl i)),
              getD_operand_elems (c := c) rfl]
        refine ⟨⟨sameWidth_withElems hspec.1, fun i hi => ?_⟩, fun hc => ?_⟩
        · refine (hspec.2 i).trans ?_
          rw [if_pos ⟨Nat.zero_le _, hi⟩, getD_operand_elems (c := c) rfl]
          rfl
        · rw [not_counted_of_static hs.1] at hc
          cases hc
      · split
        · split
          · refine combineBlocks_spec h fun xs i _ hx => ?_
            rw [getD_operand_elems hx]
            exact paddedBlock_eq ho
          · exact combineBlocks_spec h fun xs i _ hx => getD_operand_elems hx
        · rename_i hs hz
          -- a static width of zero, or a capacity of zero
          have h0 : c.size = 0 := by
            unfold size
            by_cases hst : V.hasStaticSize = true
            · rw [if_pos hst]
              by_contra hne
              exact hs ⟨hst, hne⟩
            · rw [if_neg hst, if_pos]
              by_contra hne
              exact hz ⟨hst, hne⟩
          have hl : c.mBlocks.elems.length = 0 := by rw [h, h0, blocksFor_zero]
          refine ⟨mapsBlocks_nil hl, fun hc => ?_⟩
          exfalso
          by_cases hst : V.hasStaticSize = true
          · rw [not_counted_of_static hst] at hc
            cases hc
          · have hzc : V.hasZeroCapacity = true := by
              by_contra hne
              exact hz ⟨hst, hne⟩
            unfold Vehicle.hasStoredCount at hc
            unfold Vehicle.hasZeroCapacity at hzc
            split at hc <;> simp_all

/-- **The result holds the operation on the two bits at every position**, where the operation
    leaves clear what the other holds past this width. -/
theorem combine_spec (other : Operand V) (h : c.Inv) (ho : (other.get c).Inv) {g : Bool → Bool → Bool}
    (hop : ActsBitwise op g) (hg : ∀ p, c.size ≤ p → g false ((other.get c).bit p) = false) :
    SameWidth c (c.combine other op) ∧
      (∀ p, (c.combine other op).bit p = g (c.bit p) ((other.get c).bit p)) ∧
      (c.combine other op).Inv := by
  obtain ⟨hm, hcount⟩ := combine_maps other op h.shape ho.shape
  have hsz := h.shape.size_le
  have hbit (p : Nat) : (c.combine other op).bit p = g (c.bit p) ((other.get c).bit p) := by
    by_cases hp : p < c.mBlocks.elems.length * w
    · exact hm.bit (g := fun p v => g v ((other.get c).bit p)) (fun i b j hj => by
        rw [hop _ _ _ hj, bit_pos hj]) hp
    · rw [bit_of_le (by rw [hm.width.length]; omega), h.clear p (by omega), hg p (by omega)]
  refine ⟨hm.width, hbit, h.write hm.width (fun p hp => ?_) fun hs => ?_⟩
  · rw [hbit, h.clear p hp, hg p hp]
  · rw [hcount hs]
    refine countBits_of_clear hsz fun p hp _ => ?_
    rw [hbit, h.clear p hp, hg p hp]

end Combine

/-! ## 2. Elementwise kernels -/

/-- `transform(other, f)`: each pair of blocks through `f`, then the padding cleared. -/
def transform2 (other : Operand V) (f : BitVec w → BitVec w → BitVec w) : BitBlockContainer V :=
  (c.withElems (writeUp 0 c.numBlocks fun xs i =>
    f (xs.getD i zero) ((other.elems xs).getD i zero))).eraseUnused

/-- `transform(f)`: each block through `f`, then the padding cleared. -/
def transform (f : BitVec w → BitVec w) : BitBlockContainer V :=
  (c.withElems (mapUp c.numBlocks zero fun _ b => f b)).eraseUnused

section Transform
variable {c} {other : Operand V}

/-- What an uncounted container keeps when its blocks are overwritten and its padding cleared. -/
theorem Inv.erased (h : c.Inv) {d : BitBlockContainer V} (hw : SameWidth c d)
    (hu : V.hasStoredCount = false) : d.eraseUnused.Inv := by
  refine h.write (hw.trans sameWidth_eraseUnused) (fun p hp => ?_) fun hc => ?_
  · rw [bit_eraseUnused (hw.shape h.shape), hw.size]
    simp
    omega
  · rw [hu] at hc
    cases hc

theorem transform2_maps (other : Operand V) (h : c.Shape) {f : BitVec w → BitVec w → BitVec w} :
    MapsBlocks (fun i b => f b ((other.get c).block i)) c
      (c.withElems (writeUp 0 c.numBlocks fun xs i =>
        f (xs.getD i zero) ((other.elems xs).getD i zero))) := by
  rw [h.numBlocks]
  have hspec := writeUp_spec (d := zero) (x := c.mBlocks.elems) (a := 0)
    (g := fun xs i => f (xs.getD i zero) ((other.elems xs).getD i zero)) (Nat.le_refl _)
    fun ys i _ hi _ hy => by
      rw [hy i (Nat.le_refl i), getD_operand_elems (c := c) (hy i (Nat.le_refl i)),
        getD_operand_elems (c := c) rfl]
  refine ⟨sameWidth_withElems hspec.1, fun i hi => ?_⟩
  refine (hspec.2 i).trans ?_
  rw [if_pos ⟨Nat.zero_le _, hi⟩, getD_operand_elems (c := c) rfl]
  rfl

theorem Inv.transform2 (h : c.Inv) (hu : V.hasStoredCount = false)
    {f : BitVec w → BitVec w → BitVec w} : (c.transform2 other f).Inv :=
  h.erased (transform2_maps other h.shape).width hu

theorem transform_maps (h : c.Shape) {f : BitVec w → BitVec w} :
    MapsBlocks (fun _ b => f b) c (c.withElems (mapUp c.numBlocks zero fun _ b => f b)) := by
  rw [h.numBlocks]
  exact mapsBlocks_all

theorem Inv.transform (h : c.Inv) (hu : V.hasStoredCount = false) {f : BitVec w → BitVec w} :
    (c.transform f).Inv :=
  h.erased (transform_maps h.shape).width hu

/-- **A bitwise kernel over two storages of one width acts on every position of the width.** -/
theorem bit_transform2 (h : c.Inv) {f : BitVec w → BitVec w → BitVec w} {g : Bool → Bool → Bool}
    (hf : ActsBitwise f g) (p : Nat) : (c.transform2 other f).bit p =
      (g (c.bit p) ((other.get c).bit p) && decide (p < c.size)) := by
  have hm := transform2_maps other h.shape (f := f)
  have hsz := h.shape.size_le
  unfold BitBlockContainer.transform2
  rw [bit_eraseUnused (hm.width.shape h.shape), hm.width.size]
  by_cases hp : p < c.size
  · rw [hm.bit (g := fun p v => g v ((other.get c).bit p)) (fun i b j hj => by
      rw [hf _ _ _ hj, bit_pos hj]) (by omega)]
  · simp [hp]

end Transform

end BitBlockContainer

end XstdBits
