/-
  File: XstdBits/Valarray/Elementwise.lean
  Subject: a valarray's elementwise operators (`valarray_adaptor.hpp`).

  * each of the eleven binary operators is a bitwise expression on whole blocks
    (`Operator.functor`), which does to two blocks, bit by bit, what the operator gives on bools
    (`Operator.actsBitwise`).
  * `zip`, in its three operand forms, copies an operand and passes the copy's blocks through it; a
    function of one bool fills or flips a copy (`applied`).
  * each step on blocks has a rule for what it holds (`Holds`), and whatever reads a valarray of
    elements sees nothing else (`Sees`).
-/
import XstdBits.Valarray.Owner

namespace XstdBits

namespace Valarray

open BitBlockContainer (ActsBitwise copyOf Grants)

/-! ## 1. The operators -/

section Functors
variable {w : Nat} (a b : BitVec w)

def inverted : BitVec w := ~~~a

def bitAnd : BitVec w := a &&& b

def bitOr : BitVec w := a ||| b

def bitXor : BitVec w := a ^^^ b

def equalTo : BitVec w := inverted (a ^^^ b)

def less : BitVec w := inverted a &&& b

def greater : BitVec w := a &&& inverted b

def lessEqual : BitVec w := inverted a ||| b

def greaterEqual : BitVec w := a ||| inverted b

end Functors

/-- The logical five and the six comparisons: `&`, `|`, `^`, `&&`, `||`, `==`, `!=`, `<`, `>`, `<=`
    and `>=`. -/
inductive Operator where
  | and | or | xor | logicalAnd | logicalOr | eq | ne | lt | gt | le | ge

namespace Operator

/-- What the operator passes to `zip`. -/
def functor {w : Nat} (op : Operator) : BitVec w → BitVec w → BitVec w :=
  match op with
  | and => bitAnd
  | or => bitOr
  | xor => bitXor
  | logicalAnd => bitAnd
  | logicalOr => bitOr
  | eq => equalTo
  | ne => bitXor
  | lt => less
  | gt => greater
  | le => lessEqual
  | ge => greaterEqual

/-- What the operator gives on two bools, which compare as the integers zero and one. -/
def onBools (op : Operator) (a b : Bool) : Bool :=
  match op with
  | and => a && b
  | or => a || b
  | xor => a ^^ b
  | logicalAnd => a && b
  | logicalOr => a || b
  | eq => decide (a.toNat = b.toNat)
  | ne => decide (a.toNat ≠ b.toNat)
  | lt => decide (a.toNat < b.toNat)
  | gt => decide (a.toNat > b.toNat)
  | le => decide (a.toNat ≤ b.toNat)
  | ge => decide (a.toNat ≥ b.toNat)

/-- **Whole blocks at once are bool by bool**, the order of the operands included. -/
theorem actsBitwise {w : Nat} (op : Operator) :
    ActsBitwise (w := w) op.functor op.onBools := by
  intro a b j hj
  have hnot (v : BitVec w) : (~~~v).getLsbD j = !v.getLsbD j := by
    simp [hj]
  cases op <;>
    simp only [functor, onBools, bitAnd, bitOr, bitXor, equalTo, less, greater, lessEqual,
      greaterEqual, inverted, BitVec.getLsbD_and, BitVec.getLsbD_or, BitVec.getLsbD_xor, hnot] <;>
    cases a.getLsbD j <;> cases b.getLsbD j <;> rfl

end Operator

section Operations
variable {w : Nat} {V : Vehicle w} (mem : Memory)

/-- `zip(x, y, f)` over two arrays. -/
def zip (x y : BitBlockContainer V) (f : BitVec w → BitVec w → BitVec w) :
    Except Exn (BitBlockContainer V) := do
  let nrv ← copyOf mem x x.mBlocks.alloc
  return nrv.transform2 (.of y) f

/-- `zip(x, y, f)`, `y` a scalar. -/
def zipRight (x : BitBlockContainer V) (y : Bool) (f : BitVec w → BitVec w → BitVec w) :
    Except Exn (BitBlockContainer V) := do
  let nrv ← copyOf mem x x.mBlocks.alloc
  return nrv.transform fun a => f a (splat y)

/-- `zip(x, y, f)`, `x` a scalar. -/
def zipLeft (x : Bool) (y : BitBlockContainer V) (f : BitVec w → BitVec w → BitVec w) :
    Except Exn (BitBlockContainer V) := do
  let nrv ← copyOf mem y y.mBlocks.alloc
  return nrv.transform fun b => f (splat x) b

/-- `operator!()`. -/
def logicalNot (x : BitBlockContainer V) : Except Exn (BitBlockContainer V) := do
  let nrv ← copyOf mem x x.mBlocks.alloc
  return nrv.flipAll

/-- `operator~()`. -/
def bitNot (x : BitBlockContainer V) : Except Exn (BitBlockContainer V) := logicalNot mem x

/-- `applied(at_false, at_true)`. -/
def applied (x : BitBlockContainer V) (atFalse atTrue : Bool) :
    Except Exn (BitBlockContainer V) := do
  let nrv ← copyOf mem x x.mBlocks.alloc
  return if atFalse = atTrue then nrv.fill atFalse else if atFalse then nrv.flipAll else nrv

/-- `apply(func)`, either form of it. -/
def apply (x : BitBlockContainer V) (func : Bool → Bool) : Except Exn (BitBlockContainer V) :=
  applied mem x (func false) (func true)

variable (x : BitBlockContainer V) (other : Operand V) (value : Bool)

/-- `operator&=(other)`. -/
def andAssign : BitBlockContainer V := x.transform2 other bitAnd

/-- `operator|=(other)`. -/
def orAssign : BitBlockContainer V := x.transform2 other bitOr

/-- `operator^=(other)`. -/
def xorAssign : BitBlockContainer V := x.transform2 other bitXor

/-- `operator&=(value)`. -/
def andAssignValue : BitBlockContainer V := if ¬ value then x.fill false else x

/-- `operator|=(value)`. -/
def orAssignValue : BitBlockContainer V := if value then x.fill true else x

/-- `operator^=(value)`. -/
def xorAssignValue : BitBlockContainer V := if value then x.flipAll else x

/-- `sum()`: the sum of bools is their disjunction. -/
def sum : Bool := x.any

/-- `min()`. -/
def min : Bool := x.all

/-- `max()`. -/
def max : Bool := x.any

end Operations

/-! ## 2. What each step leaves -/

section Steps
variable {w : Nat} {V : Vehicle w} {mem : Memory} {c : BitBlockContainer V} {n : Nat}
  {f g : Nat → Bool}

/-- A container holds its own bits. -/
theorem holds_self (h : c.Inv) : Holds c c.size c.bit where
  inv := h
  size := rfl
  bit p := by
    by_cases hp : p < c.size
    · rw [decide_eq_true hp, Bool.true_and]
    · rw [decide_eq_false hp, Bool.false_and, h.clear p (by omega)]

theorem Holds.elem (h : Holds c n f) {i : Nat} (hi : i < n) : c.bit i = f i := by
  rw [h.bit, decide_eq_true hi, Bool.true_and]

/-- What the elements are matters below the size only. -/
theorem Holds.congr (h : Holds c n f) (hfg : ∀ i, i < n → f i = g i) : Holds c n g where
  inv := h.inv
  size := h.size
  bit p := by
    rw [h.bit]
    by_cases hp : p < n
    · rw [hfg p hp]
    · rw [decide_eq_false hp, Bool.false_and, Bool.false_and]

/-- A copy holds what its source does. -/
theorem copyOf_holds (h : c.Inv) {d : BitBlockContainer V} {alloc : Nat}
    (hd : copyOf mem c alloc = .ok d) : Holds d c.size c.bit := by
  have hsame := BitBlockContainer.copyOf_sameValue hd
  refine ⟨h.transferred hsame, hsame.size, fun p => ?_⟩
  rw [hsame.bit]
  exact (holds_self h).bit p

/-- **Two arrays through a bitwise kernel**: each element with the other's, whatever the kernel does
    to the padding. -/
theorem Holds.transform2 (h : Holds c n f) (hu : V.hasStoredCount = false) (other : Operand V)
    {F : BitVec w → BitVec w → BitVec w} {o : Bool → Bool → Bool} (hF : ActsBitwise F o) :
    Holds (c.transform2 other F) n fun i => o (f i) ((other.get c).bit i) where
  inv := h.inv.transform2 hu
  size := by
    unfold BitBlockContainer.transform2
    rw [BitBlockContainer.sameWidth_eraseUnused.size,
      (BitBlockContainer.transform2_maps other h.inv.shape).width.size, h.size]
  bit p := by
    rw [BitBlockContainer.bit_transform2 h.inv hF, h.size, Bool.and_comm]
    by_cases hp : p < n
    · rw [h.elem hp]
    · rw [decide_eq_false hp, Bool.false_and, Bool.false_and]

/-- **One array through a bitwise kernel.** -/
theorem Holds.transform (h : Holds c n f) (hu : V.hasStoredCount = false)
    {F : BitVec w → BitVec w} {o : Bool → Bool}
    (hF : ∀ a j, j < w → (F a).getLsbD j = o (a.getLsbD j)) :
    Holds (c.transform F) n fun i => o (f i) where
  inv := h.inv.transform hu
  size := by
    unfold BitBlockContainer.transform
    rw [BitBlockContainer.sameWidth_eraseUnused.size,
      (BitBlockContainer.transform_maps h.inv.shape).width.size, h.size]
  bit p := by
    have hmaps := BitBlockContainer.transform_maps h.inv.shape (f := F)
    have hle := h.inv.shape.size_le
    unfold BitBlockContainer.transform
    rw [BitBlockContainer.bit_eraseUnused (hmaps.width.shape h.inv.shape), hmaps.width.size,
      h.size, Bool.and_comm]
    by_cases hp : p < n
    · have hin : p < c.mBlocks.elems.length * w := by
        rw [← h.size] at hp
        omega
      rw [hmaps.bit (g := fun _ v => o v) (fun _ b j hj => hF b j hj) hin, h.elem hp]
    · rw [decide_eq_false hp, Bool.false_and, Bool.false_and]

theorem Holds.fill (h : Holds c n f) (v : Bool) : Holds (c.fill v) n fun _ => v := by
  obtain ⟨hsame, hbit, hinv⟩ := BitBlockContainer.fill_spec h.inv (v := v)
  refine ⟨hinv, hsame.size.trans h.size, fun p => ?_⟩
  rw [hbit, h.size]

theorem Holds.flipAll (h : Holds c n f) : Holds c.flipAll n fun i => !f i := by
  obtain ⟨hsame, hbit, -⟩ := BitBlockContainer.flipAll_spec h.inv
  refine ⟨h.inv.flipAll, hsame.size.trans h.size, fun p => ?_⟩
  rw [hbit, h.size]
  by_cases hp : p < n
  · rw [h.elem hp]
  · rw [decide_eq_false hp, Bool.false_and, Bool.false_and]

end Steps

/-! ## 3. What reads the result -/

section Consumers
variable {w : Nat} {V : Vehicle w} {r : BitBlockContainer V} {n : Nat} {f : Nat → Bool}

/-- **A gather of the `m` elements `g i`**: whatever it returns holds them, and it returns where the
    owner gathered into has room for them. -/
structure Collects {U : Vehicle w} (mem : Memory) (run : Except Exn (BitBlockContainer U)) (m : Nat)
    (g : Nat → Bool) : Prop where
  holds : ∀ out, run = .ok out → Holds out m g
  completes : RoomFor U mem m → ∃ out, run = .ok out

/-- **Elements only**: `sum()`, `max()` and `min()` fold the elements, a mask made of the array
    counts and selects those that are true, and a gather from it takes elements. -/
structure Sees (r : BitBlockContainer V) (hr : r.Inv) (hV : V.storage ≠ .lent) (n : Nat)
    (f : Nat → Bool) : Prop where
  sum : sum r = true ↔ ∃ i, i < n ∧ f i = true
  max : max r = true ↔ ∃ i, i < n ∧ f i = true
  min : min r = true ↔ ∀ i, i < n → f i = true
  maskCount : ∀ v, (Selection.mask (.of (.ofContainer r hr hV))).size v = countBits f n
  masked : ∀ {I : Intrinsics w} {B U : Vehicle w} (v : BitValarray w) (mem : Memory) (alloc : Nat),
    I.Lawful → B.storage = .lent → U.storage ≠ .lent → U.hasStoredCount = false →
    v.size.toNat = n →
    Collects mem (v.gather I B mem alloc (.mask (.of (.ofContainer r hr hV))) U.gathered)
      (countBits f n)
      fun q => ((ascending f n).map (bitAt v.blocks)).getD q false
  gathered : ∀ {I : Intrinsics w} {B : Vehicle w} {sel : Selection w} (mem : Memory) (alloc : Nat),
    I.Lawful → B.storage = .lent → V.hasStoredCount = false →
    sel.WellFormed (.ofContainer r hr hV) → sel.Within (.ofContainer r hr hV) →
    ¬ sel.PastEnd (.ofContainer r hr hV) →
    Collects mem ((BitValarray.ofContainer r hr hV).gather I B mem alloc sel V.gathered)
      (sel.positions (.ofContainer r hr hV)).length
      fun q => ((sel.positions (.ofContainer r hr hV)).map f).getD q false

theorem Holds.sum_iff (h : Holds r n f) : r.any = true ↔ ∃ i, i < n ∧ f i = true := by
  rw [BitBlockContainer.any_iff h.inv, h.size]
  constructor
  · rintro ⟨i, hi, hb⟩
    exact ⟨i, hi, h.elem hi ▸ hb⟩
  · rintro ⟨i, hi, hb⟩
    exact ⟨i, hi, (h.elem hi).trans hb⟩

theorem Holds.min_iff (h : Holds r n f) : r.all = true ↔ ∀ i, i < n → f i = true := by
  rw [BitBlockContainer.all_iff h.inv, h.size]
  exact forall₂_congr fun i hi => by rw [h.elem hi]

/-- The true elements, in order. -/
theorem Holds.ascending_eq (h : Holds r n f) : ascending r.bit r.size = ascending f n := by
  rw [h.size]
  exact ascending_congr fun i hi => h.elem hi

/-- **The padding counts for nothing.** -/
theorem Holds.popcounts (h : Holds r n f) :
    (r.mBlocks.elems.map popcount).sum = countBits f n := by
  have hlen := h.inv.shape.size_le
  rw [BitBlockContainer.sum_popcounts, ← h.size,
    countBits_of_clear hlen fun p hp _ => h.inv.clear p hp, h.size]
  exact countBits_congr fun i hi => h.elem hi

/-- **What reads a valarray of elements sees nothing else.** -/
theorem Holds.sees (h : Holds r n f) (hV : V.storage ≠ .lent) : Sees r h.inv hV n f where
  sum := h.sum_iff
  max := h.sum_iff
  min := h.min_iff
  maskCount _ := h.popcounts
  masked := by
    intro I B U v mem alloc hI hB hU hu hv
    have hsize : (BitValarray.ofContainer r h.inv hV).size.toNat = v.size.toNat := by
      rw [BitValarray.size_ofContainer, h.size, hv]
    have hpos : (Selection.mask (.of (.ofContainer r h.inv hV))).positions v = ascending f n := by
      show ascending r.bit (BitValarray.ofContainer r h.inv hV).size.toNat = _
      rw [BitValarray.size_ofContainer]
      exact h.ascending_eq
    have hform : (Selection.mask (.of (.ofContainer r h.inv hV))).WellFormed v :=
      BitVec.eq_of_toNat_eq hsize
    have hin : (Selection.mask (.of (.ofContainer r h.inv hV))).Within v := fun p hp => by
      rw [hpos, mem_ascending] at hp
      omega
    have hlen : ((Selection.mask (.of (.ofContainer r h.inv hV))).positions v).length =
        countBits f n := by
      rw [hpos]
      exact length_filter_range
    refine ⟨fun out hout => ?_, fun hroom => ?_⟩
    · have hholds := BitValarray.gather_holds hI hB hform hin
        (Vehicle.hasStoredCount_gathered hu) (Vehicle.hasStoredSize_gathered hU) hout
      rw [hlen] at hholds
      exact hholds.congr fun q _ => by
        unfold Selection.element
        rw [hpos]
    · obtain ⟨out, hout, -⟩ := (BitValarray.gather_iff hI hB hform hin
        (Vehicle.hasStoredCount_gathered hu) (Vehicle.hasStoredSize_gathered hU) alloc).mpr
          ⟨id, by rwa [hlen]⟩
      exact ⟨out, hout⟩
  gathered := by
    intro I B sel mem alloc hI hB hu hform hin hpast
    refine ⟨fun out hout => ?_, fun hroom => ?_⟩
    · refine (BitValarray.gather_holds hI hB hform hin (Vehicle.hasStoredCount_gathered hu)
        (Vehicle.hasStoredSize_gathered hV) hout).congr fun q _ => ?_
      unfold Selection.element
      congr 1
      refine List.map_congr_left fun p hp => ?_
      have hlt := hin p hp
      rw [BitValarray.size_ofContainer, h.size] at hlt
      exact h.elem hlt
    · obtain ⟨out, hout, -⟩ := (BitValarray.gather_iff hI hB hform hin
        (Vehicle.hasStoredCount_gathered hu) (Vehicle.hasStoredSize_gathered hV) alloc).mpr
          ⟨hpast, hroom⟩
      exact ⟨out, hout⟩

end Consumers

/-! ## 4. The operators -/

section Exact
variable {w : Nat} {V : Vehicle w} {mem : Memory} {x y : BitBlockContainer V}

/-- **An operation that returns the valarray of the `n` elements `f i`**: whatever it returns holds
    them, and it returns where the memory grants a copy of `x`. -/
structure Returns (mem : Memory) (x : BitBlockContainer V) (run : Except Exn (BitBlockContainer V))
    (n : Nat) (f : Nat → Bool) : Prop where
  holds : ∀ r, run = .ok r → Holds r n f
  completes : Grants V mem x.mBlocks.elems.length → ∃ r, run = .ok r

/-- A step on a copy returns what the step leaves of it. -/
theorem returns_copy (hx : x.Inv) {n : Nat} {f : Nat → Bool}
    {step : BitBlockContainer V → BitBlockContainer V}
    (hstep : ∀ d, Holds d x.size x.bit → Holds (step d) n f) :
    Returns mem x (do
      let nrv ← copyOf mem x x.mBlocks.alloc
      return step nrv) n f where
  holds r hr := by
    cases hd : copyOf mem x x.mBlocks.alloc with
    | error e =>
        rw [hd] at hr
        cases hr
    | ok d =>
        rw [hd] at hr
        cases hr
        exact hstep d (copyOf_holds hx hd)
  completes hg := by
    obtain ⟨d, hd⟩ : ∃ d, copyOf mem x x.mBlocks.alloc = .ok d :=
      BitBlockContainer.copyOf_of_grants hx hg
    rw [hd]
    exact ⟨_, rfl⟩

theorem getLsbD_right {F : BitVec w → BitVec w → BitVec w} {o : Bool → Bool → Bool}
    (hF : ActsBitwise F o) (b : Bool) (a : BitVec w) (j : Nat) (hj : j < w) :
    (F a (splat b)).getLsbD j = o (a.getLsbD j) b := by
  rw [hF _ _ _ hj, getLsbD_splat hj]

theorem getLsbD_left {F : BitVec w → BitVec w → BitVec w} {o : Bool → Bool → Bool}
    (hF : ActsBitwise F o) (b : Bool) (a : BitVec w) (j : Nat) (hj : j < w) :
    (F (splat b) a).getLsbD j = o b (a.getLsbD j) := by
  rw [hF _ _ _ hj, getLsbD_splat hj]

section Copies
variable (hx : x.Inv)
include hx

theorem zip_returns (hu : V.hasStoredCount = false) (y : BitBlockContainer V) (op : Operator) :
    Returns mem x (zip mem x y op.functor) x.size fun i => op.onBools (x.bit i) (y.bit i) :=
  returns_copy hx fun _ hd => hd.transform2 hu (.of y) op.actsBitwise

theorem zipRight_returns (hu : V.hasStoredCount = false) (b : Bool) (op : Operator) :
    Returns mem x (zipRight mem x b op.functor) x.size fun i => op.onBools (x.bit i) b :=
  returns_copy hx fun _ hd =>
    hd.transform hu (o := fun v => op.onBools v b) (getLsbD_right op.actsBitwise b)

theorem zipLeft_returns (hu : V.hasStoredCount = false) (b : Bool) (op : Operator) :
    Returns mem x (zipLeft mem b x op.functor) x.size fun i => op.onBools b (x.bit i) :=
  returns_copy hx fun _ hd =>
    hd.transform hu (o := fun v => op.onBools b v) (getLsbD_left op.actsBitwise b)

theorem logicalNot_returns : Returns mem x (logicalNot mem x) x.size fun i => !x.bit i :=
  returns_copy hx fun _ hd => hd.flipAll

/-- **A function of one bool is one of four**: a constant, the identity or not. -/
theorem apply_returns (f : Bool → Bool) :
    Returns mem x (apply mem x f) x.size fun i => f (x.bit i) := by
  refine returns_copy hx fun d hd => ?_
  by_cases hconst : f false = f true
  · rw [if_pos hconst]
    refine (hd.fill (f false)).congr fun i _ => ?_
    cases x.bit i
    · rfl
    · exact hconst
  · rw [if_neg hconst]
    cases hfalse : f false with
    | true =>
        rw [if_pos rfl]
        refine hd.flipAll.congr fun i _ => ?_
        cases x.bit i
        · exact hfalse.symm
        · rw [hfalse] at hconst
          simpa using hconst
    | false =>
        rw [if_neg (by decide)]
        refine hd.congr fun i _ => ?_
        cases x.bit i
        · exact hfalse.symm
        · rw [hfalse] at hconst
          simpa using hconst

end Copies

section Compound
variable (hx : x.Inv) (b : Bool)
include hx

theorem andAssignValue_holds : Holds (andAssignValue x b) x.size fun i => x.bit i && b := by
  unfold andAssignValue
  cases b with
  | true => exact (holds_self hx).congr fun i _ => (Bool.and_true _).symm
  | false => exact ((holds_self hx).fill false).congr fun i _ => (Bool.and_false _).symm

theorem orAssignValue_holds : Holds (orAssignValue x b) x.size fun i => x.bit i || b := by
  unfold orAssignValue
  cases b with
  | true => exact ((holds_self hx).fill true).congr fun i _ => (Bool.or_true _).symm
  | false => exact (holds_self hx).congr fun i _ => (Bool.or_false _).symm

theorem xorAssignValue_holds : Holds (xorAssignValue x b) x.size fun i => x.bit i ^^ b := by
  unfold xorAssignValue
  cases b with
  | true => exact (holds_self hx).flipAll.congr fun i _ => (Bool.xor_true _).symm
  | false => exact (holds_self hx).congr fun i _ => (Bool.xor_false _).symm

end Compound

/-- **Elementwise operators.** Over two valarrays of one size, or one and a scalar on either side,
    every operator leaves at each position what it gives on the bools there, and so do the unary and
    the compound ones and a function applied; past the size everything is clear, so that what reads
    the result sees its elements only. -/
theorem elementwise_exact (hu : V.hasStoredCount = false) (hV : V.storage ≠ .lent) (hx : x.Inv)
    (hy : y.Inv) (hsize : y.size = x.size) :
    (∀ op : Operator,
      Returns mem x (zip mem x y op.functor) x.size
        (fun i => op.onBools (x.bit i) (y.bit i)) ∧
      ∀ b, Returns mem x (zipRight mem x b op.functor) x.size (fun i => op.onBools (x.bit i) b) ∧
        Returns mem y (zipLeft mem b y op.functor) x.size fun i => op.onBools b (y.bit i)) ∧
    Returns mem x (logicalNot mem x) x.size (fun i => !x.bit i) ∧
    Returns mem x (bitNot mem x) x.size (fun i => !x.bit i) ∧
    (∀ f, Returns mem x (apply mem x f) x.size fun i => f (x.bit i)) ∧
    (∀ other : Operand V, (other.get x).Inv → (other.get x).size = x.size →
      Holds (andAssign x other) x.size (fun i => x.bit i && (other.get x).bit i) ∧
      Holds (orAssign x other) x.size (fun i => x.bit i || (other.get x).bit i) ∧
      Holds (xorAssign x other) x.size fun i => x.bit i ^^ (other.get x).bit i) ∧
    (∀ b, Holds (andAssignValue x b) x.size (fun i => x.bit i && b) ∧
      Holds (orAssignValue x b) x.size (fun i => x.bit i || b) ∧
      Holds (xorAssignValue x b) x.size fun i => x.bit i ^^ b) ∧
    ∀ (r : BitBlockContainer V) (n : Nat) (f : Nat → Bool) (h : Holds r n f),
      Sees r h.inv hV n f := by
  refine ⟨fun op => ⟨zip_returns hx hu y op, fun b => ⟨zipRight_returns hx hu b op,
    hsize ▸ zipLeft_returns hy hu b op⟩⟩, logicalNot_returns hx, logicalNot_returns hx,
    apply_returns hx, fun other _ _ => ⟨?_, ?_, ?_⟩, fun b => ⟨andAssignValue_holds hx b,
    orAssignValue_holds hx b, xorAssignValue_holds hx b⟩, fun r n f h => h.sees hV⟩
  · exact (holds_self hx).transform2 hu other (Operator.actsBitwise .and)
  · exact (holds_self hx).transform2 hu other (Operator.actsBitwise .or)
  · exact (holds_self hx).transform2 hu other (Operator.actsBitwise .xor)

/-- Twelve elements over two bytes, and the same with those at two and three inverted: the first are
    less at two alone, and true is not the second at eight positions. -/
theorem elementwise_exact_twelve :
    let x := fourOfTwelve false
    let y := ((fourOfTwelve false).flip 2).flip 3
    (∃ r, zip .ample x y Operator.lt.functor = .ok r ∧ r.size = 12 ∧
      ∀ i, i < 12 → r.bit i = decide (i = 2)) ∧
    ∃ r, zipLeft .ample true y Operator.ne.functor = .ok r ∧ r.size = 12 ∧
      ∀ i, i < 12 → r.bit i = decide (i ∉ [0, 2, 5, 10]) := by
  intro x y
  have hx : x.Inv := fourOfTwelve_inv false
  have hy : y.Inv := (hx.flip (show 2 < 12 by decide)).flip (show 3 < 12 by decide)
  have hlent : (byteVector false).storage ≠ .lent := by decide
  have hless : ∀ i, i < 12 → (decide (i < 12) && Operator.lt.onBools (x.bit i) (y.bit i)) =
      decide (i = 2) := by decide
  have hdiffers : ∀ i, i < 12 → (decide (i < 12) && Operator.ne.onBools true (y.bit i)) =
      decide (i ∉ [0, 2, 5, 10]) := by decide
  obtain ⟨hop, -⟩ := elementwise_exact rfl hlent hx hy rfl
  obtain ⟨hlt, hltReturns⟩ := (hop .lt).1
  obtain ⟨hne, hneReturns⟩ := ((hop .ne).2 true).2
  obtain ⟨r, hr⟩ := hltReturns (BitBlockContainer.grants_byteVector (by decide))
  obtain ⟨s, hs⟩ := hneReturns (BitBlockContainer.grants_byteVector (by decide))
  exact ⟨⟨r, hr, (hlt r hr).size, fun i hi => ((hlt r hr).bit i).trans (hless i hi)⟩,
    s, hs, (hne s hs).size, fun i hi => ((hne s hs).bit i).trans (hdiffers i hi)⟩

end Exact

end Valarray

end XstdBits
