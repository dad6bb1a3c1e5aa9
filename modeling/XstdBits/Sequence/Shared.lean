/-
  File: XstdBits/Sequence/Shared.lean
  Subject: programs over the views of one storage are programs over one list of bools.

  * `Meaning`: a list, the views of it and the iterators into it; `Call.spec` is what a call does to
    it, and `Call.Pre` what the standard asks of its iterators and ranges.
  * each expression and each call is its specification (`Ref.place_eq`, `Position.iterator_eq`,
    `Query.answer_eq`, `Edit.run_eq`); `execute_eq` carries that over every program.
-/
import Mathlib.Data.List.Rotate
import XstdBits.Sequence.Append
import XstdBits.Sequence.Window

namespace XstdBits

namespace BitSpan

/-! ## 1. The list -/

/-- A list of bools, the views of it and the iterators into it. -/
structure Meaning (n : Nat) where
  elems : List Bool
  views : Nat → Window n
  places : Nat → Nat

section Meaning
variable {n : Nat} (M : Meaning n)

/-- What view `k` reads. -/
def Meaning.list (k : Nat) : List Bool := (M.views k).read M.elems

def Meaning.begin (k : Nat) : Nat := (M.views k).offset

def Meaning.end (k : Nat) : Nat := (M.views k).offset + (M.views k).size

def Meaning.get (i : Nat) : Bool := M.elems.getD i false

def Meaning.put (xs : List Bool) : Meaning n := { M with elems := xs }

/-- The list a view made of others reads, in terms of what they read. -/
def Part.list : Part → List Bool
  | whole => M.elems
  | first k count => (M.list k).take count
  | last k count => (M.list k).drop ((M.list k).length - count)
  | subspan k off count => if count = dynamicExtent then (M.list k).drop off
      else ((M.list k).drop off).take count

/-- Whether a view can be made. -/
def Part.Within : Part → Prop
  | whole => True
  | first k count => count ≤ (M.list k).length
  | last k count => count ≤ (M.list k).length
  | subspan k off count =>
      off ≤ (M.list k).length ∧ (count = dynamicExtent ∨ off + count ≤ (M.list k).length)

/-- An element that has to exist. -/
def existing (n : Nat) (i : Int) : Except Exn Nat :=
  if 0 ≤ i ∧ i < n then .ok i.toNat else .error .abort

def Ref.position : Ref → Except Exn Nat
  | index k i => if i < (M.views k).size then .ok (M.begin k + i) else .error .abort
  | .at k i =>
      if i < (M.views k).size then .ok (M.begin k + i)
      else .error (.outOfRange i (M.views k).size)
  | front k => if 0 < (M.views k).size then .ok (M.begin k) else .error .abort
  | back k => if 0 < (M.views k).size then .ok (M.end k - 1) else .error .abort
  | deref p => existing n (M.places p)
  | subscript p d => existing n (M.places p + d.toInt)

/-- The last place of a value, the length where it has none. -/
def lastIdxOf (value : Bool) (xs : List Bool) : Nat :=
  if value ∈ xs then xs.length - 1 - xs.reverse.idxOf value else xs.length

def Position.place : Position → Except Exn Nat
  | begin k => .ok (M.begin k)
  | .end k => .ok (M.end k)
  | plus p d => .ok (M.places p + d.toInt).toNat
  | minus p d => .ok (M.places p - d.toInt).toNat
  | succ p => .ok (M.places p + 1)
  | pred p => .ok (M.places p - 1)
  | address r => r.position M
  | find k value => .ok (M.begin k + (M.list k).idxOf value)
  | findLast k value => .ok (M.begin k + lastIdxOf value (M.list k))

def Query.spec : Query → Except Exn Answer
  | read r => (r.position M).map fun i => .bool (M.get i)
  | compare p q => .ok (.order (Ord.compare (M.places p) (M.places q)))
  | distance p q => .ok (.number (M.places p - M.places q))
  | count k value => .ok (.number ((M.list k).count value))
  | allOf k => .ok (.bool ((M.list k).all id))
  | anyOf k => .ok (.bool ((M.list k).any id))
  | noneOf k => .ok (.bool (!(M.list k).any id))
  | isSorted k => .ok (.bool (XstdBits.isSorted (M.list k)))
  | isPartitioned k => .ok (.bool (XstdBits.isPartitioned (M.list k)))
  | equal k j => .ok (.bool (decide (M.list k = M.list j)))
  | threeWay k j => .ok (.order (Ord.compare (M.list k) (M.list j)))

/-- What a call that writes leaves of the list, what it answers, and the places it returns. -/
abbrev Outcome (n : Nat) : Type := Except Exn (Meaning n × Answer × List Nat)

/-- `l` written at `[d, d + l.length)`. -/
def Meaning.written (d : Nat) (l : List Bool) (returned : List Nat) : Outcome n :=
  .ok (M.put (splice M.elems d l), .done, returned)

/-- The list shifted by `d`, unless that leaves nothing of it. -/
def Meaning.shifted (k : Nat) (d : BitVec 64) (past first last : Nat)
    (shift : Nat → List Bool) : Outcome n :=
  if d.toInt < 0 then .error .abort
  else if d = 0 then .ok (M, .done, [M.begin k, M.end k])
  else if M.elems.length ≤ d.toNat then .ok (M, .done, [past, past])
  else .ok (M.put (shift d.toNat), .done, [first, last])

def Edit.spec : Edit → Outcome n
  | assign r value => do
      let i ← r.position M
      return (M.put (M.elems.set i value), .done, [])
  | copyRef r s => do
      let j ← s.position M
      let i ← r.position M
      return (M.put (M.elems.set i (M.get j)), .done, [])
  | swapRefs r s => do
      let i ← r.position M
      let j ← s.position M
      return (M.put ((M.elems.set i (M.get j)).set j (M.get i)), .done, [])
  | swapBool r value => do
      let i ← r.position M
      return (M.put (M.elems.set i value), .bool (M.get i), [])
  | fill k value => M.written (M.begin k) (List.replicate (M.views k).size value) [M.end k]
  | copy k out => M.written (M.places out) (M.list k) [M.end k, M.places out + (M.views k).size]
  | copyBackward k outLast => M.written (M.places outLast - (M.views k).size) (M.list k)
      [M.end k, M.places outLast - (M.views k).size]
  | reverseCopy k out => M.written (M.places out) (M.list k).reverse
      [M.end k, M.places out + (M.views k).size]
  | rotateCopy k middle out =>
      if M.begin k ≤ M.places middle ∧ M.places middle ≤ M.end k then
        M.written (M.places out) ((M.list k).rotate (M.places middle - M.begin k))
          [M.end k, M.places out + (M.views k).size]
      else .error .abort
  | transform f k out => M.written (M.places out) ((M.list k).map f)
      [M.end k, M.places out + (M.views k).size]
  | transformPairs f k j out =>
      let m := min (M.views k).size (M.views j).size
      M.written (M.places out) (List.zipWith f (M.list k) (M.list j))
        [M.begin k + m, M.begin j + m, M.places out + m]
  | swapRanges k j =>
      let m := min (M.views k).size (M.views j).size
      .ok (M.put (splice (splice M.elems (M.begin k) ((M.list j).take m)) (M.begin j)
        ((M.list k).take m)), .done, [M.begin k + m, M.begin j + m])
  | sort k => M.written (M.begin k) (List.replicate ((M.list k).count false) false ++
      List.replicate ((M.list k).count true) true) [M.end k]
  | partition k => M.written (M.begin k) (List.replicate ((M.list k).count true) true ++
      List.replicate ((M.list k).count false) false) [M.begin k + (M.list k).count true, M.end k]
  | reverse k => .ok (M.put M.elems.reverse, .done, [M.end k])
  | rotate k middle =>
      if M.begin k ≤ M.places middle ∧ M.places middle ≤ M.end k then
        .ok (M.put (M.elems.rotate (M.places middle)), .done,
          [M.end k - M.places middle, M.end k])
      else .error .abort
  | shiftLeft k d => M.shifted k d (M.begin k) (M.begin k) (M.end k - d.toNat) fun m =>
      M.elems.drop m ++ List.replicate m false
  | shiftRight k d => M.shifted k d (M.end k) (M.begin k + d.toNat) (M.end k) fun m =>
      List.replicate m false ++ M.elems.take (M.elems.length - m)

end Meaning

/-! ## 2. Programs -/

/-- One call of a program. -/
inductive Call where
  | view (j : Nat) (part : Part)
  | place (p : Nat) (e : Position)
  | ask (q : Query)
  /-- the iterators returned kept in `dests` -/
  | edit (e : Edit) (dests : List Nat)

/-- What `dests` are set to, one after the other. -/
def assigned {α : Type} (dests : List Nat) (values : List α) (f : Nat → α) : Nat → α :=
  (dests.zip values).foldl (fun f pv => Function.update f pv.1 pv.2) f

def Call.run {w n : Nat} {V : Vehicle w} (S : Shared V n) : Call → Except Exn (Shared V n × Answer)
  | view j part => do
      let t ← part.window S.views
      return ({ S with views := Function.update S.views j t }, .done)
  | place p e => do
      let it ← e.iterator S
      return ({ S with places := Function.update S.places p it }, .done)
  | ask q => do
      let a ← q.answer S
      return (S, a)
  | edit e dests => do
      let (T, a, its) ← e.run S
      return ({ T with places := assigned dests its T.places }, a)

def Call.spec {n : Nat} (M : Meaning n) : Call → Except Exn (Meaning n × Answer)
  | view j part => do
      let t ← part.window M.views
      return ({ M with views := Function.update M.views j t }, .done)
  | place p e => do
      let i ← e.place M
      return ({ M with places := Function.update M.places p i }, .done)
  | ask q => do
      let a ← q.spec M
      return (M, a)
  | edit e dests => do
      let (N, a, its) ← e.spec M
      return ({ N with places := assigned dests its N.places }, a)

/-- A program run to its end, or to the first assertion that fails: what it sees, and what it
    leaves. An exception leaves the state as it was. -/
def execute {σ : Type} (step : σ → Call → Except Exn (σ × Answer)) :
    List Call → σ → List (Except Exn Answer) × σ
  | [], s => ([], s)
  | c :: cs, s =>
      match step s c with
      | .ok (t, a) => ((.ok a) :: (execute step cs t).1, (execute step cs t).2)
      | .error e =>
          if e = .abort then ([.error e], s)
          else ((.error e) :: (execute step cs s).1, (execute step cs s).2)

/-! ## 3. What the standard asks of a call -/

section Pre
variable {n : Nat} (M : Meaning n)

/-- An iterator subscripted is within the storage, and the sum with its offset within a
    `difference_type`. -/
def Ref.Pre : Ref → Prop
  | subscript p d => M.places p ≤ n ∧ M.places p + d.toInt < 2 ^ 63
  | _ => True

/-- An iterator stays within the storage. -/
def Position.Pre : Position → Prop
  | plus p d => M.places p ≤ n ∧ 0 ≤ M.places p + d.toInt ∧ M.places p + d.toInt ≤ n
  | minus p d => M.places p ≤ n ∧ 0 ≤ M.places p - d.toInt ∧ M.places p - d.toInt ≤ n
  | succ p => M.places p < n
  | pred p => 0 < M.places p ∧ M.places p ≤ n
  | address r => r.Pre M
  | _ => True

/-- Two views compared are of one kind of width: two windows, or two whole views, where the width
    is the type's. -/
def Query.Pre (hasStaticSize : Bool) : Query → Prop
  | read r => r.Pre M
  | distance p q => M.places p ≤ n ∧ M.places q ≤ n
  | equal k j | threeWay k j =>
      hasStaticSize = true → (M.views k).isWindowed = (M.views j).isWindowed
  | _ => True

/-- An output range lies within the storage, and overlaps what is read only as the algorithm
    allows. -/
def Edit.Pre : Edit → Prop
  | assign r _ | swapBool r _ => r.Pre M
  | copyRef r s | swapRefs r s => r.Pre M ∧ s.Pre M
  | copy k out | transform _ k out => M.places out + (M.views k).size ≤ n ∧
      (M.places out ≤ M.begin k ∨ M.end k ≤ M.places out)
  | copyBackward k outLast => (M.views k).size ≤ M.places outLast ∧ M.places outLast ≤ n ∧
      (M.end k ≤ M.places outLast ∨ M.places outLast ≤ M.begin k)
  | reverseCopy k out | rotateCopy k _ out => M.places out + (M.views k).size ≤ n ∧
      (M.places out + (M.views k).size ≤ M.begin k ∨ M.end k ≤ M.places out)
  | transformPairs _ k j out =>
      let m := min (M.views k).size (M.views j).size
      M.places out + m ≤ n ∧
        (M.places out ≤ M.begin k ∨ M.begin k + m ≤ M.places out) ∧
        (M.places out ≤ M.begin j ∨ M.begin j + m ≤ M.places out)
  | swapRanges k j =>
      let m := min (M.views k).size (M.views j).size
      M.begin k + m ≤ M.begin j ∨ M.begin j + m ≤ M.begin k
  | reverse k | rotate k _ | shiftLeft k _ | shiftRight k _ => (M.views k).isWindowed = false
  | _ => True

def Call.Pre (hasStaticSize : Bool) : Call → Prop
  | view _ _ => True
  | place _ e => e.Pre M
  | ask q => q.Pre M hasStaticSize
  | edit e _ => e.Pre M

end Pre

/-- A program each of whose calls is one the standard allows where it is made. -/
def Allowed {n : Nat} (hasStaticSize : Bool) : List Call → Meaning n → Prop
  | [], _ => True
  | c :: cs, M => c.Pre M hasStaticSize ∧
      (∀ N a, c.spec M = .ok (N, a) → Allowed hasStaticSize cs N) ∧
      (∀ e, c.spec M = .error e → e ≠ .abort → Allowed hasStaticSize cs M)

/-! ## 4. The bools of a storage -/

section Storage
variable {w : Nat} {V : Vehicle w} {c d : BitBlockContainer V} {xs l : List Bool} {a m i : Nat}

theorem length_boolsOf : (boolsOf c).length = c.size := Blit.length_bools

theorem getElem?_boolsOf : (boolsOf c)[i]? = if i < c.size then some (c.bit i) else none := by
  unfold boolsOf bools
  rw [List.getElem?_map]
  split
  · rw [List.getElem?_range (by omega)]
    rfl
  · rw [List.getElem?_eq_none (by rw [List.length_range]; omega)]
    rfl

theorem getD_boolsOf (hi : i < c.size) : (boolsOf c).getD i false = c.bit i := by
  rw [List.getD_eq_getElem?_getD, getElem?_boolsOf, if_pos hi]
  rfl

/-- A list of the storage's bools. -/
theorem boolsOf_eq (hlen : xs.length = d.size)
    (hbit : ∀ i, i < d.size → xs[i]? = some (d.bit i)) : boolsOf d = xs := by
  refine List.ext_getElem? fun i => ?_
  rw [getElem?_boolsOf]
  split
  · rename_i hi
    exact (hbit i hi).symm
  · exact (List.getElem?_eq_none (by omega)).symm

theorem slice_boolsOf (h : a + m ≤ c.size) : slice (boolsOf c) a m = windowOf c a m := by
  refine List.ext_getElem? fun i => ?_
  unfold windowOf bools
  rw [getElem?_slice, getElem?_boolsOf, List.getElem?_map]
  split
  · rw [if_pos (by omega), List.getElem?_range (by omega)]
    rfl
  · rw [List.getElem?_eq_none (by rw [List.length_range]; omega)]
    rfl

/-- **What is left of a storage with a list written into it.** -/
theorem boolsOf_splice (hsize : d.size = c.size) (h : a + l.length ≤ c.size)
    (hin : windowOf d a l.length = l)
    (hout : ∀ p, p < a ∨ a + l.length ≤ p → d.bit p = c.bit p) :
    boolsOf d = splice (boolsOf c) a l := by
  refine eq_splice (by rw [length_boolsOf]; exact h) ?_ fun i hi => ?_
  · rw [slice_boolsOf (by omega), hin]
  · rw [getElem?_boolsOf, getElem?_boolsOf, hsize, hout i hi]

theorem boolsOf_leaves (hd : Blit.Leaves c a l d) (h : a + l.length ≤ c.size) :
    boolsOf d = splice (boolsOf c) a l := boolsOf_splice hd.size h hd.range hd.frame

theorem boolsOf_assign (h : c.Inv) (ha : a < c.size) (v : Bool) :
    boolsOf (c.assign a v) = (boolsOf c).set a v := by
  have hsize := (BitBlockContainer.sameWidth_assign (c := c) (n := a) (v := v)).size
  refine boolsOf_eq (by rw [List.length_set, length_boolsOf, hsize]) fun i hi => ?_
  rw [hsize] at hi
  rw [List.getElem?_set, length_boolsOf, getElem?_boolsOf, if_pos hi,
    BitBlockContainer.bit_assign h.shape ha]
  by_cases hia : i = a
  · rw [if_pos hia.symm, if_pos hia, if_pos ha]
  · rw [if_neg (Ne.symm hia), if_neg hia]

theorem boolsOf_fill (h : c.Inv) (v : Bool) :
    boolsOf (c.fill v) = List.replicate c.size v := by
  obtain ⟨hsame, hbit, -⟩ := BitBlockContainer.fill_spec (v := v) h
  refine boolsOf_eq (by rw [List.length_replicate, hsame.size]) fun i hi => ?_
  rw [hsame.size] at hi
  rw [List.getElem?_replicate_of_lt hi, hbit, decide_eq_true hi, Bool.true_and]

theorem boolsOf_reverse (h : c.Inv) : boolsOf c.reverse = (boolsOf c).reverse := by
  obtain ⟨hsame, -, hbit⟩ := BitBlockContainer.reverse_spec h
  refine boolsOf_eq (by rw [List.length_reverse, length_boolsOf, hsame.size]) fun i hi => ?_
  rw [hsame.size] at hi
  rw [List.getElem?_reverse (by rwa [length_boolsOf]), length_boolsOf, getElem?_boolsOf,
    if_pos (by omega), hbit, if_pos hi]

theorem boolsOf_rotate (h : c.Inv) (m : Nat) : boolsOf (c.rotate m) = (boolsOf c).rotate m := by
  obtain ⟨hsame, -, hbit⟩ := BitBlockContainer.rotate_spec h m
  refine boolsOf_eq (by rw [List.length_rotate, length_boolsOf, hsame.size]) fun i hi => ?_
  rw [hsame.size] at hi
  rw [List.getElem?_rotate (by rwa [length_boolsOf]), length_boolsOf, getElem?_boolsOf,
    if_pos (Nat.mod_lt _ (by omega)), hbit, if_pos hi]

theorem boolsOf_shrAssign (h : c.Inv) (hm : m < c.size) :
    boolsOf (c.shrAssign m) = (boolsOf c).drop m ++ List.replicate m false := by
  have hsame := BitBlockContainer.sameWidth_shrAssign h.shape hm
  have hlen : ((boolsOf c).drop m).length = c.size - m := by
    rw [List.length_drop, length_boolsOf]
  refine boolsOf_eq (by rw [List.length_append, hlen, List.length_replicate, hsame.size]; omega)
    fun i hi => ?_
  rw [hsame.size] at hi
  rw [List.getElem?_append, hlen, List.getElem?_drop, getElem?_boolsOf,
    BitBlockContainer.bit_shrAssign h.shape hm, Nat.add_comm i m]
  split
  · rw [if_pos (by omega)]
  · rw [List.getElem?_replicate_of_lt (by omega), h.clear _ (by omega)]

theorem boolsOf_shlAssign (h : c.Inv) (hm : m < c.size) : boolsOf (c.shlAssign m) =
    List.replicate m false ++ (boolsOf c).take ((boolsOf c).length - m) := by
  have hsame := BitBlockContainer.sameWidth_shlAssign h.shape hm
  rw [length_boolsOf]
  refine boolsOf_eq ?_ fun i hi => ?_
  · rw [List.length_append, List.length_take, length_boolsOf, List.length_replicate, hsame.size]
    omega
  · rw [hsame.size] at hi
    rw [List.getElem?_append, List.length_replicate, BitBlockContainer.bit_shlAssign h.shape hm]
    split
    · rw [List.getElem?_replicate_of_lt (by omega), decide_eq_false (by omega), Bool.false_and]
    · rw [List.getElem?_take_of_lt (by omega), getElem?_boolsOf, if_pos (by omega),
        decide_eq_true (by omega), Bool.true_and]

end Storage

/-! ## 5. Views, references and iterators -/

section Views
variable {w n : Nat} {V : Vehicle w} (S : Shared V n)

/-- What a storage shared means. -/
def Shared.meaning : Meaning n where
  elems := boolsOf S.bits
  views := S.views
  places p := (S.places p).toNat

theorem Shared.length_elems : S.meaning.elems.length = n := length_boolsOf.trans S.width

theorem Shared.fits (k : Nat) : (S.views k).offset + (S.views k).size ≤ S.bits.size :=
  (S.bools k).fits

/-- **A view reads its bools of the list.** -/
theorem Shared.toList_bools (k : Nat) : (S.bools k).toList = S.meaning.list k :=
  (slice_boolsOf (S.fits k)).symm

theorem Shared.length_list (k : Nat) : (S.meaning.list k).length = (S.views k).size :=
  length_slice (by rw [S.length_elems]; exact (S.views k).fits)

theorem Shared.toNat_begin (k : Nat) : (S.begin k).toNat = S.meaning.begin k := by
  have hfits := (S.views k).fits
  have haddr := S.addressable
  exact toNat_ofNat (by omega)

theorem Shared.toNat_end (k : Nat) : (S.end k).toNat = S.meaning.end k := by
  have hfits := (S.views k).fits
  have haddr := S.addressable
  exact toNat_ofNat (by omega)

variable {S}

theorem Shared.end_le (k : Nat) : S.meaning.end k ≤ n := (S.views k).fits

/-- What an iterator within the storage is as a signed integer. -/
theorem toInt_of_le {it : BitVec 64} (h : it.toNat ≤ ptrdiffMax) : it.toInt = it.toNat := by
  unfold ptrdiffMax at h
  exact BitVec.toInt_eq_toNat_of_lt (by omega)

theorem toNat_plus {it d : BitVec 64} (h : it.toNat ≤ ptrdiffMax)
    (hlow : 0 ≤ it.toNat + d.toInt) (hhigh : it.toNat + d.toInt ≤ ptrdiffMax) :
    (plus it d).toNat = (it.toNat + d.toInt).toNat := by
  have hsum := toInt_plus (i := it) (d := d) (by rw [toInt_of_le h]; exact hlow)
    (by rw [toInt_of_le h]; exact hhigh)
  rw [toInt_of_le h] at hsum
  have hnat := BitVec.toInt_eq_toNat_cond (plus it d)
  split at hnat <;> omega

theorem toNat_minus {it d : BitVec 64} (h : it.toNat ≤ ptrdiffMax)
    (hlow : 0 ≤ it.toNat - d.toInt) (hhigh : it.toNat - d.toInt ≤ ptrdiffMax) :
    (minus it d).toNat = (it.toNat - d.toInt).toNat := by
  have hsum := toInt_minus (i := it) (d := d) (by rw [toInt_of_le h]; omega)
    (by rw [toInt_of_le h]; exact hhigh)
  rw [toInt_of_le h] at hsum
  have hnat := BitVec.toInt_eq_toNat_cond (minus it d)
  split at hnat <;> omega

/-- An iterator `a` positions further. -/
theorem toNat_plus_ofNat {it : BitVec 64} {a : Nat} (h : it.toNat + a ≤ ptrdiffMax) :
    (plus it (BitVec.ofNat 64 a)).toNat = it.toNat + a := by
  have ha : (BitVec.ofNat 64 a).toInt = a := toInt_ofNat (by omega)
  rw [toNat_plus (by omega) (by omega) (by omega), ha]
  omega

/-- **An iterator moved anywhere is dereferenced only where it stands at an element.** -/
theorem dereference_plus {it d : BitVec 64} (hit : it.toNat ≤ n) (hn : n ≤ ptrdiffMax) :
    (dereference n (plus it d)).map (·.val) = existing n (it.toNat + d.toInt) := by
  have hd := BitVec.toInt_lt (x := d)
  have hd' := BitVec.le_toInt (x := d)
  unfold dereference existing
  by_cases hin : 0 ≤ it.toNat + d.toInt ∧ it.toNat + d.toInt < n
  · have hnat := toNat_plus (by omega) hin.1 (by omega)
    rw [dif_pos (show (plus it d).toNat < n by omega), if_pos hin]
    exact congrArg Except.ok hnat
  · rw [if_neg hin, dif_neg]
    · rfl
    · intro hlt
      -- the sum wraps past every position, whichever way it leaves them
      have hwrap : (plus it d).toInt = (it.toNat + d.toInt : Int).bmod (2 ^ 64) := by
        unfold plus
        rw [BitVec.toInt_ofInt, toInt_of_le (by omega)]
      rw [toInt_of_le (by omega)] at hwrap
      unfold ptrdiffMax at hn
      have hb := Int.bmod_def (it.toNat + d.toInt) (2 ^ 64)
      split at hb <;> omega

theorem map_checked {α β : Type} {P : Prop} [Decidable P] {x : P → α} {g : α → β} {e : Exn} {y : β}
    (hy : ∀ h, g (x h) = y) : (if h : P then Except.ok (x h) else .error e).map g =
      if P then .ok y else .error e := by
  split
  · rename_i h
    exact congrArg Except.ok (hy h)
  · rfl

/-- **A reference is to its element of the list**, or throws as it does. -/
theorem Ref.place_eq {r : Ref} (hp : r.Pre S.meaning) :
    (r.place S.views S.places).map (·.val) = r.position S.meaning := by
  cases r with
  | index k i => exact map_checked fun _ => rfl
  | «at» k i => exact map_checked fun _ => rfl
  | front k => exact map_checked fun _ => rfl
  | back k => exact map_checked fun h => (Nat.add_sub_assoc h _).symm
  | deref p =>
      show (dereference n (S.places p)).map (·.val) = existing n (S.places p).toNat
      refine Eq.trans (map_checked (y := (S.places p).toNat) fun _ => rfl) ?_
      exact if_congr (show _ ↔ 0 ≤ ((S.places p).toNat : Int) ∧ _ by omega) rfl rfl
  | subscript p d => exact dereference_plus hp.1 S.addressable

end Views

section Searches
variable {f : Nat → Bool} {m : Nat} {value : Bool} {xs : List Bool}

theorem idxOf_bools : (bools f m).idxOf value = nextSet (fun i => f i == value) 0 m := by
  have hget (i : Nat) (hi : i < (bools f m).length) : (bools f m)[i] = f i := Blit.getElem_bools hi
  by_cases hmem : value ∈ bools f m
  · have hlt := List.idxOf_lt_length_of_mem hmem
    refine (nextSet_eq (Nat.zero_le _) (by rwa [Blit.length_bools] at hlt) ?_ fun j _ hj => ?_).symm
    · rw [beq_iff_eq, ← hget _ hlt]
      exact List.getElem_idxOf hlt
    · rw [← hget j (by omega)]
      exact List.not_of_lt_findIdx hj
  · rw [List.idxOf_eq_length hmem, Blit.length_bools]
    refine (nextSet_none fun j _ hj => ?_).symm
    rw [beq_eq_false_iff_ne]
    rintro rfl
    exact hmem (List.mem_map.mpr ⟨j, List.mem_range.mpr hj, rfl⟩)

theorem lastIdxOf_bools : lastIdxOf value (bools f m) =
    prevSet (fun i => f i == value) m m := by
  have hrev : (bools f m).reverse.idxOf value =
      nextSet (fun i => f (m - 1 - i) == value) 0 m := by
    rw [← Blit.bools_reverse, idxOf_bools]
  unfold lastIdxOf
  rw [hrev, Blit.length_bools]
  rcases nextSet_spec (fun i => f (m - 1 - i) == value) 0 m with ⟨-, h2, h3, h4⟩ | ⟨h1, h2⟩
  · rw [if_pos]
    · refine (prevSet_eq (by omega) h3 fun j hj1 hj2 => ?_).symm
      have := h4 (m - 1 - j) (Nat.zero_le _) (by omega)
      rwa [show m - 1 - (m - 1 - j) = j by omega] at this
    · exact List.mem_map.mpr ⟨_, List.mem_range.mpr (by omega), eq_of_beq h3⟩
  · have hclear (j : Nat) (hj : j < m) : (f j == value) = false := by
      have := h2 (m - 1 - j) (Nat.zero_le _) (by omega)
      rwa [show m - 1 - (m - 1 - j) = j by omega] at this
    rw [if_neg, prevSet_none hclear]
    intro hmem
    obtain ⟨j, hj, rfl⟩ := List.mem_map.mp hmem
    exact absurd (hclear j (List.mem_range.mp hj)) (by rw [beq_self_eq_true]; decide)

end Searches

section Iterators
variable {w n : Nat} {V : Vehicle w} {S : Shared V n}

theorem Shared.find_eq (k : Nat) (value : Bool) :
    bitFind (S.bools k) value = (S.meaning.list k).idxOf value := by
  rw [bitFind_eq, ← S.toList_bools k]
  exact idxOf_bools.symm

theorem Shared.findLast_eq (k : Nat) (value : Bool) :
    bitFindLast (S.bools k) value = lastIdxOf value (S.meaning.list k) := by
  rw [bitFindLast_eq, ← S.toList_bools k]
  exact lastIdxOf_bools.symm

theorem lastIdxOf_le {value : Bool} {xs : List Bool} : lastIdxOf value xs ≤ xs.length := by
  unfold lastIdxOf
  split <;> omega

/-- An iterator `a` past the first of a view of no fewer elements. -/
theorem Shared.toNat_begin_plus {k a : Nat} (h : a ≤ (S.views k).size) :
    (plus (S.begin k) (BitVec.ofNat 64 a)).toNat = S.meaning.begin k + a := by
  have hend := S.end_le k
  have haddr := S.addressable
  unfold Meaning.end at hend
  rw [toNat_plus_ofNat, S.toNat_begin k]
  rw [S.toNat_begin k]
  exact Nat.le_trans (Nat.add_le_add_left h _) (Nat.le_trans hend haddr)

/-- **An iterator stands where it does in the list.** -/
theorem Position.iterator_eq {e : Position} (hp : e.Pre S.meaning) :
    (e.iterator S).map BitVec.toNat = e.place S.meaning := by
  have haddr := S.addressable
  cases e with
  | begin k => exact congrArg Except.ok (S.toNat_begin k)
  | «end» k => exact congrArg Except.ok (S.toNat_end k)
  | plus p d =>
      obtain ⟨h1, h2, h3⟩ : (S.places p).toNat ≤ n ∧ 0 ≤ (S.places p).toNat + d.toInt ∧
        (S.places p).toNat + d.toInt ≤ n := hp
      exact congrArg Except.ok (toNat_plus (Nat.le_trans h1 haddr) h2 (by omega))
  | minus p d =>
      obtain ⟨h1, h2, h3⟩ : (S.places p).toNat ≤ n ∧ 0 ≤ (S.places p).toNat - d.toInt ∧
        (S.places p).toNat - d.toInt ≤ n := hp
      exact congrArg Except.ok (toNat_minus (Nat.le_trans h1 haddr) h2 (by omega))
  | succ p =>
      have hlt : (S.places p).toNat < n := hp
      unfold ptrdiffMax at haddr
      refine congrArg Except.ok ?_
      rw [BitVec.toNat_add]
      exact Nat.mod_eq_of_lt (show _ + 1 < 2 ^ 64 by omega)
  | pred p =>
      obtain ⟨h1, h2⟩ : 0 < (S.places p).toNat ∧ (S.places p).toNat ≤ n := hp
      unfold ptrdiffMax at haddr
      refine congrArg Except.ok ?_
      rw [BitVec.toNat_sub]
      show (2 ^ 64 - 1 + (S.places p).toNat) % 2 ^ 64 = (S.places p).toNat - 1
      omega
  | address r =>
      show ((r.place S.views S.places).map fun (i : Fin n) => BitVec.ofNat 64 i).map BitVec.toNat =
        r.position S.meaning
      rw [← Ref.place_eq hp]
      cases r.place S.views S.places with
      | error e => rfl
      | ok i => exact congrArg Except.ok (toNat_ofNat (by omega))
  | find k value =>
      refine congrArg Except.ok ?_
      rw [S.find_eq, S.toNat_begin_plus]
      rw [← S.length_list k]
      exact List.idxOf_le_length
  | findLast k value =>
      refine congrArg Except.ok ?_
      rw [S.findLast_eq, S.toNat_begin_plus]
      rw [← S.length_list k]
      exact lastIdxOf_le

end Iterators

/-! ## 6. Reading -/

section Reading
variable {w n : Nat} {V : Vehicle w} {r : Bools V} {value : Bool}

theorem bitCount_eq : bitCount r value = r.toList.count value := by
  have hones : countTrue r = countBits (fun i => r.at i == true) r.size :=
    (countTrue_eq r).trans (countBits_congr fun i _ => by cases r.at i <;> rfl)
  have hcount : r.toList.count value = countBits (fun i => r.at i == value) r.size :=
    count_bools (f := r.at) value
  unfold bitCount
  rw [hcount]
  cases value with
  | true => exact hones
  | false =>
      rw [if_neg (by decide), hones, ← countBits_not]
      exact countBits_congr fun i _ => by cases r.at i <;> rfl

theorem mem_toList : value ∈ r.toList ↔ ∃ i, i < r.size ∧ r.at i = value := by
  show value ∈ (List.range r.size).map r.at ↔ _
  rw [List.mem_map]
  exact exists_congr fun i => and_congr_left fun _ => List.mem_range

theorem at_of_whole (h : ¬ r.isWindowed = true) (i : Nat) : r.at i = r.bits.bit i := by
  rw [Bool.not_eq_true] at h
  unfold Bools.at
  rw [(r.whole h).1, Nat.zero_add]

theorem size_of_whole (h : ¬ r.isWindowed = true) : r.size = r.bits.size := by
  rw [Bool.not_eq_true] at h
  exact (r.whole h).2.1

theorem bitAnyOf_eq : bitAnyOf r = r.toList.any id := by
  rw [Bool.eq_iff_iff, List.any_eq_true]
  have hlist : (∃ v, v ∈ r.toList ∧ id v = true) ↔ ∃ i, i < r.size ∧ r.at i = true := by
    rw [← mem_toList]
    exact ⟨fun ⟨v, hv, ht⟩ => (show v = true from ht) ▸ hv, fun h => ⟨true, h, rfl⟩⟩
  rw [hlist]
  unfold bitAnyOf
  split
  · rw [BitBlockContainer.anyIn_iff r.inv.shape r.fits]
    constructor
    · intro ⟨p, h1, h2, h3⟩
      exact ⟨p - r.offset, by omega, by rw [← h3]; unfold Bools.at; congr 1; omega⟩
    · intro ⟨i, hi, h⟩
      exact ⟨r.offset + i, by omega, by omega, h⟩
  · rename_i h
    rw [BitBlockContainer.any_iff r.inv, size_of_whole h]
    exact exists_congr fun i => by rw [at_of_whole h]

theorem bitNoneOf_eq : bitNoneOf r = !r.toList.any id := by
  rw [← bitAnyOf_eq]
  unfold bitNoneOf bitAnyOf BitBlockContainer.any
  split
  · rfl
  · exact (Bool.not_not _).symm

theorem bitAllOf_eq : bitAllOf r = r.toList.all id := by
  rw [Bool.eq_iff_iff, List.all_eq_true]
  have hlist : (∀ v, v ∈ r.toList → id v = true) ↔ ∀ i, i < r.size → r.at i = true := by
    constructor
    · intro h i hi
      exact h _ (mem_toList.mpr ⟨i, hi, rfl⟩)
    · intro h v hv
      obtain ⟨i, hi, rfl⟩ := mem_toList.mp hv
      exact h i hi
  rw [hlist]
  unfold bitAllOf
  split
  · rw [BitBlockContainer.allIn_iff r.inv.shape r.fits]
    constructor
    · intro h i hi
      exact h (r.offset + i) (by omega) (by omega)
    · intro h p h1 h2
      have := h (p - r.offset) (by omega)
      unfold Bools.at at this
      rwa [show r.offset + (p - r.offset) = p by omega] at this
  · rename_i h
    rw [BitBlockContainer.all_iff r.inv, size_of_whole h]
    exact forall_congr' fun i => by rw [at_of_whole h]

variable {S : Shared V n}

theorem Shared.comparable {k j : Nat}
    (h : V.hasStaticSize = true → (S.views k).isWindowed = (S.views j).isWindowed) :
    (S.bools k).Comparable (S.bools j) := by
  show (if (S.views k).isWindowed then .none else
    if V.hasStaticSize then some V.extent else .none) = if (S.views j).isWindowed then .none else
    if V.hasStaticSize then some V.extent else .none
  by_cases hs : V.hasStaticSize = true
  · rw [h hs]
  · rw [if_neg hs, ite_self, ite_self]

theorem Shared.test_eq {i : Nat} (hi : i < n) : S.bits.test i = S.meaning.get i := by
  have hlt : i < S.bits.size := S.width.symm ▸ hi
  rw [BitBlockContainer.test_eq S.inv.shape hlt]
  exact (getD_boolsOf hlt).symm

/-- **What is read is what the list holds.** -/
theorem Query.answer_eq {q : Query} (hp : q.Pre S.meaning V.hasStaticSize) :
    q.answer S = q.spec S.meaning := by
  cases q with
  | read r =>
      show ((r.place S.views S.places).map fun (i : Fin n) => Answer.bool (S.bits.test i)) =
        (r.position S.meaning).map fun i => Answer.bool (S.meaning.get i)
      rw [← Ref.place_eq hp]
      cases r.place S.views S.places with
      | error e => rfl
      | ok i => exact congrArg (fun b => Except.ok (Answer.bool b)) (S.test_eq i.isLt)
  | compare p q => rfl
  | distance p q =>
      obtain ⟨h1, h2⟩ : (S.places p).toNat ≤ n ∧ (S.places q).toNat ≤ n := hp
      have haddr := S.addressable
      have hp := toInt_of_le (show (S.places p).toNat ≤ ptrdiffMax by omega)
      have hq := toInt_of_le (show (S.places q).toNat ≤ ptrdiffMax by omega)
      refine congrArg (fun d => Except.ok (Answer.number d)) ?_
      rw [toInt_minus (by omega) (by omega), hp, hq]
      rfl
  | count k value =>
      refine congrArg (fun d => Except.ok (Answer.number d)) ?_
      have hfits := (S.views k).fits
      have haddr := S.addressable
      have hle : (S.meaning.list k).count value ≤ (S.views k).size := by
        rw [← S.length_list k]
        exact List.count_le_length
      rw [bitCount_eq, S.toList_bools, toInt_ofNat (by omega)]
  | allOf k => exact congrArg (fun b => Except.ok (Answer.bool b)) (S.toList_bools k ▸ bitAllOf_eq)
  | anyOf k => exact congrArg (fun b => Except.ok (Answer.bool b)) (S.toList_bools k ▸ bitAnyOf_eq)
  | noneOf k =>
      exact congrArg (fun b => Except.ok (Answer.bool b)) (S.toList_bools k ▸ bitNoneOf_eq)
  | isSorted k =>
      exact congrArg (fun b => Except.ok (Answer.bool b)) (S.toList_bools k ▸ bitIsSorted_eq _)
  | isPartitioned k =>
      exact congrArg (fun b => Except.ok (Answer.bool b)) (S.toList_bools k ▸ bitIsPartitioned_eq _)
  | equal k j =>
      refine congrArg (fun b => Except.ok (Answer.bool b)) ?_
      rw [Bool.eq_iff_iff, decide_eq_true_eq, Bools.equalBools_iff (S.comparable hp),
        S.toList_bools, S.toList_bools]
  | threeWay k j =>
      refine congrArg (fun o => Except.ok (Answer.order o)) ?_
      rw [Bools.threeWayBools_eq (S.comparable hp), S.toList_bools, S.toList_bools]

end Reading

/-! ## 7. Writing -/

section Lists
variable {xs : List Bool}

/-- Sorted bools are the false ones, then the true ones. -/
theorem eq_of_isSorted : ∀ {xs : List Bool}, isSorted xs = true →
    xs = List.replicate (xs.count false) false ++ List.replicate (xs.count true) true
  | [], _ => rfl
  | [a], _ => by cases a <;> rfl
  | a :: b :: xs, h => by
      have h : (!decide (b < a) && isSorted (b :: xs)) = true := h
      rw [Bool.and_eq_true, Bool.not_eq_true', decide_eq_false_iff_not] at h
      have ih := eq_of_isSorted h.2
      cases a with
      | false =>
          rw [List.count_cons_self, List.replicate_succ, List.cons_append,
            List.count_cons_of_ne (show false ≠ true by decide), ← ih]
      | true =>
          obtain rfl : b = true := by
            cases b with
            | true => rfl
            | false => exact absurd (by decide) h.1
          -- past a true one there is no false one
          have hnone : (true :: xs).count false = 0 := by
            by_contra hne
            obtain ⟨m, hm⟩ := Nat.exists_eq_succ_of_ne_zero hne
            rw [hm, List.replicate_succ, List.cons_append] at ih
            cases ih
          rw [List.count_cons_self, List.count_cons_of_ne (show true ≠ false by decide), hnone,
            List.replicate_succ]
          rw [hnone] at ih
          exact congrArg (true :: ·) ih

/-- Partitioned bools are the true ones, then the false ones. -/
theorem eq_of_isPartitioned : ∀ {xs : List Bool}, isPartitioned xs = true →
    xs = List.replicate (xs.count true) true ++ List.replicate (xs.count false) false
  | [], _ => rfl
  | true :: xs, h => by
      have ih := eq_of_isPartitioned (show isPartitioned xs = true from h)
      rw [List.count_cons_self, List.count_cons_of_ne (by decide), List.replicate_succ,
        List.cons_append, ← ih]
  | false :: xs, h => by
      have h : (!(false :: xs).any id) = true := h
      rw [Bool.not_eq_true', List.any_eq_false] at h
      have hall (b : Bool) (hb : b ∈ false :: xs) : b = false := by simpa using h b hb
      have hnone : (false :: xs).count true = 0 :=
        List.count_eq_zero.mpr fun hmem => by cases hall true hmem
      rw [hnone, List.replicate_zero, List.nil_append]
      have hcount : (false :: xs).count false = (false :: xs).length :=
        List.count_eq_length.mpr fun b hb => (hall b hb).symm
      rw [hcount]
      exact List.eq_replicate_iff.mpr ⟨rfl, hall⟩

end Lists

section Writing
variable {w n : Nat} {V : Vehicle w} {S : Shared V n}

/-- What a call that writes means. -/
def outcome (r : Shared V n × Answer × List (BitVec 64)) : Meaning n × Answer × List Nat :=
  (r.1.meaning, r.2.1, r.2.2.map BitVec.toNat)

theorem outcome_put {d : BitBlockContainer V} (h : Blit.Kept S.bits d) {xs : List Bool} {a : Answer}
    {its : List (BitVec 64)} {ps : List Nat} (hd : boolsOf d = xs)
    (hits : its.map BitVec.toNat = ps) :
    outcome (S.put h, a, its) = (S.meaning.put xs, a, ps) := by
  subst hd hits
  rfl

theorem Shared.meaning_assign (i : Fin n) (v : Bool) :
    (S.assign i v).meaning = S.meaning.put (S.meaning.elems.set i v) := by
  show S.meaning.put (boolsOf (S.bits.assign i v)) = _
  rw [boolsOf_assign S.inv (S.width.symm ▸ i.isLt)]
  rfl

theorem map_ofNat {ps : List Nat} (h : ∀ p ∈ ps, p ≤ n) (S : Shared V n) :
    (ps.map (BitVec.ofNat 64)).map BitVec.toNat = ps := by
  have haddr := S.addressable
  rw [List.map_map]
  refine (List.map_congr_left fun p hp => ?_).trans (List.map_id ps)
  exact toNat_ofNat (Nat.le_trans (h p hp) haddr)

/-- **A list written over the storage is written over the list.** -/
theorem Shared.copied_eq {out count : Nat} {returned ps : List Nat} {l : List Bool}
    {written : out + count ≤ S.bits.size → { d : BitBlockContainer V // Blit.Kept S.bits d }}
    (hout : out + count ≤ n) (hlen : l.length = count)
    (hleaves : ∀ h, Blit.Leaves S.bits out l (written h).1) (hps : returned = ps)
    (hret : ∀ p ∈ ps, p ≤ n) :
    (S.copied out count returned written).map outcome = S.meaning.written out l ps := by
  subst hlen hps
  have hfits : out + l.length ≤ S.bits.size := S.width.symm ▸ hout
  unfold Shared.copied
  rw [dif_pos hfits]
  exact congrArg Except.ok (outcome_put _ (boolsOf_leaves (hleaves hfits) hfits)
    (map_ofNat hret S))

theorem Shared.holds_reader (k : Nat) : (S.reader k).Holds S.bits := by
  show (S.bools k).firstPosition + (S.views k).size ≤ S.bits.size
  rw [(S.bools k).firstPosition_eq]
  exact S.fits k

theorem Shared.firstPosition_eq (k : Nat) : (S.reader k).firstPosition = S.meaning.begin k :=
  (S.bools k).firstPosition_eq

theorem Shared.toList_reader (k : Nat) : (S.reader k).toList S.bits = S.meaning.list k := by
  rw [← S.toList_bools k]
  unfold Blit.Reader.toList Bools.toList windowOf
  refine bools_congr fun q _ => ?_
  show S.bits.bit ((S.bools k).firstPosition + q) = S.bits.bit ((S.bools k).offset + q)
  rw [(S.bools k).firstPosition_eq]

/-- What a rearranging algorithm leaves, over a whole sequence or a window. -/
theorem Shared.rearranged_eq {k : Nat} {d : BitBlockContainer V} {l : List Bool}
    (h : Rearranged (S.bools k) d) (hl : windowOf d (S.bools k).offset (S.bools k).size = l) :
    boolsOf d = splice S.meaning.elems (S.meaning.begin k) l := by
  have hlen : l.length = (S.views k).size := by
    rw [← hl]
    exact Blit.length_bools
  refine boolsOf_splice h.size ?_ ?_ fun p hp => h.outside p ?_
  · rw [hlen]
    exact S.fits k
  · rw [hlen]
    exact hl
  · rwa [hlen] at hp

theorem Shared.sort_eq (k : Nat) : boolsOf (bitSort (S.bools k)) = splice S.meaning.elems
    (S.meaning.begin k) (List.replicate ((S.meaning.list k).count false) false ++
      List.replicate ((S.meaning.list k).count true) true) := by
  obtain ⟨h1, h2⟩ := bitSort_exact (S.bools k)
  refine S.rearranged_eq h1 ((eq_of_isSorted h2).trans ?_)
  rw [h1.perm.count_eq, h1.perm.count_eq, S.toList_bools]

theorem Shared.partition_eq (k : Nat) : boolsOf (bitPartition (S.bools k)).2 =
    splice S.meaning.elems (S.meaning.begin k)
      (List.replicate ((S.meaning.list k).count true) true ++
        List.replicate ((S.meaning.list k).count false) false) := by
  obtain ⟨h1, h2, -⟩ := bitPartition_exact (S.bools k)
  refine S.rearranged_eq h1 ((eq_of_isPartitioned h2).trans ?_)
  rw [h1.perm.count_eq, h1.perm.count_eq, S.toList_bools]

theorem Shared.fill_eq (k : Nat) (value : Bool) : boolsOf (bitFill (S.bools k) value) =
    splice S.meaning.elems (S.meaning.begin k) (List.replicate (S.views k).size value) := by
  have hfits := S.fits k
  unfold bitFill
  split
  · rw [(S.bools k).firstPosition_eq]
    have hsame := BitBlockContainer.sameWidth_setRange (v := value) S.inv.shape hfits
    have hbit (p : Nat) := BitBlockContainer.bit_setRange (v := value) (p := p) S.inv.shape hfits
    refine boolsOf_splice hsame.size (by rwa [List.length_replicate]) ?_ fun p hp => ?_
    · rw [List.length_replicate]
      refine List.eq_replicate_iff.mpr ⟨Blit.length_bools, fun b hb => ?_⟩
      obtain ⟨q, hq, rfl⟩ := List.mem_map.mp hb
      rw [List.mem_range] at hq
      exact (hbit _).trans (if_pos ⟨Nat.le_add_right _ _, Nat.add_lt_add_left hq _⟩)
    · rw [List.length_replicate] at hp
      exact (hbit p).trans (if_neg (show ¬ ((S.views k).offset ≤ p ∧
        p < (S.views k).offset + (S.views k).size) by
          have : p < (S.views k).offset ∨ (S.views k).offset + (S.views k).size ≤ p := hp
          omega))
  · rename_i h
    have hsize : (S.views k).size = S.bits.size := size_of_whole h
    have hbegin : S.meaning.begin k = 0 := by
      rw [Bool.not_eq_true] at h
      exact ((S.bools k).whole h).1
    rw [hsize, hbegin]
    refine (boolsOf_fill S.inv value).trans ?_
    unfold splice
    rw [List.take_zero, List.nil_append, List.length_replicate, Nat.zero_add,
      List.drop_of_length_le (show S.meaning.elems.length ≤ S.bits.size from
        Nat.le_of_eq length_boolsOf), List.append_nil]

/-- Two windows apart trade their bools. -/
theorem Shared.swapRanges_eq (k j : Nat) (h : (Edit.swapRanges k j).Pre S.meaning) :
    boolsOf (Blit.bitSwapWindows S.bits (S.bools k).firstPosition (S.views k).size
      (S.bools j).firstPosition (S.views j).size).1 =
      splice (splice S.meaning.elems (S.meaning.begin k)
        ((S.meaning.list j).take (min (S.views k).size (S.views j).size))) (S.meaning.begin j)
        ((S.meaning.list k).take (min (S.views k).size (S.views j).size)) := by
  have hk := S.fits k
  have hj := S.fits j
  have ho : (S.views k).offset + min (S.views k).size (S.views j).size ≤ (S.views j).offset ∨
      (S.views j).offset + min (S.views k).size (S.views j).size ≤ (S.views k).offset := h
  have htake (i : Nat) (hi : min (S.views k).size (S.views j).size ≤ (S.views i).size) :
      (S.meaning.list i).take (min (S.views k).size (S.views j).size) =
        windowOf S.bits (S.views i).offset (min (S.views k).size (S.views j).size) := by
    have hfits := S.fits i
    rw [← slice_boolsOf (by omega)]
    exact take_slice hi
  rw [(S.bools k).firstPosition_eq, (S.bools j).firstPosition_eq, htake k (Nat.min_le_left _ _),
    htake j (Nat.min_le_right _ _)]
  obtain ⟨hsize, hwk, hwj, hout⟩ := Blit.bitSwapWindows_leaves S.inv.shape rfl hk hj ho
  show boolsOf (Blit.bitSwapWindows S.bits (S.views k).offset (S.views k).size
    (S.views j).offset (S.views j).size).1 = _
  generalize (Blit.bitSwapWindows S.bits (S.views k).offset (S.views k).size
    (S.views j).offset (S.views j).size).1 = d at hsize hwk hwj hout ⊢
  have hm : min (S.views k).size (S.views j).size ≤ (S.views k).size ∧
      min (S.views k).size (S.views j).size ≤ (S.views j).size :=
    ⟨Nat.min_le_left _ _, Nat.min_le_right _ _⟩
  generalize min (S.views k).size (S.views j).size = m at *
  have hlen (a : Nat) : (windowOf S.bits a m).length = m := Blit.length_bools
  have hlist : S.meaning.elems.length = S.bits.size := length_boolsOf
  have hfirst : S.meaning.begin k + (windowOf S.bits (S.views j).offset m).length ≤
      S.meaning.elems.length := by
    rw [hlen, hlist]
    exact Nat.le_trans (Nat.add_le_add_left hm.1 _) hk
  refine eq_splice ?_ ?_ fun i hi => ?_
  · rw [length_splice hfirst, hlen, hlist]
    exact Nat.le_trans (Nat.add_le_add_left hm.2 _) hj
  · rw [hlen, slice_boolsOf, ← hwj]
    · rfl
    · rw [hsize]
      exact Nat.le_trans (Nat.add_le_add_left hm.2 _) hj
  · rw [hlen] at hi
    rw [getElem?_splice hfirst, hlen]
    split
    · rename_i hin
      -- inside the first window: what the second held
      have hread := congrArg (fun l => l[i - S.meaning.begin k]?) hwk
      have hk' : (S.views k).offset + m ≤ S.bits.size := by omega
      rw [← slice_boolsOf (by rw [hsize]; exact hk')] at hread
      simp only [getElem?_slice] at hread
      rw [if_pos (by omega)] at hread
      rw [← hread]
      congr 1
      show i = S.meaning.begin k + (i - S.meaning.begin k)
      omega
    · rename_i hout'
      show _ = (boolsOf S.bits)[i]?
      rw [getElem?_boolsOf, getElem?_boolsOf, hsize, hout i _ hi]
      show i < S.meaning.begin k ∨ S.meaning.begin k + m ≤ i
      omega

/-- A whole view shifted. -/
theorem Shared.shifted_eq {k : Nat} {d past first last : BitVec 64} {past' first' last' : Nat}
    {shift : (m : Nat) → m < S.bits.size → { d : BitBlockContainer V // Blit.Kept S.bits d }}
    {shift' : Nat → List Bool} (hw : (S.views k).isWindowed = false)
    (hpast : past.toNat = past')
    (hfirst : d.toInt = d.toNat → d.toNat < n → first.toNat = first')
    (hlast : d.toInt = d.toNat → d.toNat < n → last.toNat = last')
    (hshift : ∀ m h, boolsOf (shift m h).1 = shift' m) :
    (S.shifted k d past first last shift).map outcome =
      S.meaning.shifted k d past' first' last' shift' := by
  have haddr := S.addressable
  obtain ⟨hoffset, hsize⟩ := (S.views k).whole hw
  have hbegin := S.toNat_begin k
  have hend := S.toNat_end k
  have hmid : S.meaning.begin k = 0 := hoffset
  have hmend : S.meaning.end k = n := by
    show (S.views k).offset + (S.views k).size = n
    omega
  have hdist : (minus (S.end k) (S.begin k)).toInt = n := by
    rw [toInt_minus, toInt_of_le, toInt_of_le, hbegin, hend, hmid, hmend]
    · omega
    all_goals first
      | omega
      | rw [toInt_of_le (by omega), toInt_of_le (by omega), hbegin, hend, hmid, hmend]; omega
  unfold Shared.shifted Meaning.shifted
  by_cases hneg : d.toInt < 0
  · rw [dif_pos hneg, if_pos hneg]
    rfl
  · have hnat : d.toInt = d.toNat := by
      have := BitVec.toInt_eq_toNat_cond d
      split at this <;> omega
    rw [dif_neg hneg, if_neg hneg, S.length_elems]
    by_cases hzero : d = 0
    · rw [if_pos hzero, if_pos hzero]
      exact congrArg (fun ps => Except.ok (S.meaning, Answer.done, ps)) (by
        show [(S.begin k).toNat, (S.end k).toNat] = _
        rw [hbegin, hend])
    · rw [if_neg hzero, if_neg hzero]
      by_cases hpasts : n ≤ d.toNat
      · rw [dif_pos (by omega), if_pos hpasts, ← hpast]
        rfl
      · rw [dif_neg (by omega), if_neg hpasts]
        refine congrArg Except.ok (outcome_put _ (hshift _ _) ?_)
        show [first.toNat, last.toNat] = _
        rw [hfirst hnat (by omega), hlast hnat (by omega)]

section Reader
variable {k out m : Nat}

theorem Shared.below (h : out ≤ S.meaning.begin k ∨ S.meaning.begin k + m ≤ out) :
    (S.reader k).storage.Below (S.reader k).firstPosition out m := by
  rw [S.firstPosition_eq]
  exact h

theorem Shared.above (h : S.meaning.begin k ≤ out ∨ out + m ≤ S.meaning.begin k) :
    (S.reader k).storage.Above (S.reader k).firstPosition out m := by
  rw [S.firstPosition_eq]
  exact h

theorem Shared.apart (h : out + m ≤ S.meaning.begin k ∨ S.meaning.begin k + m ≤ out) :
    (S.reader k).storage.Apart (S.reader k).firstPosition out m := by
  rw [S.firstPosition_eq]
  exact h

theorem Shared.stop_eq (k : Nat) :
    (S.reader k).firstPosition + (S.reader k).size = S.meaning.end k := by
  rw [S.firstPosition_eq]
  rfl

end Reader

theorem pair_le {a b : Nat} (ha : a ≤ n) (hb : b ≤ n) : ∀ p ∈ [a, b], p ≤ n := by
  intro p hp
  rw [List.mem_pair] at hp
  rcases hp with rfl | rfl
  · exact ha
  · exact hb

section References
variable {r t : Ref} {value : Bool}

theorem Shared.assign_eq (hr : r.Pre S.meaning) :
    ((Edit.assign r value).run S).map outcome = (Edit.assign r value).spec S.meaning := by
  show ((r.place S.views S.places).map fun i => (S.assign i value, Answer.done, [])).map outcome =
    (r.position S.meaning).map fun i => (S.meaning.put (S.meaning.elems.set i value), .done, [])
  rw [← Ref.place_eq hr]
  cases r.place S.views S.places with
  | error e => rfl
  | ok i => exact congrArg (fun M => Except.ok (M, Answer.done, [])) (S.meaning_assign i value)

theorem Shared.swapBool_eq (hr : r.Pre S.meaning) :
    ((Edit.swapBool r value).run S).map outcome = (Edit.swapBool r value).spec S.meaning := by
  show ((r.place S.views S.places).map fun i =>
      (S.assign i value, Answer.bool (S.bits.test i.val), [])).map outcome =
    (r.position S.meaning).map fun i =>
      (S.meaning.put (S.meaning.elems.set i value), .bool (S.meaning.get i), [])
  rw [← Ref.place_eq hr]
  cases r.place S.views S.places with
  | error e => rfl
  | ok i =>
      refine congrArg Except.ok ?_
      show ((S.assign i value).meaning, Answer.bool (S.bits.test i.val), []) = _
      rw [S.meaning_assign, S.test_eq i.isLt]

theorem Shared.copyRef_eq (hr : r.Pre S.meaning) (ht : t.Pre S.meaning) :
    ((Edit.copyRef r t).run S).map outcome = (Edit.copyRef r t).spec S.meaning := by
  show ((t.place S.views S.places).bind fun j => (r.place S.views S.places).bind fun i =>
      .ok (S.assign i (S.bits.test j.val), Answer.done, [])).map outcome =
    (t.position S.meaning).bind fun j => (r.position S.meaning).bind fun i =>
      .ok (S.meaning.put (S.meaning.elems.set i (S.meaning.get j)), .done, [])
  rw [← Ref.place_eq hr, ← Ref.place_eq ht]
  cases t.place S.views S.places with
  | error e => rfl
  | ok j =>
      cases r.place S.views S.places with
      | error e => rfl
      | ok i =>
          refine congrArg Except.ok ?_
          show ((S.assign i (S.bits.test j.val)).meaning, Answer.done, []) = _
          rw [S.meaning_assign, S.test_eq j.isLt]

theorem Shared.swapRefs_eq (hr : r.Pre S.meaning) (ht : t.Pre S.meaning) :
    ((Edit.swapRefs r t).run S).map outcome = (Edit.swapRefs r t).spec S.meaning := by
  show ((r.place S.views S.places).bind fun i => (t.place S.views S.places).bind fun j =>
      .ok ((S.assign i (S.bits.test j.val)).assign j (S.bits.test i.val), Answer.done,
        [])).map outcome =
    (r.position S.meaning).bind fun i => (t.position S.meaning).bind fun j =>
      .ok (S.meaning.put ((S.meaning.elems.set i (S.meaning.get j)).set j (S.meaning.get i)),
        .done, [])
  rw [← Ref.place_eq hr, ← Ref.place_eq ht]
  cases r.place S.views S.places with
  | error e => rfl
  | ok i =>
      cases t.place S.views S.places with
      | error e => rfl
      | ok j =>
          refine congrArg Except.ok ?_
          show (((S.assign i (S.bits.test j.val)).assign j (S.bits.test i.val)).meaning,
            Answer.done, []) = _
          rw [Shared.meaning_assign, S.meaning_assign, S.test_eq i.isLt, S.test_eq j.isLt]
          rfl

end References

section Copies
variable {k j out middle : Nat}

theorem Shared.copyBackward_eq (hp : (Edit.copyBackward k out).Pre S.meaning) :
    ((Edit.copyBackward k out).run S).map outcome = (Edit.copyBackward k out).spec S.meaning := by
  obtain ⟨hsmall, hout, ho⟩ : (S.views k).size ≤ (S.places out).toNat ∧
    (S.places out).toNat ≤ n ∧ (S.meaning.begin k + (S.views k).size ≤ (S.places out).toNat ∨
      (S.places out).toNat ≤ S.meaning.begin k) := hp
  refine (congrArg (Except.map outcome) (if_pos hsmall)).trans ?_
  exact S.copied_eq (by omega) (S.length_list k)
    (fun h => S.toList_reader k ▸ Blit.bitCopyBackward_leaves S.inv.shape (S.holds_reader k)
      hsmall (S.width.symm ▸ hout) (S.above (show _ ≤ _ - (S.views k).size ∨
        _ - (S.views k).size + (S.views k).size ≤ _ by omega)))
    (congrArg (fun p => [p, _]) (S.stop_eq k))
    (pair_le (S.end_le k) (Nat.le_trans (Nat.sub_le _ _) hout))

theorem Shared.rotateCopy_eq (hp : (Edit.rotateCopy k middle out).Pre S.meaning) :
    ((Edit.rotateCopy k middle out).run S).map outcome =
      (Edit.rotateCopy k middle out).spec S.meaning := by
  obtain ⟨hout, ho⟩ := hp
  by_cases hmid : (S.views k).offset ≤ (S.places middle).toNat ∧
      (S.places middle).toNat ≤ (S.views k).offset + (S.views k).size
  · refine (congrArg (Except.map outcome) (dif_pos hmid)).trans (Eq.trans ?_ (if_pos hmid).symm)
    have hsize := S.length_list k
    have hm : S.meaning.places middle - S.meaning.begin k ≤ (S.meaning.list k).length := by
      rw [hsize]
      exact Nat.sub_le_of_le_add (Nat.add_comm _ _ ▸ hmid.2)
    refine S.copied_eq hout ((List.length_rotate ..).trans hsize) (fun h => ?_)
      (congrArg (fun p => [p, _]) (S.stop_eq k)) (pair_le (S.end_le k) hout)
    obtain ⟨d, _, _, hd, hleaves⟩ := Blit.bitRotateCopy_leaves S.inv.shape (S.holds_reader k) h
      (S.apart ho) (hsize ▸ hm)
    rw [S.toList_reader k, ← List.rotate_eq_drop_append_take hm] at hleaves
    show Blit.Leaves S.bits _ _ ((Blit.bitRotateCopy S.bits (S.reader k)
      (S.meaning.places middle - S.meaning.begin k) (S.places out).toNat).getD (S.bits, 0, 0)).1
    rw [hd]
    exact hleaves
  · exact (congrArg (Except.map outcome) (dif_neg hmid)).trans (if_neg hmid).symm

theorem Shared.transformPairs_eq {f : Bool → Bool → Bool}
    (hp : (Edit.transformPairs f k j out).Pre S.meaning) :
    ((Edit.transformPairs f k j out).run S).map outcome =
      (Edit.transformPairs f k j out).spec S.meaning := by
  obtain ⟨hout, hok, hoj⟩ := hp
  have hk := Nat.min_le_left (S.views k).size (S.views j).size
  have hj := Nat.min_le_right (S.views k).size (S.views j).size
  refine S.copied_eq hout (by rw [List.length_zipWith, S.length_list, S.length_list])
    (fun h => S.toList_reader k ▸ S.toList_reader j ▸ Blit.bitTransformPairs_leaves f S.inv.shape
      (S.holds_reader k) (S.holds_reader j) h (S.below hok) (S.below hoj)) ?_ ?_
  · show [(S.reader k).firstPosition + min (S.views k).size (S.views j).size,
      (S.reader j).firstPosition + min (S.views k).size (S.views j).size, _] = _
    rw [S.firstPosition_eq, S.firstPosition_eq]
    rfl
  · rw [List.forall_mem_cons]
    exact ⟨Nat.le_trans (Nat.add_le_add_left hk _) (S.end_le k),
      pair_le (Nat.le_trans (Nat.add_le_add_left hj _) (S.end_le j)) hout⟩

end Copies

section Whole
variable {k middle : Nat} {d : BitVec 64} (hw : (S.views k).isWindowed = false)
include hw

theorem Shared.begin_eq_zero : S.meaning.begin k = 0 := ((S.views k).whole hw).1

theorem Shared.end_eq : S.meaning.end k = n := by
  obtain ⟨hoffset, hsize⟩ := (S.views k).whole hw
  show (S.views k).offset + (S.views k).size = n
  omega

theorem Shared.rotate_eq : ((Edit.rotate k middle).run S).map outcome =
    (Edit.rotate k middle).spec S.meaning := by
  have haddr := S.addressable
  have hbegin := S.toNat_begin k
  have hend := S.toNat_end k
  by_cases hmid : (S.begin k).toNat ≤ (S.places middle).toNat ∧
      (S.places middle).toNat ≤ (S.end k).toNat
  · have hmid' := hmid
    rw [hbegin, hend] at hmid'
    refine (congrArg (Except.map outcome) (if_pos hmid)).trans
      (Eq.trans (congrArg Except.ok ?_) (if_pos hmid').symm)
    rw [S.begin_eq_zero hw] at hbegin
    rw [S.end_eq hw] at hend hmid'
    have hmidInt := toInt_of_le (show (S.places middle).toNat ≤ ptrdiffMax by omega)
    have hfirstInt := toInt_of_le (show (S.begin k).toNat ≤ ptrdiffMax by omega)
    have hturn : (minus (S.places middle) (S.begin k)).toNat = (S.places middle).toNat := by
      rw [toNat_minus (by omega) (by omega) (by omega), hfirstInt, hbegin]
      omega
    have hrest : (minus (S.end k) (S.places middle)).toNat = n - (S.places middle).toNat := by
      rw [toNat_minus (by omega) (by omega) (by omega), hmidInt, hend]
      omega
    have hrestInt := toInt_of_le
      (show (minus (S.end k) (S.places middle)).toNat ≤ ptrdiffMax by omega)
    refine outcome_put _ (hturn.symm ▸ boolsOf_rotate S.inv _) ?_
    show [(plus (S.begin k) (minus (S.end k) (S.places middle))).toNat, (S.end k).toNat] =
      [S.meaning.end k - (S.places middle).toNat, S.meaning.end k]
    rw [toNat_plus (by omega) (by omega) (by omega), hrestInt, hrest, hbegin, hend, S.end_eq hw]
    congr 1
    omega
  · have hmid' := hmid
    rw [hbegin, hend] at hmid'
    exact (congrArg (Except.map outcome) (if_neg hmid)).trans (if_neg hmid').symm

theorem Shared.shiftLeft_eq : ((Edit.shiftLeft k d).run S).map outcome =
    (Edit.shiftLeft k d).spec S.meaning := by
  have haddr := S.addressable
  have hend := S.toNat_end k
  unfold Edit.run Edit.spec
  refine S.shifted_eq hw (S.toNat_begin k) (fun _ _ => S.toNat_begin k) (fun hd hlt => ?_)
    fun m h => boolsOf_shrAssign S.inv h
  rw [S.end_eq hw] at hend ⊢
  rw [toNat_minus (by omega) (by omega) (by omega), hend, hd]
  omega

theorem Shared.shiftRight_eq : ((Edit.shiftRight k d).run S).map outcome =
    (Edit.shiftRight k d).spec S.meaning := by
  have haddr := S.addressable
  have hbegin := S.toNat_begin k
  unfold Edit.run Edit.spec
  refine S.shifted_eq hw (S.toNat_end k) (fun hd hlt => ?_) (fun _ _ => S.toNat_end k)
    fun m h => boolsOf_shlAssign S.inv h
  rw [S.begin_eq_zero hw] at hbegin ⊢
  rw [toNat_plus (by omega) (by omega) (by omega), hbegin, hd]
  omega

end Whole

/-- **What is written is written over the list**, and the iterators returned stand where it says. -/
theorem Edit.run_eq {e : Edit} (hp : e.Pre S.meaning) :
    (e.run S).map outcome = e.spec S.meaning := by
  have hend (k : Nat) := S.toNat_end k
  cases e with
  | assign r value => exact S.assign_eq hp
  | copyRef r t => exact S.copyRef_eq hp.1 hp.2
  | swapRefs r t => exact S.swapRefs_eq hp.1 hp.2
  | swapBool r value => exact S.swapBool_eq hp
  | fill k value =>
      exact congrArg Except.ok (outcome_put _ (S.fill_eq k value)
        (congrArg (fun p => [p]) (hend k)))
  | copy k out =>
      obtain ⟨hout, ho⟩ := hp
      exact S.copied_eq hout (S.length_list k)
        (fun h => S.toList_reader k ▸ Blit.bitCopy_leaves S.inv.shape (S.holds_reader k) h
          (S.below ho)) (congrArg (fun p => [p, _]) (S.stop_eq k)) (pair_le (S.end_le k) hout)
  | copyBackward k outLast => exact S.copyBackward_eq hp
  | reverseCopy k out =>
      obtain ⟨hout, ho⟩ := hp
      exact S.copied_eq hout (List.length_reverse.trans (S.length_list k))
        (fun h => S.toList_reader k ▸ Blit.bitReverseCopy_leaves S.inv.shape (S.holds_reader k) h
          (S.apart ho)) (congrArg (fun p => [p, _]) (S.stop_eq k)) (pair_le (S.end_le k) hout)
  | rotateCopy k middle out => exact S.rotateCopy_eq hp
  | transform f k out =>
      obtain ⟨hout, ho⟩ := hp
      exact S.copied_eq hout ((List.length_map ..).trans (S.length_list k))
        (fun h => S.toList_reader k ▸ Blit.bitTransform_leaves f S.inv.shape (S.holds_reader k) h
          (S.below ho)) (congrArg (fun p => [p, _]) (S.stop_eq k)) (pair_le (S.end_le k) hout)
  | transformPairs f k j out => exact S.transformPairs_eq hp
  | swapRanges k j =>
      refine congrArg Except.ok (outcome_put _ (S.swapRanges_eq k j hp) ?_)
      show [(plus (S.begin k) (BitVec.ofNat 64 (min (S.views k).size (S.views j).size))).toNat,
        (plus (S.begin j) (BitVec.ofNat 64 (min (S.views k).size (S.views j).size))).toNat] = _
      rw [S.toNat_begin_plus (Nat.min_le_left _ _), S.toNat_begin_plus (Nat.min_le_right _ _)]
      rfl
  | sort k =>
      exact congrArg Except.ok (outcome_put _ (S.sort_eq k) (congrArg (fun p => [p]) (hend k)))
  | partition k =>
      refine congrArg Except.ok (outcome_put _ (S.partition_eq k) ?_)
      have hones : (bitPartition (S.bools k)).1 = (S.meaning.list k).count true := by
        rw [← S.toList_bools k]
        exact (bitCount_eq : bitCount (S.bools k) true = _)
      show [(plus (S.begin k) (BitVec.ofNat 64 (bitPartition (S.bools k)).1)).toNat,
        (S.end k).toNat] = _
      rw [hones, hend, S.toNat_begin_plus]
      rw [← S.length_list k]
      exact List.count_le_length
  | reverse k =>
      exact congrArg Except.ok (outcome_put _ (boolsOf_reverse S.inv)
        (congrArg (fun p => [p]) (hend k)))
  | rotate k middle => exact S.rotate_eq hp
  | shiftLeft k d => exact S.shiftLeft_eq hp
  | shiftRight k d => exact S.shiftRight_eq hp

end Writing

/-! ## 8. Programs -/

section Parts
variable {n : Nat} {M : Meaning n} {part : Part} {t : Window n}

theorem length_list (hM : M.elems.length = n) (k : Nat) :
    (M.list k).length = (M.views k).size := length_slice (hM.symm ▸ (M.views k).fits)

/-- **A view of a part reads that part of what the view it is of reads.** -/
theorem Part.read_eq (hM : M.elems.length = n) (ht : part.window M.views = .ok t) :
    t.read M.elems = part.list M := by
  cases part with
  | whole =>
      cases ht
      exact (congrArg (slice M.elems 0) hM.symm).trans slice_all
  | first k count =>
      unfold Part.window Window.first at ht
      dsimp only at ht
      split at ht
      · rename_i h
        cases ht
        exact (take_slice h).symm
      · cases ht
  | last k count =>
      unfold Part.window Window.last at ht
      dsimp only at ht
      split at ht
      · rename_i h
        cases ht
        show slice M.elems ((M.views k).offset + ((M.views k).size - count)) count =
          (M.list k).drop ((M.list k).length - count)
        rw [length_list hM]
        refine Eq.trans ?_ drop_slice.symm
        rw [Nat.sub_sub_self h]
      · cases ht
  | subspan k off count =>
      unfold Part.window Window.subspan at ht
      dsimp only at ht
      split at ht
      · rename_i h
        cases ht
        show slice M.elems ((M.views k).offset + off)
            (if count = dynamicExtent then (M.views k).size - off else count) =
          if count = dynamicExtent then (M.list k).drop off else ((M.list k).drop off).take count
        have hdrop : (M.list k).drop off =
            slice M.elems ((M.views k).offset + off) ((M.views k).size - off) := drop_slice
        rw [hdrop]
        split
        · rfl
        · rename_i hc
          exact (take_slice (h.2.resolve_left hc)).symm
      · cases ht

/-- A view of a part is made where the part lies within. -/
theorem Part.window_iff (hM : M.elems.length = n) :
    (∃ t, part.window M.views = .ok t) ↔ part.Within M := by
  have made {P : Prop} [Decidable P] {x : P → Window n} :
      (∃ t, (if h : P then Except.ok (x h) else .error Exn.abort) = .ok t) ↔ P := by
    constructor
    · intro ⟨t, ht⟩
      by_contra h
      rw [dif_neg h] at ht
      cases ht
    · intro h
      exact ⟨x h, dif_pos h⟩
  cases part with
  | whole => exact ⟨fun _ => trivial, fun _ => ⟨_, rfl⟩⟩
  | first k count =>
      unfold Part.Within
      dsimp only
      rw [length_list hM]
      exact made
  | last k count =>
      unfold Part.Within
      dsimp only
      rw [length_list hM]
      exact made
  | subspan k off count =>
      unfold Part.Within
      dsimp only
      rw [length_list hM]
      refine Iff.trans made ?_
      exact and_congr_right fun h => or_congr_right (by omega)

end Parts

section Programs
variable {w n : Nat} {V : Vehicle w} {S : Shared V n} {M N : Meaning n} {c : Call} {cs : List Call}

theorem assigned_map {α β : Type} (g : α → β) {values : List α} {f : Nat → α} :
    ∀ dests : List Nat, (fun p => g (assigned dests values f p)) =
      assigned dests (values.map g) fun p => g (f p) := by
  intro dests
  unfold assigned
  induction dests generalizing values f with
  | nil => rfl
  | cons p dests ih =>
      cases values with
      | nil => rfl
      | cons v values =>
          rw [List.map_cons, List.zip_cons_cons, List.zip_cons_cons, List.foldl_cons,
            List.foldl_cons, ih]
          congr 1
          funext q
          rw [Function.update_apply, Function.update_apply]
          split <;> rfl

/-- What a call leaves and answers, on the list. -/
def answered (r : Shared V n × Answer) : Meaning n × Answer := (r.1.meaning, r.2)

/-- **One call is what it means on the list.** -/
theorem Call.run_eq (hp : c.Pre S.meaning V.hasStaticSize) :
    (c.run S).map answered = c.spec S.meaning := by
  cases c with
  | view j part =>
      show ((part.window S.views).bind fun t =>
        .ok ({ S with views := Function.update S.views j t }, Answer.done)).map answered =
        (part.window S.views).bind fun t =>
          .ok ({ S.meaning with views := Function.update S.views j t }, .done)
      cases part.window S.views with
      | error e => rfl
      | ok t => rfl
  | place p e =>
      show ((e.iterator S).bind fun it =>
        .ok ({ S with places := Function.update S.places p it }, Answer.done)).map answered =
        (e.place S.meaning).bind fun i =>
          .ok ({ S.meaning with places := Function.update S.meaning.places p i }, .done)
      rw [← Position.iterator_eq hp]
      cases e.iterator S with
      | error e => rfl
      | ok it =>
          refine congrArg (fun places =>
            Except.ok (Meaning.mk S.meaning.elems S.meaning.views places, Answer.done)) ?_
          exact @assigned_map _ _ BitVec.toNat [it] _ [p]
  | ask q =>
      show ((q.answer S).bind fun a => .ok (S, a)).map answered =
        (q.spec S.meaning).bind fun a => .ok (S.meaning, a)
      rw [← Query.answer_eq hp]
      cases q.answer S with
      | error e => rfl
      | ok a => rfl
  | edit e dests =>
      show ((e.run S).bind fun r => .ok ({ r.1 with places := assigned dests r.2.2 r.1.places },
        r.2.1)).map answered = (e.spec S.meaning).bind fun r =>
          .ok ({ r.1 with places := assigned dests r.2.2 r.1.places }, r.2.1)
      rw [← Edit.run_eq hp]
      cases e.run S with
      | error e => rfl
      | ok r =>
          refine congrArg (fun places =>
            Except.ok (Meaning.mk r.1.meaning.elems r.1.meaning.views places, r.2.1)) ?_
          exact assigned_map BitVec.toNat dests

/-- **A program over the views is the program over the list.** -/
theorem execute_eq : ∀ {cs : List Call} {S : Shared V n},
    Allowed V.hasStaticSize cs S.meaning →
    (execute Call.run cs S).1 = (execute Call.spec cs S.meaning).1 ∧
      (execute Call.run cs S).2.meaning = (execute Call.spec cs S.meaning).2
  | [], S, _ => ⟨rfl, rfl⟩
  | c :: cs, S, h => by
      obtain ⟨hp, hok, herror⟩ := h
      have hrun := Call.run_eq hp
      unfold execute
      rw [← hrun] at hok herror ⊢
      cases hc : c.run S with
      | ok r =>
          obtain ⟨ih1, ih2⟩ := execute_eq (hok _ _ (by rw [hc]; rfl))
          exact ⟨congrArg (_ :: ·) ih1, ih2⟩
      | error e =>
          simp only [Except.map]
          by_cases he : e = .abort
          · rw [if_pos he, if_pos he]
            exact ⟨rfl, rfl⟩
          · rw [if_neg he, if_neg he]
            obtain ⟨ih1, ih2⟩ := execute_eq (herror e (by rw [hc]; rfl) he)
            exact ⟨congrArg (_ :: ·) ih1, ih2⟩

/-- **Programs over the views of one storage are programs over one list**: through any windows of
    windows, references and iterators, and with any of the algorithms in between, a program the
    standard allows sees what it sees of the list and leaves the list's storage; and a view of a
    part, which can be made where the part lies within, reads that part. -/
theorem views_refine (h : Allowed V.hasStaticSize cs S.meaning) :
    (execute Call.run cs S).1 = (execute Call.spec cs S.meaning).1 ∧
    (execute Call.run cs S).2.meaning = (execute Call.spec cs S.meaning).2 ∧
    ∀ part : Part, ((∃ t, part.window (execute Call.run cs S).2.views = .ok t) ↔
        part.Within (execute Call.run cs S).2.meaning) ∧
      ∀ t, part.window (execute Call.run cs S).2.views = .ok t →
        t.read (boolsOf (execute Call.run cs S).2.bits) =
          part.list (execute Call.run cs S).2.meaning := by
  obtain ⟨hlog, hleft⟩ := execute_eq h
  exact ⟨hlog, hleft, fun part => ⟨part.window_iff (Shared.length_elems _),
    fun t => part.read_eq (Shared.length_elems _)⟩⟩

theorem Allowed.made {fixed : Bool} {a : Answer} (hp : c.Pre M fixed)
    (hspec : c.spec M = .ok (N, a)) (h : Allowed fixed cs N) : Allowed fixed (c :: cs) M := by
  refine ⟨hp, fun N' a' h' => ?_, fun e h' => ?_⟩
  · cases hspec.symm.trans h'
    exact h
  · cases hspec.symm.trans h'

theorem Allowed.thrown {fixed : Bool} {e : Exn} (hp : c.Pre M fixed)
    (hspec : c.spec M = .error e) (h : Allowed fixed cs M) : Allowed fixed (c :: cs) M := by
  refine ⟨hp, fun N' a' h' => ?_, fun e' h' _ => h⟩
  cases hspec.symm.trans h'

end Programs

/-- A window, a window of it, and what is written through the one seen through the other. -/
def overlapping : List Call :=
  [.view 0 .whole, .edit (.assign (.index 0 2) false) [], .view 1 (.subspan 0 2 6),
    .view 2 (.last 1 3), .place 9 (.end 1), .place 9 (.plus 9 1), .edit (.copyBackward 1 9) [8, 9],
    .ask (.count 1 false), .ask (.read (.at 2 7)), .edit (.rotate 0 9) [], .edit (.sort 1) [],
    .ask (.read (.deref 9)), .ask (.isSorted 1)]

/-- Twelve bools, shared. -/
def dozenShared : Shared (byteVector false) 12 where
  bits := fourOfTwelve false
  inv := fourOfTwelve_inv false
  width := rfl
  uncounted := rfl
  addressable := by decide
  views _ := .all 12
  places _ := 0

theorem allowed_overlapping :
    Allowed (byteVector false).hasStaticSize overlapping dozenShared.meaning := by
  refine .made trivial rfl (.made trivial rfl (.made trivial rfl (.made trivial rfl
    (.made trivial rfl (.made ?_ rfl (.made ?_ rfl (.made trivial rfl (.thrown trivial rfl
    (.made rfl rfl (.made trivial rfl (.made trivial rfl (.made trivial rfl trivial))))))))))))
  · exact ⟨by decide +kernel, by decide +kernel, by decide +kernel⟩
  · exact ⟨by decide +kernel, by decide +kernel, Or.inl (by decide +kernel)⟩

/-- Twelve bools, written, moved up within, turned and sorted through windows of them. -/
theorem views_refine_overlapping : (execute Call.run overlapping dozenShared).1 =
    [.ok .done, .ok .done, .ok .done, .ok .done, .ok .done, .ok .done, .ok .done,
      .ok (.number 4), .error (.outOfRange 7 3), .ok .done, .ok .done, .ok (.bool false),
      .ok (.bool true)] :=
  (views_refine allowed_overlapping).1.trans (by decide +kernel)

end BitSpan

end XstdBits
