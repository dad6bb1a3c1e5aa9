/-
  File: XstdBits/Sequence/Window.lean
  Subject: the views of one storage: windows, references, iterators, and what is done through them.

  * `Window`: the positions a sequence view reads; `first`, `last` and `subspan` give a window of it.
  * `Ref` and `Position`: the expressions that give a reference and an iterator.
  * `Call`: what a program does through the views, run on the storage they share (`Call.run`) and
    meant on one list of bools (`Call.spec`); `execute`: a program of them.
-/
import XstdBits.Algorithm.Copy
import XstdBits.Algorithm.Search
import XstdBits.Lib.Splice

namespace XstdBits

namespace BitSpan

/-! ## 1. Windows -/

/-- `std::dynamic_extent`. -/
def dynamicExtent : Nat := sizeMax

/-- What a sequence view reads of `n` positions: all of them, or a window of them. -/
structure Window (n : Nat) where
  isWindowed : Bool
  offset : Nat
  size : Nat
  fits : offset + size ≤ n
  whole : isWindowed = false → offset = 0 ∧ size = n

namespace Window
variable {n : Nat} (s : Window n)

/-- A view of the whole storage. -/
def all (n : Nat) : Window n := ⟨false, 0, n, by omega, fun _ => ⟨rfl, rfl⟩⟩

/-- `make_window`. -/
def sub (offset count : Nat) (h : offset + count ≤ n) : Window n :=
  ⟨true, offset, count, h, fun hw => Bool.noConfusion hw⟩

def first (count : Nat) : Except Exn (Window n) :=
  if h : count ≤ s.size then
    .ok (sub s.offset count (by have := s.fits; omega))
  else .error .abort

def last (count : Nat) : Except Exn (Window n) :=
  if h : count ≤ s.size then
    .ok (sub (s.offset + (s.size - count)) count (by have := s.fits; omega))
  else .error .abort

def subspan (off count : Nat) : Except Exn (Window n) :=
  if h : off ≤ s.size ∧ (count = dynamicExtent ∨ count ≤ s.size - off) then
    .ok (sub (s.offset + off) (if count = dynamicExtent then s.size - off else count)
      (by have := s.fits; split <;> omega))
  else .error .abort

/-- What it reads of the bools of the storage. -/
def read {α : Type} (xs : List α) : List α := slice xs s.offset s.size

end Window

/-- The expressions that give a view. -/
inductive Part where
  | whole
  | first (k count : Nat)
  | last (k count : Nat)
  | subspan (k off count : Nat)

def Part.window {n : Nat} (views : Nat → Window n) : Part → Except Exn (Window n)
  | whole => .ok (.all n)
  | first k count => (views k).first count
  | last k count => (views k).last count
  | subspan k off count => (views k).subspan off count

/-! ## 2. References and iterators -/

/-- Where a view's element, or what an iterator is at, stands in the storage. -/
inductive Ref where
  | index (k i : Nat)
  | at (k i : Nat)
  | front (k : Nat)
  | back (k : Nat)
  | deref (p : Nat)
  | subscript (p : Nat) (d : BitVec 64)

/-- The iterators: `m_idx` of each. -/
abbrev Places : Type := Nat → BitVec 64

/-- `it += d`: the sum of two signed integers, converted back. -/
def plus (it d : BitVec 64) : BitVec 64 := BitVec.ofInt 64 (it.toInt + d.toInt)

/-- `it -= d`. -/
def minus (it d : BitVec 64) : BitVec 64 := BitVec.ofInt 64 (it.toInt - d.toInt)

/-- `operator*` of an iterator: the position has to exist. -/
def dereference (n : Nat) (it : BitVec 64) : Except Exn (Fin n) :=
  if h : it.toNat < n then .ok ⟨it.toNat, h⟩ else .error .abort

/-- Element `i` of a view. -/
def Window.element {n : Nat} (s : Window n) {i : Nat} (h : i < s.size) : Fin n :=
  ⟨s.offset + i, by have := s.fits; omega⟩

/-- The position referred to. -/
def Ref.place {n : Nat} (views : Nat → Window n) (places : Places) : Ref → Except Exn (Fin n)
  | index k i => if h : i < (views k).size then .ok ((views k).element h) else .error .abort
  | .at k i =>
      if h : i < (views k).size then .ok ((views k).element h)
      else .error (.outOfRange i (views k).size)
  | front k => if h : 0 < (views k).size then .ok ((views k).element h) else .error .abort
  | back k =>
      if h : 0 < (views k).size then
        .ok ((views k).element (show (views k).size - 1 < (views k).size by omega))
      else .error .abort
  | deref p => dereference n (places p)
  | subscript p d => dereference n (plus (places p) d)

section Arithmetic
variable {a b : Nat}

theorem toInt_ofNat (h : a ≤ ptrdiffMax) : (BitVec.ofNat 64 a).toInt = a := by
  unfold ptrdiffMax at h
  rw [BitVec.toInt_ofNat', Int.bmod_eq_of_le (by omega) (by omega)]

theorem toNat_ofNat (h : a ≤ ptrdiffMax) : (BitVec.ofNat 64 a).toNat = a := by
  unfold ptrdiffMax at h
  exact Nat.mod_eq_of_lt (by omega)

theorem toInt_plus {i d : BitVec 64} (hlow : 0 ≤ i.toInt + d.toInt)
    (hhigh : i.toInt + d.toInt ≤ ptrdiffMax) : (plus i d).toInt = i.toInt + d.toInt := by
  unfold ptrdiffMax at hhigh
  unfold plus
  rw [BitVec.toInt_ofInt, Int.bmod_eq_of_le (by omega) (by omega)]

theorem toInt_minus {i d : BitVec 64} (hlow : -(ptrdiffMax : Int) ≤ i.toInt - d.toInt)
    (hhigh : i.toInt - d.toInt ≤ ptrdiffMax) : (minus i d).toInt = i.toInt - d.toInt := by
  unfold ptrdiffMax at hlow hhigh
  unfold minus
  rw [BitVec.toInt_ofInt, Int.bmod_eq_of_le (by omega) (by omega)]

end Arithmetic

/-! ## 3. The storage shared -/

/-- A storage of `n` bools that keeps no count, the views of it and the iterators into it, whose
    difference of any two is representable. -/
structure Shared {w : Nat} (V : Vehicle w) (n : Nat) where
  bits : BitBlockContainer V
  inv : bits.Inv
  width : bits.size = n
  uncounted : V.hasStoredCount = false
  addressable : n ≤ ptrdiffMax
  views : Nat → Window n
  places : Places

section Shared
variable {w n : Nat} {V : Vehicle w} (S : Shared V n)

/-- View `k`, as the algorithms reach it. -/
def Shared.bools (k : Nat) : Bools V where
  bits := S.bits
  isWindowed := (S.views k).isWindowed
  offset := (S.views k).offset
  size := (S.views k).size
  staticWidth := if (S.views k).isWindowed then .none else
    if V.hasStaticSize then some V.extent else .none
  inv := S.inv
  fits := S.width.symm ▸ (S.views k).fits
  whole h := ⟨((S.views k).whole h).1, ((S.views k).whole h).2.trans S.width.symm, by rw [h]; rfl⟩
  fixed m hm := by
    split at hm
    · cases hm
    · rename_i h
      rw [Bool.not_eq_true] at h
      rw [((S.views k).whole h).2, ← S.width]
      exact (Bools.wholly S.bits S.inv).fixed m hm

/-- View `k`, read while the storage under it is written. -/
def Shared.reader (k : Nat) : Blit.Reader V V :=
  ⟨.own, (S.bools k).firstPosition, (S.views k).size⟩

/-- `begin()` and `end()` of view `k`. -/
def Shared.begin (k : Nat) : BitVec 64 := BitVec.ofNat 64 (S.views k).offset

def Shared.end (k : Nat) : BitVec 64 := BitVec.ofNat 64 ((S.views k).offset + (S.views k).size)

/-- A shift by less than a view is wide is one by less than the storage is. -/
theorem Shared.lt_of_short {k : Nat} {d : BitVec 64} (hd : ¬ d.toInt < 0)
    (h : ¬ (minus (S.end k) (S.begin k)).toInt ≤ d.toInt) : d.toNat < S.bits.size := by
  have hfits := (S.views k).fits
  have haddr := S.addressable
  have hbegin : (S.begin k).toInt = (S.views k).offset := toInt_ofNat (by omega)
  have hend : (S.end k).toInt = ((S.views k).offset + (S.views k).size : Nat) :=
    toInt_ofNat (by omega)
  rw [toInt_minus (by omega) (by omega), hbegin, hend] at h
  have hnat := BitVec.toInt_eq_toNat_of_lt (x := d) (by
    rw [BitVec.toInt_eq_toNat_cond] at hd
    split at hd <;> omega)
  rw [S.width]
  omega

/-- The storage written. -/
def Shared.put {d : BitBlockContainer V} (h : Blit.Kept S.bits d) : Shared V n :=
  { S with bits := d, inv := h.inv, width := h.size.trans S.width }

/-- `assign` of a position, as a reference's `operator=` does it. -/
def Shared.assign (i : Fin n) (value : Bool) : Shared V n :=
  S.put (d := S.bits.assign i value)
    ⟨S.inv.assign (S.width.symm ▸ i.isLt), BitBlockContainer.sameWidth_assign.size⟩

end Shared

/-- The expressions that give an iterator. -/
inductive Position where
  | begin (k : Nat)
  | end (k : Nat)
  | plus (p : Nat) (d : BitVec 64)
  | minus (p : Nat) (d : BitVec 64)
  | succ (p : Nat)
  | pred (p : Nat)
  | address (r : Ref)
  | find (k : Nat) (value : Bool)
  | findLast (k : Nat) (value : Bool)

def Position.iterator {w n : Nat} {V : Vehicle w} (S : Shared V n) :
    Position → Except Exn (BitVec 64)
  | begin k => .ok (S.begin k)
  | .end k => .ok (S.end k)
  | plus p d => .ok (BitSpan.plus (S.places p) d)
  | minus p d => .ok (BitSpan.minus (S.places p) d)
  | succ p => .ok (S.places p + 1)
  | pred p => .ok (S.places p - 1)
  | address r => (r.place S.views S.places).map fun (i : Fin n) => BitVec.ofNat 64 i
  | find k value => .ok (BitSpan.plus (S.begin k) (BitVec.ofNat 64 (bitFind (S.bools k) value)))
  | findLast k value =>
      .ok (BitSpan.plus (S.begin k) (BitVec.ofNat 64 (bitFindLast (S.bools k) value)))

/-! ## 4. What is read -/

/-- What a call answers. -/
inductive Answer where
  | done
  | bool (value : Bool)
  | order (o : Ordering)
  | number (d : Int)
  deriving DecidableEq

section Reads
variable {w : Nat} {V : Vehicle w} (r : Bools V)

/-- `bit_count`. -/
def bitCount (value : Bool) : Nat := if value then countTrue r else r.size - countTrue r

/-- `any_true`. -/
def bitAnyOf : Bool := if r.isWindowed then r.bits.anyIn r.offset r.size else r.bits.any

/-- `none_true`. -/
def bitNoneOf : Bool := if r.isWindowed then !r.bits.anyIn r.offset r.size else r.bits.none

/-- `all_true`. -/
def bitAllOf : Bool := if r.isWindowed then r.bits.allIn r.offset r.size else r.bits.all

end Reads

/-- The calls that only read. -/
inductive Query where
  | read (r : Ref)
  | compare (p q : Nat)
  | distance (p q : Nat)
  | count (k : Nat) (value : Bool)
  | allOf (k : Nat)
  | anyOf (k : Nat)
  | noneOf (k : Nat)
  | isSorted (k : Nat)
  | isPartitioned (k : Nat)
  | equal (k j : Nat)
  | threeWay (k j : Nat)

def Query.answer {w n : Nat} {V : Vehicle w} (S : Shared V n) : Query → Except Exn Answer
  | read r => (r.place S.views S.places).map fun (i : Fin n) => .bool (S.bits.test i)
  | compare p q => .ok (.order (Ord.compare (S.places p).toNat (S.places q).toNat))
  | distance p q => .ok (.number (minus (S.places p) (S.places q)).toInt)
  | count k value => .ok (.number (BitVec.ofNat 64 (bitCount (S.bools k) value)).toInt)
  | allOf k => .ok (.bool (bitAllOf (S.bools k)))
  | anyOf k => .ok (.bool (bitAnyOf (S.bools k)))
  | noneOf k => .ok (.bool (bitNoneOf (S.bools k)))
  | isSorted k => .ok (.bool (bitIsSorted (S.bools k)))
  | isPartitioned k => .ok (.bool (bitIsPartitioned (S.bools k)))
  | equal k j => .ok (.bool (Bools.equalBools (S.bools k) (S.bools j)))
  | threeWay k j => .ok (.order (Bools.threeWayBools (S.bools k) (S.bools j)))

/-! ## 5. What is written -/

/-- `bit_fill`: a whole sequence's every block, a window's masked at its ends. -/
def bitFill {w : Nat} {V : Vehicle w} (r : Bools V) (value : Bool) : BitBlockContainer V :=
  if r.isWindowed then r.bits.setRange r.firstPosition r.size value else r.bits.fill value

/-- The calls that write. An `out` is an iterator; a whole sequence alone reverses, rotates and
    shifts. -/
inductive Edit where
  | assign (r : Ref) (value : Bool)
  | copyRef (r s : Ref)
  | swapRefs (r s : Ref)
  | swapBool (r : Ref) (value : Bool)
  | fill (k : Nat) (value : Bool)
  | copy (k out : Nat)
  | copyBackward (k outLast : Nat)
  | reverseCopy (k out : Nat)
  | rotateCopy (k middle out : Nat)
  | transform (f : Bool → Bool) (k out : Nat)
  | transformPairs (f : Bool → Bool → Bool) (k j out : Nat)
  | swapRanges (k j : Nat)
  | sort (k : Nat)
  | partition (k : Nat)
  | reverse (k : Nat)
  | rotate (k middle : Nat)
  | shiftLeft (k : Nat) (d : BitVec 64)
  | shiftRight (k : Nat) (d : BitVec 64)

section Kept
variable {w n : Nat} {V : Vehicle w} (S : Shared V n)

theorem Shared.kept_fill (k : Nat) (value : Bool) : Blit.Kept S.bits (bitFill (S.bools k) value) := by
  unfold bitFill
  split
  · have hfits := (S.bools k).fits
    rw [← (S.bools k).firstPosition_eq] at hfits
    exact ⟨S.inv.setRange hfits, (BitBlockContainer.sameWidth_setRange S.inv.shape hfits).size⟩
  · obtain ⟨hsame, -, hinv⟩ := BitBlockContainer.fill_spec (v := value) S.inv
    exact ⟨hinv, hsame.size⟩

theorem Shared.kept_sort (k : Nat) : Blit.Kept S.bits (bitSort (S.bools k)) :=
  ⟨(bitSort_exact (S.bools k)).1.inv, (bitSort_exact (S.bools k)).1.size⟩

theorem Shared.kept_partition (k : Nat) : Blit.Kept S.bits (bitPartition (S.bools k)).2 :=
  ⟨(bitPartition_exact (S.bools k)).1.inv, (bitPartition_exact (S.bools k)).1.size⟩

theorem Shared.kept_swapRanges (k j : Nat) : Blit.Kept S.bits (Blit.bitSwapWindows S.bits
    (S.bools k).firstPosition (S.views k).size (S.bools j).firstPosition (S.views j).size).1 := by
  have hk : (S.bools k).offset + (S.views k).size ≤ S.bits.size := (S.bools k).fits
  have hj : (S.bools j).offset + (S.views j).size ≤ S.bits.size := (S.bools j).fits
  rw [(S.bools k).firstPosition_eq, (S.bools j).firstPosition_eq]
  exact Blit.swapBoolsWithin_kept S.inv S.uncounted (by omega) (by omega)

theorem Shared.kept_rotateCopy {k m out : Nat} (hm : m ≤ (S.views k).size)
    (hout : out + (S.views k).size ≤ S.bits.size) :
    Blit.Kept S.bits ((Blit.bitRotateCopy S.bits (S.reader k) m out).getD (S.bits, 0, 0)).1 := by
  obtain ⟨d, hd, hkept⟩ := Blit.bitRotateCopy_kept (r := S.reader k) S.inv S.uncounted hout hm
  rw [hd]
  exact hkept

theorem Shared.kept_reverse : Blit.Kept S.bits S.bits.reverse :=
  ⟨S.inv.reverse, (BitBlockContainer.reverse_spec S.inv).1.size⟩

theorem Shared.kept_rotate (m : Nat) : Blit.Kept S.bits (S.bits.rotate m) :=
  ⟨S.inv.rotate m, (BitBlockContainer.rotate_spec S.inv m).1.size⟩

end Kept

section Edits
variable {w n : Nat} {V : Vehicle w} (S : Shared V n)

/-- What a call that writes leaves, what it answers, and the iterators it returns. -/
abbrev Result {w : Nat} (V : Vehicle w) (n : Nat) : Type :=
  Except Exn (Shared V n × Answer × List (BitVec 64))

/-- A copying algorithm: `count` bools written from `out` on, as `written` says, and the storage's
    assertion on a block past its width. -/
def Shared.copied (out count : Nat) (returned : List Nat)
    (written : out + count ≤ S.bits.size → { d : BitBlockContainer V // Blit.Kept S.bits d }) :
    Result V n :=
  if h : out + count ≤ S.bits.size then
    .ok (S.put (written h).2, .done, returned.map (BitVec.ofNat 64))
  else .error .abort

/-- `bit_shift_left` and `bit_shift_right`: `past` where nothing is left, and otherwise the
    storage's own shift. -/
def Shared.shifted (k : Nat) (d past first last : BitVec 64)
    (shift : (m : Nat) → m < S.bits.size → { d : BitBlockContainer V // Blit.Kept S.bits d }) :
    Result V n :=
  if hd : d.toInt < 0 then .error .abort
  else if d = 0 then .ok (S, .done, [S.begin k, S.end k])
  else if h : (minus (S.end k) (S.begin k)).toInt ≤ d.toInt then .ok (S, .done, [past, past])
  else .ok (S.put (shift d.toNat (S.lt_of_short hd h)).2, .done, [first, last])

def Edit.run : Edit → Result V n
  | assign r value => do
      let i ← r.place S.views S.places
      return (S.assign i value, .done, [])
  | copyRef r s => do
      -- the right operand first
      let j ← s.place S.views S.places
      let i ← r.place S.views S.places
      return (S.assign i (S.bits.test j), .done, [])
  | swapRefs r s => do
      let i ← r.place S.views S.places
      let j ← s.place S.views S.places
      return ((S.assign i (S.bits.test j)).assign j (S.bits.test i), .done, [])
  | swapBool r value => do
      let i ← r.place S.views S.places
      return (S.assign i value, .bool (S.bits.test i), [])
  | fill k value => .ok (S.put (S.kept_fill k value), .done, [S.end k])
  | copy k out =>
      let out := (S.places out).toNat
      let done := Blit.bitCopy S.bits (S.reader k) out
      S.copied out (S.views k).size [done.2.1, done.2.2] fun h =>
        ⟨done.1, Blit.bitCopy_kept S.inv S.uncounted h⟩
  | copyBackward k outLast =>
      let outLast := (S.places outLast).toNat
      let done := Blit.bitCopyBackward S.bits (S.reader k) outLast
      if (S.views k).size ≤ outLast then
        S.copied (outLast - (S.views k).size) (S.views k).size [done.2.1, done.2.2] fun h =>
          ⟨done.1, Blit.bitCopyBackward_kept S.inv S.uncounted h⟩
      else .error .abort
  | reverseCopy k out =>
      let out := (S.places out).toNat
      let done := Blit.bitReverseCopy S.bits (S.reader k) out
      S.copied out (S.views k).size [done.2.1, done.2.2] fun h =>
        ⟨done.1, Blit.bitReverseCopy_kept S.inv S.uncounted h⟩
  | rotateCopy k middle out =>
      let out := (S.places out).toNat
      let middle := (S.places middle).toNat
      if h : (S.views k).offset ≤ middle ∧ middle ≤ (S.views k).offset + (S.views k).size then
        S.copied out (S.views k).size
          [(S.reader k).firstPosition + (S.reader k).size, out + (S.reader k).size] fun hout =>
          let m := middle - (S.views k).offset
          ⟨((Blit.bitRotateCopy S.bits (S.reader k) m out).getD (S.bits, 0, 0)).1,
            S.kept_rotateCopy (show m ≤ (S.views k).size by omega) hout⟩
      else .error .abort
  | transform f k out =>
      let out := (S.places out).toNat
      let done := Blit.bitTransform f S.bits (S.reader k) out
      S.copied out (S.views k).size [done.2.1, done.2.2] fun h =>
        ⟨done.1, Blit.bitTransform_kept S.inv S.uncounted f h⟩
  | transformPairs f k j out =>
      let out := (S.places out).toNat
      let done := Blit.bitTransformPairs f S.bits (S.reader k) (S.reader j) out
      S.copied out (min (S.views k).size (S.views j).size) [done.2.1, done.2.2.1, done.2.2.2]
        fun h => ⟨done.1, Blit.bitTransformPairs_kept S.inv S.uncounted f h⟩
  | swapRanges k j =>
      let m := min (S.views k).size (S.views j).size
      .ok (S.put (S.kept_swapRanges k j), .done,
        [plus (S.begin k) (BitVec.ofNat 64 m), plus (S.begin j) (BitVec.ofNat 64 m)])
  | sort k => .ok (S.put (S.kept_sort k), .done, [S.end k])
  | partition k =>
      .ok (S.put (S.kept_partition k), .done,
        [plus (S.begin k) (BitVec.ofNat 64 (bitPartition (S.bools k)).1), S.end k])
  | reverse k => .ok (S.put S.kept_reverse, .done, [S.end k])
  | rotate k middle =>
      let middle := S.places middle
      if (S.begin k).toNat ≤ middle.toNat ∧ middle.toNat ≤ (S.end k).toNat then
        .ok (S.put (S.kept_rotate (minus middle (S.begin k)).toNat), .done,
          [plus (S.begin k) (minus (S.end k) middle), S.end k])
      else .error .abort
  | shiftLeft k d =>
      S.shifted k d (S.begin k) (S.begin k) (minus (S.end k) d) fun m h =>
        ⟨S.bits.shrAssign m, S.inv.shrAssign h,
          (BitBlockContainer.sameWidth_shrAssign S.inv.shape h).size⟩
  | shiftRight k d =>
      S.shifted k d (S.end k) (plus (S.begin k) d) (S.end k) fun m h =>
        ⟨S.bits.shlAssign m, S.inv.shlAssign h,
          (BitBlockContainer.sameWidth_shlAssign S.inv.shape h).size⟩

end Edits

end BitSpan

end XstdBits
