/-
  File: XstdBits/Reading/Compare.lean
  Subject: `==` and `<=>` of sets and of sequences (`set_adaptor.hpp`, `storage_compare.hpp`).

  * sets of one key order, within one storage type (`setEqual`, `setThreeWay`) and across storages
    (`equalKeyWords`, `setWordsThreeWay`), are ordered as their keys in iteration order;
  * sequences, whole or windows, are ordered as their bools (`equalBools`, `threeWayBools`).

  The last section puts the two kernels of either reading beside each other.
-/
import XstdBits.Container.Compare
import XstdBits.Set.Refinement

namespace XstdBits

open BitBlockContainer

/-! ## 1. Sets -/

section Kernels
variable {w w' : Nat} {V : Vehicle w} {V' : Vehicle w'}

/-- A set's `operator<=>`, and `three_way_keys` within one storage type. -/
def setThreeWay (desc : Bool) (x y : BitBlockContainer V) : Ordering :=
  if desc then numericThreeWay x y else threeWay x y .sets

/-- `three_way_keys` across storages. -/
def setWordsThreeWay (desc : Bool) (x : BitBlockContainer V) (y : BitBlockContainer V') : Ordering :=
  if desc then numericWordsThreeWay x y else ascendingWordsThreeWay x y

/-- The positions of a set in its comparator's direction. -/
def keysIn (desc : Bool) (c : BitBlockContainer V) : List Nat :=
  if desc then keysDown c else keysUp c

variable {x y : BitBlockContainer V} {z : BitBlockContainer V'}

theorem setThreeWay_eq (desc : Bool) (hx : x.Inv) (hy : y.Inv) :
    setThreeWay desc x y = compare (keysIn desc x) (keysIn desc y) := by
  unfold setThreeWay keysIn
  cases desc
  · rw [if_neg (by decide), if_neg (by decide), if_neg (by decide)]
    exact threeWay_eq hx hy .sets
  · rw [if_pos rfl, if_pos rfl, if_pos rfl]
    exact numericThreeWay_eq hx hy

theorem setWordsThreeWay_eq (desc : Bool) (hx : x.Inv) (hz : z.Inv) :
    setWordsThreeWay desc x z = compare (keysIn desc x) (keysIn desc z) := by
  unfold setWordsThreeWay keysIn
  cases desc
  · rw [if_neg (by decide), if_neg (by decide), if_neg (by decide)]
    exact ascendingWordsThreeWay_eq hx hz
  · rw [if_pos rfl, if_pos rfl, if_pos rfl]
    exact numericWordsThreeWay_eq hx hz

end Kernels

section Keys
variable {w w' : Nat} {V : Vehicle w} {V' : Vehicle w'} {Key : Type} [LinearOrder Key]
  {M : KeyMapping Key} {U : Nat}

/-- Keys compare as their positions. -/
theorem compare_toIndex (hM : M.Bijective U) {a b : Key} (ha : M.isKey a = true)
    (hb : M.isKey b = true) : compare a b = compare (M.toIndex a) (M.toIndex b) := by
  rcases lt_trichotomy a b with h | rfl | h
  · rw [compare_lt_iff_lt.mpr h, compare_lt_iff_lt.mpr ((hM.mono a b ha hb).mp h)]
  · rw [compare_eq_iff_eq.mpr rfl, compare_eq_iff_eq.mpr rfl]
  · rw [compare_gt_iff_gt.mpr h, compare_gt_iff_gt.mpr ((hM.mono b a hb ha).mp h)]

variable {desc : Bool} {c : BitBlockContainer V} {d : BitBlockContainer V'} {s t : KeySet Key desc}

/-- The keys in iteration order stand at the positions in that direction. -/
theorem Represents.indices (h : Represents M desc c s) (hM : M.Bijective U) :
    s.keys.map M.toIndex = keysIn desc c := by
  have hmem (q : Nat) : q ∈ s.keys.map M.toIndex ↔ q ∈ ascending c.bit c.size := by
    rw [List.mem_map, mem_ascending, h.bit]
    constructor
    · intro ⟨k, hk, hkq⟩
      exact ⟨hkq ▸ h.index_lt hk, k, hk, hkq⟩
    · intro ⟨_, k, hk, hkq⟩
      exact ⟨k, hk, hkq⟩
  have hup : (ascending c.bit c.size).Pairwise (· < ·) := List.pairwise_lt_range.filter _
  have hkeys : (s.keys.map M.toIndex).Pairwise fun p q => if desc = true then q < p else p < q := by
    rw [List.pairwise_map]
    exact s.sorted.imp_of_mem fun ha hb hab =>
      (compare_iff _ hM (h.isKey _ ha) (h.isKey _ hb)).mp hab
  unfold keysIn keysDown keysUp descending
  cases desc
  · exact List.Pairwise.eq_of_mem_iff (by simpa using hkeys) hup hmem
  · refine List.Pairwise.eq_of_mem_iff (r := fun p q => q < p) (by simpa using hkeys) ?_ fun q => ?_
    · rw [if_pos rfl, List.pairwise_reverse]
      exact hup
    · rw [if_pos rfl, List.mem_reverse]
      exact hmem q

/-- **Two sets compare as their positions do.** -/
theorem compare_keys (hM : M.Bijective U) (hc : Represents M desc c s) (hd : Represents M desc d t) :
    compare s.keys t.keys = compare (keysIn desc c) (keysIn desc d) := by
  rw [← hc.indices hM, ← hd.indices hM]
  exact compare_map fun a ha b hb => compare_toIndex hM (hc.isKey a ha) (hd.isKey b hb)

/-- Two sets hold the same keys where their storages hold the same positions. -/
theorem same_keys_iff (hM : M.Bijective U) (hc : Represents M desc c s) (hd : Represents M desc d t) :
    (∀ q, c.bit q = d.bit q) ↔ ∀ k, k ∈ s ↔ k ∈ t := by
  constructor
  · intro h k
    constructor
    · intro hk
      rw [hd.mem_iff hM (hc.isKey k hk), ← h]
      exact (hc.bit _).mpr ⟨k, hk, rfl⟩
    · intro hk
      rw [hc.mem_iff hM (hd.isKey k hk), h]
      exact (hd.bit _).mpr ⟨k, hk, rfl⟩
  · intro h q
    rw [Bool.eq_iff_iff, hc.bit, hd.bit]
    exact exists_congr fun k => and_congr_left fun _ => h k

end Keys

/-! ## 2. Sequences -/

/-- An object of the sequence reading as the algorithms reach it: an owner, a view of one, or a
    window, whose storage holds every bool it reads. -/
structure Bools {w : Nat} (V : Vehicle w) where
  bits : BitBlockContainer V
  isWindowed : Bool
  offset : Nat
  size : Nat
  /-- `static_width`: the width the type fixes, nothing where it is a run-time value -/
  staticWidth : Option Nat
  inv : bits.Inv
  fits : offset + size ≤ bits.size
  whole : isWindowed = false → offset = 0 ∧ size = bits.size ∧
    staticWidth = if V.hasStaticSize then some V.extent else .none
  fixed : ∀ n, staticWidth = some n → size = n

namespace Bools

section
variable {w : Nat} {V : Vehicle w} (r : Bools V)

def toList : List Bool := windowOf r.bits r.offset r.size

/-- `first_position`: a window's offset, and zero for everything else. -/
def firstPosition : Nat := if r.isWindowed then r.offset else 0

/-- `varying_size`: a run-time width over storage that can hold a bool. -/
def varyingSize : Bool := r.staticWidth.isNone && !V.hasZeroCapacity

theorem firstPosition_eq : r.firstPosition = r.offset := by
  unfold firstPosition
  cases hw : r.isWindowed with
  | true => rfl
  | false => exact (r.whole hw).1.symm

theorem toList_of_whole (h : r.isWindowed = false) : r.toList = boolsOf r.bits := by
  obtain ⟨h1, h2, -⟩ := r.whole h
  unfold toList windowOf boolsOf
  rw [h1, h2]
  simp only [Nat.zero_add]

/-- An owner, and a view of one. -/
def wholly (c : BitBlockContainer V) (h : c.Inv) : Bools V where
  bits := c
  isWindowed := false
  offset := 0
  size := c.size
  staticWidth := if V.hasStaticSize then some V.extent else .none
  inv := h
  fits := Nat.le_of_eq (Nat.zero_add _)
  whole _ := ⟨rfl, rfl, rfl⟩
  fixed n hn := by
    unfold BitBlockContainer.size
    cases hs : V.hasStaticSize with
    | true =>
        rw [hs, if_pos rfl] at hn
        rw [if_pos rfl]
        exact Option.some.inj hn
    | false =>
        rw [hs, if_neg (by decide)] at hn
        cases hn

/-- `subspan(offset, count)` of a view of `c`. -/
def window (c : BitBlockContainer V) (h : c.Inv) (offset count : Nat)
    (hfits : offset + count ≤ c.size) : Bools V where
  bits := c
  isWindowed := true
  offset := offset
  size := count
  staticWidth := .none
  inv := h
  fits := hfits
  whole hw := absurd hw (by decide)
  fixed _ hn := by cases hn

theorem size_of_zero (h : V.hasZeroCapacity = true) : r.size = 0 := by
  have hns : V.hasStaticSize = false := by
    unfold Vehicle.hasZeroCapacity at h
    unfold Vehicle.hasStaticSize
    split <;> simp_all
  have hz : r.bits.size = 0 := by
    unfold BitBlockContainer.size
    rw [hns, h, if_neg (by decide), if_pos rfl]
  have := r.fits
  omega

end

section
variable {w w' : Nat} {V : Vehicle w} {V' : Vehicle w'}

/-- `comparable_readings`, of two sequences: one width kind, one width. -/
def Comparable (x : Bools V) (y : Bools V') : Prop := x.staticWidth = y.staticWidth

/-- The lengths of two sequences whose types let them disagree. -/
def sizesVary (x : Bools V) (y : Bools V') : Bool := x.varyingSize || y.varyingSize

/-- Types that leave the lengths no choice fix them alike. -/
theorem Comparable.size_eq {x : Bools V} {y : Bools V'} (h : x.Comparable y)
    (hv : sizesVary x y = false) : x.size = y.size := by
  unfold sizesVary varyingSize at hv
  rw [Bool.or_eq_false_iff] at hv
  cases hx : x.staticWidth with
  | some n => rw [x.fixed n hx, y.fixed n (h.symm.trans hx)]
  | none =>
      have hy : y.staticWidth = .none := h.symm.trans hx
      rw [hx, hy] at hv
      simp only [Option.isNone_none, Bool.true_and, Bool.not_eq_false'] at hv
      rw [x.size_of_zero hv.1, y.size_of_zero hv.2]

/-- `equal_bools` where the storages differ or a window is read. -/
def equalWords (x : Bools V) (y : Bools V') : Bool :=
  if sizesVary x y && x.size != y.size then false
  else equalBoolWords x.bits y.bits x.firstPosition y.firstPosition x.size

/-- `three_way_bools` where the storages differ or a window is read. -/
def threeWayWords (x : Bools V) (y : Bools V') : Ordering :=
  match boolWordsThreeWay x.bits y.bits x.firstPosition y.firstPosition (min x.size y.size) with
  | .some order => order
  | .none => if sizesVary x y then compare x.size y.size else .eq

/-- **Word by word, equal sequences are those of the same bools.** -/
theorem equalWords_iff {x : Bools V} {y : Bools V'} (h : x.Comparable y) :
    equalWords x y = true ↔ x.toList = y.toList := by
  unfold equalWords
  rw [firstPosition_eq, firstPosition_eq]
  split
  · rename_i hv
    rw [Bool.and_eq_true, bne_iff_ne] at hv
    refine iff_of_false (by decide) fun he => hv.2 ?_
    exact (bools_eq_iff.mp he).1
  · rename_i hv
    have hs : x.size = y.size := by
      by_contra hne
      refine hne (h.size_eq (Bool.eq_false_iff.mpr fun hc => hv ?_))
      rw [hc, bne_iff_ne.mpr hne]
      rfl
    have hyn := y.fits
    rw [← hs] at hyn
    rw [equalBoolWords_iff x.inv y.inv x.fits hyn]
    unfold toList
    rw [hs]

/-- **Word by word, sequences compare lexicographically.** -/
theorem threeWayWords_eq {x : Bools V} {y : Bools V'} (h : x.Comparable y) :
    threeWayWords x y = compare x.toList y.toList := by
  unfold threeWayWords toList
  rw [firstPosition_eq, firstPosition_eq]
  rcases boolWordsThreeWay_cases x.inv y.inv x.fits y.fits with hr | ⟨hr, hc⟩
  · rw [hr]
  · rw [hr, hc]
    dsimp only
    split
    · rfl
    · rename_i hv
      rw [Bool.not_eq_true] at hv
      rw [h.size_eq hv]
      exact (compare_eq_iff_eq.mpr rfl).symm

end

section
variable {w : Nat} {V : Vehicle w} (x y : Bools V)

/-- `first_mismatch`: the first of the `n` positions at which the two differ, or `n`. -/
def firstMismatch (shorter longer : BitBlockContainer V) (n : Nat) : Nat :=
  if n = 0 then 0
  else
    let index := (shorter.firstDifference longer).1
    let diff := (shorter.firstDifference longer).2
    if diff = zero then n else min (index * w + countrZero diff) n

/-- `equal_bools` within one storage type. -/
def equalBools : Bool :=
  if !x.isWindowed && !y.isWindowed then
    if sizesVary x y && x.size != y.size then false
    else firstMismatch x.bits y.bits x.size == x.size
  else equalWords x y

/-- `three_way_bools` within one storage type. -/
def threeWayBools : Ordering :=
  if !x.isWindowed && !y.isWindowed then threeWay x.bits y.bits .sequence else threeWayWords x y

variable {x y}

theorem firstMismatch_iff {c d : BitBlockContainer V} (hc : c.Inv) (hd : d.Inv)
    (hs : c.size = d.size) : firstMismatch c d c.size = c.size ↔ boolsOf c = boolsOf d := by
  unfold firstMismatch boolsOf
  rw [bools_eq_iff]
  split
  · rename_i h0
    exact iff_of_true h0.symm ⟨hs, fun q hq => by omega⟩
  · dsimp only
    rcases firstDifference_spec hc.shape hd.shape hs with ⟨hz, hagree⟩ | ⟨hne, -, hxor, hlow⟩
    · rw [if_pos hz]
      exact iff_of_true rfl ⟨hs, fun q _ => hagree q⟩
    · rw [if_neg hne]
      rw [hxor] at hne ⊢
      have hfd := firstDiff_of_block hlow hne
      -- a difference lies within the width, past which both are clear
      have hlt : (c.firstDifference d).1 * w + countrZero (c.block (c.firstDifference d).1 ^^^
          d.block (c.firstDifference d).1) < c.size := by
        by_contra hge
        exact hfd.here ((hc.clear _ (by omega)).trans (hd.clear _ (by omega)).symm)
      exact iff_of_false (by omega) fun h => hfd.here (h.2 _ hlt)

/-- **Within one storage type, equal sequences are those of the same bools.** -/
theorem equalBools_iff (h : x.Comparable y) : equalBools x y = true ↔ x.toList = y.toList := by
  unfold equalBools
  split
  · rename_i hw
    rw [Bool.and_eq_true, Bool.not_eq_true', Bool.not_eq_true'] at hw
    have hxs := (x.whole hw.1).2.1
    have hys := (y.whole hw.2).2.1
    rw [x.toList_of_whole hw.1, y.toList_of_whole hw.2]
    split
    · rename_i hv
      rw [Bool.and_eq_true, bne_iff_ne, hxs, hys] at hv
      exact iff_of_false (by decide) fun he => hv.2 (bools_eq_iff.mp he).1
    · rename_i hv
      have hs : x.size = y.size := by
        by_contra hne
        refine hne (h.size_eq (Bool.eq_false_iff.mpr fun hc => hv ?_))
        rw [hc, bne_iff_ne.mpr hne]
        rfl
      rw [beq_iff_eq, hxs]
      exact firstMismatch_iff x.inv y.inv (by omega)
  · exact equalWords_iff h

/-- **Within one storage type, sequences compare lexicographically.** -/
theorem threeWayBools_eq (h : x.Comparable y) :
    threeWayBools x y = compare x.toList y.toList := by
  unfold threeWayBools
  split
  · rename_i hw
    rw [Bool.and_eq_true, Bool.not_eq_true', Bool.not_eq_true'] at hw
    rw [x.toList_of_whole hw.1, y.toList_of_whole hw.2]
    exact threeWay_eq x.inv y.inv .sequence
  · exact threeWayWords_eq h

end

end Bools

/-! ## 3. The law -/

section Law
variable {w w' : Nat} {V : Vehicle w} {V' : Vehicle w'} {Key : Type} [LinearOrder Key]
  {M : KeyMapping Key} {U : Nat} {desc : Bool} {c d : BitBlockContainer V}
  {e : BitBlockContainer V'} {s t u : KeySet Key desc}

theorem eq_of_iff {a b : Bool} {p : Prop} (ha : a = true ↔ p) (hb : b = true ↔ p) : a = b :=
  Bool.eq_iff_iff.mpr (ha.trans hb.symm)

/-- **The order law.** `==` and `<=>` of two sets of one key order are those of their keys in
    iteration order, of two sequences those of their bools, whichever kernel answers: the blocks of
    one storage type, or the words of two. -/
theorem order_law (hM : M.Bijective U) (hc : Represents M desc c s) (hd : Represents M desc d t)
    (he : Represents M desc e u) (x y : Bools V) (z : Bools V') (hxy : x.Comparable y)
    (hxz : x.Comparable z) :
    ((setEqual c d = true ↔ ∀ k, k ∈ s ↔ k ∈ t) ∧
      setThreeWay desc c d = compare s.keys t.keys) ∧
    ((equalKeyWords c e = true ↔ ∀ k, k ∈ s ↔ k ∈ u) ∧
      setWordsThreeWay desc c e = compare s.keys u.keys) ∧
    (setEqual c d = equalKeyWords c d ∧ setThreeWay desc c d = setWordsThreeWay desc c d) ∧
    ((x.equalBools y = true ↔ x.toList = y.toList) ∧
      x.threeWayBools y = compare x.toList y.toList) ∧
    ((x.equalWords z = true ↔ x.toList = z.toList) ∧
      x.threeWayWords z = compare x.toList z.toList) ∧
    (x.equalBools y = x.equalWords y ∧ x.threeWayBools y = x.threeWayWords y) ∧
    (x.isWindowed = false → y.isWindowed = false →
      (containerEqual x.bits y.bits = true ↔ x.toList = y.toList) ∧
      threeWay x.bits y.bits .sequence = compare x.toList y.toList) := by
  have hequal := (setEqual_iff hc.inv hd.inv).trans (same_keys_iff hM hc hd)
  have horder := (setThreeWay_eq desc hc.inv hd.inv).trans (compare_keys hM hc hd).symm
  have hwords := (equalKeyWords_iff hc.inv hd.inv).trans (same_keys_iff hM hc hd)
  have hwordsOrder := (setWordsThreeWay_eq desc hc.inv hd.inv).trans (compare_keys hM hc hd).symm
  refine ⟨⟨hequal, horder⟩, ⟨?_, ?_⟩, ⟨eq_of_iff hequal hwords, horder.trans hwordsOrder.symm⟩,
    ⟨Bools.equalBools_iff hxy, Bools.threeWayBools_eq hxy⟩,
    ⟨Bools.equalWords_iff hxz, Bools.threeWayWords_eq hxz⟩,
    ⟨eq_of_iff (Bools.equalBools_iff hxy) (Bools.equalWords_iff hxy),
      (Bools.threeWayBools_eq hxy).trans (Bools.threeWayWords_eq hxy).symm⟩, fun hxw hyw => ?_⟩
  · exact (equalKeyWords_iff hc.inv he.inv).trans (same_keys_iff hM hc he)
  · exact (setWordsThreeWay_eq desc hc.inv he.inv).trans (compare_keys hM hc he).symm
  · rw [x.toList_of_whole hxw, y.toList_of_whole hyw]
    exact ⟨containerEqual_iff x.inv y.inv, threeWay_eq x.inv y.inv .sequence⟩

/-- Of the descending sets of nine and three and of nine alone the former is the greater. -/
theorem order_law_descending : ∃ c d : BitBlockContainer (byteVector true),
    setThreeWay true c d = .gt := by
  have h0 : SetRun (byteVector true) (unsignedMapping 8) true true _ .empty := .start 0
  have h1 := h0.step .ample (.insert 9) (show (unsignedMapping 8).isKey 9 = true by decide) rfl
  have h2 := h1.step .ample (.insert 3) (show (unsignedMapping 8).isKey 3 = true by decide) rfl
  have g0 : SetRun fixedBytes (unsignedMapping 8) true true _ .empty := .start 0
  have g1 := g0.step .ample (.insert 9) (show (unsignedMapping 8).isKey 9 = true by decide) rfl
  have hM := unsignedMapping_bijective 8
  have hd := h1.represents (by decide) hM
  have hc := h2.represents (by decide) hM
  have he := g1.represents (by decide) hM
  refine ⟨_, _, (order_law hM hc hd he (.wholly _ hc.inv) (.wholly _ hd.inv)
    (.window _ he.inv 3 9 (by decide)) rfl rfl).1.2.trans rfl⟩

end Law

end XstdBits
