/-
  File: XstdBits/Algorithm/Copy.lean
  Subject: the copying algorithms of `bit_algorithm`, from any range of bools to any other.

  * the kernels of `blit.hpp` write the range they are given (`copyBools_spec`,
    `reverseCopyBools_spec`, `swapBools_spec`); what is read may be the storage written to, in the
    direction that keeps the reads to come clear of the writes (`Below`, `Above`, `Apart`).
  * an algorithm of the standard is the list of bools its destination range then reads (`Leaves`).
-/
import XstdBits.Algorithm.Blit
import XstdBits.Container.Machine
import XstdBits.Reading.Compare

namespace XstdBits

namespace Blit

open BitBlockContainer

/-! ## 1. What is read -/

/-- The storage an algorithm reads: the one it writes, or another over blocks of any type. -/
inductive Source {w w' : Nat} (V : Vehicle w) (V' : Vehicle w') where
  | own
  | of (bits : BitBlockContainer V')

namespace Source
variable {w w' : Nat} {V : Vehicle w} {V' : Vehicle w'}

/-- `read_block<block_type>(src, n, count)`, as the storage written to then is. -/
def readBlock (src : Source V V') (dst : BitBlockContainer V) (n count : Nat) : BitVec w :=
  match src with
  | .own => Blit.readBlock w dst n count
  | .of bits => Blit.readBlock w bits n count

def bit (src : Source V V') (dst : BitBlockContainer V) (p : Nat) : Bool :=
  match src with
  | .own => dst.bit p
  | .of bits => bits.bit p

/-- The `len` positions from `s` on lie within the storage read. -/
def Holds (src : Source V V') (dst : BitBlockContainer V) (s len : Nat) : Prop :=
  match src with
  | .own => s + len ≤ dst.size
  | .of bits => bits.Shape ∧ s + len ≤ bits.size

/-- Where the two storages are one, `overlap` is allowed. -/
def Where (src : Source V V') (overlap : Prop) : Prop :=
  match src with
  | .own => overlap
  | .of _ => True

/-- Read from `s` on and written from `d` on lowest first: disjoint, in place, or written below. -/
def Below (src : Source V V') (s d len : Nat) : Prop := src.Where (d ≤ s ∨ s + len ≤ d)

/-- Written highest first: disjoint, or written above. -/
def Above (src : Source V V') (s d len : Nat) : Prop := src.Where (s ≤ d ∨ d + len ≤ s)

/-- Disjoint. -/
def Apart (src : Source V V') (s d len : Nat) : Prop := src.Where (d + len ≤ s ∨ s + len ≤ d)

variable {src : Source V V'} {dst dst' : BitBlockContainer V} {s d len n count j : Nat}
  {g : Nat → Bool}

theorem Apart.below (h : src.Apart s d len) : src.Below s d len := by
  cases src with
  | own => exact h.imp_left (Nat.le_trans (Nat.le_add_right _ _))
  | of bits => trivial

theorem Holds.part (h : src.Holds dst s len) (hn : n + count ≤ s + len) :
    src.Holds dst n count := by
  cases src with
  | own => exact Nat.le_trans hn h
  | of bits => exact ⟨h.1, Nat.le_trans hn h.2⟩

theorem Holds.sameWidth (h : src.Holds dst s len) (hw : SameWidth dst dst') :
    src.Holds dst' s len := by
  cases src with
  | own =>
      show s + len ≤ dst'.size
      rw [hw.size]
      exact h
  | of bits => exact h

/-- A block read holds the bits of whichever storage it is. -/
theorem getLsbD_readBlock (hd : dst.Shape) (h : src.Holds dst n count) (hcount : count ≤ w)
    (hj : j < count) : (src.readBlock dst n count).getLsbD j = src.bit dst (n + j) := by
  cases src with
  | own => exact Blit.getLsbD_readBlock hd hcount h hj
  | of bits => exact Blit.getLsbD_readBlock h.1 hcount h.2 hj

/-- A read clear of what has been written reads what was there before. -/
theorem bit_clear (h : src.Where (dst'.bit n = dst.bit n)) : src.bit dst' n = src.bit dst n := by
  cases src with
  | own => exact h
  | of bits => rfl

theorem Where.imp {P Q : Prop} (h : src.Where P) (hPQ : P → Q) : src.Where Q := by
  cases src with
  | own => exact hPQ h
  | of bits => trivial

end Source

/-! ## 2. The kernels -/

section Kernels
variable {w w' w'' : Nat} {V : Vehicle w} {V' : Vehicle w'} {V'' : Vehicle w''}

/-- `copy_bools`: the `len` bools of `src` from position `s` on, lowest first or `backward`. -/
def copyBools (backward : Bool) (dst : BitBlockContainer V) (d : Nat) (src : Source V V')
    (s len : Nat) : BitBlockContainer V :=
  if backward then writeDown dst d len fun dst k count => src.readBlock dst (s + k) count
  else writeUp dst d len fun dst k count => src.readBlock dst (s + k) count

/-- `reverse_copy_bools`: last first. The `count` bits read from below the reversed position land
    at the top, and come down to the bottom. -/
def reverseCopyBools (dst : BitBlockContainer V) (d : Nat) (src : Source V V') (s len : Nat) :
    BitBlockContainer V :=
  writeUp dst d len fun dst k count =>
    shr (reversed (src.readBlock dst (s + len - k - count) count)) (w - count)

/-- `bit_transform` of one range, `f` applied a block at a time. -/
def transformBools (f : Bool → Bool) (dst : BitBlockContainer V) (d : Nat) (src : Source V V')
    (s len : Nat) : BitBlockContainer V :=
  writeUp dst d len fun dst k count => unaryTable f (src.readBlock dst (s + k) count)

/-- `bit_transform` of two ranges. -/
def transformBoolPairs (f : Bool → Bool → Bool) (dst : BitBlockContainer V) (d : Nat)
    (x : Source V V') (xs : Nat) (y : Source V V'') (ys len : Nat) : BitBlockContainer V :=
  writeUp dst d len fun dst k count =>
    binaryTable f (x.readBlock dst (xs + k) count) (y.readBlock dst (ys + k) count)

variable {dst dst' : BitBlockContainer V} {d s len k i : Nat} {src : Source V V'}
  {g : Nat → Bool}

/-- The block read before position `k` is written, lowest first. -/
theorem readBlock_up (h : dst.Shape) (hs : src.Holds dst s len) (ho : src.Below s d len)
    (hk : k < len) (hdst : Written dst d k g dst') (hi : i < min w (len - k)) :
    (src.readBlock dst' (s + k) (min w (len - k))).getLsbD i = src.bit dst (s + (k + i)) := by
  rw [Source.getLsbD_readBlock (hdst.shape h) ((hs.sameWidth hdst.sameWidth).part (by omega))
    (Nat.min_le_left _ _) hi, Nat.add_assoc]
  refine Source.bit_clear (ho.imp fun hov => ?_)
  rw [hdst.bit, if_neg (by omega)]

/-- The block read before the positions up to `k` are written, highest first. -/
theorem readBlock_down (h : dst.Shape) (hs : src.Holds dst s len) (ho : src.Above s d len)
    (hk : k < len) (hdst : WrittenFrom dst d (min (k + w) len) len g dst')
    (hi : i < min w (len - k)) :
    (src.readBlock dst' (s + k) (min w (len - k))).getLsbD i = src.bit dst (s + (k + i)) := by
  obtain ⟨hsame, hbit⟩ := hdst
  rw [Source.getLsbD_readBlock (hsame.shape h) ((hs.sameWidth hsame).part (by omega))
    (Nat.min_le_left _ _) hi, Nat.add_assoc]
  refine Source.bit_clear (ho.imp fun hov => ?_)
  rw [hbit, if_neg (by omega)]

/-- **Copied lowest first**, the destination apart from the source or below it. -/
theorem copyBools_spec (h : dst.Shape) (hd : d + len ≤ dst.size) (hs : src.Holds dst s len)
    (ho : src.Below s d len) :
    Written dst d len (fun k => src.bit dst (s + k)) (copyBools false dst d src s len) := by
  unfold copyBools
  rw [if_neg (by decide)]
  exact writeUp_spec h hd fun k dst' hk hdst i hi => readBlock_up h hs ho hk hdst hi

/-- **Copied highest first**, the destination apart from the source or above it. -/
theorem copyBools_backward_spec (h : dst.Shape) (hd : d + len ≤ dst.size)
    (hs : src.Holds dst s len) (ho : src.Above s d len) :
    Written dst d len (fun k => src.bit dst (s + k)) (copyBools true dst d src s len) := by
  unfold copyBools
  rw [if_pos rfl]
  exact writeDown_spec h hd fun k dst' hk hdst i hi => readBlock_down h hs ho hk hdst hi

/-- **Copied last first.** -/
theorem reverseCopyBools_spec (h : dst.Shape) (hd : d + len ≤ dst.size)
    (hs : src.Holds dst s len) (ho : src.Apart s d len) :
    Written dst d len (fun k => src.bit dst (s + (len - 1 - k)))
      (reverseCopyBools dst d src s len) := by
  refine writeUp_spec h hd fun k dst' hk hdst i hi => ?_
  have hcount := Nat.min_le_left w (len - k)
  generalize hc : min w (len - k) = count at hi hcount
  rw [getLsbD_shr, getLsbD_reversed (by omega), Source.getLsbD_readBlock (hdst.shape h)
    ((hs.sameWidth hdst.sameWidth).part (by omega)) hcount (by omega),
    show s + len - k - count + (w - 1 - (w - count + i)) = s + (len - 1 - (k + i)) by omega]
  refine Source.bit_clear (ho.imp fun hov => ?_)
  rw [hdst.bit, if_neg (by omega)]

/-- **A range transformed**, in place or apart. -/
theorem transformBools_spec (f : Bool → Bool) (h : dst.Shape) (hd : d + len ≤ dst.size)
    (hs : src.Holds dst s len) (ho : src.Below s d len) :
    Written dst d len (fun k => f (src.bit dst (s + k))) (transformBools f dst d src s len) := by
  refine writeUp_spec h hd fun k dst' hk hdst i hi => ?_
  rw [getLsbD_unaryTable (by omega), readBlock_up h hs ho hk hdst hi]

/-- **Two ranges transformed**, either in place or apart. -/
theorem transformBoolPairs_spec (f : Bool → Bool → Bool) {x : Source V V'} {y : Source V V''}
    {xs ys : Nat} (h : dst.Shape) (hd : d + len ≤ dst.size) (hx : x.Holds dst xs len)
    (hy : y.Holds dst ys len) (hox : x.Below xs d len) (hoy : y.Below ys d len) :
    Written dst d len (fun k => f (x.bit dst (xs + k)) (y.bit dst (ys + k)))
      (transformBoolPairs f dst d x xs y ys len) := by
  refine writeUp_spec h hd fun k dst' hk hdst i hi => ?_
  rw [getLsbD_binaryTable (by omega), readBlock_up h hx hox hk hdst hi,
    readBlock_up h hy hoy hk hdst hi]

end Kernels

/-! ## 3. Swapped -/

section Swap
variable {w w' : Nat} {V : Vehicle w} {V' : Vehicle w'}

/-- `swap_bools` of two storages, a block of the narrower at a time. -/
def swapBools (x : BitBlockContainer V) (i : Nat) (y : BitBlockContainer V') (j len : Nat) :
    BitBlockContainer V × BitBlockContainer V' :=
  let step := min w w'
  forStep step 0 len (fun k (x, y) =>
    let count := min step (len - k)
    let fromX := readBlock w' x (i + k) count
    (x.writeBlockAt (i + k) (readBlock w y (j + k) count) (partialBlockMask count),
      y.writeBlockAt (j + k) fromX (partialBlockMask count))) (x, y)

/-- `swap_bools` within one storage: the second write finds what the first has left. -/
def swapBoolsWithin (c : BitBlockContainer V) (i j len : Nat) : BitBlockContainer V :=
  forStep w 0 len (fun k c =>
    let count := min w (len - k)
    let fromX := readBlock w c (i + k) count
    let c := c.writeBlockAt (i + k) (readBlock w c (j + k) count) (partialBlockMask count)
    c.writeBlockAt (j + k) fromX (partialBlockMask count)) c

variable {x : BitBlockContainer V} {y : BitBlockContainer V'} {c : BitBlockContainer V}
  {i j len k n count t : Nat} {g : Nat → Bool}

/-- What stands past a range written is what stood there. -/
theorem getLsbD_readBlock_past {u d : Nat} {c' : BitBlockContainer V} (hc : c.Shape)
    (hw : Written c d k g c') (hcount : count ≤ u) (hn : d + k + count ≤ c.size) (ht : t < count) :
    (readBlock u c' (d + k) count).getLsbD t = c.bit (d + (k + t)) := by
  have hsize := hw.size
  rw [getLsbD_readBlock (hw.shape hc) hcount (by omega) ht, hw.bit, if_neg (by omega),
    Nat.add_assoc]

/-- **Two storages swapped**: either range holds what the other held. -/
theorem swapBools_spec (hx : x.Shape) (hy : y.Shape) (hi : i + len ≤ x.size)
    (hj : j + len ≤ y.size) :
    Written x i len (fun k => y.bit (j + k)) (swapBools x i y j len).1 ∧
      Written y j len (fun k => x.bit (i + k)) (swapBools x i y j len).2 := by
  have hw := V.bits_pos
  have hw' := V'.bits_pos
  have hturn : ∀ k (s : BitBlockContainer V × BitBlockContainer V'), k < len →
      (Written x i (min k len) (fun k => y.bit (j + k)) s.1 ∧
        Written y j (min k len) (fun k => x.bit (i + k)) s.2) →
      let count := min (min w w') (len - k)
      Written x i (min (k + min w w') len) (fun k => y.bit (j + k))
          (s.1.writeBlockAt (i + k) (readBlock w s.2 (j + k) count) (partialBlockMask count)) ∧
        Written y j (min (k + min w w') len) (fun k => x.bit (i + k))
          (s.2.writeBlockAt (j + k) (readBlock w' s.1 (i + k) count) (partialBlockMask count)) := by
    intro k s hk ⟨h1, h2⟩ count
    have hcount : count = min (min w w') (len - k) := rfl
    rw [Nat.min_eq_left (Nat.le_of_lt hk)] at h1 h2
    rw [show min (k + min w w') len = k + count by omega]
    constructor
    · exact h1.further hx (by omega) (by omega) (by omega) fun t ht =>
        getLsbD_readBlock_past hy h2 (by omega) (by omega) ht
    · exact h2.further hy (by omega) (by omega) (by omega) fun t ht =>
        getLsbD_readBlock_past hx h1 (by omega) (by omega) ht
  obtain ⟨q, hq, h1, h2⟩ := forStep_inv (k := min w w') (a := 0) (b := len) (s := (x, y))
    (f := fun k s =>
      (s.1.writeBlockAt (i + k) (readBlock w s.2 (j + k) (min (min w w') (len - k)))
          (partialBlockMask (min (min w w') (len - k))),
        s.2.writeBlockAt (j + k) (readBlock w' s.1 (i + k) (min (min w w') (len - k)))
          (partialBlockMask (min (min w w') (len - k)))))
    (fun q s => Written x i (min q len) (fun k => y.bit (j + k)) s.1 ∧
      Written y j (min q len) (fun k => x.bit (i + k)) s.2) (by omega)
    ⟨⟨SameWidth.refl, fun p => by rw [if_neg (by omega)]⟩,
      ⟨SameWidth.refl, fun p => by rw [if_neg (by omega)]⟩⟩ hturn
  rw [Nat.min_eq_right hq] at h1 h2
  exact ⟨h1, h2⟩

/-- Two ranges of `len` positions, from `i` and from `j` on, traded. -/
def exchanged (f : Nat → Bool) (i j len p : Nat) : Bool :=
  if i ≤ p ∧ p < i + len then f (j + (p - i))
  else if j ≤ p ∧ p < j + len then f (i + (p - j))
  else f p

/-- The first `k` positions of two ranges of one storage are traded, and nothing else changed. -/
structure Traded (c : BitBlockContainer V) (i j k : Nat) (c' : BitBlockContainer V) : Prop where
  same : SameWidth c c'
  bit : ∀ p, c'.bit p = exchanged c.bit i j k p

/-- What stands past both ranges traded is what stood there. -/
theorem Traded.read {c' : BitBlockContainer V} (hc : c.Shape) (h : Traded c i j k c')
    (hcount : count ≤ w) (hn : n + count ≤ c.size) (ht : t < count)
    (hi : i + k ≤ n + t ∨ n + t < i) (hj : j + k ≤ n + t ∨ n + t < j) :
    (readBlock w c' n count).getLsbD t = c.bit (n + t) := by
  have hsize := h.same.size
  rw [getLsbD_readBlock (h.same.shape hc) hcount (by omega) ht, h.bit]
  unfold exchanged
  rw [if_neg (by omega), if_neg (by omega)]

/-- **A turn trades the next positions**: both blocks are read before either is written. -/
theorem Traded.turn {c' : BitBlockContainer V} (hc : c.Shape) (h : Traded c i j k c') (hk : k < len)
    (hi : i + len ≤ c.size) (hj : j + len ≤ c.size) (ho : i + len ≤ j ∨ j + len ≤ i)
    (hcount : count = min w (len - k)) :
    Traded c i j (k + count) ((c'.writeBlockAt (i + k) (readBlock w c' (j + k) count)
      (partialBlockMask count)).writeBlockAt (j + k) (readBlock w c' (i + k) count)
        (partialBlockMask count)) := by
  have hw := V.bits_pos
  have hsize := h.same.size
  have hshape := h.same.shape hc
  have hfromX : ∀ t, t < count →
      (readBlock w c' (i + k) count).getLsbD t = c.bit (i + (k + t)) := fun t ht => by
    rw [h.read hc (by omega) (by omega) ht (by omega) (by omega), Nat.add_assoc]
  have hfromY : ∀ t, t < count →
      (readBlock w c' (j + k) count).getLsbD t = c.bit (j + (k + t)) := fun t ht => by
    rw [h.read hc (by omega) (by omega) ht (by omega) (by omega), Nat.add_assoc]
  generalize readBlock w c' (i + k) count = fromX at hfromX ⊢
  generalize readBlock w c' (j + k) count = fromY at hfromY ⊢
  have hsame' : SameWidth c' (c'.writeBlockAt (i + k) fromY (partialBlockMask count)) :=
    sameWidth_writeBlockAt
  have hsize' := hsame'.size
  refine ⟨(h.same.trans hsame').trans sameWidth_writeBlockAt, fun p => ?_⟩
  rw [bit_turn (g := fun k => c.bit (i + k)) (hsame'.shape hshape) (by omega) (by omega)
    (by omega) hfromX p, bit_turn (g := fun k => c.bit (j + k)) hshape (by omega) (by omega)
    (by omega) hfromY p, h.bit]
  unfold exchanged
  by_cases hpj : j + k ≤ p ∧ p < j + k + count
  · rw [if_pos hpj, if_neg (by omega), if_pos (by omega)]
  · rw [if_neg hpj]
    by_cases hpi : i + k ≤ p ∧ p < i + k + count
    · rw [if_pos hpi, if_pos (by omega)]
    · rw [if_neg hpi]
      exact if_congr (by omega) rfl (if_congr (by omega) rfl rfl)

/-- **Two ranges of one storage swapped.** -/
theorem swapBoolsWithin_spec (hc : c.Shape) (hi : i + len ≤ c.size) (hj : j + len ≤ c.size)
    (ho : i + len ≤ j ∨ j + len ≤ i) :
    SameWidth c (swapBoolsWithin c i j len) ∧
      ∀ p, (swapBoolsWithin c i j len).bit p = exchanged c.bit i j len p := by
  obtain ⟨q, hq, h⟩ := forStep_inv (k := w) (a := 0) (b := len) (s := c)
    (f := fun k c =>
      let c' := c.writeBlockAt (i + k) (readBlock w c (j + k) (min w (len - k)))
        (partialBlockMask (min w (len - k)))
      c'.writeBlockAt (j + k) (readBlock w c (i + k) (min w (len - k)))
        (partialBlockMask (min w (len - k))))
    (fun q c' => Traded c i j (min q len) c') V.bits_pos
    ⟨SameWidth.refl, fun p => by unfold exchanged; rw [if_neg (by omega), if_neg (by omega)]⟩
    fun k c' hk h => by
      rw [Nat.min_eq_left (Nat.le_of_lt hk)] at h
      have hturn := h.turn hc hk hi hj ho rfl
      rwa [show k + min w (len - k) = min (k + w) len by omega] at hturn
  rw [Nat.min_eq_right hq] at h
  exact ⟨h.same, h.bit⟩

theorem swapBoolsWithin_kept (hc : c.Inv) (hu : V.hasStoredCount = false) (hi : i + len ≤ c.size)
    (hj : j + len ≤ c.size) : Kept c (swapBoolsWithin c i j len) := by
  have hw := V.bits_pos
  obtain ⟨q, -, hkept⟩ := forStep_inv (k := w) (a := 0) (b := len) (s := c)
    (f := fun k c =>
      let c' := c.writeBlockAt (i + k) (readBlock w c (j + k) (min w (len - k)))
        (partialBlockMask (min w (len - k)))
      c'.writeBlockAt (j + k) (readBlock w c (i + k) (min w (len - k)))
        (partialBlockMask (min w (len - k))))
    (fun _ c' => Kept c c') hw (.refl hc) fun k c' hk h =>
      (h.turn hu (by omega) (Nat.min_le_left _ _) (by omega)).turn hu (by omega)
        (Nat.min_le_left _ _) (by omega)
  exact hkept

end Swap

/-! ## 4. The algorithms -/

/-- A sequence or window an algorithm reads. -/
structure Reader {w w' : Nat} (V : Vehicle w) (V' : Vehicle w') where
  storage : Source V V'
  firstPosition : Nat
  size : Nat

namespace Reader
variable {w w' : Nat} {V : Vehicle w} {V' : Vehicle w'} (r : Reader V V')
  (dst : BitBlockContainer V)

def boolAt (i : Nat) : Bool := r.storage.bit dst (r.firstPosition + i)

/-- The bools read, in order. -/
def toList : List Bool := bools (r.boolAt dst) r.size

/-- The sequence lies within its storage. -/
def Holds : Prop := r.storage.Holds dst r.firstPosition r.size

end Reader

section Algorithms
variable {w w' w'' : Nat} {V : Vehicle w} {V' : Vehicle w'} {V'' : Vehicle w''}

/-- `bit_copy(r, out)`: what is written, and where `in` and `out` stop. -/
def bitCopy (dst : BitBlockContainer V) (r : Reader V V') (out : Nat) :
    BitBlockContainer V × Nat × Nat :=
  (copyBools false dst out r.storage r.firstPosition r.size, r.firstPosition + r.size, out + r.size)

/-- `bit_copy_backward(r, out_last)`. -/
def bitCopyBackward (dst : BitBlockContainer V) (r : Reader V V') (outLast : Nat) :
    BitBlockContainer V × Nat × Nat :=
  let first := outLast - r.size
  (copyBools true dst first r.storage r.firstPosition r.size, r.firstPosition + r.size, first)

/-- `bit_reverse_copy(r, out)`. -/
def bitReverseCopy (dst : BitBlockContainer V) (r : Reader V V') (out : Nat) :
    BitBlockContainer V × Nat × Nat :=
  (reverseCopyBools dst out r.storage r.firstPosition r.size, r.firstPosition + r.size,
    out + r.size)

/-- `bit_rotate_copy(r, middle, out)`, `middle` at `m` bools from the first; nothing where the
    assertion on it fails. -/
def bitRotateCopy (dst : BitBlockContainer V) (r : Reader V V') (m out : Nat) :
    Option (BitBlockContainer V × Nat × Nat) :=
  if m ≤ r.size then
    let dst := copyBools false dst out r.storage (r.firstPosition + m) (r.size - m)
    some (copyBools false dst (out + r.size - m) r.storage r.firstPosition m,
      r.firstPosition + r.size, out + r.size)
  else .none

/-- `bit_transform(r, out, f)`. -/
def bitTransform (f : Bool → Bool) (dst : BitBlockContainer V) (r : Reader V V') (out : Nat) :
    BitBlockContainer V × Nat × Nat :=
  (transformBools f dst out r.storage r.firstPosition r.size, r.firstPosition + r.size,
    out + r.size)

/-- `bit_transform(r1, r2, out, f)`. -/
def bitTransformPairs (f : Bool → Bool → Bool) (dst : BitBlockContainer V) (r1 : Reader V V')
    (r2 : Reader V V'') (out : Nat) : BitBlockContainer V × Nat × Nat × Nat :=
  let n := min r1.size r2.size
  (transformBoolPairs f dst out r1.storage r1.firstPosition r2.storage r2.firstPosition n,
    r1.firstPosition + n, r2.firstPosition + n, out + n)

/-- `bit_swap_ranges(r1, r2)` of two storages: both as they are left, and where `in1` and `in2`
    stop. -/
def bitSwapRanges (r1 : Bools V) (r2 : Bools V') :
    (BitBlockContainer V × BitBlockContainer V') × Nat × Nat :=
  let n := min r1.size r2.size
  (swapBools r1.bits r1.firstPosition r2.bits r2.firstPosition n, r1.firstPosition + n,
    r2.firstPosition + n)

/-- `bit_swap_ranges` of two windows of one storage, from `i` and from `j` on. -/
def bitSwapWindows (c : BitBlockContainer V) (i iSize j jSize : Nat) :
    BitBlockContainer V × Nat × Nat :=
  let n := min iSize jSize
  (swapBoolsWithin c i j n, i + n, j + n)

section Kept
variable {dst : BitBlockContainer V} {r : Reader V V'} {s : Reader V V''} {m out : Nat}
  (h : dst.Inv) (hu : V.hasStoredCount = false)
include h hu

theorem copyBools_kept {backward : Bool} {d n len : Nat} {src : Source V V'}
    (hd : d + len ≤ dst.size) : Kept dst (copyBools backward dst d src n len) := by
  unfold copyBools
  split
  · exact writeDown_kept h hu hd
  · exact writeUp_kept h hu hd

theorem bitCopy_kept (hout : out + r.size ≤ dst.size) : Kept dst (bitCopy dst r out).1 := by
  unfold bitCopy
  dsimp only
  exact copyBools_kept h hu hout

theorem bitCopyBackward_kept (hout : out - r.size + r.size ≤ dst.size) :
    Kept dst (bitCopyBackward dst r out).1 := by
  unfold bitCopyBackward
  dsimp only
  exact copyBools_kept h hu hout

theorem bitReverseCopy_kept (hout : out + r.size ≤ dst.size) :
    Kept dst (bitReverseCopy dst r out).1 := by
  unfold bitReverseCopy reverseCopyBools
  dsimp only
  exact writeUp_kept h hu hout

theorem bitTransform_kept (f : Bool → Bool) (hout : out + r.size ≤ dst.size) :
    Kept dst (bitTransform f dst r out).1 := by
  unfold bitTransform transformBools
  dsimp only
  exact writeUp_kept h hu hout

theorem bitTransformPairs_kept (f : Bool → Bool → Bool) (hout : out + min r.size s.size ≤ dst.size) :
    Kept dst (bitTransformPairs f dst r s out).1 := by
  unfold bitTransformPairs transformBoolPairs
  dsimp only
  exact writeUp_kept h hu hout

theorem bitRotateCopy_kept (hout : out + r.size ≤ dst.size) (hm : m ≤ r.size) :
    ∃ dst', bitRotateCopy dst r m out = some (dst', r.firstPosition + r.size, out + r.size) ∧
      Kept dst dst' := by
  have h1 : Kept dst (copyBools false dst out r.storage (r.firstPosition + m) (r.size - m)) :=
    copyBools_kept h hu (by omega)
  exact ⟨_, if_pos hm, h1.trans (copyBools_kept h1.inv hu (by rw [h1.size]; omega))⟩

end Kept

end Algorithms

/-! ## 5. The bools written -/

/-- What an algorithm of the standard leaves: the bools of `l` from `d` on, and all else as it
    was. -/
structure Leaves {w : Nat} {V : Vehicle w} (dst : BitBlockContainer V) (d : Nat) (l : List Bool)
    (dst' : BitBlockContainer V) : Prop where
  size : dst'.size = dst.size
  range : windowOf dst' d l.length = l
  frame : ∀ p, p < d ∨ d + l.length ≤ p → dst'.bit p = dst.bit p

section Lists
variable {f g : Nat → Bool} {n m : Nat}

theorem length_bools : (bools f n).length = n := by
  unfold bools
  rw [List.length_map, List.length_range]

theorem getElem_bools {i : Nat} (hi : i < (bools f n).length) : (bools f n)[i] = f i := by
  simp only [bools, List.getElem_map, List.getElem_range]

/-- Bools read last first. -/
theorem bools_reverse : bools (fun k => f (n - 1 - k)) n = (bools f n).reverse := by
  refine List.ext_getElem ?_ fun i h1 h2 => ?_
  · rw [List.length_reverse, length_bools, length_bools]
  · rw [List.getElem_reverse, getElem_bools, getElem_bools, length_bools]

/-- Bools read from the middle on, then up to it. -/
theorem bools_rotate (hm : m ≤ n) :
    bools (fun k => if k < n - m then f (m + k) else f (k - (n - m))) n =
      (bools f n).drop m ++ (bools f n).take m := by
  refine List.ext_getElem ?_ fun i h1 h2 => ?_
  · rw [List.length_append, List.length_drop, List.length_take, length_bools, length_bools]
    omega
  · rw [getElem_bools]
    rw [length_bools] at h1
    split
    · rename_i hi
      rw [List.getElem_append_left (by rw [List.length_drop, length_bools]; exact hi),
        List.getElem_drop, getElem_bools]
    · rename_i hi
      rw [List.getElem_append_right (by rw [List.length_drop, length_bools]; omega),
        List.getElem_take, getElem_bools, List.length_drop, length_bools]

theorem bools_map (h : Bool → Bool) : bools (fun k => h (f k)) n = (bools f n).map h := by
  unfold bools
  rw [List.map_map]
  rfl

theorem bools_zipWith (h : Bool → Bool → Bool) :
    bools (fun k => h (f k) (g k)) (min n m) = List.zipWith h (bools f n) (bools g m) := by
  refine List.ext_getElem ?_ fun i h1 h2 => ?_
  · rw [List.length_zipWith, length_bools, length_bools, length_bools]
  · rw [List.getElem_zipWith, getElem_bools, getElem_bools, getElem_bools]

theorem bools_take (hm : m ≤ n) : bools f m = (bools f n).take m := by
  refine List.ext_getElem ?_ fun i h1 h2 => ?_
  · rw [List.length_take, length_bools, length_bools]
    omega
  · rw [List.getElem_take, getElem_bools, getElem_bools]

end Lists

section Exact
variable {w w' w'' : Nat} {V : Vehicle w} {V' : Vehicle w'} {V'' : Vehicle w''}
  {dst dst' : BitBlockContainer V} {d len m : Nat} {g : Nat → Bool} {r : Reader V V'}

/-- What is written, as a list. -/
theorem Written.leaves {l : List Bool} (h : Written dst d len g dst') (hl : bools g len = l) :
    Leaves dst d l dst' := by
  subst hl
  refine ⟨h.size, ?_, fun p hp => ?_⟩
  · rw [length_bools]
    refine bools_congr fun q hq => ?_
    rw [h.bit, if_pos (by omega), Nat.add_sub_cancel_left]
  · rw [length_bools] at hp
    rw [h.bit, if_neg (by omega)]

/-- Two ranges written one after the other. -/
theorem Written.append {len' : Nat} {g' : Nat → Bool} {dst'' : BitBlockContainer V}
    (h : Written dst d len g dst') (h' : Written dst' (d + len) len' g' dst'') :
    Written dst d (len + len') (fun k => if k < len then g k else g' (k - len)) dst'' := by
  refine ⟨h.sameWidth.trans h'.sameWidth, fun p => ?_⟩
  rw [h'.bit, h.bit]
  by_cases h1 : d + len ≤ p ∧ p < d + len + len'
  · rw [if_pos h1, if_pos (by omega), if_neg (by omega), Nat.sub_add_eq]
  · rw [if_neg h1]
    by_cases h2 : d ≤ p ∧ p < d + len
    · rw [if_pos h2, if_pos (by omega), if_pos (by omega)]
    · rw [if_neg h2, if_neg (by omega)]

variable {s : Reader V V''} {out : Nat}

theorem bitCopy_leaves (h : dst.Shape) (hr : r.Holds dst) (hout : out + r.size ≤ dst.size)
    (ho : r.storage.Below r.firstPosition out r.size) :
    Leaves dst out (r.toList dst) (bitCopy dst r out).1 :=
  (copyBools_spec h hout hr ho).leaves rfl

theorem bitCopyBackward_leaves (h : dst.Shape) (hr : r.Holds dst) (hsize : r.size ≤ out)
    (hout : out ≤ dst.size) (ho : r.storage.Above r.firstPosition (out - r.size) r.size) :
    Leaves dst (out - r.size) (r.toList dst) (bitCopyBackward dst r out).1 :=
  (copyBools_backward_spec h (by omega) hr ho).leaves rfl

theorem bitReverseCopy_leaves (h : dst.Shape) (hr : r.Holds dst) (hout : out + r.size ≤ dst.size)
    (ho : r.storage.Apart r.firstPosition out r.size) :
    Leaves dst out (r.toList dst).reverse (bitReverseCopy dst r out).1 :=
  (reverseCopyBools_spec h hout hr ho).leaves (bools_reverse (f := r.boolAt dst))

/-- Either part is copied from bools the other has not touched. -/
theorem bitRotateCopy_leaves (h : dst.Shape) (hr : r.Holds dst) (hout : out + r.size ≤ dst.size)
    (ho : r.storage.Apart r.firstPosition out r.size) (hm : m ≤ r.size) :
    ∃ dst' stop stop', bitRotateCopy dst r m out = some (dst', stop, stop') ∧
      Leaves dst out ((r.toList dst).drop m ++ (r.toList dst).take m) dst' := by
  have hback : r.storage.Holds dst (r.firstPosition + m) (r.size - m) := hr.part (by omega)
  have hfront : r.storage.Holds dst r.firstPosition m := hr.part (by omega)
  have h1 := copyBools_spec (d := out) h (by omega) hback
    (ho.imp fun hov => by omega)
  have h2 := copyBools_spec (d := out + (r.size - m)) (h1.shape h) (by rw [h1.size]; omega)
    (hfront.sameWidth h1.sameWidth) (ho.imp fun hov => by omega)
  refine ⟨_, _, _, if_pos hm, ?_⟩
  rw [show out + r.size - m = out + (r.size - m) by omega]
  refine (h1.append h2).leaves ?_
  rw [show r.size - m + m = r.size by omega]
  refine Eq.trans (bools_congr fun k hk => ?_) (bools_rotate (f := r.boolAt dst) hm)
  split
  · show _ = r.storage.bit dst (r.firstPosition + (m + k))
    rw [Nat.add_assoc]
  · refine Source.bit_clear (ho.imp fun hov => ?_)
    rw [h1.bit, if_neg (by omega)]

theorem bitTransform_leaves (f : Bool → Bool) (h : dst.Shape) (hr : r.Holds dst)
    (hout : out + r.size ≤ dst.size) (ho : r.storage.Below r.firstPosition out r.size) :
    Leaves dst out ((r.toList dst).map f) (bitTransform f dst r out).1 :=
  (transformBools_spec f h hout hr ho).leaves (bools_map (f := r.boolAt dst) f)

theorem bitTransformPairs_leaves (f : Bool → Bool → Bool) (h : dst.Shape) (hr : r.Holds dst)
    (hs : s.Holds dst) (hout : out + min r.size s.size ≤ dst.size)
    (ho : r.storage.Below r.firstPosition out (min r.size s.size))
    (hos : s.storage.Below s.firstPosition out (min r.size s.size)) :
    Leaves dst out (List.zipWith f (r.toList dst) (s.toList dst))
      (bitTransformPairs f dst r s out).1 :=
  (transformBoolPairs_spec f h hout (hr.part (by omega)) (hs.part (by omega)) ho hos).leaves
    (bools_zipWith (f := r.boolAt dst) (g := s.boolAt dst) f)

theorem bitSwapRanges_leaves (x : Bools V) (y : Bools V') :
    Leaves x.bits x.offset (y.toList.take (min x.size y.size)) (bitSwapRanges x y).1.1 ∧
      Leaves y.bits y.offset (x.toList.take (min x.size y.size)) (bitSwapRanges x y).1.2 := by
  have hx := x.fits
  have hy := y.fits
  have hxp := x.firstPosition_eq
  have hyp := y.firstPosition_eq
  obtain ⟨h1, h2⟩ := swapBools_spec x.inv.shape y.inv.shape
    (show x.firstPosition + min x.size y.size ≤ x.bits.size by omega)
    (show y.firstPosition + min x.size y.size ≤ y.bits.size by omega)
  unfold bitSwapRanges
  rw [hxp, hyp] at h1 h2 ⊢
  exact ⟨h1.leaves (bools_take (Nat.min_le_right _ _)),
    h2.leaves (bools_take (Nat.min_le_left _ _))⟩

/-- Two windows of one storage trade their bools. -/
theorem bitSwapWindows_leaves {c : BitBlockContainer V} {i iSize j jSize n : Nat} (h : c.Shape)
    (hn : n = min iSize jSize) (hi : i + iSize ≤ c.size) (hj : j + jSize ≤ c.size)
    (ho : i + n ≤ j ∨ j + n ≤ i) :
    let c' := (bitSwapWindows c i iSize j jSize).1
    c'.size = c.size ∧ windowOf c' i n = windowOf c j n ∧ windowOf c' j n = windowOf c i n ∧
      ∀ p, (p < i ∨ i + n ≤ p) → (p < j ∨ j + n ≤ p) → c'.bit p = c.bit p := by
  obtain ⟨hsame, hbit⟩ := swapBoolsWithin_spec h (show i + n ≤ c.size by omega)
    (show j + n ≤ c.size by omega) ho
  unfold bitSwapWindows
  rw [← hn]
  refine ⟨hsame.size, bools_congr fun q hq => ?_, bools_congr fun q hq => ?_,
    fun p hpi hpj => ?_⟩
  · rw [hbit, exchanged, if_pos (by omega), Nat.add_sub_cancel_left]
  · rw [hbit, exchanged, if_neg (by omega), if_pos (by omega), Nat.add_sub_cancel_left]
  · rw [hbit, exchanged, if_neg (by omega), if_neg (by omega)]

/-- **The copying algorithms are the standard's on the bools**: over blocks of any types, at any
    offsets and of any length, and overlapping only as the standard allows, each leaves the bools
    of its source, moved, reversed, rotated, transformed or traded, in its destination range, and
    every bit outside it as it was. -/
theorem copies_exact (h : dst.Shape) (hr : r.Holds dst) (hs : s.Holds dst) (out : Nat) :
    (out + r.size ≤ dst.size →
      (r.storage.Below r.firstPosition out r.size →
        Leaves dst out (r.toList dst) (bitCopy dst r out).1 ∧
          ∀ f, Leaves dst out ((r.toList dst).map f) (bitTransform f dst r out).1) ∧
      (r.storage.Apart r.firstPosition out r.size →
        Leaves dst out (r.toList dst).reverse (bitReverseCopy dst r out).1 ∧
          ∀ m, m ≤ r.size → ∃ dst' last last',
            bitRotateCopy dst r m out = some (dst', last, last') ∧
            Leaves dst out ((r.toList dst).drop m ++ (r.toList dst).take m) dst')) ∧
    (r.size ≤ out → out ≤ dst.size → r.storage.Above r.firstPosition (out - r.size) r.size →
      Leaves dst (out - r.size) (r.toList dst) (bitCopyBackward dst r out).1) ∧
    (let n := min r.size s.size
     out + n ≤ dst.size → r.storage.Below r.firstPosition out n →
      s.storage.Below s.firstPosition out n →
      ∀ f, Leaves dst out (List.zipWith f (r.toList dst) (s.toList dst))
        (bitTransformPairs f dst r s out).1) ∧
    (∀ (x : Bools V) (y : Bools V'),
      Leaves x.bits x.offset (y.toList.take (min x.size y.size)) (bitSwapRanges x y).1.1 ∧
        Leaves y.bits y.offset (x.toList.take (min x.size y.size)) (bitSwapRanges x y).1.2) ∧
    ∀ i iSize j jSize, i + iSize ≤ dst.size → j + jSize ≤ dst.size →
      let n := min iSize jSize
      i + n ≤ j ∨ j + n ≤ i →
      let dst' := (bitSwapWindows dst i iSize j jSize).1
      dst'.size = dst.size ∧ windowOf dst' i n = windowOf dst j n ∧
        windowOf dst' j n = windowOf dst i n ∧
        ∀ p, (p < i ∨ i + n ≤ p) → (p < j ∨ j + n ≤ p) → dst'.bit p = dst.bit p := by
  refine ⟨fun hout => ⟨fun ho => ⟨bitCopy_leaves h hr hout ho, fun f => ?_⟩, fun ho => ⟨?_, ?_⟩⟩,
    fun hsize hout ho => bitCopyBackward_leaves h hr hsize hout ho, ?_, ?_, ?_⟩
  · exact bitTransform_leaves f h hr hout ho
  · exact bitReverseCopy_leaves h hr hout ho
  · exact fun m hm => bitRotateCopy_leaves h hr hout ho hm
  · exact fun hout ho hos f => bitTransformPairs_leaves f h hr hs hout ho hos
  · exact bitSwapRanges_leaves
  · exact fun i iSize j jSize hi hj ho => bitSwapWindows_leaves h rfl hi hj ho

/-- Five of twelve bools copied over themselves, two positions down and four up. -/
theorem copies_exact_twelve :
    let c := fourOfTwelve false
    Leaves c 1 [true, false, true, false, false]
      (bitCopy c (⟨.own, 3, 5⟩ : Reader _ (byteVector false)) 1).1 ∧
    Leaves c 7 [true, false, true, false, false]
      (bitCopyBackward c (⟨.own, 3, 5⟩ : Reader _ (byteVector false)) 12).1 := by
  intro c
  have hcopies := copies_exact (r := (⟨.own, 3, 5⟩ : Reader _ (byteVector false)))
    (s := (⟨.own, 3, 5⟩ : Reader _ (byteVector false))) (fourOfTwelve_inv false).shape
    (Nat.le_of_ble_eq_true rfl) (Nat.le_of_ble_eq_true rfl)
  exact ⟨(((hcopies 1).1 (Nat.le_of_ble_eq_true rfl)).1 (Or.inl (by decide))).1,
    (hcopies 12).2.1 (by decide) (Nat.le_of_ble_eq_true rfl) (Or.inl (by decide))⟩

end Exact

end Blit

end XstdBits
