/-
  File: XstdBits/Valarray/Proxy.lean
  Subject: a valarray's four subscripts, and the proxies that write through them
  (`valarray_proxy.hpp`, `valarray_adaptor.hpp`).

  * `BitValarray` is an owner's blocks with what its container keeps of them; every owner has one
    (`BitValarray.ofContainer`).
  * a `Selection` is what a subscript makes of a slice, a gslice, a mask or an array of indices; its
    path comes to the positions it names, in order (`Selection.follows`).
  * gathering, scattering and filling go along that path; an array a proxy takes may be the valarray
    itself, another, or another proxy, whose elements are gathered first, into a vector of their own.
-/
import XstdBits.Container.Transfer
import XstdBits.Valarray.Gather
import XstdBits.Valarray.Path

namespace XstdBits

/-! ## 1. Valarrays -/

/-- The blocks of a valarray's owner, as its container keeps them. -/
structure BitValarray (w : Nat) where
  size : SizeT
  blocks : List (BitVec w)
  length : blocks.length = blocksFor w size.toNat
  /-- a `std::size_t` counts their bits -/
  addressable : blocks.length * w < 2 ^ 64
  clear : ∀ p, size.toNat ≤ p → bitAt blocks p = false

namespace BitValarray

/-- Every owner has such blocks. -/
def ofContainer {w : Nat} {V : Vehicle w} (c : BitBlockContainer V) (h : c.Inv)
    (hV : V.storage ≠ .lent) : BitValarray w :=
  have hsize : (BitVec.ofNat 64 c.size).toNat = c.size := by
    rw [BitVec.toNat_ofNat, Nat.mod_eq_of_lt (h.addressable hV).2]
  { size := BitVec.ofNat 64 c.size
    blocks := c.mBlocks.elems
    length := h.shape.trans (congrArg (blocksFor w) hsize.symm)
    addressable := (h.addressable hV).1
    clear := fun p hp => h.clear p (hsize ▸ hp) }

theorem size_ofContainer {w : Nat} {V : Vehicle w} {c : BitBlockContainer V} (h : c.Inv)
    (hV : V.storage ≠ .lent) : (ofContainer c h hV).size.toNat = c.size := by
  show (BitVec.ofNat 64 c.size).toNat = c.size
  rw [BitVec.toNat_ofNat, Nat.mod_eq_of_lt (h.addressable hV).2]

variable {w : Nat} (v : BitValarray w)

theorem size_le (hw : 0 < w) : v.size.toNat ≤ v.blocks.length * w := by
  rw [v.length]
  exact le_blocksFor_mul hw

end BitValarray

/-- An array an operation refers to: the valarray itself, or another over blocks of one type. -/
inductive ArrayRef (w : Nat) where
  | own
  | of (a : BitValarray w)

namespace ArrayRef
variable {w : Nat}

def get (r : ArrayRef w) (v : BitValarray w) : BitValarray w :=
  match r with
  | own => v
  | of a => a

def lent (r : ArrayRef w) : LentBlocks w :=
  match r with
  | own => .own
  | of a => .of a.blocks

theorem get_lent (r : ArrayRef w) (v : BitValarray w) :
    r.lent.get v.blocks = (r.get v).blocks := by
  cases r <;> rfl

end ArrayRef

/-! ## 2. Selections -/

/-- What a subscript makes of its argument: a slice, a gslice and the index it was built with, a
    mask, or an array of indices. -/
inductive Selection (w : Nat) where
  | slice (s : Slice)
  | gslice (g : Gslice) (x : GsliceIndex) (built : gsliceIndex g = some x)
  | mask (m : ArrayRef w)
  | indirect (indices : List SizeT)

/-- Above stride one and below the block width. -/
def Slice.isStrided (s : Slice) (w : Nat) : Bool :=
  s.size != 0 && decide (1 < s.stride.toNat ∧ s.stride.toNat < w)

/-- The path of `slice_selection`. -/
def Slice.path {w : Nat} (I : Intrinsics w) (s : Slice) : Path w :=
  if s.stride = 1 then .run s.start.toNat s.size.toNat
  else if s.isStrided w then
    .masks (SliceMasks.make I.bitRepeat s.start.toNat s.size.toNat s.stride.toNat).forEach
  else .listed s.size.toNat fun j => some (s.start + j * s.stride)

/-- The path of `gslice_selection`. -/
def GsliceIndex.path (w : Nat) (x : GsliceIndex) : Path w :=
  if x.isMasked then .masks (wordMasks w x.words x.width)
  else .listed x.count.toNat fun j => x.positions[j]?

/-- `names_each_once`: as many positions seen as there are indices. -/
def namesEachOnce (indices : List SizeT) (width : Nat) : Bool :=
  (indices.foldl (fun seen i => seen.set i.toNat true) (List.replicate width false)).count true ==
    indices.length

/-- Nothing wraps around in what the index of a gslice is built from. -/
def Gslice.NoWrap (g : Gslice) : Prop :=
  g.extent < 2 ^ 64 ∧ (g.extent = 0 ∨ ascendingSpan g.lengths g.strides = 0 ∨
    g.start.toNat + reach g.sizes g.steps + 64 < 2 ^ 64)

namespace Selection
variable {w : Nat}

def size (sel : Selection w) (v : BitValarray w) : Nat :=
  match sel with
  | slice s => s.size.toNat
  | gslice _ x _ => x.count.toNat
  | mask m => ((m.get v).blocks.map popcount).sum
  | indirect indices => indices.length

/-- The assertion of the subscript. -/
def admitted (sel : Selection w) (v : BitValarray w) : Bool :=
  match sel with
  | slice s => s.admitted v.size
  | gslice _ x _ => x.within v.size
  | mask m => (m.get v).size == v.size
  | indirect indices => decide (InBounds v.size indices)

/-- The path `gather`, `expand` and `fill` of its class choose alike. -/
def path (I : Intrinsics w) (sel : Selection w) (bs : List (BitVec w)) : Path w :=
  match sel with
  | slice s => s.path I
  | gslice _ x _ => x.path w
  | mask m => .masks (storedMasks m.lent bs)
  | indirect indices => .listed indices.length fun j => indices[j]?

/-- The assertion of `expand` and `fill`. -/
def writable (sel : Selection w) (bs : List (BitVec w)) : Bool :=
  match sel with
  | indirect indices => namesEachOnce indices (bs.length * w)
  | _ => true

/-- **The positions a selection names**, in its order. -/
def positions (sel : Selection w) (v : BitValarray w) : List Nat :=
  match sel with
  | slice s => s.positions.map BitVec.toNat
  | gslice g _ _ => g.positions.map BitVec.toNat
  | mask m => ascending (bitAt (m.get v).blocks) (m.get v).size.toNat
  | indirect indices => indices.map BitVec.toNat

/-- What the subscript is promised: a gslice that does not wrap around, a mask of the valarray's
    size. -/
def WellFormed (sel : Selection w) (v : BitValarray w) : Prop :=
  match sel with
  | gslice g _ _ => g.NoWrap
  | mask m => (m.get v).size = v.size
  | _ => True

/-- Every position lies below the size. -/
def Within (sel : Selection w) (v : BitValarray w) : Prop :=
  ∀ p, p ∈ sel.positions v → p < v.size.toNat

/-- **An empty slice of stride one that starts past the last block.** -/
def PastEnd (sel : Selection w) (v : BitValarray w) : Prop :=
  match sel with
  | slice s => s.size = 0 ∧ s.stride = 1 ∧ v.blocks.length < s.start.toNat / w
  | _ => False

end Selection

/-! ## 3. Their paths -/

/-- **A slice that stays below a valarray's size never wraps around**, with strides up to the block
    width: the sum of a position and a stride still fits the size type. -/
theorem Slice.toNat_position {w k : Nat} {s : Slice} {n : SizeT} (h : InBounds n s.positions)
    (hw : tilingBlock w = true) (hint : w < 2 ^ 31) (hn : n.toNat ≤ k * w) (hk : k * w < 2 ^ 64)
    (hstride : s.stride.toNat ≤ w) : ∀ j : Nat, j < s.size.toNat →
      (s.start + j * s.stride).toNat = s.start.toNat + j * s.stride.toNat ∧
        s.start.toNat + j * s.stride.toNat < n.toNat := by
  have hroom := whole_block_left hw hint hk
  have hin (j : Nat) (hj : j < s.size.toNat) : (s.start + j * s.stride).toNat < n.toNat :=
    h _ (List.mem_map.mpr ⟨j, List.mem_range.mpr hj, rfl⟩)
  intro j
  induction j with
  | zero =>
      intro hj
      have heq : (s.start + (0 : Nat) * s.stride).toNat = s.start.toNat + 0 * s.stride.toNat :=
        toNat_add_mul (by rw [Nat.zero_mul, Nat.add_zero]; exact s.start.isLt)
      exact ⟨heq, heq ▸ hin 0 hj⟩
  | succ j ih =>
      intro hj
      obtain ⟨-, hlt⟩ := ih (by omega)
      have heq : (s.start + (j + 1 : Nat) * s.stride).toNat =
          s.start.toNat + (j + 1) * s.stride.toNat :=
        toNat_add_mul (by rw [Nat.succ_mul]; omega)
      exact ⟨heq, heq ▸ hin (j + 1) hj⟩

/-- Its positions as numbers. -/
theorem Slice.positions_toNat {w k : Nat} {s : Slice} {n : SizeT} (h : InBounds n s.positions)
    (hw : tilingBlock w = true) (hint : w < 2 ^ 31) (hn : n.toNat ≤ k * w) (hk : k * w < 2 ^ 64)
    (hstride : s.stride.toNat ≤ w) : s.positions.map BitVec.toNat =
      (List.range s.size.toNat).map fun j => s.start.toNat + j * s.stride.toNat := by
  unfold Slice.positions
  rw [List.map_map]
  exact List.map_congr_left fun j hj =>
    (Slice.toNat_position h hw hint hn hk hstride j (List.mem_range.mp hj)).1

/-- **What the index of a gslice says of it**, where nothing wraps around. -/
theorem Gslice.index_of_noWrap {g : Gslice} {x : GsliceIndex} {n : SizeT} (hx : gsliceIndex g = some x)
    (hin : InBounds n g.positions) (h : g.NoWrap) : x.count.toNat = g.positions.length ∧
      x.selected = g.positions.map BitVec.toNat ∧
      x.width.toNat = pastAll (g.positions.map BitVec.toNat) := by
  obtain ⟨he, h⟩ := h
  have hsel : g.Selects (fun _ => compressBits) n := by
    by_cases h0 : g.extent = 0
    · exact selects_none (fun _ => compresses_compressBits) h0
    · by_cases hs : ascendingSpan g.lengths g.strides = 0
      · exact selects_listed hin he h0 hs
      · exact selects_masked (fun _ => compresses_compressBits) hin he h0 hs
          ((h.resolve_left h0).resolve_left hs)
  obtain ⟨y, hy, hcount, hselected, hwidth, -⟩ := hsel
  rw [hx] at hy
  cases hy
  exact ⟨hcount.trans g.length_positions.symm, hselected, hwidth⟩

/-- Lent blocks tile a `std::size_t`. -/
theorem Vehicle.tiling_of_lent {w : Nat} {B : Vehicle w} (hB : B.storage = .lent) :
    tilingBlock w = true := by
  have h := B.holds_width
  rw [hB] at h
  exact h

theorem inBounds_iff {n : SizeT} {ps : List SizeT} :
    InBounds n ps ↔ ∀ p, p ∈ ps.map BitVec.toNat → p < n.toNat := by
  rw [List.forall_mem_map]
  rfl

namespace Selection
variable {w : Nat} {B : Vehicle w} {I : Intrinsics w} {v : BitValarray w} {sel : Selection w}

section Slices
variable {s : Slice} (hB : B.storage = .lent) (hin : (slice s : Selection w).Within v)
include hB hin

theorem slice_positions (hstride : s.stride.toNat ≤ w) : (slice s : Selection w).positions v =
    (List.range s.size.toNat).map fun j => s.start.toNat + j * s.stride.toNat :=
  s.positions_toNat (inBounds_iff.mpr hin) (Vehicle.tiling_of_lent hB) B.bits_int
    (v.size_le B.bits_pos) v.addressable hstride

/-- The last position of a slice lies within the blocks. -/
theorem slice_last (hstride : s.stride.toNat ≤ w) (h0 : 0 < s.size.toNat) :
    lastOf s.start.toNat s.size.toNat s.stride.toNat < v.blocks.length * w := by
  have hle := v.size_le B.bits_pos
  have hlast := (s.toNat_position (inBounds_iff.mpr hin) (Vehicle.tiling_of_lent hB) B.bits_int hle
    v.addressable hstride (s.size.toNat - 1) (by omega)).2
  unfold lastOf
  omega

theorem slice_follows (hI : I.Lawful) :
    (s.path I).Follows v.blocks ((slice s : Selection w).positions v) := by
  have hw := B.bits_pos
  have hle := v.size_le hw
  unfold Slice.path
  by_cases hone : s.stride = 1
  · rw [if_pos hone]
    have hstride : s.stride.toNat = 1 := by
      rw [hone]
      rfl
    rw [slice_positions hB hin (by omega), hstride]
    simp only [Nat.mul_one]
    rw [← List.range'_eq_map_range]
    refine .run fun h0 => ?_
    have hlast := slice_last hB hin (by omega) h0
    unfold lastOf at hlast
    rw [hstride] at hlast
    omega
  · rw [if_neg hone]
    by_cases hstrided : s.isStrided w = true
    · rw [if_pos hstrided]
      unfold Slice.isStrided at hstrided
      rw [Bool.and_eq_true, bne_iff_ne, decide_eq_true_eq] at hstrided
      obtain ⟨hsize, h1, h2⟩ := hstrided
      have h0 : 0 < s.size.toNat := Nat.pos_of_ne_zero fun hz => hsize (BitVec.eq_of_toNat_eq hz)
      obtain ⟨e, -, he⟩ := tilingBlock_pow (Vehicle.tiling_of_lent hB)
      have hpow : ∃ e, w = 2 ^ e := ⟨e, he⟩
      have hlast := slice_last hB hin (Nat.le_of_lt h2) h0
      have hroom := v.addressable
      rw [slice_positions hB hin (Nat.le_of_lt h2),
        ← selected_slice hpow (show 0 < s.stride.toNat by omega) h0]
      exact .masks (sliceMasks_walks hpow hI.repeats (by omega) h2 hlast (by omega))
    · rw [if_neg hstrided]
      have hlen : s.positions.length = s.size.toNat := by
        unfold Slice.positions
        rw [List.length_map, List.length_range]
      rw [← hlen]
      refine .listed (fun j hj => ?_) fun q hq => ?_
      · rw [hlen] at hj
        unfold Slice.positions
        rw [List.getElem?_map, List.getElem?_range hj]
        rfl
      · have hlt := inBounds_iff.mpr hin q hq
        rw [BitVec.lt_def] at hlt
        exact (Nat.div_lt_iff_lt_mul hw).mpr (by omega)

end Slices

section Gslices
variable {g : Gslice} {x : GsliceIndex} {built : gsliceIndex g = some x}
  (hin : (gslice g x built : Selection w).Within v) (hno : g.NoWrap)
include hin hno

theorem gslice_index : x.count.toNat = g.positions.length ∧
    x.selected = g.positions.map BitVec.toNat ∧
    x.width.toNat = pastAll (g.positions.map BitVec.toNat) :=
  Gslice.index_of_noWrap built (inBounds_iff.mpr hin) hno

/-- The width of its index is what the subscript compares. -/
theorem gslice_width : x.width.toNat ≤ v.size.toNat := by
  rw [(gslice_index hin hno).2.2]
  exact (pastAll_le_iff _).mpr hin

theorem gslice_follows (hB : B.storage = .lent) :
    (x.path w).Follows v.blocks (g.positions.map BitVec.toNat) := by
  have hw := B.bits_pos
  have hle := v.size_le hw
  obtain ⟨hcount, hsel, hwidth⟩ := gslice_index hin hno
  have hwidthn := gslice_width hin hno
  unfold GsliceIndex.selected at hsel
  unfold GsliceIndex.path
  by_cases hm : x.isMasked = true
  · rw [if_pos hm] at hsel ⊢
    have hmem (p : Nat) : p ∈ g.positions.map BitVec.toNat ↔
        p < x.words.length * 64 ∧ bitAt x.words p = true := by
      rw [← hsel]
      exact mem_ascending
    have hbits (k : Nat) : bitAt x.words k = decide (k ∈ g.positions.map BitVec.toNat) := by
      rw [Bool.eq_iff_iff, decide_eq_true_eq, hmem]
      refine ⟨fun hb => ⟨?_, hb⟩, fun hb => hb.2⟩
      by_contra hge
      rw [bitAt_of_le (by decide) (by omega)] at hb
      cases hb
    have hsorted : (g.positions.map BitVec.toNat).Pairwise (· < ·) := by
      rw [← hsel]
      exact List.pairwise_lt_range.filter _
    have hwords : x.width.toNat ≤ x.words.length * 64 := by
      rw [hwidth]
      exact (pastAll_le_iff _).mpr fun p hp => ((hmem p).mp hp).1
    have hbelow : ∀ p, p ∈ g.positions.map BitVec.toNat → p < x.width.toNat := by
      rw [hwidth]
      exact (pastAll_le_iff _).mp (Nat.le_refl _)
    have hpositions := ascending_marked (m := blocksFor w x.width.toNat * w) hbits hsorted
      fun p hp => Nat.lt_of_lt_of_le (hbelow p hp) (le_blocksFor_mul hw)
    rw [← hpositions, ← selected_range]
    exact .masks (wordMasks_walks (Vehicle.tiling_of_lent hB) B.bits_int v.addressable (by omega)
      hwords)
  · rw [if_neg hm] at hsel ⊢
    have hlen := congrArg List.length hsel
    rw [List.length_map, List.length_map] at hlen
    rw [hcount, ← hlen, ← hsel]
    refine .listed (fun j _ => rfl) fun q hq => ?_
    have hlt := hin q.toNat (by
      show _ ∈ g.positions.map BitVec.toNat
      rw [← hsel]
      exact List.mem_map_of_mem hq)
    exact (Nat.div_lt_iff_lt_mul hw).mpr (by omega)

end Gslices

section Masks
variable {m : ArrayRef w}

/-- A mask of the valarray's size has its blocks. -/
theorem mask_length (hsize : (m.get v).size = v.size) :
    (m.get v).blocks.length = v.blocks.length := by
  rw [(m.get v).length, v.length, hsize]

/-- The positions a mask names, over its whole blocks. -/
theorem mask_positions (hw : 0 < w) (hsize : (m.get v).size = v.size) :
    (mask m : Selection w).positions v =
      selected w (bitAt (m.get v).blocks) (List.range v.blocks.length) := by
  rw [selected_range, ← mask_length hsize]
  exact (ascending_of_clear (m.get v).clear ((m.get v).size_le hw)).symm

theorem mask_follows (hw : 0 < w) (hsize : (m.get v).size = v.size) :
    (Path.masks (storedMasks m.lent v.blocks)).Follows v.blocks
      ((mask m : Selection w).positions v) := by
  have hwalk : Walks v.blocks (bitAt (m.lent.get v.blocks)) (List.range v.blocks.length)
      (storedMasks m.lent v.blocks) :=
    storedMasks_walks (by rw [m.get_lent]; exact mask_length hsize)
  rw [m.get_lent] at hwalk
  rw [mask_positions hw hsize]
  exact .masks hwalk

end Masks

variable (hB : B.storage = .lent) (hform : sel.WellFormed v) (hin : sel.Within v)

include hB hform hin in
/-- **A selection's path comes to the positions it names.** -/
theorem follows (hI : I.Lawful) : (sel.path I v.blocks).Follows v.blocks (sel.positions v) := by
  have hw := B.bits_pos
  have hle := v.size_le hw
  cases sel with
  | slice s => exact slice_follows hB hin hI
  | gslice g x built => exact gslice_follows hin hform hB
  | mask m => exact mask_follows hw hform
  | indirect indices =>
      refine .listed (fun j _ => rfl) fun q hq => ?_
      have hlt := hin q.toNat (List.mem_map_of_mem hq)
      exact (Nat.div_lt_iff_lt_mul hw).mpr (by omega)

include hform hin in
/-- It counts them. -/
theorem size_eq (hw : 0 < w) : sel.size v = (sel.positions v).length := by
  cases sel with
  | slice s =>
      show s.size.toNat = (s.positions.map BitVec.toNat).length
      unfold Slice.positions
      rw [List.length_map, List.length_map, List.length_range]
  | gslice g x built =>
      show x.count.toNat = (g.positions.map BitVec.toNat).length
      rw [List.length_map]
      exact (gslice_index hin hform).1
  | mask m =>
      have hclear := ascending_of_clear (m.get v).clear ((m.get v).size_le hw)
      show ((m.get v).blocks.map popcount).sum = (ascending _ _).length
      rw [← hclear]
      exact (sum_countBits hw _).trans length_filter_range.symm
  | indirect indices => exact (List.length_map ..).symm

include hform hin in
/-- **The subscript lets it through.** -/
theorem admitted_of_within : sel.admitted v = true := by
  cases sel with
  | slice s =>
      show (s.size == 0 || decide (s.last < v.size)) = true
      by_cases h0 : s.size = 0
      · rw [h0]
        rfl
      · rw [decide_eq_true (inBounds_iff.mpr hin _ (Slice.last_mem h0)), Bool.or_true]
  | gslice g x built => exact decide_eq_true (gslice_width hin hform)
  | mask m => exact beq_iff_eq.mpr hform
  | indirect indices => exact decide_eq_true (inBounds_iff.mpr hin)

/-- Only an empty slice of stride one asks for a span past the end. -/
theorem pastEnd_path : (sel.path I v.blocks).PastEnd v.blocks ↔ sel.PastEnd v := by
  cases sel with
  | slice s =>
      show (s.path I).PastEnd v.blocks ↔ s.size = 0 ∧ s.stride = 1 ∧ _
      unfold Slice.path
      by_cases hone : s.stride = 1
      · rw [if_pos hone]
        show s.size.toNat = 0 ∧ _ ↔ _
        have hzero : s.size.toNat = 0 ↔ s.size = 0 :=
          ⟨fun hz => BitVec.eq_of_toNat_eq hz, fun hz => hz ▸ rfl⟩
        rw [hzero]
        exact ⟨fun h => ⟨h.1, hone, h.2⟩, fun h => ⟨h.1, h.2.2⟩⟩
      · rw [if_neg hone]
        refine iff_of_false ?_ fun h => hone h.2.1
        split <;> exact id
  | gslice g x built =>
      show (x.path w).PastEnd v.blocks ↔ False
      unfold GsliceIndex.path
      split <;> exact Iff.rfl
  | mask m => exact Iff.rfl
  | indirect indices => exact Iff.rfl

/-- Positions not yet seen and seen once each are as many more. -/
theorem count_seen {indices : List SizeT} : ∀ {seen : List Bool},
    (indices.map BitVec.toNat).Nodup →
    (∀ i, i ∈ indices → i.toNat < seen.length ∧ seen.getD i.toNat true = false) →
    (indices.foldl (fun seen i => seen.set i.toNat true) seen).count true =
      seen.count true + indices.length := by
  induction indices with
  | nil => exact fun _ _ => rfl
  | cons i indices ih =>
      intro seen hnodup hseen
      obtain ⟨hi, hnodup⟩ := List.nodup_cons.mp hnodup
      obtain ⟨hlt, hfalse⟩ := hseen i (List.mem_cons_self ..)
      rw [List.getD_eq_getElem _ _ hlt] at hfalse
      rw [List.foldl_cons, ih hnodup fun j hj => ?_, List.count_set hlt, hfalse, List.length_cons]
      · show seen.count true - 0 + 1 + indices.length = _
        omega
      · obtain ⟨hjlt, hjfalse⟩ := hseen j (List.mem_cons_of_mem i hj)
        have hne : i.toNat ≠ j.toNat := fun he => hi (he ▸ List.mem_map_of_mem hj)
        rw [List.length_set, getD_set_ne hne]
        exact ⟨hjlt, hjfalse⟩

include hin in
/-- **Distinct positions pass the check of a write.** -/
theorem writable_of_nodup (hw : 0 < w) (hnodup : (sel.positions v).Nodup) :
    sel.writable v.blocks = true := by
  have hle := v.size_le hw
  cases sel with
  | indirect indices =>
      show namesEachOnce indices (v.blocks.length * w) = true
      unfold namesEachOnce
      rw [count_seen hnodup fun i hi => ?_, beq_iff_eq, List.count_replicate]
      · show 0 + _ = _
        rw [Nat.zero_add]
      · have hlt := hin i.toNat (List.mem_map_of_mem hi)
        rw [List.length_replicate, getD_replicate, if_pos (by omega)]
        exact ⟨by omega, rfl⟩
  | _ => rfl

end Selection

/-! ## 4. Gathering and writing -/

/-- An array a proxy takes: an owner's, or what another proxy selects of one. -/
inductive ArrayOperand (w : Nat) where
  | array (a : ArrayRef w)
  | proxy (selection : Selection w) (owner : ArrayRef w)

section Operations
variable {w : Nat} (I : Intrinsics w) (B : Vehicle w) (sel : Selection w) (v : BitValarray w)

/-- Gathered into `dst`, which is clear. -/
def Selection.gather (bs dst : List (BitVec w)) : Option (List (BitVec w)) :=
  (sel.path I bs).gather I B bs dst

def Selection.expand (f : Combine) (src : LentBlocks w) (bs : List (BitVec w)) :
    Option (List (BitVec w)) :=
  if sel.writable bs then (sel.path I bs).expand I B f src bs else none

def Selection.fill (f : Combine) (value : Bool) (bs : List (BitVec w)) :
    Option (List (BitVec w)) :=
  if sel.writable bs then (sel.path I bs).fill B f value bs else none

/-- `std::vector<Block>(n)`: its own `max_size()`, and storage asked of the memory where any is. -/
def blockVector (w : Nat) (mem : Memory) (n : Nat) : Except Exn (List (BitVec w)) :=
  if ptrdiffMax / (w / 8) < n then .error (.lengthError n (ptrdiffMax / (w / 8)))
  else if n = 0 then .ok []
  else
    match mem.allocate n with
    | .error e => .error e
    | .ok _ => .ok (List.replicate n zero)

/-- A span out of range, or an assertion that does not hold. -/
def orAbort {α : Type} (x : Option α) : Except Exn α :=
  match x with
  | none => .error .abort
  | some a => .ok a

/-- An assignment to the proxy a subscript makes. Another proxy's elements are gathered first, into
    a vector of their own, so that it reads every position before any is written. -/
def BitValarray.scatter (mem : Memory) (f : Combine) (a : ArrayOperand w) :
    Except Exn (List (BitVec w)) :=
  if sel.admitted v then
    match a with
    | .array a =>
        if (a.get v).size.toNat = sel.size v then orAbort (sel.expand I B f a.lent v.blocks)
        else .error .abort
    | .proxy selection owner =>
        if selection.admitted (owner.get v) ∧ selection.size (owner.get v) = sel.size v then do
          let blocks ← blockVector w mem (blocksFor w (selection.size (owner.get v)))
          let src ← orAbort (selection.gather I B (owner.get v).blocks blocks)
          orAbort (sel.expand I B f (.of src) v.blocks)
        else .error .abort
  else .error .abort

/-- An assignment of a scalar. -/
def BitValarray.fill (f : Combine) (value : Bool) : Option (List (BitVec w)) :=
  if sel.admitted v then sel.fill I B f value v.blocks else none

end Operations

namespace ArrayOperand
variable {w : Nat}

/-- An array of the selection's length; a proxy's own selection is as good as any. -/
def Fits (a : ArrayOperand w) (v : BitValarray w) (sel : Selection w) : Prop :=
  match a with
  | array a => (a.get v).size.toNat = (sel.positions v).length
  | proxy selection owner => selection.WellFormed (owner.get v) ∧ selection.Within (owner.get v) ∧
      (selection.positions (owner.get v)).length = (sel.positions v).length

/-- Its elements, while those of the valarray written are `s`. -/
def read (a : ArrayOperand w) (v : BitValarray w) (s : Nat → Bool) (i : Nat) : Bool :=
  match a with
  | array a => a.lent.bits s i
  | proxy selection owner =>
      ((selection.positions (owner.get v)).map (bitAt (owner.get v).blocks)).getD i false

/-- It is an empty run past the last block. -/
def PastEnd (a : ArrayOperand w) (v : BitValarray w) : Prop :=
  match a with
  | array _ => False
  | proxy selection owner => selection.PastEnd (owner.get v)

/-- The vector a proxy's elements are gathered into is granted; an array asks for none. -/
def Granted (a : ArrayOperand w) (v : BitValarray w) (mem : Memory) : Prop :=
  match a with
  | array _ => True
  | proxy selection owner =>
      let n := blocksFor w (selection.positions (owner.get v)).length
      n = 0 ∨ ∃ k, mem.allocate n = .ok k

end ArrayOperand

namespace BitValarray
variable {w : Nat}

/-- **The elements at the selected positions**, in order and nothing after them. -/
structure Gathered (v : BitValarray w) (sel : Selection w) (out : List (BitVec w)) : Prop where
  length : out.length = blocksFor w (sel.positions v).length
  bits : ∀ q, bitAt out q = ((sel.positions v).map (bitAt v.blocks)).getD q false

/-- **What the element-by-element loop leaves** of the valarray: the selected positions changed, and
    every other element, the number of blocks and the clear tail as they were. -/
structure Looped (v : BitValarray w) (sel : Selection w) (f : Combine)
    (read : (Nat → Bool) → Nat → Bool) (out : List (BitVec w)) : Prop where
  length : out.length = v.blocks.length
  loop : bitAt out = scatterLoop f.bit read (sel.positions v) 0 (bitAt v.blocks)
  others : ∀ p, p ∉ sel.positions v → bitAt out p = bitAt v.blocks p
  clear : ∀ p, v.size.toNat ≤ p → bitAt out p = false

variable {I : Intrinsics w} {B : Vehicle w} {v : BitValarray w} {sel : Selection w} {f : Combine}
  {read : (Nat → Bool) → Nat → Bool}

/-- The loop's own positions are the only ones that change. -/
theorem looped_of_loop (hin : sel.Within v) {out : List (BitVec w)}
    (hlen : out.length = v.blocks.length)
    (hloop : bitAt out = scatterLoop f.bit read (sel.positions v) 0 (bitAt v.blocks)) :
    v.Looped sel f read out := by
  have hothers : ∀ p, p ∉ sel.positions v → bitAt out p = bitAt v.blocks p := fun p hp => by
    rw [hloop]
    exact scatterLoop_other hp
  refine ⟨hlen, hloop, hothers, fun p hp => ?_⟩
  rw [hothers p fun hmem => absurd (hin p hmem) (by omega)]
  exact v.clear p hp

/-- **The owner keeps its size and its invariant.** -/
theorem Looped.inv {V : Vehicle w} {c : BitBlockContainer V} (h : c.Inv) (hV : V.storage ≠ .lent)
    (hcount : V.hasStoredCount = false) {out : List (BitVec w)}
    (hl : (ofContainer c h hV).Looped sel f read out) :
    (c.withElems fun _ => out).Inv ∧ (c.withElems fun _ => out).size = c.size := by
  have hsame : BitBlockContainer.SameWidth c (c.withElems fun _ => out) :=
    BitBlockContainer.sameWidth_withElems hl.length
  refine ⟨h.write hsame (fun p hp => hl.clear p ?_) fun hc => ?_, hsame.size⟩
  · rwa [size_ofContainer h hV]
  · rw [hcount] at hc
    cases hc

section Exact
variable (hI : I.Lawful) (hB : B.storage = .lent) (hform : sel.WellFormed v) (hin : sel.Within v)
include hI hB hform hin

/-- **Gathered** into clear blocks, unless it is an empty run past the last block. -/
theorem gather_exact (hpast : ¬ sel.PastEnd v) {dst : List (BitVec w)}
    (hdst : dst.length = blocksFor w (sel.positions v).length)
    (hclear : ∀ p, bitAt dst p = false) :
    ∃ out, sel.gather I B v.blocks dst = some out ∧ v.Gathered sel out := by
  obtain ⟨out, hout, hol, hbits⟩ := Path.gather_spec hI hB (Selection.follows hB hform hin hI)
    (Selection.pastEnd_path.not.mpr hpast) hdst hclear
  exact ⟨out, hout, hol.trans hdst, hbits⟩

omit hI hB hform hin in
theorem gather_past (hpast : sel.PastEnd v) {dst : List (BitVec w)} :
    sel.gather I B v.blocks dst = none :=
  Path.gather_past (Selection.pastEnd_path.mpr hpast)

/-- **Scattered**, from an array as long as the selection. -/
theorem expand_exact (hpast : ¬ sel.PastEnd v) (hnodup : (sel.positions v).Nodup)
    (lent : LentBlocks w) (hsrc : (sel.positions v).length ≤ (lent.get v.blocks).length * w)
    (hown : lent = .own → v.size.toNat = (sel.positions v).length) :
    ∃ out, sel.expand I B f lent v.blocks = some out ∧ v.Looped sel f lent.bits out := by
  obtain ⟨out, hout, hlen, hloop⟩ := Path.expand_spec (f := f) hI hB
    (Selection.follows hB hform hin hI) (Selection.pastEnd_path.not.mpr hpast) hsrc
    fun ho p hp => by
      have hlt := hin p hp
      rwa [hown ho] at hlt
  refine ⟨out, ?_, looped_of_loop hin hlen hloop⟩
  unfold Selection.expand
  rw [if_pos (Selection.writable_of_nodup hin B.bits_pos hnodup)]
  exact hout

omit hI hB hform hin in
theorem expand_past (hpast : sel.PastEnd v) {lent : LentBlocks w} :
    sel.expand I B f lent v.blocks = none := by
  unfold Selection.expand
  split
  · exact Path.expand_past (Selection.pastEnd_path.mpr hpast)
  · rfl

/-- **Filled**, whatever the run. -/
theorem fill_exact (hnodup : (sel.positions v).Nodup) (value : Bool) :
    ∃ out, v.fill I B sel f value = some out ∧ v.Looped sel f (fun _ _ => value) out := by
  obtain ⟨out, hout, hlen, hloop⟩ := Path.fill_spec (f := f) hB
    (Selection.follows hB hform hin hI) value
  refine ⟨out, ?_, looped_of_loop hin hlen hloop⟩
  unfold fill Selection.fill
  rw [if_pos (Selection.admitted_of_within hform hin),
    if_pos (Selection.writable_of_nodup hin B.bits_pos hnodup)]
  exact hout

omit hI hform in
/-- Distinct positions are no more than the elements, and a vector of their blocks within its
    `max_size()`: it is made where the memory grants it. -/
theorem blockVector_iff (hnodup : (sel.positions v).Nodup) {mem : Memory} {n : Nat}
    (hn : n = (sel.positions v).length) :
    (∃ blocks, blockVector w mem (blocksFor w n) = .ok blocks) ↔
      blocksFor w n = 0 ∨ ∃ k, mem.allocate (blocksFor w n) = .ok k := by
  have hle : (sel.positions v).length ≤ v.size.toNat := by
    have hsub : List.Subperm (sel.positions v) (List.range v.size.toNat) :=
      hnodup.subperm fun p hp => List.mem_range.mpr (hin p hp)
    simpa only [List.length_range] using hsub.length_le
  have hblocks : blocksFor w n ≤ v.blocks.length := by
    rw [v.length, hn]
    exact blocksFor_mono B.bits_pos hle
  have hbytes : w / 8 * 8 = w := Nat.div_mul_cancel (dvd_of_tilingBlock (Vehicle.tiling_of_lent hB))
  have hmax : ¬ ptrdiffMax / (w / 8) < blocksFor w n := by
    have hw := B.bits_pos
    have hroom := v.addressable
    have hmul : v.blocks.length * (w / 8) * 8 = v.blocks.length * w := by
      rw [Nat.mul_assoc, hbytes]
    rw [Nat.not_lt, Nat.le_div_iff_mul_le (by omega)]
    have := Nat.mul_le_mul_right (w / 8) hblocks
    unfold ptrdiffMax
    omega
  unfold blockVector
  rw [if_neg hmax]
  by_cases h0 : blocksFor w n = 0
  · rw [if_pos h0]
    exact iff_of_true ⟨_, rfl⟩ (Or.inl h0)
  · rw [if_neg h0]
    cases mem.allocate (blocksFor w n) with
    | error e => exact iff_of_false nofun fun h => h.elim h0 nofun
    | ok k => exact iff_of_true ⟨_, rfl⟩ (Or.inr ⟨k, rfl⟩)

omit hI hB hform hin in
/-- Its blocks are clear. -/
theorem blockVector_ok {mem : Memory} {n : Nat} {blocks : List (BitVec w)}
    (h : blockVector w mem n = .ok blocks) : blocks = List.replicate n zero := by
  unfold blockVector at h
  split at h
  · cases h
  · split at h
    · rename_i h0
      cases h
      rw [h0]
      rfl
    · split at h
      · cases h
      · cases h
        rfl

/-- The vector that a proxy's elements go through holds them. -/
theorem gather_vector (hpast : ¬ sel.PastEnd v) {mem : Memory} {blocks : List (BitVec w)}
    (hblocks : blockVector w mem (blocksFor w (sel.positions v).length) = .ok blocks) :
    ∃ src, sel.gather I B v.blocks blocks = some src ∧ v.Gathered sel src := by
  have hzero := blockVector_ok hblocks
  refine gather_exact hI hB hform hin hpast ?_ fun p => ?_
  · rw [hzero, List.length_replicate]
  · rw [hzero]
    exact BitBlockContainer.bitAt_zeros

/-- **Scattered from an operand**, unless either selection is an empty run past the last block or
    the vector a proxy's elements go through is refused. -/
theorem scatter_exact (hpast : ¬ sel.PastEnd v) (hnodup : (sel.positions v).Nodup)
    {a : ArrayOperand w} {mem : Memory} (hfits : a.Fits v sel) (hapast : ¬ a.PastEnd v)
    (hgranted : a.Granted v mem) :
    ∃ out, v.scatter I B sel mem f a = .ok out ∧ v.Looped sel f (a.read v) out := by
  have hw := B.bits_pos
  have hsize := Selection.size_eq hform hin hw
  unfold scatter
  rw [if_pos (Selection.admitted_of_within hform hin)]
  cases a with
  | array a =>
      have hfits : (a.get v).size.toNat = (sel.positions v).length := hfits
      have hle := (a.get v).size_le hw
      obtain ⟨out, hout, hlooped⟩ := expand_exact (f := f) hI hB hform hin hpast hnodup
        a.lent (by rw [a.get_lent]; omega) fun ho => by
          cases a with
          | own => exact hfits
          | of a => cases ho
      refine ⟨out, (if_pos (hfits.trans hsize.symm)).trans ?_, hlooped⟩
      rw [hout]
      rfl
  | proxy selection owner =>
      obtain ⟨hform', hin', hlen⟩ := hfits
      have hsize' := Selection.size_eq hform' hin' hw
      obtain ⟨blocks, hblocks⟩ := (blockVector_iff hB hin hnodup hlen).mpr hgranted
      obtain ⟨src, hsrc, hgathered⟩ := gather_vector hI hB hform' hin' hapast hblocks
      obtain ⟨out, hout, hlooped⟩ := expand_exact (f := f) hI hB hform hin hpast hnodup
        (.of src) (by
          show _ ≤ src.length * w
          rw [hgathered.length, hlen]
          exact le_blocksFor_mul hw) fun ho => by cases ho
      refine ⟨out, (if_pos ⟨Selection.admitted_of_within hform' hin',
        hsize'.trans (hlen.trans hsize.symm)⟩).trans ?_, ?_⟩
      · rw [hsize', hblocks]
        show (do
          let src ← orAbort (selection.gather I B (owner.get v).blocks blocks)
          orAbort (sel.expand I B f (.of src) v.blocks)) = _
        rw [hsrc]
        show orAbort (sel.expand I B f (.of src) v.blocks) = _
        rw [hout]
        rfl
      · have hbits : (LentBlocks.of src).bits = (ArrayOperand.proxy selection owner).read v := by
          funext s i
          exact hgathered.bits i
        rwa [hbits] at hlooped

omit hI hB hform hin in
/-- What is written comes of two selections within the blocks. -/
theorem not_pastEnd_of_scatter {a : ArrayOperand w} {mem : Memory} {out : List (BitVec w)}
    (h : v.scatter I B sel mem f a = .ok out) : ¬ sel.PastEnd v ∧ ¬ a.PastEnd v := by
  unfold scatter at h
  split at h
  · cases a with
    | array a =>
        dsimp only at h
        split at h
        · refine ⟨fun hpast => ?_, id⟩
          rw [expand_past hpast] at h
          cases h
        · cases h
    | proxy selection owner =>
        dsimp only at h
        split at h
        · cases hb : blockVector w mem (blocksFor w (selection.size (owner.get v))) with
          | error e =>
              rw [hb] at h
              cases h
          | ok blocks =>
              rw [hb] at h
              refine ⟨fun hpast => ?_, fun hpast => ?_⟩
              · cases hg : selection.gather I B (owner.get v).blocks blocks with
                | none =>
                    simp only [hg, bind, Except.bind, orAbort] at h
                    cases h
                | some src =>
                    simp only [hg, bind, Except.bind, orAbort, expand_past hpast] at h
                    cases h
              · have hpast : selection.PastEnd (owner.get v) := hpast
                simp only [gather_past hpast, bind, Except.bind, orAbort] at h
                cases h
        · cases h
  · cases h

omit hI in
/-- And of a vector that was granted. -/
theorem granted_of_scatter (hnodup : (sel.positions v).Nodup) {a : ArrayOperand w} {mem : Memory}
    (hfits : a.Fits v sel) {out : List (BitVec w)} (h : v.scatter I B sel mem f a = .ok out) :
    a.Granted v mem := by
  cases a with
  | array a => trivial
  | proxy selection owner =>
      obtain ⟨hform', hin', hlen⟩ := hfits
      refine (blockVector_iff hB hin hnodup hlen).mp ?_
      unfold scatter at h
      rw [if_pos (Selection.admitted_of_within hform hin)] at h
      dsimp only at h
      split at h
      · rw [Selection.size_eq hform' hin' B.bits_pos] at h
        cases hb : blockVector w mem (blocksFor w (selection.positions (owner.get v)).length) with
        | error e =>
            rw [hb] at h
            cases h
        | ok blocks => exact ⟨blocks, rfl⟩
      · cases h

/-- What is written is what the loop leaves. -/
theorem scatter_looped (hnodup : (sel.positions v).Nodup) {a : ArrayOperand w} {mem : Memory}
    (hfits : a.Fits v sel) {out : List (BitVec w)} (h : v.scatter I B sel mem f a = .ok out) :
    v.Looped sel f (a.read v) out := by
  obtain ⟨hpast, hapast⟩ := not_pastEnd_of_scatter h
  obtain ⟨out', hout, hlooped⟩ := scatter_exact (f := f) hI hB hform hin hpast hnodup hfits hapast
    (granted_of_scatter hB hform hin hnodup hfits h)
  rw [h] at hout
  cases hout
  exact hlooped

end Exact

/-! ## 5. Eight elements -/

theorem lent_holds_width : Storage.holdsWidth 8 .lent = true := rfl

theorem lent_whole_blocks : Storage.wholeBlocks 8 .lent = true := rfl

/-- Bytes lent. -/
def lentBytes : Vehicle 8 where
  storage := .lent
  bits_pos := byte_pos
  bits_int := byte_int
  holds_width := lent_holds_width
  whole_blocks := lent_whole_blocks

/-- The elements of one byte. -/
def ofByte (b : BitVec 8) : BitValarray 8 where
  size := 8
  blocks := [b]
  length := rfl
  addressable := show 1 * 8 < 2 ^ 64 by decide
  clear p hp := bitAt_of_le (by decide) hp

/-- The permutations bit by bit. -/
def bitwise (w : Nat) : Intrinsics w := ⟨compressBits, expandBits, repeatBits, false⟩

theorem lawful_bitwise {w : Nat} : (bitwise w).Lawful :=
  ⟨compresses_compressBits, expands_expandBits, repeats_repeatBits⟩

/-! ## 6. Runs of stride one -/

section Runs
variable {w : Nat} {I : Intrinsics w} {B : Vehicle w} {v : BitValarray w} {start size : SizeT}

/-- The positions of a run are consecutive. -/
theorem run_positions (hacc : size = 0 ∨ start.toNat + size.toNat ≤ v.size.toNat) :
    (Selection.slice ⟨start, size, 1⟩ : Selection w).positions v =
      List.range' start.toNat size.toNat := by
  show List.map BitVec.toNat (Slice.positions ⟨start, size, 1⟩) = _
  unfold Slice.positions
  rw [List.map_map, List.range'_eq_map_range]
  refine List.map_congr_left fun j hj => ?_
  have hj : j < size.toNat := List.mem_range.mp hj
  have hlt := v.size.isLt
  have hle : start.toNat + size.toNat ≤ v.size.toNat := hacc.resolve_left fun h0 => by
    rw [h0] at hj
    exact absurd hj (Nat.not_lt_zero j)
  have hone : (1 : SizeT).toNat = 1 := rfl
  have hadd := toNat_add_mul (a := start) (s := 1) (i := j) (by rw [hone]; omega)
  rw [hone, Nat.mul_one] at hadd
  exact hadd

/-- A run the subscript lets through stays below the size. -/
theorem run_within (hacc : size = 0 ∨ start.toNat + size.toNat ≤ v.size.toNat) :
    (Selection.slice ⟨start, size, 1⟩ : Selection w).Within v := by
  intro p hp
  rw [run_positions hacc, List.mem_range'_1] at hp
  rcases hacc with h0 | hle
  · rw [h0] at hp
    have hz : (0 : SizeT).toNat = 0 := rfl
    omega
  · omega

/-- Its first block lies past the last one only where it is empty. -/
theorem run_pastEnd : ¬ (Selection.slice ⟨start, size, 1⟩ : Selection w).PastEnd v ↔
    size ≠ 0 ∨ start.toNat / w ≤ v.blocks.length := by
  show ¬ (size = 0 ∧ (1 : SizeT) = 1 ∧ v.blocks.length < start.toNat / w) ↔ _
  rw [not_and_or, not_and_or, Nat.not_lt]
  exact or_congr_right (or_iff_right fun h => h rfl)

/-- **When a run of stride one stays inside its blocks**: the subscript lets every empty one
    through, so gathering and scattering are the loop over `[start, start + size)` where the run is
    not empty or starts within the blocks; filling always is. -/
theorem runs_exact_iff (hI : I.Lawful) (hB : B.storage = .lent)
    (hacc : size = 0 ∨ start.toNat + size.toNat ≤ v.size.toNat) :
    (Selection.slice ⟨start, size, 1⟩ : Selection w).admitted v = true ∧
    (Selection.slice ⟨start, size, 1⟩ : Selection w).positions v =
      List.range' start.toNat size.toNat ∧
    (∀ dst : List (BitVec w), dst.length = blocksFor w size.toNat → (∀ p, bitAt dst p = false) →
      ((∃ out, (Selection.slice ⟨start, size, 1⟩).gather I B v.blocks dst = some out ∧
          v.Gathered (.slice ⟨start, size, 1⟩) out) ↔
        (size ≠ 0 ∨ start.toNat / w ≤ v.blocks.length))) ∧
    ∀ f : Combine,
      (∀ (a : ArrayRef w) (mem : Memory), (a.get v).size = size →
        ((∃ out, v.scatter I B (.slice ⟨start, size, 1⟩) mem f (.array a) = .ok out ∧
            v.Looped (.slice ⟨start, size, 1⟩) f a.lent.bits out) ↔
          (size ≠ 0 ∨ start.toNat / w ≤ v.blocks.length))) ∧
      ∀ value, ∃ out, v.fill I B (.slice ⟨start, size, 1⟩) f value = some out ∧
        v.Looped (.slice ⟨start, size, 1⟩) f (fun _ _ => value) out := by
  have hform : (Selection.slice ⟨start, size, 1⟩ : Selection w).WellFormed v := trivial
  have hin := run_within hacc
  have hpos := run_positions hacc
  have hlen : ((Selection.slice ⟨start, size, 1⟩ : Selection w).positions v).length = size.toNat := by
    rw [hpos, List.length_range']
  have hnodup : ((Selection.slice ⟨start, size, 1⟩ : Selection w).positions v).Nodup := by
    rw [hpos]
    exact List.nodup_range'
  refine ⟨Selection.admitted_of_within hform hin, hpos, fun dst hdst hclear => ?_,
    fun f => ⟨fun a mem ha => ?_, fun value => fill_exact hI hB hform hin hnodup value⟩⟩
  · rw [← run_pastEnd]
    constructor
    · intro ⟨out, hout, _⟩ hpast
      rw [gather_past hpast] at hout
      cases hout
    · exact fun hpast => gather_exact hI hB hform hin hpast (hlen ▸ hdst) hclear
  · rw [← run_pastEnd]
    constructor
    · exact fun ⟨_, hout, _⟩ => (not_pastEnd_of_scatter hout).1
    · intro hpast
      refine scatter_exact hI hB hform hin hpast hnodup ?_ id trivial
      exact (congrArg BitVec.toNat ha).trans hlen.symm

/-- Three elements from the second on, and the same of a run of none at the end of the block. -/
theorem runs_exact_three :
    (∃ out, (Selection.slice ⟨1, 3, 1⟩).gather (bitwise 8) lentBytes (ofByte 178).blocks [0] =
      some out ∧ (ofByte 178).Gathered (.slice ⟨1, 3, 1⟩) out) ∧
    ∃ out, (Selection.slice ⟨8, 0, 1⟩).gather (bitwise 8) lentBytes (ofByte 178).blocks [] =
      some out ∧ (ofByte 178).Gathered (.slice ⟨8, 0, 1⟩) out := by
  have hB : lentBytes.storage = .lent := rfl
  have hfits : (3 : BitVec 64) = 0 ∨
      (1 : BitVec 64).toNat + (3 : BitVec 64).toNat ≤ (ofByte 178).size.toNat := Or.inr (by decide)
  have hempty : (0 : BitVec 64) = 0 ∨
      (8 : BitVec 64).toNat + (0 : BitVec 64).toNat ≤ (ofByte 178).size.toNat := Or.inl rfl
  obtain ⟨-, -, hthree, -⟩ := runs_exact_iff lawful_bitwise hB hfits
  obtain ⟨-, -, hnone, -⟩ := runs_exact_iff lawful_bitwise hB hempty
  have hclear (n p : Nat) : bitAt (List.replicate n (0 : BitVec 8)) p = false :=
    BitBlockContainer.bitAt_zeros
  exact ⟨(hthree [0] rfl (hclear 1)).mpr (Or.inl (by decide)),
    (hnone [] rfl (hclear 0)).mpr (Or.inr (by decide))⟩

/-- **A run of none from twenty-four on** is let through, and neither gathered nor written: its span
    starts past the one block. -/
theorem empty_run_outside :
    (Selection.slice ⟨24, 0, 1⟩ : Selection 8).admitted (ofByte 178) = true ∧
    (∀ dst out, (Selection.slice ⟨24, 0, 1⟩).gather (bitwise 8) lentBytes (ofByte 178).blocks dst ≠
      some out) ∧
    ∀ mem f a out, (ofByte 178).scatter (bitwise 8) lentBytes (.slice ⟨24, 0, 1⟩) mem f (.array a) ≠
      .ok out := by
  have hpast : (Selection.slice ⟨24, 0, 1⟩ : Selection 8).PastEnd (ofByte 178) :=
    ⟨rfl, rfl, by decide⟩
  refine ⟨rfl, fun dst out hout => ?_, fun mem f a out hout => ?_⟩
  · rw [gather_past hpast] at hout
    cases hout
  · exact (not_pastEnd_of_scatter hout).1 hpast

end Runs

end BitValarray

end XstdBits
