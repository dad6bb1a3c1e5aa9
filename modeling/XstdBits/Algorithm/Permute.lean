/-
  File: XstdBits/Algorithm/Permute.lean
  Subject: `bit_compress` and `bit_expand` over owners (`bit_permute.hpp`, `bit_compress.hpp`,
  `bit_expand.hpp`).

  * the container forms pack into the zeros of an owner as wide as the mask, or lay the bits of one
    out: `compressInto_spec`, `expandInto_spec`.
  * the integer forms shift what each block packs into a register, or write an integer's blocks
    first: `getLsbD_compressLow`, `bit_assignLow`.
  * `permutations_exact`: both forms, and that each direction undoes the other.
-/
import XstdBits.Container.Compare
import XstdBits.Container.Machine
import XstdBits.Valarray.Kernels
import XstdBits.Valarray.Path

namespace XstdBits

namespace BitBlockContainer

/-! ## 1. The functions -/

section Functions
variable {w : Nat} {V : Vehicle w} (I : Intrinsics w) (isSet : Bool) (mem : Memory)

/-- `check_widths`: a sequence's two sizes agree, where the type does not fix them. -/
def checkWidths (x m : BitBlockContainer V) : Except Exn Unit :=
  if !V.hasStaticSize && !isSet then
    if x.size = m.size then .ok () else .error .abort
  else .ok ()

/-- `zeros_over`: all false at a fixed width, at the mask's width for a set, at its size for a
    sequence. -/
def zerosOver (m : BitBlockContainer V) : Except Exn (BitBlockContainer V) :=
  if V.hasStaticSize then .ok (default V 0)
  else if isSet then
    match resizeTo mem m.size false (default V 0) with
    | .ok () result => .ok result
    | .error e _ => .error e
  else
    match checkAddressableWidth V m.size with
    | .ok n => construct V mem n 0
    | .error e => .error e

/-- `padded_blocks`, as a loop over `n` of them reads it. -/
def paddedBlocks (n : Nat) (blocks : List (BitVec w)) : List (BitVec w) :=
  (List.range n).map fun k => if k < blocks.length then blocks.getD k zero else zero

/-- `compress_into`. -/
def compressInto (x m dst : BitBlockContainer V) : Except Exn (BitBlockContainer V) :=
  let src := paddedBlocks m.mBlocks.elems.length x.mBlocks.elems
  match compressMasks I.bitCompress I.inHardware src (storedMasks (.of m.mBlocks.elems) src)
    dst.mBlocks.elems with
  | some out => .ok (dst.withElems fun _ => out).recount
  | Option.none => .error .abort

/-- `expand_into`. -/
def expandInto (x m dst : BitBlockContainer V) : Except Exn (BitBlockContainer V) :=
  match expandMasks I.bitExpand I.inHardware .assign (.of x.mBlocks.elems)
    (storedMasks (.of m.mBlocks.elems) dst.mBlocks.elems) dst.mBlocks.elems with
  | some out => .ok (dst.withElems fun _ => out).recount
  | Option.none => .error .abort

/-- `compress_low`: once the integer is full, every later mask block is empty and packs nought under
    any shift, so the shift wraps. -/
def compressLow (u : Nat) (x m : BitBlockContainer V) : BitVec u :=
  let masks := m.mBlocks.elems
  let source := paddedBlocks masks.length x.mBlocks.elems
  (forUp 0 (if V.foldsBlocks then V.staticNumBlocks else masks.length)
    (fun k (s : BitVec u × Nat) =>
      (s.1 ||| shl ((compressed I.bitCompress I.inHardware (source.getD k zero)
        (masks.getD k zero)).setWidth u) (s.2 % u), s.2 + popcount (masks.getD k zero)))
    (zero, 0)).1

/-- `assign_low`: the loop runs while there is a block and `k * digits` is below the integer's
    width. -/
def assignLow {u : Nat} (x : BitVec u) (dst : BitBlockContainer V) : BitBlockContainer V :=
  (dst.withElems (writeUp 0 (min dst.mBlocks.elems.length (blocksFor w u)) fun _ k =>
    (shr x (k * w)).setWidth w)).eraseUnused.recount

/-- `bit_compress(x, m)`. -/
def bitCompress (x m : BitBlockContainer V) : Except Exn (BitBlockContainer V) := do
  checkWidths isSet x m
  let result ← zerosOver isSet mem m
  compressInto I x m result

/-- `bit_compress<U>(x, m)`, which asserts that what the mask selects fits the integer. -/
def bitCompressLow (u : Nat) (x m : BitBlockContainer V) : Except Exn (BitVec u) := do
  if u < m.count then throw .abort
  checkWidths isSet x m
  return compressLow I u x m

/-- `bit_expand(x, m)`: a narrower set is read from a copy as wide as the mask. -/
def bitExpand (x m : BitBlockContainer V) : Except Exn (BitBlockContainer V) := do
  checkWidths isSet x m
  let result ← zerosOver isSet mem m
  if isSet ∧ ¬ V.hasStaticSize ∧ x.size < m.size then
    let wide ← copyOf mem x x.mBlocks.alloc
    match resize mem m.size false wide with
    | .ok () wide => expandInto I wide m result
    | .error e _ => .error e
  else expandInto I x m result

/-- `bit_expand(x, m)` of an integer. -/
def bitExpandLow {u : Nat} (x : BitVec u) (m : BitBlockContainer V) :
    Except Exn (BitBlockContainer V) := do
  let src ← zerosOver isSet mem m
  bitExpand I isSet mem (assignLow x src) m

end Functions

/-! ## 2. What the kernels leave -/

section Kernels
variable {w : Nat} {V : Vehicle w} {I : Intrinsics w} {x m dst : BitBlockContainer V}

/-- A set position has as many set positions below it as its place among them. -/
theorem keysUp_getElem? {c : BitBlockContainer V} (h : c.Inv) {p : Nat} (hp : c.bit p = true) :
    (keysUp c)[countBits c.bit p]? = some p := by
  obtain ⟨i, hi⟩ := List.mem_iff_getElem?.mp (mem_ascending.mpr ⟨h.lt_size hp, hp⟩)
  obtain ⟨-, -, hcount⟩ := countBits_of_ascending hi
  rw [hcount]
  exact hi

/-- The set positions are as many as the count says. -/
theorem length_keysUp {c : BitBlockContainer V} (h : c.Inv) : (keysUp c).length = c.count := by
  rw [count_eq h]
  exact length_filter_range

/-- The blocks of a mask select its set positions. -/
theorem selected_keysUp (hm : m.Inv) :
    selected w (bitAt m.mBlocks.elems) (List.range m.mBlocks.elems.length) = keysUp m := by
  rw [selected_range]
  exact ascending_of_clear hm.clear hm.shape.size_le

/-- Every position a mask selects lies in its blocks. -/
theorem keysUp_lt {c : BitBlockContainer V} {p : Nat} (hp : p ∈ keysUp c) : p < c.size :=
  (mem_ascending.mp hp).1

theorem length_paddedBlocks {n : Nat} {blocks : List (BitVec w)} :
    (paddedBlocks n blocks).length = n := by
  unfold paddedBlocks
  rw [List.length_map, List.length_range]

theorem getD_paddedBlocks {n k : Nat} {blocks : List (BitVec w)} (hk : k < n) :
    (paddedBlocks n blocks).getD k zero = blocks.getD k zero := by
  unfold paddedBlocks
  rw [List.getD_eq_getElem _ _ (by simpa using hk), List.getElem_map, List.getElem_range]
  split
  · rfl
  · rw [List.getD_eq_default _ _ (by omega)]

/-- A narrower source reads as false past its blocks. -/
theorem bitAt_paddedBlocks (hw : 0 < w) {n p : Nat} {blocks : List (BitVec w)} (hp : p < n * w) :
    bitAt (paddedBlocks n blocks) p = bitAt blocks p := by
  unfold bitAt
  rw [getD_paddedBlocks ((Nat.div_lt_iff_lt_mul hw).mpr hp)]

/-- Blocks written anew and recounted. -/
theorem Inv.rewritten (h : dst.Inv) {out : List (BitVec w)}
    (hlen : out.length = dst.mBlocks.elems.length)
    (hclear : ∀ p, dst.size ≤ p → bitAt out p = false) :
    (dst.withElems fun _ => out).recount.Inv ∧
      (dst.withElems fun _ => out).recount.size = dst.size ∧
      ∀ p, (dst.withElems fun _ => out).recount.bit p = bitAt out p := by
  have hw : SameWidth dst (dst.withElems fun _ => out) := sameWidth_withElems hlen
  have hbit (p : Nat) : (dst.withElems fun _ => out).recount.bit p = bitAt out p :=
    bit_congr mBlocks_recount
  have hsize : (dst.withElems fun _ => out).recount.size = dst.size :=
    (hw.trans sameWidth_recount).size
  refine ⟨h.write (hw.trans sameWidth_recount) (fun p hp => ?_) fun hc => ?_, hsize, hbit⟩
  · rw [hbit]
    exact hclear p hp
  · rw [mCount_recount (hw.shape h.shape) (fun p hp => hclear p (by rwa [hw.size] at hp)) hc,
      hw.size]
    exact countBits_congr fun p _ => (hbit p).symm

/-- **Packed**: the bits of the source at the mask's positions, in order and nothing after them. -/
theorem compressInto_spec (hI : I.Lawful) (hm : m.Inv) (hd : dst.Inv) (hsize : dst.size = m.size)
    (hzero : ∀ p, dst.bit p = false) :
    ∃ d, compressInto I x m dst = .ok d ∧ d.Inv ∧ d.size = m.size ∧
      ∀ p, d.bit p = ((keysUp m).map x.bit).getD p false := by
  have hw := V.bits_pos
  generalize hsrc : paddedBlocks m.mBlocks.elems.length x.mBlocks.elems = src
  have hlen : src.length = m.mBlocks.elems.length := hsrc ▸ length_paddedBlocks
  have hwalk : Walks src (bitAt m.mBlocks.elems) (List.range src.length)
      (storedMasks (.of m.mBlocks.elems) src) :=
    @storedMasks_walks _ src (.of m.mBlocks.elems) hlen.symm
  have hsel : selected w (bitAt m.mBlocks.elems) (List.range src.length) = keysUp m := by
    rw [hlen]
    exact selected_keysUp hm
  have hread : (keysUp m).map (bitAt src) = (keysUp m).map x.bit := by
    refine List.map_congr_left fun p hp => ?_
    have hlt := keysUp_lt hp
    have hle := hm.shape.size_le
    rw [← hsrc]
    exact bitAt_paddedBlocks hw (by omega)
  have hroom : blocksFor w (keysUp m).length ≤ dst.mBlocks.elems.length := by
    rw [hd.shape, hsize, length_keysUp hm, count_eq hm]
    exact blocksFor_mono hw countBits_le
  obtain ⟨out, hout, hol, hbits, hrest⟩ := compressMasks_room hw
    hI.compresses I.inHardware hwalk (by rw [hsel]) hroom
  rw [hsel, hread] at hbits
  have hall (p : Nat) : bitAt out p = ((keysUp m).map x.bit).getD p false := by
    by_cases hp : p < blocksFor w (keysUp m).length * w
    · exact hbits p hp
    · have hdiv : blocksFor w (keysUp m).length ≤ p / w :=
        (Nat.le_div_iff_mul_le hw).mpr (Nat.le_of_not_lt hp)
      have hle := le_blocksFor_mul (n := (keysUp m).length) hw
      rw [List.getD_eq_default _ _ (by rw [List.length_map]; omega), ← hzero p]
      unfold BitBlockContainer.bit bitAt
      rw [List.getD_eq_getElem?_getD, List.getD_eq_getElem?_getD, hrest _ hdiv]
  obtain ⟨h1, h2, h3⟩ := hd.rewritten hol fun p hp => by
    rw [hall, List.getD_eq_default]
    rw [List.length_map, length_keysUp hm, count_eq hm]
    have := countBits_le (f := m.bit) (n := m.size)
    omega
  refine ⟨_, ?_, h1, h2.trans hsize, fun p => (h3 p).trans (hall p)⟩
  unfold compressInto
  dsimp only
  rw [hsrc, hout]

/-- **Laid out**: at each of the mask's positions the next bit of the source, false elsewhere. -/
theorem expandInto_spec (hI : I.Lawful) (hm : m.Inv) (hd : dst.Inv) (hsize : dst.size = m.size)
    (hzero : ∀ p, dst.bit p = false) (hx : x.Shape) (hle : m.count ≤ x.size) :
    ∃ d, expandInto I x m dst = .ok d ∧ d.Inv ∧ d.size = m.size ∧
      ∀ p, d.bit p = (m.bit p && x.bit (countBits m.bit p)) := by
  have hw := V.bits_pos
  have hlen : m.mBlocks.elems.length = dst.mBlocks.elems.length := by
    rw [hm.shape, hd.shape, hsize]
  have hwalk : Walks dst.mBlocks.elems (bitAt m.mBlocks.elems)
      (List.range dst.mBlocks.elems.length)
      (storedMasks (.of m.mBlocks.elems) dst.mBlocks.elems) :=
    @storedMasks_walks _ dst.mBlocks.elems (.of m.mBlocks.elems) hlen
  have hsel : selected w (bitAt m.mBlocks.elems) (List.range dst.mBlocks.elems.length) =
      keysUp m := by
    rw [← hlen]
    exact selected_keysUp hm
  have hxle := hx.size_le
  have hin : (selected w (bitAt m.mBlocks.elems) (List.range dst.mBlocks.elems.length)).length ≤
      x.mBlocks.elems.length * w := by
    rw [hsel, length_keysUp hm]
    omega
  obtain ⟨out, hout, hol, hbits⟩ := expandMasks_spec I.inHardware .assign hw hI.expands hwalk hin
  rw [hsel] at hbits
  have hall (p : Nat) : bitAt out p = (m.bit p && x.bit (countBits m.bit p)) := by
    rw [hbits]
    have hnodup : (keysUp m).Nodup := List.nodup_range.filter _
    cases hp : m.bit p with
    | true =>
        rw [Bool.true_and, scatterLoop_get hnodup (keysUp_getElem? hm hp), Nat.zero_add]
        rfl
    | false =>
        rw [Bool.false_and, scatterLoop_other]
        · exact hzero p
        · intro hmem
          rw [(mem_ascending.mp hmem).2] at hp
          cases hp
  obtain ⟨h1, h2, h3⟩ := hd.rewritten hol fun p hp => by
    rw [hall, hm.clear p (by omega), Bool.false_and]
  refine ⟨_, ?_, h1, h2.trans hsize, fun p => (h3 p).trans (hall p)⟩
  unfold expandInto
  rw [hout]

end Kernels

/-! ## 3. Integers -/

section Integers
variable {w u : Nat} {V : Vehicle w} {I : Intrinsics w} {x m dst : BitBlockContainer V}

/-- Packed bits shifted in behind those already there; into a full integer none come. -/
theorem getLsbD_packed {acc : BitVec u} {packed : BitVec w} {l us : List Bool}
    (hacc : ∀ j, j < u → acc.getLsbD j = l.getD j false)
    (hp : ∀ j, packed.getLsbD j = us.getD j false) (hle : (l ++ us).length ≤ u) {j : Nat}
    (hj : j < u) :
    (acc ||| shl (packed.setWidth u) (l.length % u)).getLsbD j = (l ++ us).getD j false := by
  rw [List.length_append] at hle
  rw [BitVec.getLsbD_or, hacc j hj, getLsbD_shl hj, getD_append', BitVec.getLsbD_setWidth, hp]
  by_cases hfull : l.length = u
  · have hnil : us = [] := List.eq_nil_of_length_eq_zero (by omega)
    rw [if_pos (by omega), hnil, List.getD_nil, Bool.and_false, Bool.and_false, Bool.or_false]
  · rw [Nat.mod_eq_of_lt (by omega)]
    by_cases hlt : j < l.length
    · rw [if_pos hlt, decide_eq_false (by omega), Bool.false_and, Bool.or_false]
    · rw [if_neg hlt, List.getD_eq_default l _ (by omega), Bool.false_or,
        decide_eq_true (by omega), Bool.true_and, decide_eq_true (by omega), Bool.true_and]

/-- The mask's blocks are counted by the type or by the storage. -/
theorem foldedBlocks_eq (hm : m.Shape) :
    (if V.foldsBlocks then V.staticNumBlocks else m.mBlocks.elems.length) =
      m.mBlocks.elems.length := by
  split
  · rename_i hfold
    exact foldsBlocks_num hm hfold
  · rfl

/-- What is selected of the first blocks is a part of what is selected in all. -/
theorem length_ascending_le (hm : m.Inv) {k : Nat} (hk : k ≤ m.mBlocks.elems.length) :
    (ascending m.bit (k * w)).length ≤ m.count := by
  have hlen : (ascending m.bit (k * w)).length = countBits m.bit (k * w) := length_filter_range
  have hmono := countBits_mono (f := m.bit) (Nat.mul_le_mul_right w hk)
  have hall : countBits m.bit (m.mBlocks.elems.length * w) = m.count := by
    rw [count_eq hm]
    exact countBits_of_clear hm.shape.size_le fun p hp _ => hm.clear p hp
  omega

/-- What a block of the mask picks out of the source. -/
theorem picked_padded {k : Nat} (hk : k < m.mBlocks.elems.length) :
    picked ((paddedBlocks m.mBlocks.elems.length x.mBlocks.elems).getD k zero)
      (m.mBlocks.elems.getD k zero) = (selected w m.bit [k]).map x.bit := by
  have hw := V.bits_pos
  have hin : k < (paddedBlocks m.mBlocks.elems.length x.mBlocks.elems).length := by
    rw [length_paddedBlocks]
    exact hk
  rw [List.getD_eq_getElem _ _ hin]
  refine (picked_block (f := m.bit) hin fun j hj => (bit_pos hj).symm).trans ?_
  refine List.map_congr_left fun p hp => bitAt_paddedBlocks hw ?_
  obtain ⟨i, r, hi, hr, rfl⟩ := mem_selected hp
  rw [List.mem_singleton.mp hi]
  exact (pos_lt_iff hr).mpr hk

/-- **What is packed into an integer** it can hold: the bits at the mask's positions, in order. -/
theorem getLsbD_compressLow (hI : I.Lawful) (hm : m.Inv) (hle : m.count ≤ u) {j : Nat}
    (hj : j < u) : (compressLow I u x m).getLsbD j = ((keysUp m).map x.bit).getD j false := by
  unfold compressLow
  dsimp only
  rw [foldedBlocks_eq hm.shape]
  have hinv := forUp_inv (f := fun k (s : BitVec u × Nat) =>
      (s.1 ||| shl ((compressed I.bitCompress I.inHardware
        ((paddedBlocks m.mBlocks.elems.length x.mBlocks.elems).getD k zero)
        (m.mBlocks.elems.getD k zero)).setWidth u) (s.2 % u),
        s.2 + popcount (m.mBlocks.elems.getD k zero)))
    (P := fun k (s : BitVec u × Nat) => s.2 = ((ascending m.bit (k * w)).map x.bit).length ∧
      ∀ j, j < u → s.1.getLsbD j = ((ascending m.bit (k * w)).map x.bit).getD j false)
    (a := 0) (b := m.mBlocks.elems.length) (s := (zero, 0)) (Nat.zero_le _)
    (by
      rw [Nat.zero_mul]
      exact ⟨rfl, fun j _ => getLsbD_zero'⟩) ?_
  · rw [hinv.2 j hj]
    congr 2
    exact ascending_of_clear hm.clear hm.shape.size_le
  · intro k s _ hk ih
    obtain ⟨hfill, hbits⟩ := ih
    have hsplit : ascending m.bit ((k + 1) * w) =
        ascending m.bit (k * w) ++ selected w m.bit [k] := by
      rw [← selected_range, ← selected_range, List.range_succ]
      unfold selected
      rw [List.flatMap_append]
    have hroom : ((ascending m.bit ((k + 1) * w)).map x.bit).length ≤ u := by
      rw [List.length_map]
      exact Nat.le_trans (length_ascending_le hm hk) hle
    rw [hsplit, List.map_append, ← picked_padded hk] at hroom ⊢
    refine ⟨?_, fun j hj => ?_⟩
    · rw [List.length_append, length_picked, ← hfill]
    · show (s.1 ||| shl _ (s.2 % u)).getLsbD j = _
      rw [hfill]
      exact getLsbD_packed hbits (getLsbD_compressed hI.compresses I.inHardware _ _) hroom hj

/-- **An integer's low positions written**, as far as the width reaches. -/
theorem bit_assignLow (hd : dst.Inv) (hzero : ∀ p, dst.bit p = false) (v : BitVec u) :
    (assignLow v dst).Inv ∧ (assignLow v dst).size = dst.size ∧
      ∀ p, (assignLow v dst).bit p = (v.getLsbD p && decide (p < dst.size)) := by
  have hw := V.bits_pos
  generalize hout : writeUp 0 (min dst.mBlocks.elems.length (blocksFor w u))
    (fun _ k => (shr v (k * w)).setWidth w) dst.mBlocks.elems = out
  have hspec := writeUp_spec (d := zero) (x := dst.mBlocks.elems) (a := 0)
    (b := min dst.mBlocks.elems.length (blocksFor w u))
    (g := fun _ k => (shr v (k * w)).setWidth w) (Nat.min_le_left _ _) fun _ _ _ _ _ _ => rfl
  rw [hout] at hspec
  have hbits (p : Nat) (hp : p < dst.size) : bitAt out p = v.getLsbD p := by
    obtain ⟨k, j, hj, rfl⟩ := exists_pos hw p
    have hk := hd.shape.index_lt hp
    rw [bitAt_pos hj, hspec.2 k]
    by_cases hlt : k < blocksFor w u
    · rw [if_pos ⟨Nat.zero_le _, by omega⟩, BitVec.getLsbD_setWidth, decide_eq_true hj,
        Bool.true_and, getLsbD_shr]
    · rw [if_neg (by omega), ← @bitAt_pos _ dst.mBlocks.elems _ _ hj, BitVec.getLsbD_of_ge]
      · exact hzero _
      · have := (blocksFor_le_iff hw).mp (Nat.le_of_not_lt hlt)
        omega
  have hsw : SameWidth dst (dst.withElems fun _ => out) := sameWidth_withElems hspec.1
  have hd' : (assignLow v dst) = (dst.withElems fun _ => out).eraseUnused.recount := by
    unfold assignLow
    rw [← hout]
    rfl
  have hsw' : SameWidth dst (dst.withElems fun _ => out).eraseUnused :=
    hsw.trans sameWidth_eraseUnused
  have hbit (p : Nat) : (dst.withElems fun _ => out).eraseUnused.bit p =
      (v.getLsbD p && decide (p < dst.size)) := by
    rw [bit_eraseUnused (hsw.shape hd.shape), hsw.size]
    by_cases hp : p < dst.size
    · rw [decide_eq_true hp, Bool.and_true, Bool.and_true]
      exact hbits p hp
    · rw [decide_eq_false hp, Bool.and_false, Bool.and_false]
  have hclear (p : Nat) (hp : dst.size ≤ p) :
      (dst.withElems fun _ => out).eraseUnused.bit p = false := by
    rw [hbit, decide_eq_false (by omega), Bool.and_false]
  rw [hd']
  refine ⟨hd.write (hsw'.trans sameWidth_recount) (fun p hp => ?_) fun hc => ?_,
    (hsw'.trans sameWidth_recount).size, fun p => (bit_congr mBlocks_recount).trans (hbit p)⟩
  · rw [bit_congr mBlocks_recount]
    exact hclear p hp
  · rw [mCount_recount (hsw'.shape hd.shape) (fun p hp => hclear p (by rwa [hsw'.size] at hp)) hc,
      hsw'.size]
    exact countBits_congr fun p _ => (bit_congr mBlocks_recount).symm

end Integers

/-! ## 4. Both directions -/

section Permutations
variable {w : Nat} {V : Vehicle w} {I : Intrinsics w} {isSet : Bool} {mem : Memory}
  {x m : BitBlockContainer V}

/-- **What a result asks for**: blocks up to the mask's from the memory, and of a sequence a width
    that its iterators can span. -/
structure Affords (V : Vehicle w) (isSet : Bool) (mem : Memory) (n : Nat) : Prop where
  addressable : isSet = false → n ≤ V.maxAddressableWidth
  grants : ∀ k, k ≤ blocksFor w n → Grants V mem k

/-- **The zeros a permutation lands in** are as wide as the mask. -/
theorem zerosOver_ok (hV : V.storage ≠ .lent) (hm : m.Inv)
    (hmem : V.hasStaticSize = false → Affords V isSet mem m.size) :
    ∃ z, zerosOver isSet mem m = .ok z ∧ z.Inv ∧ z.size = m.size ∧ ∀ p, z.bit p = false := by
  obtain ⟨hdefault, hclear⟩ := default_spec (V.owned_of_not_lent hV) 0
  have hover := hm.overCapacity_eq
  unfold zerosOver
  by_cases hst : V.hasStaticSize = true
  · rw [if_pos hst]
    exact ⟨_, rfl, hdefault, by rw [size_of_static hst, size_of_static hst], hclear⟩
  · have hs : V.hasStoredSize = true := (V.owned_of_not_lent hV).resolve_right hst
    have haff := hmem (by simpa using hst)
    have hgrants := haff.grants _ (Nat.le_refl _)
    rw [if_neg hst]
    by_cases hset : isSet = true
    · obtain ⟨d, hd⟩ := resizeTo_of_grants (c := default V 0) (v := false) hover hgrants
      obtain ⟨h1, h2, h3⟩ := resizeTo_ok hdefault hs hd
      rw [if_pos hset, hd]
      refine ⟨d, rfl, h1, h2, fun p => ?_⟩
      rw [h3, hclear]
      split <;> [exact ite_self _; rfl]
    · obtain ⟨d, hd⟩ : ∃ d, construct V mem m.size 0 = .ok d := construct_of_grants hover hgrants
      have hcheck : checkAddressableWidth V m.size = .ok m.size := by
        unfold checkAddressableWidth
        rw [if_neg (Nat.not_lt.mpr (haff.addressable (by simpa using hset)))]
      rw [if_neg hset, hcheck]
      exact ⟨d, hd, construct_ok hs hd⟩

/-- The sizes agree where they have to. -/
theorem checkWidths_ok (hsizes : isSet = true ∨ x.size = m.size) :
    checkWidths isSet x m = .ok () := by
  unfold checkWidths
  rcases hsizes with hset | hsize
  · rw [hset, Bool.not_true, Bool.and_false]
    rfl
  · rw [if_pos hsize]
    exact ite_self _

/-- **`bit_compress`.** -/
theorem bitCompress_spec (hI : I.Lawful) (hV : V.storage ≠ .lent) (hm : m.Inv)
    (hsizes : isSet = true ∨ x.size = m.size)
    (hmem : V.hasStaticSize = false → Affords V isSet mem m.size) :
    ∃ c, bitCompress I isSet mem x m = .ok c ∧ c.Inv ∧ c.size = m.size ∧
      ∀ p, c.bit p = ((keysUp m).map x.bit).getD p false := by
  obtain ⟨z, hz, h1, h2, h3⟩ := zerosOver_ok hV hm hmem
  obtain ⟨c, hc, hspec⟩ := compressInto_spec (x := x) hI hm h1 h2 h3
  refine ⟨c, ?_, hspec⟩
  unfold bitCompress
  rw [checkWidths_ok hsizes, hz]
  exact hc

/-- **A narrower set's keys, read as wide as the mask**: a copy grown to its width. -/
theorem widened_ok (hV : V.storage ≠ .lent) (hx : x.Inv) (hm : m.Inv)
    (hst : ¬ V.hasStaticSize = true) (hlt : x.size < m.size) (haff : Affords V isSet mem m.size) :
    ∃ d e, copyOf mem x x.mBlocks.alloc = .ok d ∧ resizeTo mem m.size false d = .ok () e ∧
      e.Inv ∧ e.size = m.size ∧ ∀ p, e.bit p = x.bit p := by
  have hs : V.hasStoredSize = true := (V.owned_of_not_lent hV).resolve_right hst
  have hg : Grants V mem x.mBlocks.elems.length := haff.grants _ (by
    rw [hx.shape]
    exact blocksFor_mono V.bits_pos (Nat.le_of_lt hlt))
  obtain ⟨d, hd⟩ : ∃ d, copyOf mem x x.mBlocks.alloc = .ok d := copyOf_of_grants hx hg
  have hsame := copyOf_sameValue hd
  obtain ⟨e, he⟩ := resizeTo_of_grants (c := d) (v := false) hm.overCapacity_eq
    (haff.grants _ (Nat.le_refl _))
  obtain ⟨hinv, hsize, hbits⟩ := resizeTo_ok (hx.transferred hsame) hs he
  refine ⟨d, e, hd, he, hinv, hsize, fun p => ?_⟩
  rw [hbits, hsame.bit, hsame.size]
  split
  · split
    · rfl
    · rw [hx.clear _ (by omega)]
  · rw [hx.clear _ (by omega)]

/-- **`bit_expand`.** -/
theorem bitExpand_spec (hI : I.Lawful) (hV : V.storage ≠ .lent) (hx : x.Inv) (hm : m.Inv)
    (hsizes : isSet = true ∨ x.size = m.size)
    (hmem : V.hasStaticSize = false → Affords V isSet mem m.size) :
    ∃ e, bitExpand I isSet mem x m = .ok e ∧ e.Inv ∧ e.size = m.size ∧
      ∀ p, e.bit p = (m.bit p && x.bit (countBits m.bit p)) := by
  have hcount : m.count ≤ m.size := by
    rw [count_eq hm]
    exact countBits_le
  obtain ⟨z, hz, h1, h2, h3⟩ := zerosOver_ok hV hm hmem
  unfold bitExpand
  rw [checkWidths_ok hsizes, hz]
  by_cases hwide : isSet = true ∧ ¬ V.hasStaticSize = true ∧ x.size < m.size
  · obtain ⟨hset, hst, hlt⟩ := hwide
    obtain ⟨d, e, hd, he, hinv, hsize, hbits⟩ :=
      widened_ok hV hx hm hst hlt (hmem (by simpa using hst))
    obtain ⟨r, hr, hr1, hr2, hr3⟩ := expandInto_spec hI hm h1 h2 h3 hinv.shape (by omega)
    refine ⟨r, ?_, hr1, hr2, fun p => by rw [hr3, hbits]⟩
    show (if isSet = true ∧ ¬ V.hasStaticSize = true ∧ x.size < m.size then _ else _ :
      Except Exn (BitBlockContainer V)) = _
    rw [if_pos ⟨hset, hst, hlt⟩, hd]
    show (match resizeTo mem m.size false d with
      | .ok () wide => expandInto I wide m z
      | .error e _ => .error e) = _
    rw [he]
    exact hr
  · have hle : m.size ≤ x.size := by
      by_cases hst : V.hasStaticSize = true
      · rw [size_of_static hst, size_of_static hst]
      · rcases hsizes with hset | hsize
        · exact Nat.le_of_not_lt fun hlt => hwide ⟨hset, hst, hlt⟩
        · omega
    obtain ⟨r, hr, hspec⟩ := expandInto_spec hI hm h1 h2 h3 hx.shape (by omega)
    refine ⟨r, ?_, hspec⟩
    show (if isSet = true ∧ ¬ V.hasStaticSize = true ∧ x.size < m.size then _ else _ :
      Except Exn (BitBlockContainer V)) = _
    rw [if_neg hwide]
    exact hr

/-- **Packed**: position `j` holds the bit at the mask's `j`-th set position, and those from the
    mask's count on are clear. -/
structure Compressed (x m c : BitBlockContainer V) : Prop where
  inv : c.Inv
  size : c.size = m.size
  bits : ∀ j p, (keysUp m)[j]? = some p → c.bit j = x.bit p
  clear : ∀ j, m.count ≤ j → c.bit j = false

/-- **Laid out**: the mask's `j`-th set position holds bit `j`, and those outside it are clear. -/
structure Expanded (bits : Nat → Bool) (m e : BitBlockContainer V) : Prop where
  inv : e.Inv
  size : e.size = m.size
  bits : ∀ j p, (keysUp m)[j]? = some p → e.bit p = bits j
  clear : ∀ p, m.bit p = false → e.bit p = false

theorem compressed_of_bits (hm : m.Inv) {c : BitBlockContainer V} (hc : c.Inv)
    (hsize : c.size = m.size) (hbits : ∀ p, c.bit p = ((keysUp m).map x.bit).getD p false) :
    Compressed x m c where
  inv := hc
  size := hsize
  bits j p hp := by
    rw [hbits, List.getD_eq_getElem?_getD, List.getElem?_map, hp]
    rfl
  clear j hj := by
    rw [hbits, List.getD_eq_default]
    rwa [List.length_map, length_keysUp hm]

theorem expanded_of_bits {bits : Nat → Bool} {e : BitBlockContainer V} (he : e.Inv)
    (hsize : e.size = m.size) (hbits : ∀ p, e.bit p = (m.bit p && bits (countBits m.bit p))) :
    Expanded bits m e where
  inv := he
  size := hsize
  bits j p hp := by
    obtain ⟨-, hset, hcount⟩ := countBits_of_ascending hp
    rw [hbits, hset, hcount, Bool.true_and]
  clear p hp := by rw [hbits, hp, Bool.false_and]

theorem Compressed.bit {c : BitBlockContainer V} (h : Compressed x m c) (hm : m.Inv) (p : Nat) :
    c.bit p = ((keysUp m).map x.bit).getD p false := by
  rw [List.getD_eq_getElem?_getD, List.getElem?_map]
  cases hp : (keysUp m)[p]? with
  | some q => exact h.bits p q hp
  | none =>
      refine h.clear p ?_
      rw [← length_keysUp hm]
      exact List.getElem?_eq_none_iff.mp hp

theorem Expanded.bit {bits : Nat → Bool} {e : BitBlockContainer V} (h : Expanded bits m e)
    (hm : m.Inv) (p : Nat) : e.bit p = (m.bit p && bits (countBits m.bit p)) := by
  cases hp : m.bit p with
  | true => exact h.bits _ _ (keysUp_getElem? hm hp)
  | false => exact h.clear p hp

/-- **What was packed, laid out again**: the selected keys where they were. -/
theorem bitExpand_packed {c : BitBlockContainer V} (hI : I.Lawful) (hV : V.storage ≠ .lent)
    (hx : x.Inv) (hm : m.Inv) (hmem : V.hasStaticSize = false → Affords V isSet mem m.size)
    (hc : c.Inv) (hsize : c.size = m.size)
    (hbits : ∀ p, c.bit p = ((keysUp m).map x.bit).getD p false) :
    ∃ e, bitExpand I isSet mem c m = .ok e ∧ e.Inv ∧ e.size = m.size ∧
      ∀ p, e.bit p = (x.andAssign (.of m)).bit p := by
  obtain ⟨e, he, hinv, hesize, hebits⟩ := bitExpand_spec hI hV hc hm (Or.inr hsize) hmem
  refine ⟨e, he, hinv, hesize, fun p => ?_⟩
  have hand : (x.andAssign (.of m)).bit p = (x.bit p && m.bit p) :=
    (combine_spec (.of m) hx hm actsBitwise_and fun _ _ => rfl).2.1 p
  rw [hebits, hand, Bool.and_comm]
  cases hp : m.bit p with
  | false => rw [Bool.and_false, Bool.and_false]
  | true =>
      rw [hbits, List.getD_eq_getElem?_getD, List.getElem?_map, keysUp_getElem? hm hp]
      rfl

/-- The integer that comes of packing holds the packed bits. -/
theorem bitCompressLow_spec {u : Nat} (hI : I.Lawful) (hm : m.Inv)
    (hsizes : isSet = true ∨ x.size = m.size) (hu : m.count ≤ u) :
    ∃ v : BitVec u, bitCompressLow I isSet u x m = .ok v ∧
      ∀ j, v.getLsbD j = ((keysUp m).map x.bit).getD j false := by
  have hlen := length_keysUp hm
  refine ⟨compressLow I u x m, ?_, fun j => ?_⟩
  · unfold bitCompressLow
    rw [if_neg (by omega), checkWidths_ok hsizes]
    rfl
  · by_cases hj : j < u
    · exact getLsbD_compressLow hI hm hu hj
    · rw [BitVec.getLsbD_of_ge _ _ (by omega), List.getD_eq_default]
      rw [List.length_map]
      omega

/-- **What was laid out, packed again**: the bits there were keys for. -/
theorem bitCompress_laidOut {e : BitBlockContainer V} (hI : I.Lawful) (hV : V.storage ≠ .lent)
    (hm : m.Inv) (hmem : V.hasStaticSize = false → Affords V isSet mem m.size)
    (hsize : e.size = m.size) (hbits : ∀ p, e.bit p = (m.bit p && x.bit (countBits m.bit p))) :
    ∃ c, bitCompress I isSet mem e m = .ok c ∧ c.Inv ∧ c.size = m.size ∧
      ∀ p, c.bit p = (decide (p < m.count) && x.bit p) := by
  have hlen := length_keysUp hm
  obtain ⟨c, hc, hinv, hcsize, hcbits⟩ := bitCompress_spec (x := e) hI hV hm (Or.inr hsize) hmem
  refine ⟨c, hc, hinv, hcsize, fun p => ?_⟩
  rw [hcbits]
  by_cases hp : p < m.count
  · have hin : p < (keysUp m).length := by omega
    have hget := List.getElem?_eq_getElem hin
    obtain ⟨-, hset, hcount⟩ := countBits_of_ascending hget
    rw [List.getD_eq_getElem?_getD, List.getElem?_map, hget, decide_eq_true hp, Bool.true_and]
    show e.bit (keysUp m)[p] = _
    rw [hbits, hset, hcount, Bool.true_and]
  · rw [decide_eq_false hp, Bool.false_and, List.getD_eq_default]
    rw [List.length_map]
    omega

/-- Fewer of the mask's keys lie below one of them than it has. -/
theorem countBits_lt_count (hm : m.Inv) {p : Nat} (hp : m.bit p = true) :
    countBits m.bit p < m.count := by
  obtain ⟨hlt, -⟩ := List.getElem?_eq_some_iff.mp (keysUp_getElem? hm hp)
  rwa [length_keysUp hm] at hlt

/-- **An integer laid out** at the mask's positions. -/
theorem bitExpandLow_spec {u : Nat} (v : BitVec u) (hI : I.Lawful) (hV : V.storage ≠ .lent)
    (hm : m.Inv) (hmem : V.hasStaticSize = false → Affords V isSet mem m.size) :
    ∃ d, bitExpandLow I isSet mem v m = .ok d ∧ d.Inv ∧ d.size = m.size ∧
      ∀ p, d.bit p = (m.bit p && v.getLsbD (countBits m.bit p)) := by
  obtain ⟨z, hz, h1, h2, h3⟩ := zerosOver_ok hV hm hmem
  obtain ⟨h4, h5, h6⟩ := bit_assignLow h1 h3 v
  obtain ⟨d, hd, hinv, hsize, hbits⟩ := bitExpand_spec hI hV h4 hm (Or.inr (h5.trans h2)) hmem
  refine ⟨d, ?_, hinv, hsize, fun p => ?_⟩
  · unfold bitExpandLow
    rw [hz]
    exact hd
  · rw [hbits]
    cases hp : m.bit p with
    | false => rfl
    | true =>
        have hlt := countBits_lt_count hm hp
        have hle : m.count ≤ m.size := by
          rw [count_eq hm]
          exact countBits_le
        rw [h6, h2, decide_eq_true (by omega), Bool.and_true]

/-- **`bit_compress` and `bit_expand` over owners**, of any two widths where they are sets. The one
    packs what the mask selects, the other lays bits out at its positions; expanding what was packed
    leaves `x & m`, packing what was laid out leaves the first `count(m)` positions of `x`, and the
    forms over an integer have the same bits. -/
theorem permutations_exact (hI : I.Lawful) (hV : V.storage ≠ .lent) (hx : x.Inv) (hm : m.Inv)
    (hsizes : isSet = true ∨ x.size = m.size)
    (hmem : V.hasStaticSize = false → Affords V isSet mem m.size) :
    (∃ c, bitCompress I isSet mem x m = .ok c ∧ Compressed x m c ∧
      (∃ e, bitExpand I isSet mem c m = .ok e ∧ e.Inv ∧ e.size = m.size ∧
        ∀ p, e.bit p = (x.andAssign (.of m)).bit p) ∧
      ∀ u, m.count ≤ u → ∃ v : BitVec u, bitCompressLow I isSet u x m = .ok v ∧
        ∀ j, v.getLsbD j = c.bit j) ∧
    ∃ e, bitExpand I isSet mem x m = .ok e ∧ Expanded x.bit m e ∧
      (∃ c, bitCompress I isSet mem e m = .ok c ∧ c.Inv ∧ c.size = m.size ∧
        ∀ p, c.bit p = (decide (p < m.count) && x.bit p)) ∧
      ∀ u (v : BitVec u), ∃ d, bitExpandLow I isSet mem v m = .ok d ∧ Expanded v.getLsbD m d ∧
        ((∀ j, j < m.count → v.getLsbD j = x.bit j) → ∀ p, d.bit p = e.bit p) := by
  obtain ⟨c, hc, hcinv, hcsize, hcbits⟩ := bitCompress_spec (x := x) hI hV hm hsizes hmem
  obtain ⟨e, he, heinv, hesize, hebits⟩ := bitExpand_spec hI hV hx hm hsizes hmem
  constructor
  · refine ⟨c, hc, compressed_of_bits hm hcinv hcsize hcbits,
      bitExpand_packed hI hV hx hm hmem hcinv hcsize hcbits, fun u hu => ?_⟩
    obtain ⟨v, hv, hvbits⟩ := bitCompressLow_spec (x := x) hI hm hsizes hu
    exact ⟨v, hv, fun j => (hvbits j).trans (hcbits j).symm⟩
  · refine ⟨e, he, expanded_of_bits heinv hesize hebits,
      bitCompress_laidOut hI hV hm hmem hesize hebits, fun u v => ?_⟩
    obtain ⟨d, hd, hdinv, hdsize, hdbits⟩ := bitExpandLow_spec v hI hV hm hmem
    refine ⟨d, hd, expanded_of_bits hdinv hdsize hdbits, fun hv p => ?_⟩
    rw [hdbits, hebits]
    cases hp : m.bit p with
    | false => rfl
    | true => rw [hv _ (countBits_lt_count hm hp)]

/-- The keys 0, 3, 5 and 10 of a set twelve wide, packed and laid out under the mask of these, one
    and six. -/
theorem permutations_exact_sets :
    let x := fourOfTwelve true
    let m := ((fourOfTwelve true).flip 1).flip 6
    (∃ c, bitCompress ⟨compressBits, expandBits, repeatBits, false⟩ true .ample x m = .ok c ∧
      keysUp c = [0, 2, 3, 5]) ∧
    ∃ e, bitExpand ⟨compressBits, expandBits, repeatBits, false⟩ true .ample x m = .ok e ∧
      keysUp e = [0, 5, 10] := by
  intro x m
  have hm : m.Inv := ((fourOfTwelve_inv true).flip (show 1 < 12 by decide)).flip
    (show 6 < 12 by decide)
  have haff : Affords (byteVector true) true .ample 12 :=
    ⟨fun h => absurd h (by decide), fun _ hk => grants_byteVector hk⟩
  have hlawful : (⟨compressBits, expandBits, repeatBits, false⟩ : Intrinsics 8).Lawful :=
    ⟨compresses_compressBits, expands_expandBits, repeats_repeatBits⟩
  obtain ⟨⟨c, hc, hpacked, -⟩, e, he, hlaid, -⟩ := permutations_exact hlawful
    (show (byteVector true).storage ≠ .lent by decide) (fourOfTwelve_inv true) hm (Or.inl rfl)
    fun _ => haff
  refine ⟨⟨c, hc, ?_⟩, e, he, ?_⟩
  · unfold keysUp
    rw [hpacked.size, ascending_congr fun p _ => hpacked.bit hm p]
    decide
  · unfold keysUp
    rw [hlaid.size, ascending_congr fun p _ => hlaid.bit hm p]
    decide

end Permutations

end BitBlockContainer

end XstdBits
