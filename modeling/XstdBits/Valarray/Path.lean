/-
  File: XstdBits/Valarray/Path.lean
  Subject: the three ways a selection is gathered, scattered and filled.

  * a `Path` is what a selection's class chooses by its stride and shape: a run, the masks of a
    `for_each`, or one position at a time. `Path.Follows` says which positions it comes to.
  * whichever path it is, gathering packs the elements at those positions in order, and scattering
    and filling are the loop over them (`Path.gather_spec`, `Path.expand_spec`, `Path.fill_spec`).
  * only a run asks for a span of the blocks, and one that is empty may ask for it past their end
    (`Path.PastEnd`): then gathering and scattering have no outcome, and filling has its own.
-/
import XstdBits.Valarray.Run
import XstdBits.Valarray.SliceMasks

namespace XstdBits

/-! ## 1. Paths -/

/-- What comes with the integers, at one block width. -/
structure Intrinsics (w : Nat) where
  bitCompress : BitVec w → BitVec w → BitVec w
  bitExpand : BitVec w → BitVec w → BitVec w
  bitRepeat : BitVec w → Nat → BitVec w
  /-- whether `bit_compress` and `bit_expand` are instructions -/
  inHardware : Bool

/-- They do what they are documented to do. -/
structure Intrinsics.Lawful {w : Nat} (I : Intrinsics w) : Prop where
  compresses : Compresses I.bitCompress
  expands : Expands I.bitExpand
  repeats : Repeats I.bitRepeat

/-- A run of `size` positions from `start`, the masks of a `for_each`, or `count` positions, each
    as `index` gives it. -/
inductive Path (w : Nat) where
  | run (start size : Nat)
  | masks (steps : List (MaskStep w))
  | listed (count : Nat) (index : Nat → Option SizeT)

namespace Path
variable {w : Nat}

section Kernels
variable (I : Intrinsics w) (B : Vehicle w)

def gather (path : Path w) (src dst : List (BitVec w)) : Option (List (BitVec w)) :=
  match path with
  | run start size => gatherRun B src start size dst
  | masks steps => compressMasks I.bitCompress I.inHardware src steps dst
  | listed count index => gatherIndices src count index dst

def expand (path : Path w) (f : Combine) (src : LentBlocks w) (dst : List (BitVec w)) :
    Option (List (BitVec w)) :=
  match path with
  | run start size => expandRun B f src start size dst
  | masks steps => expandMasks I.bitExpand I.inHardware f src steps dst
  | listed count index => expandIndices f src count index dst

def fill (path : Path w) (f : Combine) (value : Bool) (dst : List (BitVec w)) :
    Option (List (BitVec w)) :=
  match path with
  | run start size => fillRun B f value start size dst
  | masks steps => fillMasks f value steps dst
  | listed count index => fillIndices f value count index dst

end Kernels

/-- **The path comes to the positions `ps`** of the blocks `bs`, in order. -/
inductive Follows (bs : List (BitVec w)) : Path w → List Nat → Prop
  | run {start size : Nat} (hin : 0 < size → start + size ≤ bs.length * w) :
      Follows bs (.run start size) (List.range' start size)
  | masks {h : Nat → Bool} {ks : List Nat} {steps : List (MaskStep w)}
      (hwalk : Walks bs h ks steps) : Follows bs (.masks steps) (selected w h ks)
  | listed {qs : List SizeT} {index : Nat → Option SizeT}
      (hindex : ∀ j, j < qs.length → index j = qs[j]?)
      (hin : ∀ q, q ∈ qs → q.toNat / w < bs.length) :
      Follows bs (.listed qs.length index) (qs.map BitVec.toNat)

/-- **The path asks for an empty span past the last block.** -/
def PastEnd (bs : List (BitVec w)) : Path w → Prop
  | .run start size => size = 0 ∧ bs.length < start / w
  | _ => False

/-! ## 2. Positions in order -/

section Order
variable {ps : List Nat}

/-- Ascending positions below their own number are all of them. -/
theorem eq_range (hps : ps.Pairwise (· < ·)) (hin : ∀ p, p ∈ ps → p < ps.length) :
    ps = List.range ps.length := by
  have hnodup : ps.Nodup := hps.imp Nat.ne_of_lt
  have hperm : ps.Perm (List.range ps.length) :=
    (List.subperm_of_subset hnodup fun p hp => List.mem_range.mpr (hin p hp)).perm_of_length_le
      (by rw [List.length_range])
  exact hps.eq_of_mem_iff List.pairwise_lt_range fun p => hperm.mem_iff

end Order

/-- An index is asked for the positions below the count alone. -/
theorem foldlM_range_congr {σ : Type} {f g : σ → Nat → Option σ} {n : Nat}
    (h : ∀ s j, j < n → f s j = g s j) (s : σ) :
    (List.range n).foldlM f s = (List.range n).foldlM g s := by
  have hall : ∀ l : List Nat, (∀ j, j ∈ l → j < n) → ∀ s, l.foldlM f s = l.foldlM g s := by
    intro l
    induction l with
    | nil => exact fun _ _ => rfl
    | cons j l ih =>
        intro hl s
        rw [List.foldlM_cons, List.foldlM_cons, h s j (hl j (List.mem_cons_self ..))]
        exact congrArg _ (funext fun t => ih (fun i hi => hl i (List.mem_cons_of_mem j hi)) t)
  exact hall _ (fun j hj => List.mem_range.mp hj) s

/-! ## 3. What a path leaves -/

section Specs
variable {I : Intrinsics w} {B : Vehicle w} {path : Path w} {src dst : List (BitVec w)}
  {ps : List Nat} {f : Combine}

/-- **Gathered**: the elements at the path's positions, in order. -/
theorem gather_spec (hI : I.Lawful) (hB : B.storage = .lent) (h : path.Follows src ps)
    (hpast : ¬ path.PastEnd src) (hdst : dst.length = blocksFor w ps.length)
    (hclear : ∀ p, bitAt dst p = false) :
    ∃ out, path.gather I B src dst = some out ∧ out.length = dst.length ∧
      ∀ q, bitAt out q = (ps.map (bitAt src)).getD q false := by
  have hw := B.bits_pos
  cases h with
  | @run start size hin =>
      rw [List.length_range'] at hdst
      refine gatherRun_spec hB ?_ hin hdst hclear
      rcases Nat.eq_zero_or_pos size with h0 | h0
      · exact Nat.le_of_not_lt fun hlt => hpast ⟨h0, hlt⟩
      · have hin := hin h0
        exact Nat.le_of_lt ((Nat.div_lt_iff_lt_mul hw).mpr (by omega))
  | masks hwalk => exact compressMasks_spec hw hI.compresses I.inHardware hwalk hdst
  | @listed qs index hindex hin =>
      rw [List.length_map] at hdst
      obtain ⟨out, hout, hol, hbits⟩ := gatherIndices_spec hw (fun _ => rfl) hin hdst
      refine ⟨out, ?_, hol, fun q => ?_⟩
      · rw [← hout]
        show ((List.range qs.length).foldlM (gatherOne src index) (dst, zero)).bind _ =
          ((List.range qs.length).foldlM (gatherOne src fun j => qs[j]?) (dst, zero)).bind _
        rw [foldlM_range_congr fun s j hj => ?_]
        unfold gatherOne
        rw [hindex j hj]
      · rw [hbits q, List.map_map]
        rfl

/-- Past the end nothing is gathered. -/
theorem gather_past (hpast : path.PastEnd src) : path.gather I B src dst = none := by
  cases path with
  | run start size =>
      obtain ⟨-, hlt⟩ := hpast
      show (subspan src (start / w) _).bind _ = none
      unfold subspan
      rw [if_neg fun h => absurd h.1 (Nat.not_le.mpr hlt)]
      rfl
  | masks steps => exact hpast.elim
  | listed count index => exact hpast.elim

/-- **Scattered**: the loop over the path's positions, from an array that is as long; one that is
    lent its own blocks has them all selected. -/
theorem expand_spec (hI : I.Lawful) (hB : B.storage = .lent) (h : path.Follows dst ps)
    (hpast : ¬ path.PastEnd dst) {lent : LentBlocks w}
    (hsrc : ps.length ≤ (lent.get dst).length * w)
    (hown : lent = .own → ∀ p, p ∈ ps → p < ps.length) :
    ∃ out, path.expand I B f lent dst = some out ∧ out.length = dst.length ∧
      bitAt out = scatterLoop f.bit lent.bits ps 0 (bitAt dst) := by
  have hw := B.bits_pos
  cases h with
  | @run start size hin =>
      rw [List.length_range'] at hsrc hown
      refine expandRun_spec hB f ?_ hin hsrc fun ho h0 => ?_
      · rcases Nat.eq_zero_or_pos size with h0 | h0
        · exact Nat.le_of_not_lt fun hlt => hpast ⟨h0, hlt⟩
        · have hin := hin h0
          exact Nat.le_of_lt ((Nat.div_lt_iff_lt_mul hw).mpr (by omega))
      · have hlast := hown ho (start + (size - 1)) (List.mem_range'_1.mpr ⟨by omega, by omega⟩)
        omega
  | masks hwalk =>
      exact expandMasks_lent I.inHardware f hw hI.expands hwalk hsrc fun ho =>
        ⟨_, eq_range (selected_ascends hwalk.ascends) (hown ho)⟩
  | @listed qs index hindex hin =>
      rw [List.length_map] at hsrc
      obtain ⟨out, hout, hol, hbits⟩ := expandIndices_spec f hw (fun _ => rfl) hin hsrc
      refine ⟨out, ?_, hol, hbits⟩
      rw [← hout]
      refine foldlM_range_congr (fun s j hj => ?_) _
      unfold expandOne
      rw [hindex j hj]

/-- Past the end nothing is scattered. -/
theorem expand_past (hpast : path.PastEnd dst) {lent : LentBlocks w} :
    path.expand I B f lent dst = none := by
  cases path with
  | run start size =>
      obtain ⟨-, hlt⟩ := hpast
      show (subspan (lent.get dst) 0 _).bind _ = none
      have honto : subspan dst (start / w) (wholeBlocks w start size) = none := by
        unfold subspan
        rw [if_neg fun h => absurd h.1 (Nat.not_le.mpr hlt)]
      rw [honto]
      cases subspan (lent.get dst) 0 (wholeBlocks w start size) <;> rfl
  | masks steps => exact hpast.elim
  | listed count index => exact hpast.elim

/-- **Filled**: the loop over the path's positions with one value. -/
theorem fill_spec (hB : B.storage = .lent) (h : path.Follows dst ps) (value : Bool) :
    ∃ out, path.fill B f value dst = some out ∧ out.length = dst.length ∧
      bitAt out = scatterLoop f.bit (fun _ _ => value) ps 0 (bitAt dst) := by
  have hw := B.bits_pos
  cases h with
  | run hin => exact fillRun_spec hB f hin
  | masks hwalk => exact fillMasks_spec f hw hwalk
  | @listed qs index hindex hin =>
      obtain ⟨out, hout, hol, hbits⟩ := fillIndices_spec f hw (fun _ => rfl) hin
      refine ⟨out, ?_, hol, hbits⟩
      rw [← hout]
      refine foldlM_range_congr (fun s j hj => ?_) _
      unfold fillOne
      rw [hindex j hj]

end Specs

end Path

end XstdBits
