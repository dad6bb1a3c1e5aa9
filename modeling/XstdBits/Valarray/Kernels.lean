/-
  File: XstdBits/Valarray/Kernels.lean
  Subject: `compress_blocks` and `expand_blocks` by themselves, under any masks.

  * `OnePerBlock bs steps`: the masks come to ascending blocks of `bs`, one for each, with their
    bits counted; `marked bs steps` lists the positions they select. `OnePerBlock.walks` makes a
    walk of them.
  * neither kernel looks past what it needs: a destination that goes on, or a source that does,
    changes nothing (`compressMasks_append`, `expandBlocks_append`).
  * `pack_and_unpack`: packing writes the marked bits from position zero on and leaves the blocks
    after them alone, unpacking hands the marked positions the next bits.
-/
import XstdBits.Valarray.Scatter

namespace XstdBits

/-! ## 1. One mask for each block -/

section Marked
variable {w : Nat} {bs : List (BitVec w)} {steps : List (MaskStep w)}

/-- The mask of a call, beside the blocks `bs`. -/
def MaskStep.bits (bs : List (BitVec w)) (s : MaskStep w) : BitVec w :=
  (s.mask (bs.getD s.block zero)).getD zero

/-- The positions the masks select, in the order of the calls. -/
def marked (bs : List (BitVec w)) (steps : List (MaskStep w)) : List Nat :=
  steps.flatMap fun s => (ascending (s.bits bs).getLsbD w).map (s.block * w + ·)

/-- **One mask for each block**: the blocks ascend inside `bs`, and each mask is there with its bits
    counted. -/
structure OnePerBlock (bs : List (BitVec w)) (steps : List (MaskStep w)) : Prop where
  ascends : (steps.map MaskStep.block).Pairwise (· < ·)
  within : ∀ s, s ∈ steps → s.block < bs.length
  counted : ∀ s, s ∈ steps →
    ∃ m, s.mask (bs.getD s.block zero) = some m ∧ s.count m = popcount m

theorem mem_marked {p : Nat} : p ∈ marked bs steps ↔
    ∃ s, s ∈ steps ∧ ∃ j, (j < w ∧ (s.bits bs).getLsbD j = true) ∧ s.block * w + j = p := by
  unfold marked
  rw [List.mem_flatMap]
  refine exists_congr fun s => and_congr_right fun _ => ?_
  rw [List.mem_map]
  exact exists_congr fun j => and_congr_left fun _ => mem_ascending

/-- A position inside a block is marked by that block's mask alone. -/
theorem OnePerBlock.mem_marked_block (h : OnePerBlock bs steps) {s : MaskStep w} (hs : s ∈ steps)
    {j : Nat} (hj : j < w) :
    decide (s.block * w + j ∈ marked bs steps) = (s.bits bs).getLsbD j := by
  rw [Bool.eq_iff_iff, decide_eq_true_eq, mem_marked]
  constructor
  · intro ⟨t, ht, i, ⟨hi, hset⟩, heq⟩
    obtain ⟨hblock, rfl⟩ := (pos_inj hi hj).mp heq
    have hnodup : (steps.map MaskStep.block).Nodup := h.ascends.imp Nat.ne_of_lt
    rw [← List.inj_on_of_nodup_map hnodup ht hs hblock]
    exact hset
  · intro hset
    exact ⟨s, hs, j, ⟨hj, hset⟩, rfl⟩

/-- **Such masks are a walk** over the string of the marked positions. -/
theorem OnePerBlock.walks (h : OnePerBlock bs steps) :
    Walks bs (fun p => decide (p ∈ marked bs steps)) (steps.map MaskStep.block) steps where
  visits := by
    rw [List.forall₂_map_right_iff, List.forall₂_same]
    intro s hs
    obtain ⟨m, hm, hcount⟩ := h.counted s hs
    refine ⟨rfl, m, hm, hcount, fun j hj => ?_⟩
    have hbits : s.bits bs = m := by
      unfold MaskStep.bits
      rw [hm, Option.getD_some]
    rw [← hbits]
    exact (h.mem_marked_block hs hj).symm
  ascends := h.ascends
  within k hk := by
    obtain ⟨s, hs, rfl⟩ := List.mem_map.mp hk
    exact h.within s hs

/-- The walk selects what is marked, in the same order. -/
theorem OnePerBlock.selected_eq (h : OnePerBlock bs steps) :
    selected w (fun p => decide (p ∈ marked bs steps)) (steps.map MaskStep.block) =
      marked bs steps := by
  unfold selected
  rw [List.flatMap_map]
  show steps.flatMap _ = steps.flatMap _
  refine List.flatMap_congr fun s hs => congrArg _ (ascending_congr fun j hj => ?_)
  exact h.mem_marked_block hs hj

theorem OnePerBlock.marked_ascends (h : OnePerBlock bs steps) :
    (marked bs steps).Pairwise (· < ·) := by
  rw [← h.selected_eq]
  exact selected_ascends h.ascends

end Marked

/-! ## 2. Nothing past what is needed -/

section Frames
variable {w : Nat}

/-- Blocks past the destination's stay as they are. -/
theorem Packer.store_append {dst d rest : List (BitVec w)} {out : Nat} {b : BitVec w}
    (h : Packer.store dst out b = some d) :
    Packer.store (dst ++ rest) out b = some (d ++ rest) := by
  unfold Packer.store at h ⊢
  by_cases hlt : out < dst.length
  · rw [if_pos hlt] at h
    cases h
    rw [List.length_append, if_pos (by omega), List.set_append_left _ _ hlt]
  · rw [if_neg hlt] at h
    cases h

/-- The register over a destination that goes on. -/
def Packer.append (p : Packer w) (rest : List (BitVec w)) : Packer w :=
  { p with dst := p.dst ++ rest }

theorem Packer.take_append {p q : Packer w} {packed : BitVec w} {count : Nat}
    (rest : List (BitVec w)) (h : p.take packed count = some q) :
    (p.append rest).take packed count = some (q.append rest) := by
  unfold Packer.take at h ⊢
  by_cases hfull : w ≤ p.fill + count
  · have hfull' : w ≤ (p.append rest).fill + count := hfull
    dsimp only at h ⊢
    rw [if_pos hfull] at h
    rw [if_pos hfull']
    obtain ⟨d, hd, rfl⟩ := Option.map_eq_some_iff.mp h
    exact congrArg _ (Packer.store_append hd)
  · have hfull' : ¬ w ≤ (p.append rest).fill + count := hfull
    dsimp only at h ⊢
    rw [if_neg hfull] at h
    rw [if_neg hfull']
    cases h
    rfl

theorem Packer.finish_append {p : Packer w} {d : List (BitVec w)} (rest : List (BitVec w))
    (h : p.finish = some d) : (p.append rest).finish = some (d ++ rest) := by
  unfold Packer.finish at h ⊢
  by_cases hf : p.fill ≠ 0
  · have hf' : (p.append rest).fill ≠ 0 := hf
    rw [if_pos hf] at h
    rw [if_pos hf']
    exact Packer.store_append h
  · have hf' : ¬ (p.append rest).fill ≠ 0 := hf
    rw [if_neg hf] at h
    rw [if_neg hf']
    cases h
    rfl

variable {bitCompress bitExpand : BitVec w → BitVec w → BitVec w} {inHardware : Bool}
  {src dst out : List (BitVec w)} {steps : List (MaskStep w)}

/-- **Packing leaves alone the blocks it does not need.** -/
theorem compressMasks_append (rest : List (BitVec w))
    (h : compressMasks bitCompress inHardware src steps dst = some out) :
    compressMasks bitCompress inHardware src steps (dst ++ rest) = some (out ++ rest) := by
  have hloop : ∀ {p q : Packer w}, steps.foldlM (compressStep bitCompress inHardware src) p =
      some q → steps.foldlM (compressStep bitCompress inHardware src) (p.append rest) =
        some (q.append rest) := by
    clear h
    induction steps with
    | nil =>
        intro p q h
        cases h
        rfl
    | cons s steps ih =>
        intro p q h
        rw [List.foldlM_cons] at h ⊢
        obtain ⟨r, hr, hq⟩ := Option.bind_eq_some_iff.mp h
        have hstep : compressStep bitCompress inHardware src (p.append rest) s =
            some (r.append rest) := by
          unfold compressStep at hr ⊢
          by_cases hk : s.block < src.length
          · rw [dif_pos hk] at hr ⊢
            obtain ⟨mask, hmask, htake⟩ := Option.bind_eq_some_iff.mp hr
            rw [hmask]
            exact Packer.take_append rest htake
          · rw [dif_neg hk] at hr
            cases hr
        rw [hstep]
        exact ih hq
  unfold compressMasks at h ⊢
  obtain ⟨p, hp, hfinish⟩ := Option.bind_eq_some_iff.mp h
  have hp' := hloop hp
  rw [show (⟨dst ++ rest, 0, 0, zero⟩ : Packer w) = Packer.append ⟨dst, 0, 0, zero⟩ rest from rfl,
    hp']
  exact Packer.finish_append rest hfinish

/-- **Packing into a destination with room**: the selected bits first, clear up to the end of the
    last block needed, and the blocks after it as they were. -/
theorem compressMasks_room (hw : 0 < w) (hc : Compresses bitCompress) (inHardware : Bool)
    {f : Nat → Bool} {ks : List Nat} (hwalk : Walks src f ks steps) {n : Nat}
    (hn : blocksFor w (selected w f ks).length = n) (hroom : n ≤ dst.length) :
    ∃ out, compressMasks bitCompress inHardware src steps dst = some out ∧
      out.length = dst.length ∧
      (∀ q, q < n * w → bitAt out q = ((selected w f ks).map (bitAt src)).getD q false) ∧
      ∀ k, n ≤ k → out[k]? = dst[k]? := by
  have htake : (dst.take n).length = blocksFor w (selected w f ks).length := by
    rw [List.length_take, hn]
    omega
  obtain ⟨out, hout, hol, hbits⟩ := compressMasks_spec hw hc inHardware hwalk htake
  have hlen : out.length = n := by
    rw [hol, List.length_take]
    omega
  refine ⟨out ++ dst.drop n, ?_, ?_, fun q hq => ?_, fun k hk => ?_⟩
  · have := compressMasks_append (dst.drop n) hout
    rwa [List.take_append_drop] at this
  · rw [List.length_append, List.length_drop, hlen]
    omega
  · have hdiv : q / w < out.length := hlen ▸ (Nat.div_lt_iff_lt_mul hw).mpr hq
    rw [← hbits]
    unfold bitAt
    rw [List.getD_append _ _ _ _ hdiv]
  · rw [List.getElem?_append_right (by omega), List.getElem?_drop, hlen, Nat.add_sub_cancel' hk]

/-- The stream over a source that goes on. -/
theorem BitStream.take_append {st st' : BitStream w} {count : Nat} {bits : BitVec w}
    (rest : List (BitVec w)) (h : st.take src count = some (bits, st')) :
    st.take (src ++ rest) count = some (bits, st') := by
  rw [← h]
  refine BitStream.take_congr ?_
  by_cases hle : count ≤ st.avail
  · exact Or.inl hle
  · unfold BitStream.take at h
    rw [if_neg hle] at h
    obtain ⟨next, hnext, -⟩ := Option.map_eq_some_iff.mp h
    refine Or.inr ?_
    rw [List.getElem?_append_left (List.getElem?_eq_some_iff.mp hnext).1]

/-- **Unpacking does not look at the blocks it does not need.** -/
theorem expandBlocks_append {F : BitVec w → BitVec w → BitVec w → BitVec w}
    (rest : List (BitVec w))
    (h : expandBlocks bitExpand inHardware F (.of src) steps dst = some out) :
    expandBlocks bitExpand inHardware F (.of (src ++ rest)) steps dst = some out := by
  have hloop : ∀ {st st' : List (BitVec w) × BitStream w},
      steps.foldlM (expandBlocksStep bitExpand inHardware F (.of src)) st = some st' →
        steps.foldlM (expandBlocksStep bitExpand inHardware F (.of (src ++ rest))) st =
          some st' := by
    clear h
    induction steps with
    | nil => exact fun h => h
    | cons s steps ih =>
        intro st st' h
        rw [List.foldlM_cons] at h ⊢
        obtain ⟨r, hr, hrest⟩ := Option.bind_eq_some_iff.mp h
        have hstep : expandBlocksStep bitExpand inHardware F (.of (src ++ rest)) st s = some r := by
          unfold expandBlocksStep at hr ⊢
          by_cases hk : s.block < st.1.length
          · rw [dif_pos hk] at hr ⊢
            obtain ⟨mask, hmask, htaken⟩ := Option.bind_eq_some_iff.mp hr
            obtain ⟨⟨bits, next⟩, htake, hr⟩ := Option.map_eq_some_iff.mp htaken
            rw [hmask, Option.bind_some]
            rw [← hr]
            exact congrArg _ (BitStream.take_append rest htake)
          · rw [dif_neg hk] at hr
            cases hr
        rw [hstep]
        exact ih hrest
  unfold expandBlocks at h ⊢
  obtain ⟨st, hst, hout⟩ := Option.map_eq_some_iff.mp h
  rw [hloop hst, ← hout]
  rfl

end Frames

/-! ## 3. Both kernels -/

section Kernels
variable {w : Nat}

/-- **Packing and unpacking.** Under any masks, one for each block: packing writes the marked bits of
    the source to positions zero on of the destination, clear up to the end of the last block it
    needs, and no block after that; unpacking hands the marked positions the next bits of another
    array, in order, combined as the function combines bits, leaves every other bit, and has the
    same outcome where the source ends with the block of its last bit. -/
theorem pack_and_unpack (hw : 0 < w) (bitCompress bitExpand : BitVec w → BitVec w → BitVec w)
    (hc : Compresses bitCompress) (hx : Expands bitExpand) (inHardware : Bool) :
    (∀ (src dst : List (BitVec w)) (steps : List (MaskStep w)), OnePerBlock src steps →
      blocksFor w (marked src steps).length ≤ dst.length →
      ∃ out, compressMasks bitCompress inHardware src steps dst = some out ∧
        out.length = dst.length ∧
        (∀ i p, (marked src steps)[i]? = some p → bitAt out i = bitAt src p) ∧
        (∀ i, (marked src steps).length ≤ i →
          i < blocksFor w (marked src steps).length * w → bitAt out i = false) ∧
        ∀ k, blocksFor w (marked src steps).length ≤ k → out[k]? = dst[k]?) ∧
    ∀ (F : BitVec w → BitVec w → BitVec w → BitVec w) (c : Bool → Bool → Bool), Combines F c →
      ∀ (src dst : List (BitVec w)) (steps : List (MaskStep w)), OnePerBlock dst steps →
        (marked dst steps).length ≤ src.length * w →
        ∃ out, expandBlocks bitExpand inHardware F (.of src) steps dst = some out ∧
          out.length = dst.length ∧
          (∀ i p, (marked dst steps)[i]? = some p →
            bitAt out p = c (bitAt dst p) (bitAt src i)) ∧
          (∀ p, p ∉ marked dst steps → bitAt out p = bitAt dst p) ∧
          expandBlocks bitExpand inHardware F
            (.of (src.take (blocksFor w (marked dst steps).length))) steps dst = some out := by
  refine ⟨fun src dst steps hsteps hroom => ?_, fun F c hF src dst steps hsteps hin => ?_⟩
  · have hsel := hsteps.selected_eq
    generalize hn : blocksFor w (marked src steps).length = n at hroom
    obtain ⟨out, hout, hol, hbits, hrest⟩ := compressMasks_room hw hc inHardware hsteps.walks
      (by rw [hsel]; exact hn) hroom
    rw [hsel] at hbits
    have hle : (marked src steps).length ≤ n * w := hn ▸ le_blocksFor_mul hw
    refine ⟨out, hout, hol, fun i p hp => ?_, fun i hi hlt => ?_, hrest⟩
    · have hi := (List.getElem?_eq_some_iff.mp hp).1
      rw [hbits i (by omega), List.getD_eq_getElem?_getD, List.getElem?_map, hp]
      rfl
    · rw [hbits i hlt, List.getD_eq_default]
      rwa [List.length_map]
  · have hsel := hsteps.selected_eq
    have hnodup : (marked dst steps).Nodup := hsteps.marked_ascends.imp Nat.ne_of_lt
    generalize hn : blocksFor w (marked dst steps).length = n
    have hle : (marked dst steps).length ≤ n * w := hn ▸ le_blocksFor_mul hw
    have hnsrc : n ≤ src.length := hn ▸ (blocksFor_le_iff hw).mpr hin
    have htake : (selected w (fun p => decide (p ∈ marked dst steps))
        (steps.map MaskStep.block)).length ≤ (src.take n).length * w := by
      rw [hsel, List.length_take, Nat.min_eq_left hnsrc]
      exact hle
    obtain ⟨out, hout, hol, hbits⟩ := expandBlocks_spec inHardware hw hx hF hsteps.walks htake
    rw [hsel] at hbits
    refine ⟨out, ?_, hol, fun i p hp => ?_, fun p hp => ?_, hout⟩
    · have := expandBlocks_append (src.drop n) hout
      rwa [List.take_append_drop] at this
    · have hi := (List.getElem?_eq_some_iff.mp hp).1
      have hdiv : i / w < n := (Nat.div_lt_iff_lt_mul hw).mpr (by omega)
      rw [hbits, scatterLoop_get hnodup hp, Nat.zero_add]
      congr 1
      unfold bitAt
      rw [List.getD_eq_getElem?_getD, List.getElem?_take_of_lt hdiv, ← List.getD_eq_getElem?_getD]
    · rw [hbits, scatterLoop_other hp]

theorem pack_and_unpack_bytes :
    (∃ out, compressMasks compressBits false [0xA5#8, 0x3C#8]
        [⟨0, fun _ => some 0xF0#8, popcount⟩, ⟨1, fun _ => some 0x7F#8, popcount⟩] [1#8, 2#8, 9#8] =
          some out ∧ out[2]? = some 9#8) ∧
    ∃ out, expandBlocks expandBits false Combine.xor.block (.of [0xA5#8, 0x3C#8])
        [⟨0, fun _ => some 0xF0#8, popcount⟩, ⟨1, fun _ => some 0x7F#8, popcount⟩] [1#8, 2#8] =
          some out ∧ bitAt out 15 = false := by
  have hsteps : ∀ bs : List (BitVec 8), bs.length = 2 → OnePerBlock bs
      [⟨0, fun _ => some 0xF0#8, popcount⟩, ⟨1, fun _ => some 0x7F#8, popcount⟩] := by
    intro bs hbs
    refine ⟨by decide, ?_, ?_⟩
    · rw [List.forall_mem_cons, List.forall_mem_singleton, hbs]
      exact ⟨by decide, by decide⟩
    · rw [List.forall_mem_cons, List.forall_mem_singleton]
      exact ⟨⟨_, rfl, rfl⟩, _, rfl, rfl⟩
  obtain ⟨hpack, hunpack⟩ := pack_and_unpack (w := 8) (by decide) compressBits expandBits
    compresses_compressBits expands_expandBits false
  obtain ⟨out, hout, -, -, -, hrest⟩ := hpack [0xA5#8, 0x3C#8] [1#8, 2#8, 9#8] _ (hsteps _ rfl)
    (by decide)
  obtain ⟨out', hout', -, -, hother, -⟩ := hunpack _ _ Combine.xor.combines [0xA5#8, 0x3C#8]
    [1#8, 2#8] _ (hsteps _ rfl) (by decide)
  exact ⟨⟨out, hout, hrest 2 (by decide)⟩, out', hout', hother 15 (by decide)⟩

end Kernels

end XstdBits
