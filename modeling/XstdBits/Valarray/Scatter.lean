/-
  File: XstdBits/Valarray/Scatter.lean
  Subject: values written through a selection, a block or a position at a time.

  * `Combine`: the four ways a scatter combines a block with the bits deposited in it, each the same
    function of every bit under the mask (`Combine.getLsbD_block`).
  * `BitStream`: the blocks of an array as one stream of bits; `BitStream.At s src t` says that the
    next bit is number `t`, and `BitStream.At.take` is its step.
  * every path leaves what the loop over the elements leaves: `expandMasks_spec`,
    `expandIndices_spec`, `fillMasks_spec`, `fillIndices_spec`. An array that is read while it is
    written is read as it was where it is written in place (`expandMasks_lent`).

  `bit_expand` comes with the integers and is a parameter here; `Expands` is what it does.
-/
import XstdBits.Valarray.Gather
import XstdBits.Lib.Scatter

namespace XstdBits

/-! ## 1. Combiners -/

/-- `scatter_assign` and its three siblings. -/
inductive Combine where
  | assign | and | or | xor
  deriving DecidableEq, Repr

namespace Combine
variable {w : Nat}

/-- A destination block `d` with the bits `e` deposited under the mask `m`. -/
def block (f : Combine) (d e m : BitVec w) : BitVec w :=
  match f with
  | assign => d &&& ~~~m ||| e
  | and => d &&& (e ||| ~~~m)
  | or => d ||| e
  | xor => d ^^^ e

/-- The same of one element. -/
def bit (f : Combine) (d e : Bool) : Bool :=
  match f with
  | assign => e
  | and => d && e
  | or => d || e
  | xor => d != e

/-- **Only the mask's positions change**, each as the element would. -/
theorem getLsbD_block (f : Combine) {d e m : BitVec w} {j : Nat} (hj : j < w)
    (he : m.getLsbD j = false → e.getLsbD j = false) :
    (f.block d e m).getLsbD j =
      if m.getLsbD j = true then f.bit (d.getLsbD j) (e.getLsbD j) else d.getLsbD j := by
  have hnot : (~~~m).getLsbD j = !m.getLsbD j := by
    rw [BitVec.getLsbD_not, decide_eq_true hj, Bool.true_and]
  cases hm : m.getLsbD j with
  | true =>
      rw [hm] at hnot
      cases f <;> simp [block, bit, hnot, -BitVec.getLsbD_not]
  | false =>
      rw [hm] at hnot
      cases f <;> simp [block, hnot, he hm, -BitVec.getLsbD_not]

end Combine

/-- **What a combining function does**: `g` to every bit under the mask, given bits deposited there
    only, and nothing to the others. -/
def Combines {w : Nat} (F : BitVec w → BitVec w → BitVec w → BitVec w) (g : Bool → Bool → Bool) :
    Prop :=
  ∀ d e m, (∀ j, m.getLsbD j = false → e.getLsbD j = false) → ∀ j, j < w →
    (F d e m).getLsbD j = if m.getLsbD j = true then g (d.getLsbD j) (e.getLsbD j) else d.getLsbD j

/-- The four do. -/
theorem Combine.combines {w : Nat} (f : Combine) :
    Combines (f.block : BitVec w → BitVec w → BitVec w → BitVec w) f.bit :=
  fun _ _ _ he j hj => f.getLsbD_block hj (he j)

/-! ## 2. The stream of an array's bits -/

/-- `bit_stream`: the next block, and a register over what is not yet taken of the one before. -/
structure BitStream (w : Nat) where
  next : Nat
  avail : Nat
  buffer : BitVec w

section Stream
variable {w : Nat}

/-- A shift by any count up to the block width, in two halves. -/
def shrUpToWidth (b : BitVec w) (n : Nat) : BitVec w := shr (shr b (n / 2)) (n - n / 2)

theorem getLsbD_shrUpToWidth {b : BitVec w} {n j : Nat} :
    (shrUpToWidth b n).getLsbD j = b.getLsbD (n + j) := by
  unfold shrUpToWidth
  rw [getLsbD_shr, getLsbD_shr]
  congr 1
  omega

namespace BitStream

def start (w : Nat) : BitStream w := ⟨0, 0, zero⟩

/-- `take(count)`: the next bits in the low ones of a block, whatever the rest. -/
def take (s : BitStream w) (src : List (BitVec w)) (count : Nat) :
    Option (BitVec w × BitStream w) :=
  if count ≤ s.avail then
    some (s.buffer, { s with buffer := shrUpToWidth s.buffer count, avail := s.avail - count })
  else
    src[s.next]?.map fun next =>
      (s.buffer ||| shl next s.avail,
        ⟨s.next + 1, w - (count - s.avail), shrUpToWidth next (count - s.avail)⟩)

/-- **Bit `t` of `src` is the next**, and the register holds those up to the next block. -/
structure At (s : BitStream w) (src : List (BitVec w)) (t : Nat) : Prop where
  position : t + s.avail = s.next * w
  short : s.avail < w
  buffer : ∀ j, s.buffer.getLsbD j = (decide (j < s.avail) && bitAt src (t + j))

theorem start_at (hw : 0 < w) {src : List (BitVec w)} : (start w).At src 0 where
  position := (Nat.zero_mul w).symm
  short := hw
  buffer j := by
    show (zero : BitVec w).getLsbD j = (decide (j < 0) && _)
    rw [decide_eq_false (Nat.not_lt_zero j), Bool.false_and, getLsbD_zero']

/-- **A step of the stream** hands out the next bits. -/
theorem At.take {s : BitStream w} {src : List (BitVec w)} {t count : Nat} (h : s.At src t)
    (hcount : count ≤ w) (hin : t + count ≤ src.length * w) :
    ∃ bits s', s.take src count = some (bits, s') ∧ s'.At src (t + count) ∧
      ∀ j, j < count → bits.getLsbD j = bitAt src (t + j) := by
  have hpos := h.position
  have hshort := h.short
  unfold BitStream.take
  by_cases hle : count ≤ s.avail
  · rw [if_pos hle]
    refine ⟨_, _, rfl, ⟨?_, ?_, fun j => ?_⟩, fun j hj => ?_⟩
    · show t + count + (s.avail - count) = s.next * w
      omega
    · show s.avail - count < w
      omega
    · show (shrUpToWidth s.buffer count).getLsbD j = (decide (j < s.avail - count) && _)
      rw [getLsbD_shrUpToWidth, h.buffer, Nat.add_assoc]
      congr 1
      rw [decide_eq_decide]
      omega
    · rw [h.buffer, decide_eq_true (by omega), Bool.true_and]
  · have hnext : s.next < src.length := by
      refine block_lt_of_mul_lt (w := w) ?_
      omega
    have hblock {j : Nat} (hj : j < w) : (src.get ⟨s.next, hnext⟩).getLsbD j =
        bitAt src (t + s.avail + j) := by
      rw [hpos, bitAt_pos hj, List.getD_eq_getElem _ _ hnext]
      rfl
    rw [if_neg hle, List.getElem?_eq_getElem hnext]
    refine ⟨_, _, rfl, ⟨?_, ?_, fun j => ?_⟩, fun j hj => ?_⟩
    · show t + count + (w - (count - s.avail)) = (s.next + 1) * w
      rw [Nat.succ_mul]
      omega
    · show w - (count - s.avail) < w
      omega
    · show (shrUpToWidth (src.get ⟨s.next, hnext⟩) (count - s.avail)).getLsbD j =
        (decide (j < w - (count - s.avail)) && _)
      rw [getLsbD_shrUpToWidth]
      by_cases hj : j < w - (count - s.avail)
      · rw [hblock (by omega), decide_eq_true hj, Bool.true_and]
        congr 1
        omega
      · rw [BitVec.getLsbD_of_ge _ _ (by omega), decide_eq_false hj, Bool.false_and]
    · show (s.buffer ||| shl (src.get ⟨s.next, hnext⟩) s.avail).getLsbD j = _
      rw [BitVec.getLsbD_or, h.buffer, getLsbD_shl (by omega)]
      by_cases hj' : j < s.avail
      · rw [decide_eq_true hj', decide_eq_false (show ¬ s.avail ≤ j by omega), Bool.true_and,
          Bool.false_and, Bool.or_false]
      · rw [decide_eq_false hj', decide_eq_true (show s.avail ≤ j by omega), Bool.false_and,
          Bool.false_or, Bool.true_and, hblock (by omega)]
        congr 1
        omega

end BitStream

end Stream

/-! ## 3. A block's positions -/

section Deposit
variable {w : Nat}

/-- The `i`-th set position has `i` set positions below it. -/
theorem countBits_of_ascending {f : Nat → Bool} : ∀ {n i j : Nat}, (ascending f n)[i]? = some j →
    j < n ∧ f j = true ∧ countBits f j = i
  | 0, i, j, h => by
      cases h
  | n + 1, i, j, h => by
      have hlen : (ascending f n).length = countBits f n := length_filter_range
      have hsplit : ascending f (n + 1) = ascending f n ++ if f n = true then [n] else [] := by
        unfold ascending
        rw [List.range_succ, List.filter_append, List.filter_singleton]
        cases f n <;> rfl
      rw [hsplit, List.getElem?_append] at h
      split at h
      · obtain ⟨h1, h2⟩ := countBits_of_ascending h
        exact ⟨Nat.lt_succ_of_lt h1, h2⟩
      · split at h
        · rename_i hge hn
          obtain ⟨hi, hj⟩ : i - (ascending f n).length = 0 ∧ j = n := by
            rcases hd : i - (ascending f n).length with _ | d
            · rw [hd] at h
              exact ⟨rfl, (Option.some.inj h).symm⟩
            · rw [hd] at h
              cases h
          subst hj
          exact ⟨Nat.lt_succ_self _, hn, by omega⟩
        · cases h

/-- **What `bit_expand` does**: the low bits of `src`, in order, at the set positions of `mask`. -/
def Expands (bitExpand : BitVec w → BitVec w → BitVec w) : Prop :=
  ∀ src mask j, j < w →
    (bitExpand src mask).getLsbD j = (mask.getLsbD j && src.getLsbD (countBits mask.getLsbD j))

/-- The bits deposited one by one. -/
def expandBits (src mask : BitVec w) : BitVec w :=
  (BitVec.ofBoolListLE ((List.range w).map fun j =>
    mask.getLsbD j && src.getLsbD (countBits mask.getLsbD j))).setWidth w

theorem expands_expandBits : Expands (expandBits : BitVec w → BitVec w → BitVec w) := by
  intro src mask j hj
  unfold expandBits
  rw [BitVec.getLsbD_setWidth, BitVec.getLsbD_ofBoolListLE, decide_eq_true hj, Bool.true_and,
    List.getD_eq_getElem _ _ (by simpa using hj), List.getElem_map, List.getElem_range]

variable (bitExpand : BitVec w → BitVec w → BitVec w)

/-- `expanded`: without the hardware's own, a full mask passes the block through. -/
def expanded (inHardware : Bool) (src mask : BitVec w) : BitVec w :=
  if inHardware then bitExpand src mask
  else if mask = ones then src else bitExpand src mask

variable {bitExpand}

theorem getLsbD_expanded (h : Expands bitExpand) (inHardware : Bool) {src mask : BitVec w} {j : Nat}
    (hj : j < w) : (expanded bitExpand inHardware src mask).getLsbD j =
      (mask.getLsbD j && src.getLsbD (countBits mask.getLsbD j)) := by
  unfold expanded
  by_cases hh : inHardware = true
  · rw [if_pos hh]
    exact h src mask j hj
  · rw [if_neg hh]
    by_cases hm : mask = ones
    · have hall : countBits mask.getLsbD j = j := by
        rw [countBits_eq_iff]
        intro p hp
        rw [hm, getLsbD_ones, decide_eq_true (by omega)]
      rw [if_pos hm, hall, hm, getLsbD_ones, decide_eq_true hj, Bool.true_and]
    · rw [if_neg hm]
      exact h src mask j hj

/-- **A block combined under a mask** is the loop over the mask's positions in it. -/
theorem bitAt_combine (hw : 0 < w) {F : BitVec w → BitVec w → BitVec w → BitVec w}
    {c : Bool → Bool → Bool} (hF : Combines F c) {dst : List (BitVec w)} {h : Nat → Bool} {k t : Nat}
    {g : Nat → Bool} {e mask : BitVec w} (hk : k < dst.length)
    (hmask : ∀ j, j < w → mask.getLsbD j = h (k * w + j))
    (hclear : ∀ j, mask.getLsbD j = false → e.getLsbD j = false)
    (he : ∀ j, j < w → mask.getLsbD j = true → e.getLsbD j = g (t + countBits mask.getLsbD j)) :
    bitAt (dst.set k (F (dst.getD k zero) e mask)) =
      scatterLoop c (fun _ => g) (selected w h [k]) t (bitAt dst) := by
  have hpos : selected w h [k] = (ascending mask.getLsbD w).map (k * w + ·) := by
    unfold selected
    rw [List.flatMap_singleton, ascending_congr hmask]
  have hbit (j : Nat) (hj : j < w) :
      bitAt (dst.set k (F (dst.getD k zero) e mask)) (k * w + j) =
        if mask.getLsbD j = true then c (bitAt dst (k * w + j)) (e.getLsbD j)
        else bitAt dst (k * w + j) := by
    rw [bitAt_set hk, pos_div hj, if_pos rfl, pos_mod hj, hF _ _ _ hclear j hj, bitAt_pos hj]
  rw [hpos]
  refine eq_scatterLoop ?_ (fun i p hp => ?_) fun p hp => ?_
  · exact (List.nodup_range.filter _).map fun a b hab => Nat.add_left_cancel hab
  · rw [List.getElem?_map, Option.map_eq_some_iff] at hp
    obtain ⟨j, hj, hp⟩ := hp
    obtain ⟨hlt, hset, hcount⟩ := countBits_of_ascending hj
    rw [← hp, hbit j hlt, if_pos hset, he j hlt hset, hcount]
  · by_cases hq : p / w = k
    · obtain ⟨i, j, hj, rfl⟩ := exists_pos hw p
      rw [pos_div hj] at hq
      subst hq
      rw [hbit j hj, if_neg]
      intro hset
      exact hp (List.mem_map.mpr ⟨j, mem_ascending.mpr ⟨hj, hset⟩, rfl⟩)
    · rw [bitAt_set hk, if_neg hq]

end Deposit

/-! ## 4. Block by block -/

section Masks
variable {w : Nat} (bitExpand : BitVec w → BitVec w → BitVec w) (inHardware : Bool)

/-- The body of `expand_blocks`: the blocks written and the stream over the array read. -/
def expandStep (f : Combine) (src : LentBlocks w) (st : List (BitVec w) × BitStream w)
    (s : MaskStep w) : Option (List (BitVec w) × BitStream w) :=
  if h : s.block < st.1.length then
    (s.mask (st.1.get ⟨s.block, h⟩)).bind fun mask =>
      (st.2.take (src.get st.1) (s.count mask)).map fun taken =>
        (st.1.set s.block (f.block (st.1.get ⟨s.block, h⟩)
          (expanded bitExpand inHardware taken.1 mask) mask), taken.2)
  else none

/-- `expand_blocks`. -/
def expandMasks (f : Combine) (src : LentBlocks w) (steps : List (MaskStep w))
    (dst : List (BitVec w)) : Option (List (BitVec w)) :=
  (steps.foldlM (expandStep bitExpand inHardware f src) (dst, .start w)).map Prod.fst

/-- The same body under any function of a block, the bits deposited in it and the mask. -/
def expandBlocksStep (F : BitVec w → BitVec w → BitVec w → BitVec w) (src : LentBlocks w)
    (st : List (BitVec w) × BitStream w) (s : MaskStep w) :
    Option (List (BitVec w) × BitStream w) :=
  if h : s.block < st.1.length then
    (s.mask (st.1.get ⟨s.block, h⟩)).bind fun mask =>
      (st.2.take (src.get st.1) (s.count mask)).map fun taken =>
        (st.1.set s.block (F (st.1.get ⟨s.block, h⟩)
          (expanded bitExpand inHardware taken.1 mask) mask), taken.2)
  else none

/-- `expand_blocks` under any function. -/
def expandBlocks (F : BitVec w → BitVec w → BitVec w → BitVec w) (src : LentBlocks w)
    (steps : List (MaskStep w)) (dst : List (BitVec w)) : Option (List (BitVec w)) :=
  (steps.foldlM (expandBlocksStep bitExpand inHardware F src) (dst, .start w)).map Prod.fst

/-- A scatter is `expand_blocks` under its own function. -/
theorem expandMasks_eq {f : Combine} {src : LentBlocks w} {steps : List (MaskStep w)}
    {dst : List (BitVec w)} : expandMasks bitExpand inHardware f src steps dst =
      expandBlocks bitExpand inHardware f.block src steps dst := rfl

/-- `splat`: a block of one value. -/
def splat (value : Bool) : BitVec w := if value then ones else zero

/-- The body of `fill_blocks`. -/
def fillStep (f : Combine) (value : Bool) (dst : List (BitVec w)) (s : MaskStep w) :
    Option (List (BitVec w)) :=
  if h : s.block < dst.length then
    (s.mask (dst.get ⟨s.block, h⟩)).map fun mask =>
      dst.set s.block (f.block (dst.get ⟨s.block, h⟩) (mask &&& splat value) mask)
  else none

/-- `fill_blocks`. -/
def fillMasks (f : Combine) (value : Bool) (steps : List (MaskStep w)) (dst : List (BitVec w)) :
    Option (List (BitVec w)) :=
  steps.foldlM (fillStep f value) dst

variable {bitExpand} (f : Combine) {bs dst src : List (BitVec w)} {h : Nat → Bool}
  {k t : Nat} {ks : List Nat} {s : MaskStep w} {steps : List (MaskStep w)}

@[simp] theorem getLsbD_splat {value : Bool} {j : Nat} (hj : j < w) :
    (splat value : BitVec w).getLsbD j = value := by
  unfold splat
  cases value with
  | true => exact (getLsbD_ones).trans (decide_eq_true hj)
  | false => exact getLsbD_zero'

theorem selected_cons : selected w h (k :: ks) = selected w h [k] ++ selected w h ks := by
  unfold selected
  rw [List.flatMap_cons, List.flatMap_singleton]

/-- A block's mask has as many bits as positions are selected in it. -/
theorem length_selected_block {mask : BitVec w}
    (hbits : ∀ j, j < w → mask.getLsbD j = h (k * w + j)) :
    (selected w h [k]).length = popcount mask := by
  unfold selected popcount
  rw [List.flatMap_singleton, List.length_map, ← ascending_congr hbits]
  exact length_filter_range

/-- A step of the walk writes its own block: what it reads, and what it leaves. -/
theorem expandStep_spec (hw : 0 < w) (hx : Expands bitExpand)
    {F : BitVec w → BitVec w → BitVec w → BitVec w} {c : Bool → Bool → Bool} (hF : Combines F c)
    {st : BitStream w}
    {lent : LentBlocks w} (hs : s.Visits bs h k) (hk : k < dst.length)
    (hblock : dst.getD k zero = bs.getD k zero) (hlent : lent.get dst = src) (hst : st.At src t)
    (hin : t + (selected w h [k]).length ≤ src.length * w) :
    ∃ out st', expandBlocksStep bitExpand inHardware F lent (dst, st) s = some (out, st') ∧
      out.length = dst.length ∧ (∀ i, i ≠ k → out.getD i zero = dst.getD i zero) ∧
      st'.At src (t + (selected w h [k]).length) ∧
      bitAt out = scatterLoop c (fun _ => bitAt src) (selected w h [k]) t (bitAt dst) := by
  obtain ⟨rfl, mask, hmask, hcount, hbits⟩ := hs
  rw [length_selected_block hbits] at hin ⊢
  obtain ⟨bits, st', htake, hst', hread⟩ := hst.take countBits_le hin
  have hget : dst.get ⟨s.block, hk⟩ = dst.getD s.block zero := (List.getD_eq_getElem _ _ hk).symm
  have hstep : expandBlocksStep bitExpand inHardware F lent (dst, st) s =
      some (dst.set s.block (F (dst.getD s.block zero)
        (expanded bitExpand inHardware bits mask) mask), st') := by
    unfold expandBlocksStep
    rw [dif_pos hk]
    dsimp only
    rw [hget, hblock, hmask, Option.bind_some, hcount, hlent]
    exact congrArg (Option.map _) htake
  refine ⟨_, _, hstep, List.length_set, fun i hi => getD_set_ne (Ne.symm hi), hst', ?_⟩
  refine bitAt_combine hw hF hk hbits (fun j hj => ?_) fun j hj hset => ?_
  · by_cases hlt : j < w
    · rw [getLsbD_expanded hx _ hlt, hj, Bool.false_and]
    · exact BitVec.getLsbD_of_ge _ _ (by omega)
  · rw [getLsbD_expanded hx _ hj, hset, Bool.true_and]
    refine hread _ ?_
    have hone : countBits mask.getLsbD (j + 1) = countBits mask.getLsbD j + 1 := by
      rw [countBits_succ, hset]
      rfl
    have := countBits_mono (f := mask.getLsbD) (show j + 1 ≤ w from hj)
    omega

/-- **Along a walk** the elements of another array go to the positions selected, in order. -/
theorem expandBlocks_loop (hw : 0 < w) (hx : Expands bitExpand)
    {F : BitVec w → BitVec w → BitVec w → BitVec w} {c : Bool → Bool → Bool} (hF : Combines F c)
    (hvisits : List.Forall₂ (MaskStep.Visits bs h) steps ks) :
    ∀ {dst : List (BitVec w)} {st : BitStream w} {t : Nat}, ks.Pairwise (· < ·) →
      (∀ k, k ∈ ks → k < dst.length ∧ dst.getD k zero = bs.getD k zero) → st.At src t →
      t + (selected w h ks).length ≤ src.length * w →
      ∃ out st', steps.foldlM (expandBlocksStep bitExpand inHardware F (.of src)) (dst, st) =
          some (out, st') ∧ out.length = dst.length ∧
        bitAt out = scatterLoop c (fun _ => bitAt src) (selected w h ks) t (bitAt dst) := by
  induction hvisits with
  | nil =>
      intro dst st t _ _ _ _
      exact ⟨dst, st, rfl, rfl, rfl⟩
  | @cons s k steps ks hs _ ih =>
      intro dst st t hasc hks hst hin
      obtain ⟨hlt, hasc⟩ := List.pairwise_cons.mp hasc
      obtain ⟨hk, hblock⟩ := hks k List.mem_cons_self
      rw [selected_cons, List.length_append] at hin
      obtain ⟨d, st', hstep, hdl, hother, hst', hd⟩ := expandStep_spec inHardware hw hx hF hs hk
        hblock (show (LentBlocks.of src).get dst = src from rfl) hst (by omega)
      obtain ⟨out, st'', hfold, hol, hout⟩ := ih hasc (fun i hi => by
        obtain ⟨h1, h2⟩ := hks i (List.mem_cons_of_mem _ hi)
        exact ⟨by omega, (hother i (by have := hlt i hi; omega)).trans h2⟩) hst' (by omega)
      refine ⟨out, st'', ?_, hol.trans hdl, ?_⟩
      · rw [List.foldlM_cons, hstep]
        exact hfold
      · rw [hout, hd, @selected_cons _ h k ks, scatterLoop_append]

/-- **`expand_blocks` along a walk**, from another array. -/
theorem expandBlocks_spec (hw : 0 < w) (hx : Expands bitExpand)
    {F : BitVec w → BitVec w → BitVec w → BitVec w} {c : Bool → Bool → Bool} (hF : Combines F c)
    (hwalk : Walks dst h ks steps) (hin : (selected w h ks).length ≤ src.length * w) :
    ∃ out, expandBlocks bitExpand inHardware F (.of src) steps dst = some out ∧
      out.length = dst.length ∧
      bitAt out = scatterLoop c (fun _ => bitAt src) (selected w h ks) 0 (bitAt dst) := by
  obtain ⟨out, st, hfold, hol, hout⟩ := expandBlocks_loop inHardware hw hx hF hwalk.visits
    hwalk.ascends (fun k hk => ⟨hwalk.within k hk, rfl⟩) (BitStream.start_at hw)
    (by rwa [Nat.zero_add])
  refine ⟨out, ?_, hol, hout⟩
  unfold expandBlocks
  rw [hfold]
  rfl

/-- **The mask path**, from another array. -/
theorem expandMasks_spec (hw : 0 < w) (hx : Expands bitExpand) (hwalk : Walks dst h ks steps)
    (hin : (selected w h ks).length ≤ src.length * w) :
    ∃ out, expandMasks bitExpand inHardware f (.of src) steps dst = some out ∧
      out.length = dst.length ∧
      bitAt out = scatterLoop f.bit (fun _ => bitAt src) (selected w h ks) 0 (bitAt dst) := by
  rw [expandMasks_eq]
  exact expandBlocks_spec inHardware hw hx f.combines hwalk hin

/-- A position selected lies in its block. -/
theorem mem_selected {p : Nat} (hp : p ∈ selected w h ks) :
    ∃ i j, i ∈ ks ∧ j < w ∧ p = i * w + j := by
  obtain ⟨i, hi, hp⟩ := List.mem_flatMap.mp hp
  obtain ⟨j, hj, hp⟩ := List.mem_map.mp hp
  exact ⟨i, j, hi, (mem_ascending.mp hj).1, hp.symm⟩

/-- The positions of ascending blocks ascend. -/
theorem selected_ascends (hks : ks.Pairwise (· < ·)) : (selected w h ks).Pairwise (· < ·) := by
  unfold selected
  rw [List.pairwise_flatMap]
  refine ⟨fun k _ => ?_, hks.imp fun {k l} hkl p hp q hq => ?_⟩
  · rw [List.pairwise_map]
    exact (List.pairwise_lt_range.filter _).imp fun hab => Nat.add_lt_add_left hab _
  · obtain ⟨i, hi, rfl⟩ := List.mem_map.mp hp
    obtain ⟨j, hj, rfl⟩ := List.mem_map.mp hq
    have hiw := (mem_ascending.mp hi).1
    have hle := Nat.mul_le_mul_right w (show k + 1 ≤ l from hkl)
    rw [Nat.succ_mul] at hle
    omega

/-- The stream looks at a block only where the register does not suffice. -/
theorem BitStream.take_congr {st : BitStream w} {src src' : List (BitVec w)} {count : Nat}
    (h : count ≤ st.avail ∨ src[st.next]? = src'[st.next]?) :
    st.take src count = st.take src' count := by
  unfold BitStream.take
  by_cases hle : count ≤ st.avail
  · rw [if_pos hle, if_pos hle]
  · rw [if_neg hle, if_neg hle, h.resolve_left hle]

/-- A block in which an aligned position is selected, the stream's next, is the stream's next. -/
theorem BitStream.At.next_block {st : BitStream w} (hw : 0 < w) (hst : st.At bs t)
    (hmem : t ∈ selected w h [k]) (haligned : t % w = 0) :
    t = k * w ∧ st.avail = 0 ∧ st.next = k := by
  obtain ⟨i, j, hi, hj, ht⟩ := mem_selected hmem
  obtain rfl : i = k := List.mem_singleton.mp hi
  rw [ht, pos_mod hj] at haligned
  subst haligned
  have hpos := hst.position
  rw [ht, Nat.add_zero] at hpos
  have hsame := (pos_inj hst.short hw).mp
    (show i * w + st.avail = st.next * w + 0 by omega)
  exact ⟨by omega, hsame.2, hsame.1.symm⟩

/-- **A step reads the same of its own array and of the array as it was**, where it reads from the
    register alone or the block it is about to write. -/
theorem expandStep_own {d : List (BitVec w)} {st : BitStream w} (hs : s.Visits bs h k)
    (hk : k < d.length) (hlen : d.length = bs.length) (hblock : d.getD k zero = bs.getD k zero)
    (hread : (selected w h [k]).length ≤ st.avail ∨ st.next = k) :
    expandStep bitExpand inHardware f .own (d, st) s =
      expandStep bitExpand inHardware f (.of bs) (d, st) s := by
  obtain ⟨rfl, mask, hmask, hcount, hbits⟩ := hs
  rw [length_selected_block hbits] at hread
  have hget : d.get ⟨s.block, hk⟩ = d.getD s.block zero := (List.getD_eq_getElem _ _ hk).symm
  unfold expandStep
  rw [dif_pos hk, dif_pos hk]
  dsimp only
  rw [hget, hblock, hmask, Option.bind_some, Option.bind_some, hcount]
  refine congrArg _ (BitStream.take_congr (hread.imp_right fun hnext => ?_))
  show d[st.next]? = bs[st.next]?
  rw [hnext, List.getElem?_eq_getElem hk, List.getElem?_eq_getElem (by omega)]
  rw [List.getD_eq_getElem _ _ hk, List.getD_eq_getElem _ _ (by omega)] at hblock
  rw [hblock]

/-- Consecutive positions, those of the first block taken. -/
theorem selected_rest {m : Nat} (hsel : selected w h (k :: ks) = List.range' t m) :
    (selected w h [k]).length + (selected w h ks).length = m ∧
      selected w h [k] = List.range' t (selected w h [k]).length ∧
      selected w h ks = List.range' (t + (selected w h [k]).length)
        (m - (selected w h [k]).length) := by
  rw [selected_cons] at hsel
  have hm : (selected w h [k]).length + (selected w h ks).length = m := by
    rw [← List.length_append, hsel, List.length_range']
  have hsplit : List.range' t (selected w h [k]).length ++
      List.range' (t + (selected w h [k]).length) (m - (selected w h [k]).length) =
        List.range' t m := by
    rw [List.range'_append_1, Nat.add_sub_cancel' (by omega)]
  obtain ⟨hhere, hrest⟩ := List.append_inj (hsel.trans hsplit.symm) List.length_range'.symm
  exact ⟨hm, hhere, hrest⟩

/-- **An array read into itself in place** is read before it is written: where consecutive positions
    are selected, each block is read by its own step. -/
theorem expandMasks_own_loop (hw : 0 < w) (hx : Expands bitExpand)
    (hvisits : List.Forall₂ (MaskStep.Visits bs h) steps ks) :
    ∀ {d : List (BitVec w)} {st : BitStream w} {t m : Nat}, ks.Pairwise (· < ·) →
      d.length = bs.length → (∀ k, k ∈ ks → k < d.length ∧ d.getD k zero = bs.getD k zero) →
      selected w h ks = List.range' t m → st.At bs t → t + m ≤ bs.length * w →
      (0 < m → t % w = 0) →
      steps.foldlM (expandStep bitExpand inHardware f .own) (d, st) =
        steps.foldlM (expandStep bitExpand inHardware f (.of bs)) (d, st) := by
  induction hvisits with
  | nil =>
      intro d st t m _ _ _ _ _ _ _
      rfl
  | @cons s k steps ks hs _ ih =>
      intro d st t m hasc hlen hks hsel hst hin haligned
      obtain ⟨hlt, hasc⟩ := List.pairwise_cons.mp hasc
      obtain ⟨hk, hblock⟩ := hks k List.mem_cons_self
      obtain ⟨hm, hhere, hrest⟩ := selected_rest hsel
      obtain ⟨out, st', hstep, hol, hother, hst', -⟩ := expandStep_spec inHardware hw hx f.combines
        hs hk hblock (show (LentBlocks.of bs).get d = bs from rfl) hst (by omega)
      have hcw : (selected w h [k]).length ≤ w := by
        obtain ⟨-, mask, -, -, hbits⟩ := hs
        rw [length_selected_block hbits]
        exact countBits_le
      generalize hc : (selected w h [k]).length = c at hm hhere hrest hst' hcw
      have hfirst (h0 : 0 < c) : t = k * w ∧ st.avail = 0 ∧ st.next = k := by
        refine hst.next_block hw (h := h) ?_ (haligned (by omega))
        rw [hhere, List.mem_range'_1]
        omega
      have hread : (selected w h [k]).length ≤ st.avail ∨ st.next = k := by
        rw [hc]
        rcases Nat.eq_zero_or_pos c with h0 | h0
        · exact Or.inl (by omega)
        · exact Or.inr (hfirst h0).2.2
      rw [List.foldlM_cons, List.foldlM_cons, expandStep_own inHardware f hs hk hlen hblock hread,
        show expandStep bitExpand inHardware f (.of bs) (d, st) s = some (out, st') from hstep]
      refine ih hasc (hol.trans hlen) (fun i hi => ?_) hrest hst' (by omega) fun hm' => ?_
      · obtain ⟨h1, h2⟩ := hks i (List.mem_cons_of_mem _ hi)
        exact ⟨by omega, (hother i (by have := hlt i hi; omega)).trans h2⟩
      · rcases Nat.eq_zero_or_pos c with h0 | h0
        · rw [h0, Nat.add_zero]
          exact haligned (by omega)
        · -- the next position lies in a later block, so this one was selected whole
          obtain ⟨ht, -, -⟩ := hfirst h0
          have hmem : t + c ∈ selected w h ks := by
            rw [hrest, List.mem_range'_1]
            omega
          obtain ⟨i, j, hi, hj, hp⟩ := mem_selected hmem
          have hle := Nat.mul_le_mul_right w (show k + 1 ≤ i from hlt i hi)
          rw [Nat.succ_mul] at hle
          rw [show t + c = (k + 1) * w by rw [Nat.succ_mul]; omega, Nat.mul_mod_left]

/-- **The mask path**, from any array: one that is lent its own blocks has its elements selected in
    place. -/
theorem expandMasks_lent (hw : 0 < w) (hx : Expands bitExpand) (hwalk : Walks dst h ks steps)
    {lent : LentBlocks w} (hin : (selected w h ks).length ≤ (lent.get dst).length * w)
    (hown : lent = .own → ∃ n, selected w h ks = List.range n) :
    ∃ out, expandMasks bitExpand inHardware f lent steps dst = some out ∧
      out.length = dst.length ∧
      bitAt out = scatterLoop f.bit lent.bits (selected w h ks) 0 (bitAt dst) := by
  cases lent with
  | of src => exact expandMasks_spec inHardware f hw hx hwalk hin
  | own =>
      obtain ⟨n, hn⟩ := hown rfl
      obtain ⟨out, hout, hol, hbits⟩ := expandMasks_spec inHardware f hw hx hwalk hin
      refine ⟨out, ?_, hol, ?_⟩
      · rw [← hout]
        unfold expandMasks
        congr 1
        rw [List.range_eq_range'] at hn
        have hin : (selected w h ks).length ≤ dst.length * w := hin
        rw [hn, List.length_range'] at hin
        exact expandMasks_own_loop inHardware f hw hx hwalk.visits hwalk.ascends rfl
          (fun k hk => ⟨hwalk.within k hk, rfl⟩) hn (BitStream.start_at hw) (by omega)
          fun _ => Nat.zero_mod w
      · rw [hbits, hn, List.range_eq_range']
        exact (scatterLoop_self fun _ _ => rfl).symm

/-- **A value along a walk** goes to the positions selected. -/
theorem fillMasks_loop (hw : 0 < w) {value : Bool}
    (hvisits : List.Forall₂ (MaskStep.Visits bs h) steps ks) :
    ∀ {dst : List (BitVec w)} {t : Nat}, ks.Pairwise (· < ·) →
      (∀ k, k ∈ ks → k < dst.length ∧ dst.getD k zero = bs.getD k zero) →
      ∃ out, fillMasks f value steps dst = some out ∧ out.length = dst.length ∧
        bitAt out = scatterLoop f.bit (fun _ _ => value) (selected w h ks) t (bitAt dst) := by
  induction hvisits with
  | nil =>
      intro dst t _ _
      exact ⟨dst, rfl, rfl, rfl⟩
  | @cons s k steps ks hs _ ih =>
      intro dst t hasc hks
      obtain ⟨hlt, hasc'⟩ := List.pairwise_cons.mp hasc
      obtain ⟨hk, hblock⟩ := hks k List.mem_cons_self
      obtain ⟨rfl, mask, hmask, -, hbits⟩ := hs
      have hget : dst.get ⟨s.block, hk⟩ = dst.getD s.block zero :=
        (List.getD_eq_getElem _ _ hk).symm
      have hstep : fillStep f value dst s =
          some (dst.set s.block (f.block (dst.getD s.block zero) (mask &&& splat value) mask)) := by
        unfold fillStep
        rw [dif_pos hk, hget, hblock, hmask]
        rfl
      have hset := bitAt_combine (t := t) (g := fun _ => value) (e := mask &&& splat value) hw
        f.combines hk
        hbits (fun j hj => by rw [BitVec.getLsbD_and, hj, Bool.false_and])
        fun j hj hset => by rw [BitVec.getLsbD_and, hset, Bool.true_and, getLsbD_splat hj]
      generalize f.block (dst.getD s.block zero) (mask &&& splat value) mask = b at hset hstep
      have hrest : ∀ i, i ∈ ks →
          i < (dst.set s.block b).length ∧ (dst.set s.block b).getD i zero = bs.getD i zero := by
        intro i hi
        obtain ⟨h1, h2⟩ := hks i (List.mem_cons_of_mem _ hi)
        rw [List.length_set, getD_set_ne (Nat.ne_of_lt (hlt i hi))]
        exact ⟨h1, h2⟩
      obtain ⟨out, hfold, hol, hout⟩ := ih (t := t + (selected w h [s.block]).length) hasc' hrest
      refine ⟨out, ?_, hol.trans List.length_set, ?_⟩
      · unfold fillMasks at hfold ⊢
        rw [List.foldlM_cons, hstep]
        exact hfold
      · rw [hout, hset, @selected_cons _ h s.block ks, scatterLoop_append]

theorem fillMasks_spec (hw : 0 < w) {value : Bool} (hwalk : Walks dst h ks steps) :
    ∃ out, fillMasks f value steps dst = some out ∧ out.length = dst.length ∧
      bitAt out = scatterLoop f.bit (fun _ _ => value) (selected w h ks) 0 (bitAt dst) :=
  fillMasks_loop f hw hwalk.visits hwalk.ascends fun k hk => ⟨hwalk.within k hk, rfl⟩

end Masks

/-! ## 5. Position by position -/

section Indices
variable {w : Nat} (f : Combine)

/-- The body of `expand_indices`: one position is a block whose mask has one bit. -/
def expandOne (src : LentBlocks w) (index : Nat → Option SizeT) (dst : List (BitVec w)) (j : Nat) :
    Option (List (BitVec w)) :=
  (index j).bind fun pos =>
    if h : pos.toNat / w < dst.length then
      (bitAsBlock (src.get dst) j).map fun bit =>
        dst.set (pos.toNat / w) (f.block (dst.get ⟨pos.toNat / w, h⟩) (shl bit (pos.toNat % w))
          (shl unit (pos.toNat % w)))
    else none

/-- `expand_indices`. -/
def expandIndices (src : LentBlocks w) (count : Nat) (index : Nat → Option SizeT)
    (dst : List (BitVec w)) : Option (List (BitVec w)) :=
  (List.range count).foldlM (expandOne f src index) dst

/-- The body of `fill_indices`. -/
def fillOne (value : Bool) (index : Nat → Option SizeT) (dst : List (BitVec w)) (j : Nat) :
    Option (List (BitVec w)) :=
  (index j).bind fun pos =>
    if h : pos.toNat / w < dst.length then
      some (dst.set (pos.toNat / w) (f.block (dst.get ⟨pos.toNat / w, h⟩)
        (shl unit (pos.toNat % w) &&& splat value) (shl unit (pos.toNat % w))))
    else none

/-- `fill_indices`. -/
def fillIndices (value : Bool) (count : Nat) (index : Nat → Option SizeT) (dst : List (BitVec w)) :
    Option (List (BitVec w)) :=
  (List.range count).foldlM (fillOne f value index) dst

variable {dst : List (BitVec w)} {ps : List SizeT} {index : Nat → Option SizeT}

/-- One position combined with one bit. -/
theorem bitAt_combine_one {p : Nat} {v : Bool} {e : BitVec w} (hw : 0 < w) (hp : p / w < dst.length)
    (he : ∀ j, j < w → e.getLsbD j = (decide (j = p % w) && v)) :
    bitAt (dst.set (p / w) (f.block (dst.get ⟨p / w, hp⟩) e (shl unit (p % w)))) =
      Function.update (bitAt dst) p (f.bit (bitAt dst p) v) := by
  obtain ⟨i, r, hr, rfl⟩ := exists_pos hw p
  have hi : (i * w + r) / w = i := pos_div hr
  have hir : (i * w + r) % w = r := pos_mod hr
  simp only [hi, hir] at hp he ⊢
  have hget : dst.get ⟨i, hp⟩ = dst.getD i zero := (List.getD_eq_getElem _ _ hp).symm
  funext q
  obtain ⟨k, j, hj, rfl⟩ := exists_pos hw q
  rw [bitAt_set hp, pos_div hj, pos_mod hj, hget]
  by_cases hk : k = i
  · subst hk
    have hmask : (shl (unit : BitVec w) r).getLsbD j = decide (j = r) := getLsbD_unit_shl hj
    rw [if_pos rfl, f.getLsbD_block hj (fun hm => by rw [he j hj, ← hmask, hm, Bool.false_and]),
      ← bitAt_pos hj, he j hj]
    by_cases hjr : j = r
    · rw [decide_eq_true hjr] at hmask ⊢
      rw [if_pos hmask, Bool.true_and, hjr, Function.update_self]
    · rw [decide_eq_false hjr] at hmask
      rw [if_neg (by rw [hmask]; exact Bool.false_ne_true), Function.update_of_ne (by omega)]
  · rw [if_neg hk, Function.update_of_ne]
    intro heq
    exact hk ((pos_inj hj hr).mp heq).1

/-- **A loop over positions**, one write after the other, is the loop over the elements. -/
theorem foldlM_positions (read : (Nat → Bool) → Nat → Bool)
    {one : List (BitVec w) → Nat → Option (List (BitVec w))} (hindex : ∀ j, index j = ps[j]?)
    (hone : ∀ d j pos, d.length = dst.length → index j = some pos → ∃ out, one d j = some out ∧
      out.length = d.length ∧ bitAt out = Function.update (bitAt d) pos.toNat
        (f.bit (bitAt d pos.toNat) (read (bitAt d) j))) :
    ∀ m, m ≤ ps.length → ∃ out, (List.range m).foldlM one dst = some out ∧
      out.length = dst.length ∧
      bitAt out = scatterLoop f.bit read ((ps.take m).map BitVec.toNat) 0 (bitAt dst) := by
  intro m
  induction m with
  | zero =>
      intro _
      exact ⟨dst, rfl, rfl, rfl⟩
  | succ m ih =>
      intro hm
      obtain ⟨d, hfold, hlen, hd⟩ := ih (by omega)
      have hget : index m = some (ps.get ⟨m, hm⟩) := by
        rw [hindex, List.getElem?_eq_getElem hm]
        rfl
      obtain ⟨out, hout, hol, hbits⟩ := hone d m _ hlen hget
      refine ⟨out, ?_, hol.trans hlen, ?_⟩
      · rw [List.range_succ, List.foldlM_append, hfold]
        show [m].foldlM one d = some out
        rw [List.foldlM_cons, hout]
        rfl
      · have hsplit : (ps.take (m + 1)).map BitVec.toNat =
            (ps.take m).map BitVec.toNat ++ [(ps.get ⟨m, hm⟩).toNat] := by
          rw [List.take_succ_eq_append_getElem (by omega), List.map_append]
          rfl
        have hcount : ((ps.take m).map BitVec.toNat).length = m := by
          rw [List.length_map, List.length_take]
          omega
        rw [hsplit, scatterLoop_append, ← hd, hcount, Nat.zero_add, hbits]
        rfl

/-- **The index path**, from any array. -/
theorem expandIndices_spec (hw : 0 < w) {src : LentBlocks w} (hindex : ∀ j, index j = ps[j]?)
    (hin : ∀ p, p ∈ ps → p.toNat / w < dst.length)
    (hsrc : ps.length ≤ (src.get dst).length * w) :
    ∃ out, expandIndices f src ps.length index dst = some out ∧ out.length = dst.length ∧
      bitAt out = scatterLoop f.bit src.bits (ps.map BitVec.toNat) 0 (bitAt dst) := by
  suffices hone : ∀ (d : List (BitVec w)) j pos, d.length = dst.length → index j = some pos →
      ∃ out, expandOne f src index d j = some out ∧ out.length = d.length ∧
        bitAt out = Function.update (bitAt d) pos.toNat
          (f.bit (bitAt d pos.toNat) (src.bits (bitAt d) j)) by
    have hloop := foldlM_positions f src.bits hindex hone ps.length (Nat.le_refl _)
    rw [List.take_length] at hloop
    exact hloop
  · intro d j pos hd hj
    have hmem : ps[j]? = some pos := (hindex j).symm.trans hj
    have hp : pos.toNat / w < d.length := hd ▸ hin pos (List.mem_of_getElem? hmem)
    have hjlt : j < ps.length := (List.getElem?_eq_some_iff.mp hmem).1
    have hjs : j / w < (src.get d).length := by
      refine (Nat.div_lt_iff_lt_mul hw).mpr (Nat.lt_of_lt_of_le hjlt ?_)
      cases src with
      | own =>
          show ps.length ≤ d.length * w
          rw [hd]
          exact hsrc
      | of blocks => exact hsrc
    obtain ⟨bit, hbit, hbits⟩ := bitAsBlock_some hjs
    have hmod := Nat.mod_lt pos.toNat hw
    refine ⟨_, ?_, List.length_set, bitAt_combine_one (e := shl bit (pos.toNat % w)) f hw hp
      fun i hi => ?_⟩
    · unfold expandOne
      rw [hj, Option.bind_some, dif_pos hp, hbit]
      rfl
    · rw [getLsbD_shl hi]
      by_cases hlt : i < pos.toNat % w
      · rw [decide_eq_false (show ¬ pos.toNat % w ≤ i by omega), Bool.false_and,
          decide_eq_false (by omega), Bool.false_and]
      · rw [decide_eq_true (show pos.toNat % w ≤ i by omega), Bool.true_and, hbits _ (by omega),
          LentBlocks.bitAt_get]
        by_cases heq : i = pos.toNat % w
        · rw [decide_eq_true heq, Bool.true_and, heq, Nat.sub_self]
          rfl
        · rw [decide_eq_false heq, Bool.false_and, List.getD_eq_default]
          show 1 ≤ i - pos.toNat % w
          omega

/-- **A value position by position.** -/
theorem fillIndices_spec (hw : 0 < w) {value : Bool} (hindex : ∀ j, index j = ps[j]?)
    (hin : ∀ p, p ∈ ps → p.toNat / w < dst.length) :
    ∃ out, fillIndices f value ps.length index dst = some out ∧ out.length = dst.length ∧
      bitAt out = scatterLoop f.bit (fun _ _ => value) (ps.map BitVec.toNat) 0 (bitAt dst) := by
  suffices hone : ∀ (d : List (BitVec w)) j pos, d.length = dst.length → index j = some pos →
      ∃ out, fillOne f value index d j = some out ∧ out.length = d.length ∧
        bitAt out = Function.update (bitAt d) pos.toNat (f.bit (bitAt d pos.toNat) value) by
    have hloop := foldlM_positions f (fun _ _ => value) hindex hone ps.length (Nat.le_refl _)
    rw [List.take_length] at hloop
    exact hloop
  · intro d j pos hd hj
    have hmem : ps[j]? = some pos := (hindex j).symm.trans hj
    have hp : pos.toNat / w < d.length := hd ▸ hin pos (List.mem_of_getElem? hmem)
    refine ⟨_, ?_, List.length_set, bitAt_combine_one
      (e := shl unit (pos.toNat % w) &&& splat value) f hw hp fun i hi => ?_⟩
    · unfold fillOne
      rw [hj, Option.bind_some, dif_pos hp]
    · rw [BitVec.getLsbD_and, getLsbD_unit_shl hi, getLsbD_splat hi]

end Indices

end XstdBits
