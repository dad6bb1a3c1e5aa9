/-
  File: XstdBits/Valarray/Gather.lean
  Subject: `gather`, the selected elements packed in order into a valarray of their own.

  Two paths: `compress_blocks` packs what each mask selects of a block and collects it in a
  register, which is stored whenever it is full; `gather_indices` collects one element at a time.
  * `Packer.Holds p vs`: the register and the blocks stored so far hold the values `vs`, in order.
    `Packer.Holds.take` is its step, `Packer.Holds.finish` what it says of the result.
  * `compressBlocks_words`, `gatherIndices_spec`: either path packs the selected elements.

  `bit_compress` comes with the integers and is a parameter here; `Compresses` is what it does.
-/
import XstdBits.Valarray.Masks

namespace XstdBits

/-! ## 1. The register -/

/-- The locals of `compress_blocks`: the blocks written, how many, and the register over the next
    one with the number of bits in it. -/
structure Packer (w : Nat) where
  dst : List (BitVec w)
  out : Nat
  fill : Nat
  acc : BitVec w

namespace Packer
variable {w : Nat}

/-- `dst[out] = b`, which has no outcome past the end. -/
def store (dst : List (BitVec w)) (out : Nat) (b : BitVec w) : Option (List (BitVec w)) :=
  if out < dst.length then some (dst.set out b) else none

/-- The packed bits of one block join the register, which is stored once it is full. -/
def take (p : Packer w) (packed : BitVec w) (count : Nat) : Option (Packer w) :=
  let acc := p.acc ||| shl packed p.fill
  if w ≤ p.fill + count then
    (store p.dst p.out acc).map fun dst =>
      ⟨dst, p.out + 1, p.fill + count - w, shr (shr packed 1) (w - p.fill - 1)⟩
  else some ⟨p.dst, p.out, p.fill + count, acc⟩

/-- What is left in the register goes to a last block. -/
def finish (p : Packer w) : Option (List (BitVec w)) :=
  if p.fill ≠ 0 then store p.dst p.out p.acc else some p.dst

/-- **The blocks stored and the register hold `vs`.** -/
structure Holds (p : Packer w) (vs : List Bool) : Prop where
  length : vs.length = p.out * w + p.fill
  room : p.fill < w
  stored : ∀ q, q < p.out * w → bitAt p.dst q = vs.getD q false
  register : ∀ j, j < w → p.acc.getLsbD j = vs.getD (p.out * w + j) false

variable {p : Packer w} {vs us : List Bool}

theorem init_holds {dst : List (BitVec w)} (hw : 0 < w) :
    Holds (⟨dst, 0, 0, zero⟩ : Packer w) [] :=
  ⟨by rw [Nat.zero_mul]; rfl, hw, fun q hq => absurd hq (by rw [Nat.zero_mul]; exact Nat.not_lt_zero q),
    fun j _ => by rw [getLsbD_zero']; rfl⟩

/-- A stored block reads back, and the ones before it are as they were. -/
theorem store_spec {dst : List (BitVec w)} {out : Nat} {b : BitVec w} (h : out < dst.length) :
    ∃ d, store dst out b = some d ∧ d.length = dst.length ∧
      ∀ q, q / w ≤ out → bitAt d q = if q / w = out then b.getLsbD (q % w) else bitAt dst q :=
  ⟨_, if_pos h, List.length_set, fun _ _ => bitAt_set h⟩

/-- **One step** adds the packed values. -/
theorem Holds.take (h : Holds p vs) (packed : BitVec w)
    (hp : ∀ j, j < w → packed.getLsbD j = us.getD j false) (hle : us.length ≤ w)
    (hin : (vs ++ us).length ≤ p.dst.length * w) :
    ∃ q, p.take packed us.length = some q ∧ Holds q (vs ++ us) ∧ q.dst.length = p.dst.length := by
  have hroom := h.room
  have hlen := h.length
  rw [List.length_append] at hin
  have hjoined : ∀ j, j < w →
      (p.acc ||| shl packed p.fill).getLsbD j = (vs ++ us).getD (p.out * w + j) false := by
    intro j hj
    rw [BitVec.getLsbD_or, h.register j hj, getLsbD_shl hj, getD_append']
    by_cases hf : p.fill ≤ j
    · rw [decide_eq_true hf, Bool.true_and, hp _ (by omega),
        List.getD_eq_default vs _ (by omega), Bool.false_or, if_neg (by omega)]
      congr 1
      omega
    · rw [decide_eq_false hf, Bool.false_and, Bool.or_false, if_pos (by omega)]
  unfold Packer.take
  by_cases hfull : w ≤ p.fill + us.length
  · have hout : p.out < p.dst.length := by
      refine block_lt_of_mul_lt (w := w) ?_
      omega
    obtain ⟨d, hd, hdl, hbits⟩ := store_spec (b := p.acc ||| shl packed p.fill) hout
    dsimp only
    rw [if_pos hfull, hd]
    refine ⟨_, rfl, ⟨?_, ?_, ?_, ?_⟩, hdl⟩
    · show (vs ++ us).length = (p.out + 1) * w + (p.fill + us.length - w)
      rw [List.length_append, Nat.succ_mul]
      omega
    · show p.fill + us.length - w < w
      omega
    · intro q hq
      obtain ⟨i, j, hj, rfl⟩ := exists_pos (w := w) (by omega) q
      have hi : i ≤ p.out := Nat.le_of_lt_succ ((pos_lt_iff hj).mp hq)
      rw [hbits _ (by rw [pos_div hj]; exact hi), pos_div hj, pos_mod hj]
      by_cases hio : i = p.out
      · rw [if_pos hio, hjoined j hj, hio]
      · have hlt : i * w + j < p.out * w := (pos_lt_iff hj).mpr (by omega)
        rw [if_neg hio, h.stored _ hlt, getD_append', if_pos (by omega)]
    · intro j hj
      show (shr (shr packed 1) (w - p.fill - 1)).getLsbD j = _
      rw [getLsbD_shr, getLsbD_shr, getD_append', if_neg (by rw [Nat.succ_mul]; omega),
        Nat.succ_mul, show 1 + (w - p.fill - 1 + j) = p.out * w + w + j - vs.length by omega]
      by_cases hin' : p.out * w + w + j - vs.length < w
      · exact hp _ hin'
      · rw [BitVec.getLsbD_of_ge _ _ (by omega), List.getD_eq_default _ _ (by omega)]
  · dsimp only
    rw [if_neg hfull]
    refine ⟨_, rfl, ⟨?_, ?_, ?_, hjoined⟩, rfl⟩
    · rw [List.length_append, hlen]
      exact Nat.add_assoc _ _ _
    · show p.fill + us.length < w
      omega
    · intro q hq
      have hq : q < p.out * w := hq
      rw [getD_append', if_pos (by omega)]
      exact h.stored q hq

/-- **The result holds exactly the values**, clear past the last of them. -/
theorem Holds.finish (h : Holds p vs) (hlen : p.dst.length = blocksFor w vs.length) :
    ∃ d, p.finish = some d ∧ d.length = p.dst.length ∧ ∀ q, bitAt d q = vs.getD q false := by
  have hroom := h.room
  have hvs := h.length
  have hw : 0 < w := by omega
  obtain ⟨h1, h2⟩ := (blocksFor_eq_iff hw).mp hlen.symm
  unfold Packer.finish
  by_cases hf : p.fill = 0
  · have hout : p.dst.length = p.out := by
      rw [hlen, hvs, hf, Nat.add_zero]
      exact blocksFor_mul_self hw
    rw [if_neg (not_not.mpr hf)]
    refine ⟨_, rfl, rfl, fun q => ?_⟩
    by_cases hq : q < p.out * w
    · exact h.stored q hq
    · rw [bitAt_of_le hw (by rw [hout]; omega), List.getD_eq_default _ _ (by omega)]
  · have hout : p.dst.length = p.out + 1 := by
      rw [hlen, blocksFor_eq_iff hw, Nat.succ_mul]
      omega
    obtain ⟨d, hd, hdl, hbits⟩ := store_spec (b := p.acc) (show p.out < p.dst.length by omega)
    rw [if_pos hf]
    refine ⟨d, hd, hdl, fun q => ?_⟩
    obtain ⟨i, j, hj, rfl⟩ := exists_pos hw q
    by_cases hi : i ≤ p.out
    · rw [hbits _ (by rw [pos_div hj]; exact hi), pos_div hj, pos_mod hj]
      by_cases hio : i = p.out
      · rw [if_pos hio, h.register j hj, hio]
      · rw [if_neg hio]
        exact h.stored _ ((pos_lt_iff hj).mpr (by omega))
    · have hge : (p.out + 1) * w ≤ i * w := Nat.mul_le_mul_right w (by omega)
      rw [bitAt_of_le hw (by rw [hdl, hout]; omega), List.getD_eq_default _ _ ?_]
      rw [Nat.succ_mul] at hge
      omega

end Packer

/-! ## 2. What a mask selects -/

section Compress
variable {w : Nat}

/-- The bits of `src` at the set positions of `mask`, in order. -/
def picked (src mask : BitVec w) : List Bool := (ascending mask.getLsbD w).map src.getLsbD

/-- **What `bit_compress` does**: the picked bits from position zero on, clear above. -/
def Compresses (bitCompress : BitVec w → BitVec w → BitVec w) : Prop :=
  ∀ src mask j, (bitCompress src mask).getLsbD j = (picked src mask).getD j false

/-- The picked bits, written one by one. -/
def compressBits (src mask : BitVec w) : BitVec w :=
  (BitVec.ofBoolListLE (picked src mask)).setWidth w

theorem length_picked {src mask : BitVec w} : (picked src mask).length = popcount mask := by
  unfold picked popcount ascending
  rw [List.length_map]
  exact length_filter_range

theorem compresses_compressBits : Compresses (compressBits : BitVec w → BitVec w → BitVec w) := by
  intro src mask j
  unfold compressBits
  rw [BitVec.getLsbD_setWidth, BitVec.getLsbD_ofBoolListLE]
  by_cases hj : j < w
  · rw [decide_eq_true hj, Bool.true_and]
  · rw [decide_eq_false hj, Bool.false_and, List.getD_eq_default]
    rw [length_picked]
    exact Nat.le_trans countBits_le (by omega)

variable (bitCompress : BitVec w → BitVec w → BitVec w)

/-- `compressed`: without the hardware's own, a full mask passes the block through. -/
def compressed (inHardware : Bool) (src mask : BitVec w) : BitVec w :=
  if inHardware then bitCompress src mask
  else if mask = ones then src else bitCompress src mask

variable {bitCompress}

theorem getLsbD_compressed (h : Compresses bitCompress) (inHardware : Bool) (src mask : BitVec w)
    (j : Nat) :
    (compressed bitCompress inHardware src mask).getLsbD j = (picked src mask).getD j false := by
  unfold compressed
  by_cases hh : inHardware = true
  · rw [if_pos hh]
    exact h src mask j
  · rw [if_neg hh]
    by_cases hm : mask = ones
    · have hall : ascending mask.getLsbD w = List.range w := by
        unfold ascending
        rw [hm]
        refine List.filter_eq_self.mpr fun q hq => ?_
        rw [getLsbD_ones, decide_eq_true (List.mem_range.mp hq)]
      rw [if_pos hm]
      unfold picked
      rw [hall]
      by_cases hj : j < w
      · rw [List.getD_eq_getElem _ _ (by simpa using hj), List.getElem_map, List.getElem_range]
      · rw [BitVec.getLsbD_of_ge _ _ (by omega), List.getD_eq_default _ _ (by simpa using hj)]
    · rw [if_neg hm]
      exact h src mask j

end Compress

/-! ## 3. The two paths -/

section Paths
variable {w : Nat}

/-- The body of `compress_blocks`: `src[k]` joins the register as block `k`'s mask compresses it. -/
def compressOne (bitCompress : BitVec w → BitVec w → BitVec w) (inHardware : Bool)
    (src : List (BitVec w)) (words : List (BitVec 64)) (p : Packer w) (k : Nat) :
    Option (Packer w) :=
  (wordMask w words k).bind fun mask =>
    if h : k < src.length then
      p.take (compressed bitCompress inHardware (src.get ⟨k, h⟩) mask) (popcount mask)
    else none

/-- `compress_blocks` over the stored words, block after block. -/
def compressBlocks (bitCompress : BitVec w → BitVec w → BitVec w) (inHardware : Bool)
    (src : List (BitVec w)) (words : List (BitVec 64)) (width : SizeT) (dst : List (BitVec w)) :
    Option (List (BitVec w)) :=
  ((List.range (wordBlocks w width)).foldlM (compressOne bitCompress inHardware src words)
    ⟨dst, 0, 0, zero⟩).bind Packer.finish

/-- The body of `compress_blocks` over any masks. -/
def compressStep (bitCompress : BitVec w → BitVec w → BitVec w) (inHardware : Bool)
    (src : List (BitVec w)) (p : Packer w) (s : MaskStep w) : Option (Packer w) :=
  if h : s.block < src.length then
    (s.mask (src.get ⟨s.block, h⟩)).bind fun mask =>
      p.take (compressed bitCompress inHardware (src.get ⟨s.block, h⟩) mask) (s.count mask)
  else none

/-- `compress_blocks` over any masks. -/
def compressMasks (bitCompress : BitVec w → BitVec w → BitVec w) (inHardware : Bool)
    (src : List (BitVec w)) (steps : List (MaskStep w)) (dst : List (BitVec w)) :
    Option (List (BitVec w)) :=
  (steps.foldlM (compressStep bitCompress inHardware src) ⟨dst, 0, 0, zero⟩).bind Packer.finish

/-- `bit_at`: the bit at `pos` as a block. -/
def bitAsBlock (src : List (BitVec w)) (pos : Nat) : Option (BitVec w) :=
  if h : pos / w < src.length then some (shr (src.get ⟨pos / w, h⟩) (pos % w) &&& unit) else none

/-- The body of `gather_indices`: a block is stored at its last bit and the register cleared. -/
def gatherOne (src : List (BitVec w)) (index : Nat → Option SizeT) (s : List (BitVec w) × BitVec w)
    (j : Nat) : Option (List (BitVec w) × BitVec w) :=
  (index j).bind fun pos => (bitAsBlock src pos.toNat).bind fun bit =>
    let acc := s.2 ||| shl bit (j % w)
    if j % w = w - 1 then (Packer.store s.1 (j / w) acc).map fun dst => (dst, zero)
    else some (s.1, acc)

/-- `gather_indices`. -/
def gatherIndices (src : List (BitVec w)) (count : Nat) (index : Nat → Option SizeT)
    (dst : List (BitVec w)) : Option (List (BitVec w)) :=
  ((List.range count).foldlM (gatherOne src index) (dst, zero)).bind fun s =>
    if count % w ≠ 0 then Packer.store s.1 (count / w) s.2 else some s.1

/-- `gslice_selection::gather`. -/
def GsliceIndex.gather (bitCompress : BitVec w → BitVec w → BitVec w) (inHardware : Bool)
    (x : GsliceIndex) (src dst : List (BitVec w)) : Option (List (BitVec w)) :=
  if x.isMasked then compressBlocks bitCompress inHardware src x.words x.width dst
  else gatherIndices src x.count.toNat (fun j => x.positions[j]?) dst

variable {src dst : List (BitVec w)} {words : List (BitVec 64)} {width : SizeT}
  {bitCompress : BitVec w → BitVec w → BitVec w} {inHardware : Bool}

/-- What one block's mask picks are the elements at the set positions inside the block. -/
theorem picked_block {f : Nat → Bool} {k : Nat} {mask : BitVec w} (hk : k < src.length)
    (hm : ∀ j, j < w → mask.getLsbD j = f (k * w + j)) :
    picked (src.get ⟨k, hk⟩) mask = (selected w f [k]).map (bitAt src) := by
  unfold picked selected
  rw [List.flatMap_singleton, List.map_map, ascending_congr hm]
  refine List.map_congr_left fun j hj => ?_
  rw [Function.comp_apply, bitAt_pos (mem_ascending.mp hj).1, List.getD_eq_getElem _ _ hk]
  rfl

/-- **The register along a walk** takes in what each mask selects. -/
theorem compressMasks_loop (hc : Compresses bitCompress) (inHardware : Bool) {f : Nat → Bool}
    {ks : List Nat} {steps : List (MaskStep w)}
    (hvisits : List.Forall₂ (MaskStep.Visits src f) steps ks) :
    ∀ {p : Packer w} {vs : List Bool}, p.Holds vs → (∀ k, k ∈ ks → k < src.length) →
      (vs ++ (selected w f ks).map (bitAt src)).length ≤ p.dst.length * w →
      ∃ q, steps.foldlM (compressStep bitCompress inHardware src) p = some q ∧
        q.Holds (vs ++ (selected w f ks).map (bitAt src)) ∧ q.dst.length = p.dst.length := by
  induction hvisits with
  | nil =>
      intro p vs hp _ _
      refine ⟨p, rfl, ?_, rfl⟩
      rw [show selected w f [] = [] from rfl, List.map_nil, List.append_nil]
      exact hp
  | @cons s k steps ks hs _ ih =>
      intro p vs hp hin hroom
      obtain ⟨hk, mask, hmask, hcount, hbits⟩ := hs
      subst hk
      have hsrc := hin _ List.mem_cons_self
      have hsplit : vs ++ (selected w f (s.block :: ks)).map (bitAt src) =
          vs ++ picked (src.get ⟨s.block, hsrc⟩) mask ++ (selected w f ks).map (bitAt src) := by
        rw [picked_block hsrc hbits, List.append_assoc, ← List.map_append]
        unfold selected
        rw [List.flatMap_cons, List.flatMap_singleton]
      rw [hsplit] at hroom ⊢
      have hle : (picked (src.get ⟨s.block, hsrc⟩) mask).length ≤ w := by
        rw [length_picked]
        exact countBits_le
      obtain ⟨q, hq, hq', hql⟩ := hp.take
        (compressed bitCompress inHardware (src.get ⟨s.block, hsrc⟩) mask)
        (fun j _ => getLsbD_compressed hc inHardware _ mask j) hle (by
          rw [List.length_append] at hroom
          omega)
      obtain ⟨r, hr, hr', hrl⟩ := ih hq' (fun k hk => hin k (List.mem_cons_of_mem _ hk)) (by rwa [hql])
      refine ⟨r, ?_, hr', hrl.trans hql⟩
      rw [length_picked, ← hcount] at hq
      rw [List.getD_eq_getElem _ _ hsrc] at hmask
      have hmask : s.mask (src.get ⟨s.block, hsrc⟩) = some mask := hmask
      rw [List.foldlM_cons, compressStep, dif_pos hsrc, hmask, Option.bind_some, hq]
      exact hr

/-- **A walk packs the elements it selects**, in order. -/
theorem compressMasks_spec (hw : 0 < w) (hc : Compresses bitCompress) (inHardware : Bool)
    {f : Nat → Bool} {ks : List Nat} {steps : List (MaskStep w)} (hwalk : Walks src f ks steps)
    (hdst : dst.length = blocksFor w (selected w f ks).length) :
    ∃ out, compressMasks bitCompress inHardware src steps dst = some out ∧
      out.length = dst.length ∧
      ∀ q, bitAt out q = ((selected w f ks).map (bitAt src)).getD q false := by
  obtain ⟨p, hp, hholds, hlen⟩ := compressMasks_loop hc inHardware hwalk.visits
    (Packer.init_holds hw) hwalk.within (by
      rw [List.nil_append, List.length_map]
      show _ ≤ dst.length * w
      rw [hdst]
      exact le_blocksFor_mul hw)
  rw [List.nil_append] at hholds
  obtain ⟨out, hout, hol, hbits⟩ := hholds.finish (by
    rw [List.length_map]
    exact hlen.trans hdst)
  refine ⟨out, ?_, hol.trans hlen, hbits⟩
  unfold compressMasks
  rw [hp]
  exact hout

/-- The words' blocks one after the other are a walk of their masks. -/
theorem compressBlocks_eq : compressBlocks bitCompress inHardware src words width dst =
    compressMasks bitCompress inHardware src (wordMasks w words width) dst := by
  unfold compressBlocks compressMasks wordMasks
  rw [List.foldlM_map]
  congr 2
  funext p k
  unfold compressOne compressStep
  by_cases hk : k < src.length
  · rw [dif_pos hk]
    refine congrArg _ (funext fun mask => dif_pos hk)
  · rw [dif_neg hk]
    cases wordMask w words k with
    | none => rfl
    | some mask => exact dif_neg hk

/-- **The mask path packs the elements at the positions set in the words**, all of them below the
    width, from a source that covers it. -/
theorem compressBlocks_words (hw : tilingBlock w = true) (hint : w < 2 ^ 31)
    (hc : Compresses bitCompress) (inHardware : Bool) (hn : src.length * w < 2 ^ 64)
    (hle : width.toNat ≤ src.length * w) (hwords : width.toNat ≤ words.length * 64) {ps : List Nat}
    (hps : ascending (bitAt words) (blocksFor w width.toNat * w) = ps)
    (hdst : dst.length = blocksFor w ps.length) :
    ∃ out, compressBlocks bitCompress inHardware src words width dst = some out ∧
      out.length = dst.length ∧ ∀ q, bitAt out q = (ps.map (bitAt src)).getD q false := by
  rw [← selected_range] at hps
  rw [← hps] at hdst ⊢
  rw [compressBlocks_eq]
  exact compressMasks_spec (pos_of_tilingBlock hw) hc inHardware
    (wordMasks_walks hw hint hn hle hwords) hdst

/-- The bit at a position, as a block. -/
theorem bitAsBlock_some {pos : Nat} (h : pos / w < src.length) :
    ∃ bit, bitAsBlock src pos = some bit ∧
      ∀ j, j < w → bit.getLsbD j = [bitAt src pos].getD j false := by
  refine ⟨_, dif_pos h, fun j hj => ?_⟩
  rw [BitVec.getLsbD_and, getLsbD_shr, BitVec.getLsbD_one]
  by_cases h0 : j = 0
  · subst h0
    unfold bitAt
    rw [List.getD_eq_getElem _ _ h]
    simp [hj]
  · have hge : [bitAt src pos].length ≤ j := Nat.pos_of_ne_zero h0
    rw [decide_eq_false h0, Bool.and_false, Bool.and_false, List.getD_eq_default _ _ hge]

/-- One element joins the register as a block of one would, and empties it when it is full. -/
theorem gatherOne_take (hw : 0 < w) {index : Nat → Option SizeT} {pos : SizeT} {j : Nat}
    {acc bit : BitVec w} (hj : index j = some pos) (hbit : bitAsBlock src pos.toNat = some bit)
    {p : Packer w} (hp : (⟨dst, j / w, j % w, acc⟩ : Packer w).take bit 1 = some p) :
    gatherOne src index (dst, acc) j = some (p.dst, p.acc) ∧ p.out = (j + 1) / w ∧
      p.fill = (j + 1) % w := by
  obtain ⟨i, r, hr, rfl⟩ := exists_pos hw j
  have hlast : shr (shr bit 1) (w - (w - 1) - 1) = zero := by
    refine BitVec.eq_of_getLsbD_eq fun q hq => ?_
    unfold bitAsBlock at hbit
    split at hbit
    · cases hbit
      rw [getLsbD_shr, getLsbD_shr, BitVec.getLsbD_and, BitVec.getLsbD_one, getLsbD_zero',
        decide_eq_false (p := 1 + (w - (w - 1) - 1 + q) = 0) (by omega), Bool.and_false,
        Bool.and_false]
    · cases hbit
  unfold gatherOne
  unfold Packer.take at hp
  rw [hj, Option.bind_some, hbit, Option.bind_some]
  dsimp only at hp ⊢
  rw [pos_div hr, pos_mod hr] at hp ⊢
  by_cases hfull : r = w - 1
  · rw [if_pos (by omega)] at hp
    rw [if_pos hfull]
    cases hs : Packer.store dst i (acc ||| shl bit r) with
    | none =>
        rw [hs] at hp
        cases hp
    | some d =>
        rw [hs] at hp
        cases hp
        have hnext : i * w + r + 1 = (i + 1) * w + 0 := by
          rw [Nat.succ_mul]
          omega
        refine ⟨?_, ?_, ?_⟩
        · show some (d, zero) = some (d, shr (shr bit 1) (w - r - 1))
          rw [hfull, hlast]
        · rw [hnext, pos_div hw]
        · show r + 1 - w = _
          rw [hnext, pos_mod hw]
          omega
  · rw [if_neg (by omega)] at hp
    rw [if_neg hfull]
    cases hp
    exact ⟨rfl, (pos_div (i := i) (j := r + 1) (by omega)).symm,
      (pos_mod (i := i) (j := r + 1) (by omega)).symm⟩

/-- **The index path packs the elements at the positions handed out**, in their order. -/
theorem gatherIndices_spec (hw : 0 < w) {ps : List SizeT} {index : Nat → Option SizeT}
    (hindex : ∀ j, index j = ps[j]?) (hin : ∀ p, p ∈ ps → p.toNat / w < src.length)
    (hdst : dst.length = blocksFor w ps.length) :
    ∃ out, gatherIndices src ps.length index dst = some out ∧ out.length = dst.length ∧
      ∀ q, bitAt out q = (ps.map fun p => bitAt src p.toNat).getD q false := by
  have hloop : ∀ m, m ≤ ps.length → ∃ d acc,
      (List.range m).foldlM (gatherOne src index) (dst, zero) = some (d, acc) ∧
        d.length = dst.length ∧ Packer.Holds (⟨d, m / w, m % w, acc⟩ : Packer w)
          ((ps.take m).map fun p => bitAt src p.toNat) := by
    intro m
    induction m with
    | zero =>
        intro _
        refine ⟨dst, zero, rfl, rfl, ?_⟩
        rw [Nat.zero_div, Nat.zero_mod]
        exact Packer.init_holds hw
    | succ m ih =>
        intro hm
        obtain ⟨d, acc, hfold, hlen, hholds⟩ := ih (by omega)
        have hmem := hin (ps[m]) (List.getElem_mem _)
        obtain ⟨bit, hbit, hbits⟩ := bitAsBlock_some hmem
        have htake : (ps.take (m + 1)).map (fun p => bitAt src p.toNat) =
            (ps.take m).map (fun p => bitAt src p.toNat) ++ [bitAt src (ps[m]).toNat] := by
          rw [List.take_succ_eq_append_getElem (by omega), List.map_append]
          rfl
        obtain ⟨p, hp, hp', hpl⟩ := hholds.take bit hbits hw (by
          rw [← htake, List.length_map, List.length_take]
          show _ ≤ d.length * w
          have := le_blocksFor_mul (n := ps.length) hw
          rw [hlen, hdst]
          omega)
        have hget : index m = some (ps[m]) := by
          rw [hindex, List.getElem?_eq_getElem]
        obtain ⟨hone, hout, hfill⟩ := gatherOne_take hw hget hbit hp
        refine ⟨p.dst, p.acc, ?_, hpl.trans hlen, ?_⟩
        · rw [List.range_succ, List.foldlM_append, hfold]
          show List.foldlM (gatherOne src index) (d, acc) [m] = _
          rw [List.foldlM_cons, hone]
          rfl
        · rw [htake, ← hout, ← hfill]
          exact hp'
  obtain ⟨d, acc, hfold, hlen, hholds⟩ := hloop ps.length (Nat.le_refl _)
  rw [List.take_length] at hholds
  obtain ⟨out, hout, hol, hbits⟩ := hholds.finish (by
    rw [List.length_map]
    exact hlen.trans hdst)
  refine ⟨out, ?_, hol.trans hlen, hbits⟩
  unfold gatherIndices
  rw [hfold]
  exact hout

end Paths

/-! ## 4. What a gslice selects -/

section Selects

/-- One past the largest of some positions. -/
def pastAll (ps : List Nat) : Nat := ps.foldr (fun p m => max (p + 1) m) 0

theorem pastAll_le_iff {n : Nat} : ∀ ps : List Nat, pastAll ps ≤ n ↔ ∀ p, p ∈ ps → p < n
  | [] => ⟨fun _ p hp => absurd hp List.not_mem_nil, fun _ => Nat.zero_le n⟩
  | p :: ps => by
      rw [pastAll, List.foldr_cons, ← pastAll, max_le_iff, pastAll_le_iff ps, List.forall_mem_cons]
      rfl

/-- A mask of ascending positions holds them in order. -/
theorem ascending_marked {words : List (BitVec 64)} {ps : List Nat} {m : Nat}
    (hbits : ∀ k, bitAt words k = decide (k ∈ ps)) (hps : ps.Pairwise (· < ·))
    (hm : ∀ p, p ∈ ps → p < m) : ascending (bitAt words) m = ps := by
  have hasc : (ascending (bitAt words) m).Pairwise (· < ·) := List.pairwise_lt_range.filter _
  refine hasc.eq_of_mem_iff hps fun k => ?_
  rw [mem_ascending, hbits, decide_eq_true_eq]
  exact ⟨fun h => h.2, fun h => ⟨hm k h, h⟩⟩

/-- **What an index owes its gslice** of a valarray of `n` elements: it is built, counts the
    positions and selects them in row-major order, its width is one past the largest, and gathering
    through it packs the elements in that order, over blocks of any width. -/
def Gslice.Selects (bitCompress : ∀ w, BitVec w → BitVec w → BitVec w) (g : Gslice) (n : SizeT) :
    Prop :=
  ∃ x, gsliceIndex g = some x ∧ x.count.toNat = g.extent ∧
    x.selected = g.positions.map BitVec.toNat ∧
    x.width.toNat = pastAll (g.positions.map BitVec.toNat) ∧
    ∀ w, tilingBlock w = true → w < 2 ^ 31 → ∀ (inHardware : Bool) (src dst : List (BitVec w)),
      n.toNat ≤ src.length * w → src.length * w < 2 ^ 64 → dst.length = blocksFor w g.extent →
      ∃ out, x.gather (bitCompress w) inHardware src dst = some out ∧ out.length = dst.length ∧
        ∀ q, bitAt out q = (g.positions.map fun p => bitAt src p.toNat).getD q false

variable {bitCompress : ∀ w, BitVec w → BitVec w → BitVec w} {g : Gslice} {n : SizeT}

/-- No positions: the index is empty, and nothing is gathered. -/
theorem selects_none (hc : ∀ w, Compresses (bitCompress w)) (h0 : g.extent = 0) :
    g.Selects bitCompress n := by
  have hcount := Gslice.count_of_none h0
  have hps := Gslice.positions_of_none h0
  refine ⟨_, gsliceIndex_zero hcount, ?_, ?_, ?_, ?_⟩
  · show (countOf g.lengths).toNat = _
    rw [hcount, h0]
    rfl
  · rw [hps]
    rfl
  · rw [hps]
    rfl
  · intro w hw hint inHardware src dst hn hsrc hdst
    rw [hps]
    rw [h0] at hdst
    have hasc : ascending (bitAt ([] : List (BitVec 64))) (blocksFor w (0 : SizeT).toNat * w) = [] :=
      ascending_marked (fun k => by rw [bitAt_nil]; rfl) List.Pairwise.nil
        fun p hp => absurd hp List.not_mem_nil
    exact compressBlocks_words hw hint (hc w) inHardware hsrc (Nat.zero_le _) (Nat.zero_le _) hasc hdst

/-- The masked form, where nothing wraps. -/
theorem selects_masked (hc : ∀ w, Compresses (bitCompress w)) (hin : InBounds n g.positions)
    (he : g.extent < 2 ^ 64) (h0 : g.extent ≠ 0) (hs : ascendingSpan g.lengths g.strides ≠ 0)
    (hno : g.start.toNat + reach g.sizes g.steps + 64 < 2 ^ 64) : g.Selects bitCompress n := by
  have hcount := Gslice.count_of_extent he h0
  obtain ⟨words, hx, hlen, hbits⟩ :=
    (gsliceIndex_masked hcount hs).2 (Gslice.fits_of_noWrap hno h0)
  rw [Gslice.visited_eq he] at hbits
  obtain ⟨hrow, hlast⟩ := positions_of_noWrap h0 (by omega)
  have hsorted : (g.positions.map BitVec.toNat).Pairwise (· < ·) := by
    rw [hrow]
    exact rowMajor_ascends _ _ _ (span_spec (by omega) hs).2
  have hwidth : (g.last + 1).toNat = g.last.toNat + 1 := by
    rw [BitVec.toNat_add, show (1 : SizeT).toNat = 1 from rfl, Nat.mod_eq_of_lt (by omega)]
  have hbelow : ∀ p, p ∈ g.positions.map BitVec.toNat → p < (g.last + 1).toNat := by
    intro p hp
    obtain ⟨q, hq, rfl⟩ := List.mem_map.mp hp
    have := le_last_of_noWrap h0 (by omega) hq
    omega
  have htable : (g.last + 1).toNat ≤ words.length * 64 := by
    rw [hlen, Gslice.tableSize_eq, if_pos (by omega), hwidth]
    omega
  refine ⟨_, hx, ?_, ?_, ?_, ?_⟩
  · show (countOf g.lengths).toNat = _
    rw [toNat_countOf, Nat.mod_eq_of_lt he]
  · exact ascending_marked hbits hsorted fun p hp => Nat.lt_of_lt_of_le (hbelow p hp) htable
  · refine Nat.le_antisymm ?_ ((pastAll_le_iff _).mpr hbelow)
    show (g.last + 1).toNat ≤ _
    rw [hwidth]
    exact (pastAll_le_iff _).mp (Nat.le_refl _) _ (List.mem_map_of_mem (Gslice.last_mem h0))
  · intro w hw hint inHardware src dst hn hsrc hdst
    have hpos := pos_of_tilingBlock hw
    have hle : (g.last + 1).toNat ≤ n.toNat := by
      rw [hwidth]
      exact hin g.last (Gslice.last_mem h0)
    have hasc := ascending_marked (m := blocksFor w (g.last + 1).toNat * w) hbits hsorted
      fun p hp => Nat.lt_of_lt_of_le (hbelow p hp) (le_blocksFor_mul hpos)
    have hcountps : dst.length = blocksFor w (g.positions.map BitVec.toNat).length := by
      rw [hdst, List.length_map, g.length_positions]
    obtain ⟨out, hout, hol, hq⟩ := compressBlocks_words hw hint (hc w) inHardware hsrc
      (Nat.le_trans hle hn) htable hasc hcountps
    refine ⟨out, hout, hol, fun q => ?_⟩
    rw [hq q, List.map_map]
    rfl

/-- The listed form, where the count did not wrap. -/
theorem selects_listed (hin : InBounds n g.positions) (he : g.extent < 2 ^ 64)
    (h0 : g.extent ≠ 0) (hs : ascendingSpan g.lengths g.strides = 0) :
    g.Selects bitCompress n := by
  have hcount := Gslice.count_of_extent he h0
  obtain ⟨width, hx, hle⟩ := gsliceIndex_listed hcount hs
  rw [Gslice.visited_eq he] at hx hle
  have hwidth : ∀ m : SizeT, width ≤ m ↔ ∀ p, p ∈ g.positions → p < m := by
    intro m
    rw [hle]
    refine forall₂_congr fun p hp => Gslice.succ_le_iff fun hmax => ?_
    have hlt : p.toNat < n.toNat := hin p hp
    have := n.isLt
    rw [hmax, BitVec.toNat_allOnes] at hlt
    omega
  have hpast : pastAll (g.positions.map BitVec.toNat) ≤ width.toNat := by
    refine (pastAll_le_iff _).mpr fun p hp => ?_
    obtain ⟨q, hq, rfl⟩ := List.mem_map.mp hp
    exact (hwidth width).mp (Nat.le_refl _) q hq
  have hmask : (⟨g.start, g.lengths, g.strides, countOf g.lengths, width, [], g.positions⟩ :
      GsliceIndex).isMasked = false := by
    unfold GsliceIndex.isMasked
    rw [List.isEmpty_eq_false_iff]
    intro hnil
    have hnil : g.positions = [] := hnil
    rw [← g.length_positions, hnil] at h0
    exact h0 rfl
  refine ⟨_, hx, ?_, ?_, ?_, ?_⟩
  · show (countOf g.lengths).toNat = _
    rw [toNat_countOf, Nat.mod_eq_of_lt he]
  · unfold GsliceIndex.selected
    rw [hmask]
    rfl
  · refine Nat.le_antisymm ?_ hpast
    have hlt := Nat.lt_of_le_of_lt hpast width.isLt
    have := (hwidth (BitVec.ofNat 64 (pastAll (g.positions.map BitVec.toNat)))).mpr fun p hp => by
      show p.toNat < (BitVec.ofNat 64 _).toNat
      rw [BitVec.toNat_ofNat, Nat.mod_eq_of_lt hlt]
      exact (pastAll_le_iff _).mp (Nat.le_refl _) _ (List.mem_map_of_mem hp)
    have this : width.toNat ≤ (BitVec.ofNat 64 _).toNat := this
    rwa [BitVec.toNat_ofNat, Nat.mod_eq_of_lt hlt] at this
  · intro w hw hint inHardware src dst hn hsrc hdst
    have hpos := pos_of_tilingBlock hw
    have hlen : (countOf g.lengths).toNat = g.positions.length := by
      rw [toNat_countOf, Nat.mod_eq_of_lt he, g.length_positions]
    unfold GsliceIndex.gather
    rw [hmask]
    show ∃ out, gatherIndices src (countOf g.lengths).toNat (fun j => g.positions[j]?) dst = _ ∧ _
    rw [hlen]
    refine gatherIndices_spec hpos (fun _ => rfl) (fun p hp => ?_) (by rw [hdst, g.length_positions])
    have hlt : p.toNat < n.toNat := hin p hp
    exact (Nat.div_lt_iff_lt_mul hpos).mpr (by omega)

/-- **When a gslice selects its positions**: their number fits the size type, and the strides turn
    back as the lengths and strides alone tell, or nothing wraps within the words' reach. -/
theorem gslice_selects_iff (bitCompress : ∀ w, BitVec w → BitVec w → BitVec w)
    (hc : ∀ w, Compresses (bitCompress w)) (g : Gslice) (n : SizeT)
    (hin : InBounds n g.positions) :
    g.Selects bitCompress n ↔
      g.extent < 2 ^ 64 ∧ (g.extent = 0 ∨ ascendingSpan g.lengths g.strides = 0 ∨
        g.start.toNat + reach g.sizes g.steps + 64 < 2 ^ 64) := by
  constructor
  · intro ⟨x, hx, hcount, hsel, _, _⟩
    have he : g.extent < 2 ^ 64 := hcount ▸ x.count.isLt
    refine ⟨he, ?_⟩
    by_cases h0 : g.extent = 0
    · exact Or.inl h0
    · refine Or.inr ?_
      by_cases hs : ascendingSpan g.lengths g.strides = 0
      · exact Or.inl hs
      · have hc0 := Gslice.count_of_extent he h0
        obtain ⟨hbuilt, hmask⟩ := gsliceIndex_masked hc0 hs
        obtain ⟨words, hy, hlen, hbits⟩ := hmask (hbuilt x hx)
        rw [hx] at hy
        cases hy
        -- What a mask selects ascends, so the row-major order does, and then no sum wraps.
        have hsorted : (g.positions.map BitVec.toNat).Pairwise (· < ·) := by
          rw [← hsel]
          exact List.pairwise_lt_range.filter _
        rw [Gslice.positions_eq h0] at hsorted
        have hno : g.start.toNat + reach g.sizes g.steps < 2 ^ 64 :=
          reach_lt_of_ascends _ _ _ (Gslice.sizes_pos h0) hsorted
        have hfits := Gslice.last_of_fits hc0 (hbuilt _ hx)
        rw [(positions_of_noWrap h0 hno).2] at hfits
        exact Or.inr hfits
  · intro ⟨he, h⟩
    by_cases h0 : g.extent = 0
    · exact selects_none hc h0
    · by_cases hs : ascendingSpan g.lengths g.strides = 0
      · exact selects_listed hin he h0 hs
      · rcases h with h | h | h
        · exact absurd h h0
        · exact absurd h hs
        · exact selects_masked hc hin he h0 hs h

theorem gslice_selects_two_by_three :
    (⟨1, [2, 3], [7, 2], rfl⟩ : Gslice).Selects (fun _ => compressBits) 13 :=
  (gslice_selects_iff (fun _ => compressBits) (fun _ => compresses_compressBits)
    ⟨1, [2, 3], [7, 2], rfl⟩ 13 (by decide +kernel)).mpr (by decide +kernel)

/-- Two positions with a step of minus three from ten are taken for ascending, so the mask hands out
    seven before ten. -/
theorem gslice_turns_back :
    InBounds 11 (⟨10, [2], [BitVec.ofNat 64 (2 ^ 64 - 3)], rfl⟩ : Gslice).positions ∧
    ¬ (⟨10, [2], [BitVec.ofNat 64 (2 ^ 64 - 3)], rfl⟩ : Gslice).Selects (fun _ => compressBits) 11 := by
  refine ⟨by decide +kernel, fun ⟨x, hx, _, hsel, _⟩ => ?_⟩
  have hmask : (gsliceIndex ⟨10, [2], [BitVec.ofNat 64 (2 ^ 64 - 3)], rfl⟩).map
      GsliceIndex.selected = some [7, 10] := by decide +kernel
  rw [hx, Option.map_some, hsel] at hmask
  exact absurd hmask (by decide)

end Selects

end XstdBits
