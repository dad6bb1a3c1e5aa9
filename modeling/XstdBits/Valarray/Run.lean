/-
  File: XstdBits/Valarray/Run.lean
  Subject: a run of consecutive positions, the slice of stride one.

  From a block boundary whole blocks are copied or combined as they are; the rest goes through
  `block_at`, a block at a time at any offset, the last one under a partial mask.
  * `subspan` is `std::span`'s: an offset past the end is no span, even an empty one.
  * `Ran`: the first positions of a run hold what they should, and nothing else changed;
    `wholes_run` starts it and `runTail_spec` carries it to the end.
  * `gatherRun_spec`, `expandRun_spec`, `fillRun_spec`: a run packed, scattered and filled, where
    its first block is within a span.
-/
import XstdBits.Valarray.Scatter
import XstdBits.Container.Range

namespace XstdBits

/-! ## 1. Borrowed blocks -/

section Borrowed
variable {w : Nat} (B : Vehicle w)

/-- `borrowed_bits` over the blocks. -/
def borrowedBits (bs : List (BitVec w)) : BitBlockContainer B := ⟨0, 0, ⟨bs, 0, 0⟩⟩

/-- `block_at(n)`, which asserts that the block is there. -/
def blockAt (bs : List (BitVec w)) (n : Nat) : Option (BitVec w) :=
  if n / w < bs.length then some ((borrowedBits B bs).blockAt n) else none

/-- `block_at(n, value, mask)`, which asserts that the block is there and the mask inside. -/
def writeBlockAt (bs : List (BitVec w)) (n : Nat) (value mask : BitVec w) :
    Option (List (BitVec w)) :=
  if n / w < bs.length ∧ (n + w ≤ bs.length * w ∨ shr mask (bs.length * w - n) = zero) then
    some ((borrowedBits B bs).writeBlockAt n value mask).mBlocks.elems
  else none

/-- `subspan(offset, count)`. -/
def subspan (bs : List (BitVec w)) (offset count : Nat) : Option (List (BitVec w)) :=
  if offset ≤ bs.length ∧ count ≤ bs.length - offset then some ((bs.drop offset).take count)
  else none

variable {B} {bs : List (BitVec w)} {n : Nat}

theorem borrowed_shape (hB : B.storage = .lent) : (borrowedBits B bs).Shape :=
  (BitBlockContainer.lent_inv hB).shape

variable (bs n) in
theorem blockAt_some (hB : B.storage = .lent) (hn : n < bs.length * w) :
    ∃ b, blockAt B bs n = some b ∧ ∀ j, j < w → b.getLsbD j = bitAt bs (n + j) := by
  have hdiv : n / w < bs.length := (Nat.div_lt_iff_lt_mul B.bits_pos).mpr hn
  exact ⟨_, if_pos hdiv, fun j hj =>
    BitBlockContainer.getLsbD_blockAt (borrowed_shape hB) hn hj⟩

variable (bs) in
/-- A write under a partial mask changes its positions alone. -/
theorem writeBlockAt_some (hB : B.storage = .lent) {m : Nat} (hm0 : 0 < m) (hm : m ≤ w)
    (hin : n + m ≤ bs.length * w) {value : BitVec w} :
    ∃ out, writeBlockAt B bs n value (partialBlockMask m) = some out ∧ out.length = bs.length ∧
      ∀ p, bitAt out p = if n ≤ p ∧ p < n + m then value.getLsbD (p - n) else bitAt bs p := by
  have hn : n < bs.length * w := by omega
  have hdiv : n / w < bs.length := (Nat.div_lt_iff_lt_mul B.bits_pos).mpr hn
  refine ⟨_, if_pos ⟨hdiv, Or.inr (BitVec.eq_of_getLsbD_eq fun j hj => ?_)⟩,
    BitBlockContainer.sameWidth_writeBlockAt.length,
    fun p => BitBlockContainer.bit_writePartial (borrowed_shape hB) hn hm hin⟩
  rw [getLsbD_shr, getLsbD_partialBlockMask hm, BitVec.getLsbD_zero, decide_eq_false (by omega)]

end Borrowed

/-! ## 2. The runs -/

section Kernels
variable {w : Nat} (B : Vehicle w) (f : Combine)

/-- How many whole blocks a run has, none off a block boundary. -/
def wholeBlocks (w start size : Nat) : Nat := if start % w = 0 then size / w else 0

/-- The loop over the rest of a run, `deposit` giving the bits of its block `j`. -/
def runTail (deposit : List (BitVec w) → Nat → Option (BitVec w)) (start size : Nat)
    (dst : List (BitVec w)) : Option (List (BitVec w)) :=
  forStep w (wholeBlocks w start size * w) size (fun j out =>
    out.bind fun d => (deposit d j).bind fun e => (blockAt B d (start + j)).bind fun b =>
      let mask := partialBlockMask (min w (size - j))
      writeBlockAt B d (start + j) (f.block b (e &&& mask) mask) mask) (some dst)

/-- `gather_run`: whole blocks copied into the clear destination, the rest through `block_at`. -/
def gatherRun (src : List (BitVec w)) (start size : Nat) (dst : List (BitVec w)) :
    Option (List (BitVec w)) :=
  let whole := wholeBlocks w start size
  (subspan src (start / w) whole).bind fun from' =>
    if dst.length < whole then none
    else
      forStep w (whole * w) size (fun j out =>
        out.bind fun d => (blockAt B src (start + j)).bind fun value =>
          writeBlockAt B d j value (partialBlockMask (min w (size - j))))
        (some (from' ++ dst.drop whole))

/-- `expand_run`: blocks assigned onto themselves are left alone. -/
def expandRun (src : LentBlocks w) (start size : Nat) (dst : List (BitVec w)) :
    Option (List (BitVec w)) :=
  let whole := wholeBlocks w start size
  (subspan (src.get dst) 0 whole).bind fun from' => (subspan dst (start / w) whole).bind fun onto =>
    let combined :=
      match f with
      | .assign => from'
      | f => List.zipWith (fun d e => f.block d e ones) onto from'
    runTail B f (fun d j => blockAt B (src.get d) j) start size
      (dst.take (start / w) ++ combined ++ dst.drop (start / w + whole))

/-- `fill_run`. -/
def fillRun (value : Bool) (start size : Nat) (dst : List (BitVec w)) :
    Option (List (BitVec w)) :=
  ((List.range (wholeBlocks w start size)).foldlM (fun d k =>
    if h : start / w + k < d.length then
      some (d.set (start / w + k) (f.block (d.get ⟨start / w + k, h⟩) (splat value) ones))
    else none) dst).bind (runTail B f (fun _ _ => some (splat value)) start size)

end Kernels

/-! ## 3. What a run leaves -/

section Specs
variable {w : Nat} {B : Vehicle w} {f : Combine} {g : Nat → Bool} {start size : Nat}
  {src dst d : List (BitVec w)}

/-- **The first `n` positions of the run are written**, and nothing else. -/
structure Ran (f : Combine) (g : Nat → Bool) (start n : Nat) (dst d : List (BitVec w)) : Prop where
  length : d.length = dst.length
  bits : ∀ p, bitAt d p =
    if start ≤ p ∧ p < start + n then f.bit (bitAt dst p) (g (p - start)) else bitAt dst p

theorem Ran.none : Ran f g start 0 dst dst where
  length := rfl
  bits p := by rw [if_neg (by omega)]

/-- A run that is written is the loop over its elements. -/
theorem Ran.scatter (h : Ran f g start size dst d) :
    bitAt d = scatterLoop f.bit (fun _ => g) (List.range' start size) 0 (bitAt dst) := by
  refine eq_scatterLoop List.nodup_range' (fun i p hp => ?_) fun p hp => ?_
  · have hi : i < size := by
      have hi := (List.getElem?_eq_some_iff.mp hp).1
      rwa [List.length_range'] at hi
    rw [List.getElem?_range' hi] at hp
    have hp : start + 1 * i = p := Option.some.inj hp
    rw [h.bits, if_pos (by omega)]
    congr 2
    omega
  · rw [List.mem_range'_1] at hp
    rw [h.bits, if_neg hp]

variable (w start size) in
theorem wholeBlocks_le : wholeBlocks w start size * w ≤ size := by
  unfold wholeBlocks
  split
  · exact Nat.div_mul_le_self size w
  · omega

/-- One block of a run under a partial mask. -/
theorem Ran.block (hB : B.storage = .lent) {n m : Nat} (h : Ran f g start n dst d) (hm0 : 0 < m)
    (hm : m ≤ w) (hin : start + n + m ≤ dst.length * w) (value : BitVec w)
    (hv : ∀ i, i < m → value.getLsbD i = f.bit (bitAt dst (start + n + i)) (g (n + i))) :
    ∃ out, writeBlockAt B d (start + n) value (partialBlockMask m) = some out ∧
      Ran f g start (n + m) dst out := by
  obtain ⟨out, hout, hol, hbits⟩ := writeBlockAt_some d hB hm0 hm (by rwa [h.length])
  refine ⟨out, hout, hol.trans h.length, fun p => ?_⟩
  rw [hbits p, h.bits p]
  by_cases hnew : start + n ≤ p ∧ p < start + n + m
  · rw [if_pos hnew, if_pos (by omega), hv _ (by omega)]
    congr 2 <;> omega
  · rw [if_neg hnew]
    by_cases hold : start ≤ p ∧ p < start + n
    · rw [if_pos hold, if_pos (by omega)]
    · rw [if_neg hold, if_neg (by omega)]

/-- **A loop that writes one block of the run a turn carries it to its end.** -/
theorem Ran.loop (hw : 0 < w) {n : Nat} (hn : n ≤ size) (h : Ran f g start n dst d)
    (body : Nat → Option (List (BitVec w)) → Option (List (BitVec w)))
    (hturn : ∀ q d, q < size → Ran f g start q dst d → ∃ out, body q (some d) = some out ∧
      Ran f g start (q + min w (size - q)) dst out) :
    ∃ out, forStep w n size body (some d) = some out ∧ Ran f g start size dst out := by
  have hinv := forStep_inv (k := w) (a := n) (b := size) (f := body) (s := some d)
    (fun j s => ∃ d, s = some d ∧ Ran f g start (min j size) dst d) hw
    ⟨d, rfl, by rwa [Nat.min_eq_left hn]⟩ ?_
  · obtain ⟨q, hq, out, hout, hran⟩ := hinv
    rw [Nat.min_eq_right hq] at hran
    exact ⟨out, hout, hran⟩
  · intro q s hq ⟨d, hs, hran⟩
    rw [Nat.min_eq_left (by omega)] at hran
    subst hs
    obtain ⟨out, hout, hran'⟩ := hturn q d hq hran
    exact ⟨out, hout, by rwa [show min (q + w) size = q + min w (size - q) by omega]⟩

/-- **The rest of a run**, from what its whole blocks left. -/
theorem runTail_spec (hB : B.storage = .lent) (hin : start + size ≤ dst.length * w)
    {deposit : List (BitVec w) → Nat → Option (BitVec w)}
    (hdep : ∀ d n, n < size → Ran f g start n dst d → ∃ e, deposit d n = some e ∧
      ∀ i, i < min w (size - n) → e.getLsbD i = g (n + i))
    (h : Ran f g start (wholeBlocks w start size * w) dst d) :
    ∃ out, runTail B f deposit start size d = some out ∧ Ran f g start size dst out := by
  have hw := B.bits_pos
  refine Ran.loop hw (wholeBlocks_le w start size) h _ fun q d hq hran => ?_
  have hm : min w (size - q) ≤ w := Nat.min_le_left _ _
  obtain ⟨e, he, hebits⟩ := hdep d q hq hran
  obtain ⟨b, hb, hbbits⟩ := blockAt_some d (start + q) hB (by rw [hran.length]; omega)
  obtain ⟨out, hout, hran'⟩ := hran.block hB (m := min w (size - q)) (by omega) hm (by omega)
    (f.block b (e &&& partialBlockMask (min w (size - q)))
      (partialBlockMask (min w (size - q)))) fun i hi => by
      have hmask : (partialBlockMask (min w (size - q)) : BitVec w).getLsbD i = true := by
        rw [getLsbD_partialBlockMask hm, decide_eq_true hi]
      rw [f.getLsbD_block (by omega) (fun h => by rw [hmask] at h; cases h), if_pos hmask,
        BitVec.getLsbD_and, hmask, Bool.and_true, hebits i hi, hbbits i (by omega), hran.bits,
        if_neg (by omega)]
  refine ⟨out, ?_, hran'⟩
  rw [Option.bind_some, he, Option.bind_some, hb]
  exact hout

/-- Blocks put in the place of others. -/
theorem getD_spliced {mid : List (BitVec w)} {a i : Nat} (h : a + mid.length ≤ dst.length) :
    (dst.take a ++ mid ++ dst.drop (a + mid.length)).getD i zero =
      if a ≤ i ∧ i < a + mid.length then mid.getD (i - a) zero else dst.getD i zero := by
  have htake : (dst.take a).length = a := by
    rw [List.length_take]
    omega
  rw [getD_append', List.length_append, htake, getD_append', htake, getD_take, getD_drop]
  by_cases h1 : i < a
  · rw [if_pos (by omega), if_pos h1, if_pos h1, if_neg (by omega)]
  · by_cases h2 : i < a + mid.length
    · rw [if_pos h2, if_neg h1, if_pos (by omega)]
    · rw [if_neg h2, if_neg (by omega), show a + mid.length + (i - (a + mid.length)) = i by omega]

variable (size) in
/-- Whole blocks combined in place are the positions in them. -/
theorem wholes_run {mid : List (BitVec w)} (hw : 0 < w) (hal : mid.length ≠ 0 → start % w = 0)
    (hle : mid.length * w ≤ size) (hin : start + size ≤ dst.length * w)
    (hbits : ∀ k j, k < mid.length → j < w → (mid.getD k zero).getLsbD j =
      f.bit (bitAt dst (start + k * w + j)) (g (k * w + j))) :
    Ran f g start (mid.length * w) dst
      (dst.take (start / w) ++ mid ++ dst.drop (start / w + mid.length)) := by
  by_cases hzero : mid.length = 0
  · obtain rfl := List.length_eq_zero_iff.mp hzero
    rw [List.length_nil, Nat.zero_mul, Nat.add_zero, List.append_nil, List.take_append_drop]
    exact .none
  · have hal := hal hzero
    have hstart : start = start / w * w := by
      have := Nat.div_add_mod' start w
      omega
    have hfit : start / w + mid.length ≤ dst.length := by
      refine Nat.le_of_mul_le_mul_right (c := w) ?_ hw
      rw [Nat.add_mul]
      omega
    refine ⟨?_, fun p => ?_⟩
    · rw [List.length_append, List.length_append, List.length_take, List.length_drop]
      omega
    · obtain ⟨i, j, hj, rfl⟩ := exists_pos hw p
      rw [bitAt_pos hj, getD_spliced hfit]
      by_cases hi : start / w ≤ i ∧ i < start / w + mid.length
      · obtain ⟨k, rfl⟩ := Nat.exists_eq_add_of_le hi.1
        have hk : k * w + w ≤ mid.length * w := by
          rw [← Nat.succ_mul]
          exact Nat.mul_le_mul_right w (by omega)
        rw [if_pos hi, Nat.add_sub_cancel_left, hbits k j (by omega) hj, Nat.add_mul, ← hstart,
          if_pos (by omega)]
        congr 2
        omega
      · rw [if_neg hi, if_neg, bitAt_pos hj]
        intro hp
        refine hi ⟨?_, ?_⟩
        · by_contra hlt
          have := Nat.mul_le_mul_right w (show i + 1 ≤ start / w by omega)
          rw [Nat.succ_mul] at this
          omega
        · by_contra hge
          have := Nat.mul_le_mul_right w (show start / w + mid.length ≤ i by omega)
          rw [Nat.add_mul] at this
          omega

variable (size) in
theorem wholeBlocks_aligned (h : wholeBlocks w start size ≠ 0) : start % w = 0 := by
  unfold wholeBlocks at h
  by_contra hne
  rw [if_neg hne] at h
  exact h rfl

/-- The whole blocks of a run lie within the blocks that hold it. -/
theorem wholes_fit (hw : 0 < w) {n : Nat} (hoff : start / w ≤ n) (hin : start + size ≤ n * w) :
    start / w + wholeBlocks w start size ≤ n := by
  by_cases hzero : wholeBlocks w start size = 0
  · omega
  · have hal := wholeBlocks_aligned size hzero
    have hle := wholeBlocks_le w start size
    have hdiv := Nat.div_add_mod' start w
    refine Nat.le_of_mul_le_mul_right (c := w) ?_ hw
    rw [Nat.add_mul]
    omega

theorem wholeBlocks_zero : wholeBlocks w start 0 = 0 := by
  unfold wholeBlocks
  split
  · exact Nat.zero_div w
  · rfl

theorem subspan_some {offset count : Nat} (h : offset + count ≤ src.length) :
    subspan src offset count = some ((src.drop offset).take count) :=
  if_pos ⟨by omega, by omega⟩

/-- A loop over no positions leaves what it was given. -/
theorem forStep_none {σ : Type} {body : Nat → σ → σ} {t : σ} (hw : 0 < w) :
    forStep w 0 0 body t = t := by
  obtain ⟨_, _, h⟩ := forStep_inv (fun _ u => u = t) hw rfl
    (f := body) (b := 0) (a := 0) (s := t) fun q _ hq => absurd hq (Nat.not_lt_zero q)
  exact h

/-- The whole blocks of a run, copied to the front of the destination. -/
theorem copied_run (hw : 0 < w) (hfit : start / w + wholeBlocks w start size ≤ src.length)
    (hroom : size ≤ dst.length * w) :
    Ran .assign (fun j => bitAt src (start + j)) 0 (wholeBlocks w start size * w) dst
      ((src.drop (start / w)).take (wholeBlocks w start size) ++
        dst.drop (wholeBlocks w start size)) := by
  have hle := wholeBlocks_le w start size
  generalize hmid : (src.drop (start / w)).take (wholeBlocks w start size) = mid
  have hlen : mid.length = wholeBlocks w start size := by
    rw [← hmid, List.length_take, List.length_drop]
    omega
  have hrun : Ran .assign (fun j => bitAt src (start + j)) 0 (mid.length * w) dst
      (dst.take (0 / w) ++ mid ++ dst.drop (0 / w + mid.length)) :=
    wholes_run size hw (fun _ => Nat.zero_mod w) (by rwa [hlen]) (by omega) fun k j hk hj => ?_
  · rw [Nat.zero_div, List.take_zero, List.nil_append, Nat.zero_add, hlen] at hrun
    exact hrun
  · have hal := wholeBlocks_aligned size (show wholeBlocks w start size ≠ 0 by omega)
    have hdiv := Nat.div_add_mod' start w
    show _ = bitAt src (start + (k * w + j))
    rw [← hmid, getD_take, if_pos (by omega), getD_drop,
      show start + (k * w + j) = (start / w + k) * w + j by rw [Nat.add_mul]; omega, bitAt_pos hj]

/-- **A run gathered**: its elements in order, from position zero of a clear array. -/
theorem gatherRun_spec (hB : B.storage = .lent) (hoff : start / w ≤ src.length)
    (hin : 0 < size → start + size ≤ src.length * w) (hdst : dst.length = blocksFor w size)
    (hclear : ∀ p, bitAt dst p = false) :
    ∃ out, gatherRun B src start size dst = some out ∧ out.length = dst.length ∧
      ∀ q, bitAt out q = ((List.range' start size).map (bitAt src)).getD q false := by
  have hw := B.bits_pos
  rcases Nat.eq_zero_or_pos size with h0 | h0
  · subst h0
    refine ⟨dst, ?_, rfl, fun q => hclear q⟩
    unfold gatherRun
    dsimp only
    rw [wholeBlocks_zero, subspan_some (by omega), Option.bind_some, if_neg (Nat.not_lt_zero _),
      Nat.zero_mul]
    exact forStep_none hw
  · have hin := hin h0
    have hfit := wholes_fit hw hoff hin
    have hle := wholeBlocks_le w start size
    have hcap : size ≤ dst.length * w := by
      rw [hdst]
      exact le_blocksFor_mul hw
    have hroom : wholeBlocks w start size ≤ dst.length :=
      Nat.le_of_mul_le_mul_right (Nat.le_trans hle hcap) hw
    obtain ⟨out, hout, hran⟩ := (copied_run hw hfit hcap).loop hw hle
      (fun j out => out.bind fun d => (blockAt B src (start + j)).bind fun value =>
        writeBlockAt B d j value (partialBlockMask (min w (size - j)))) fun q d hq hran => by
        obtain ⟨b, hb, hbbits⟩ := blockAt_some src (start + q) hB (by omega)
        obtain ⟨out, hout, hran'⟩ := hran.block hB (m := min w (size - q)) (by omega)
          (Nat.min_le_left _ _) (by omega) b fun i hi => by
            show _ = bitAt src (start + (q + i))
            rw [hbbits i (by omega), Nat.add_assoc]
        rw [Nat.zero_add] at hout
        refine ⟨out, ?_, hran'⟩
        rw [Option.bind_some, hb]
        exact hout
    refine ⟨out, ?_, hran.length, fun q => ?_⟩
    · unfold gatherRun
      dsimp only
      rw [subspan_some hfit, Option.bind_some, if_neg (by omega)]
      exact hout
    · rw [hran.bits]
      by_cases hq : q < size
      · rw [if_pos (by omega), List.getD_eq_getElem _ _ (by simpa using hq), List.getElem_map,
          List.getElem_range', Nat.one_mul]
        rfl
      · rw [if_neg (by omega), hclear, List.getD_eq_default _ _ (by simpa using hq)]

/-- The elements the whole blocks combine. -/
theorem combined_bits {from' onto : List (BitVec w)} (hlen : onto.length = from'.length)
    (mid : List (BitVec w)) (hmid : mid = match f with
      | .assign => from'
      | f => List.zipWith (fun d e => f.block d e ones) onto from') :
    mid.length = from'.length ∧ ∀ k j, k < mid.length → j < w →
      (mid.getD k zero).getLsbD j =
        f.bit ((onto.getD k zero).getLsbD j) ((from'.getD k zero).getLsbD j) := by
  have hzip (f : Combine) : (List.zipWith (fun d e => f.block d e ones) onto from').length =
      from'.length ∧ ∀ k j, k < from'.length → j < w →
        ((List.zipWith (fun d e => f.block d e ones) onto from').getD k zero).getLsbD j =
          f.bit ((onto.getD k zero).getLsbD j) ((from'.getD k zero).getLsbD j) := by
    have hzl : (List.zipWith (fun d e => f.block d e ones) onto from').length = from'.length := by
      rw [List.length_zipWith, hlen, Nat.min_self]
    refine ⟨hzl, fun k j hk hj => ?_⟩
    have hone : (ones : BitVec w).getLsbD j = true := (getLsbD_ones).trans (decide_eq_true hj)
    rw [List.getD_eq_getElem _ _ (by omega), List.getElem_zipWith,
      f.getLsbD_block hj (fun h => by rw [hone] at h; cases h), if_pos hone,
      List.getD_eq_getElem _ _ (by omega), List.getD_eq_getElem _ _ hk]
  cases f with
  | assign =>
      subst hmid
      exact ⟨rfl, fun k j _ _ => rfl⟩
  | and =>
      subst hmid
      exact ⟨(hzip .and).1, fun k j hk => (hzip .and).2 k j ((hzip .and).1 ▸ hk)⟩
  | or =>
      subst hmid
      exact ⟨(hzip .or).1, fun k j hk => (hzip .or).2 k j ((hzip .or).1 ▸ hk)⟩
  | xor =>
      subst hmid
      exact ⟨(hzip .xor).1, fun k j hk => (hzip .xor).2 k j ((hzip .xor).1 ▸ hk)⟩

/-- The block a run reads at `n` is what it was: what an array lends itself lies past what the run
    has written. -/
theorem Ran.reads (hB : B.storage = .lent) {lent : LentBlocks w} {n : Nat} (hn : n < size)
    (hsrc : size ≤ (lent.get dst).length * w) (hown : lent = .own → start = 0)
    (h : Ran f (lent.bits (bitAt dst)) start n dst d) :
    ∃ e, blockAt B (lent.get d) n = some e ∧
      ∀ i, i < min w (size - n) → e.getLsbD i = lent.bits (bitAt dst) (n + i) := by
  cases lent with
  | of blocks =>
      obtain ⟨e, he, hebits⟩ := blockAt_some blocks n hB (Nat.lt_of_lt_of_le hn hsrc)
      exact ⟨e, he, fun i hi => hebits i (by omega)⟩
  | own =>
      have hsrc : size ≤ dst.length * w := hsrc
      obtain ⟨e, he, hebits⟩ := blockAt_some d n hB (by rw [h.length]; omega)
      refine ⟨e, he, fun i hi => ?_⟩
      rw [hebits i (by omega), h.bits, if_neg]
      · rfl
      · rw [hown rfl]
        omega

/-- The whole blocks of a run, combined where they stand, and the loop over its rest. -/
theorem expandRun_wholes {lent : LentBlocks w} (hw : 0 < w)
    (hfrom : wholeBlocks w start size ≤ (lent.get dst).length)
    (honto : start / w + wholeBlocks w start size ≤ dst.length)
    (hin : 0 < size → start + size ≤ dst.length * w) :
    ∃ d, expandRun B f lent start size dst =
        runTail B f (fun d j => blockAt B (lent.get d) j) start size d ∧
      (size = 0 → d = dst) ∧
      (0 < size → Ran f (lent.bits (bitAt dst)) start (wholeBlocks w start size * w) dst d) := by
  have hle := wholeBlocks_le w start size
  generalize hf : ((lent.get dst).drop 0).take (wholeBlocks w start size) = from'
  generalize ho : (dst.drop (start / w)).take (wholeBlocks w start size) = onto
  have hfl : from'.length = wholeBlocks w start size := by
    rw [← hf, List.length_take, List.length_drop]
    omega
  have hol : onto.length = from'.length := by
    rw [hfl, ← ho, List.length_take, List.length_drop]
    omega
  obtain ⟨hml, hmbits⟩ := combined_bits (f := f) hol _ rfl
  generalize hmid : (match f with
    | .assign => from'
    | f => List.zipWith (fun d e => f.block d e ones) onto from') = mid at hml hmbits
  refine ⟨dst.take (start / w) ++ mid ++ dst.drop (start / w + mid.length), ?_, fun h0 => ?_,
    fun h0 => ?_⟩
  · unfold expandRun
    dsimp only
    rw [subspan_some (by omega), hf, Option.bind_some, subspan_some honto, ho, Option.bind_some,
      hml, hfl, ← hmid]
  · have hnil : mid = [] := by
      rw [← List.length_eq_zero_iff, hml, hfl, h0, wholeBlocks_zero]
    rw [hnil, List.append_nil, List.length_nil, Nat.add_zero, List.take_append_drop]
  · rw [← hfl, ← hml]
    refine wholes_run size hw (fun hne => wholeBlocks_aligned size (by omega))
      (by rwa [hml, hfl]) (hin h0) fun k j hk hj => ?_
    have hal := wholeBlocks_aligned size (show wholeBlocks w start size ≠ 0 by omega)
    have hdiv := Nat.div_add_mod' start w
    rw [hmbits k j hk hj, ← ho, ← hf, getD_take, if_pos (by omega), getD_drop, getD_take,
      if_pos (by omega), getD_drop, Nat.zero_add, ← LentBlocks.bitAt_get, bitAt_pos hj,
      show start + k * w + j = (start / w + k) * w + j by rw [Nat.add_mul]; omega, bitAt_pos hj]

/-- **A run scattered**, from any array: one that is lent its own blocks has them all selected. -/
theorem expandRun_spec (hB : B.storage = .lent) (f : Combine) {lent : LentBlocks w}
    (hoff : start / w ≤ dst.length) (hin : 0 < size → start + size ≤ dst.length * w)
    (hsrc : size ≤ (lent.get dst).length * w) (hown : lent = .own → 0 < size → start = 0) :
    ∃ out, expandRun B f lent start size dst = some out ∧ out.length = dst.length ∧
      bitAt out = scatterLoop f.bit lent.bits (List.range' start size) 0 (bitAt dst) := by
  have hw := B.bits_pos
  have hfrom : wholeBlocks w start size ≤ (lent.get dst).length :=
    Nat.le_of_mul_le_mul_right (Nat.le_trans (wholeBlocks_le w start size) hsrc) hw
  have honto : start / w + wholeBlocks w start size ≤ dst.length := by
    rcases Nat.eq_zero_or_pos size with h0 | h0
    · rw [h0, wholeBlocks_zero]
      omega
    · exact wholes_fit hw hoff (hin h0)
  obtain ⟨d, hrun, hnone, hwholes⟩ := expandRun_wholes (B := B) (f := f) hw hfrom honto hin
  rw [hrun]
  rcases Nat.eq_zero_or_pos size with h0 | h0
  · rw [hnone h0]
    subst h0
    refine ⟨dst, ?_, rfl, rfl⟩
    unfold runTail
    rw [wholeBlocks_zero, Nat.zero_mul]
    exact forStep_none hw
  · obtain ⟨out, hout, hran⟩ := runTail_spec hB (hin h0)
      (fun d n hn hran => hran.reads hB hn hsrc fun h => hown h h0) (hwholes h0)
    refine ⟨out, hout, hran.length, hran.scatter.trans ?_⟩
    cases lent with
    | of blocks => rfl
    | own =>
        rw [hown rfl h0]
        exact (scatterLoop_self fun _ _ => rfl).symm

/-- A whole block of the run. -/
theorem Ran.whole {m : Nat} (hw : 0 < w) (h : Ran f g start (m * w) dst d) (hal : start % w = 0)
    (hlt : start / w + m < d.length) {e : BitVec w}
    (he : ∀ j, j < w → e.getLsbD j = g (m * w + j)) :
    Ran f g start ((m + 1) * w) dst
      (d.set (start / w + m) (f.block (d.get ⟨start / w + m, hlt⟩) e ones)) where
  length := List.length_set.trans h.length
  bits p := by
    have hdiv := Nat.div_add_mod' start w
    obtain ⟨i, j, hj, rfl⟩ := exists_pos hw p
    have hone : (ones : BitVec w).getLsbD j = true := (getLsbD_ones).trans (decide_eq_true hj)
    have hget : d.get ⟨start / w + m, hlt⟩ = d.getD (start / w + m) zero :=
      (List.getD_eq_getElem _ _ hlt).symm
    rw [bitAt_set hlt, pos_div hj, pos_mod hj, Nat.succ_mul]
    by_cases hi : i = start / w + m
    · subst hi
      rw [if_pos rfl, hget, f.getLsbD_block hj (fun h => by rw [hone] at h; cases h), if_pos hone,
        ← bitAt_pos hj, h.bits, Nat.add_mul, if_neg (by omega), if_pos (by omega), he j hj]
      congr 2
      omega
    · rw [if_neg hi, h.bits]
      refine if_congr ?_ rfl rfl
      refine and_congr_right fun hle => ?_
      have htri := block_trichotomy i (start / w + m) w
      rw [Nat.add_mul] at htri
      omega

/-- **A run filled.** -/
theorem fillRun_spec (hB : B.storage = .lent) (f : Combine) {value : Bool}
    (hin : 0 < size → start + size ≤ dst.length * w) :
    ∃ out, fillRun B f value start size dst = some out ∧ out.length = dst.length ∧
      bitAt out = scatterLoop f.bit (fun _ _ => value) (List.range' start size) 0 (bitAt dst) := by
  have hw := B.bits_pos
  have hle := wholeBlocks_le w start size
  rcases Nat.eq_zero_or_pos size with h0 | h0
  · subst h0
    refine ⟨dst, ?_, rfl, rfl⟩
    unfold fillRun runTail
    rw [wholeBlocks_zero, Nat.zero_mul]
    exact forStep_none hw
  · have hin := hin h0
    have hloop : ∀ m, m ≤ wholeBlocks w start size → ∃ d,
        (List.range m).foldlM (fun d k =>
          if h : start / w + k < d.length then
            some (d.set (start / w + k)
              (f.block (d.get ⟨start / w + k, h⟩) (splat value) ones))
          else none) dst = some d ∧ Ran f (fun _ => value) start (m * w) dst d := by
      intro m
      induction m with
      | zero =>
          intro _
          refine ⟨dst, rfl, ?_⟩
          rw [Nat.zero_mul]
          exact .none
      | succ m ih =>
          intro hm
          obtain ⟨d, hd, hran⟩ := ih (by omega)
          have hal := wholeBlocks_aligned size (show wholeBlocks w start size ≠ 0 by omega)
          have hdiv := Nat.div_add_mod' start w
          have hoff : start / w ≤ dst.length :=
            Nat.div_le_of_le_mul (by rw [Nat.mul_comm]; omega)
          have hfit := wholes_fit hw hoff hin
          have hlt : start / w + m < d.length := by rw [hran.length]; omega
          refine ⟨_, ?_, hran.whole hw hal hlt fun j hj => getLsbD_splat hj⟩
          rw [List.range_succ, List.foldlM_append, hd]
          show (if h : _ then _ else _ : Option _) >>= pure = _
          rw [dif_pos hlt]
          rfl
    obtain ⟨d, hd, hran⟩ := hloop _ (Nat.le_refl _)
    have hdep : ∀ d n, n < size → Ran f (fun _ => value) start n dst d →
        ∃ e, some (splat value) = some e ∧
          ∀ i, i < min w (size - n) → (e : BitVec w).getLsbD i = value :=
      fun _ _ _ _ => ⟨_, rfl, fun i hi => getLsbD_splat (by omega)⟩
    obtain ⟨out, hout, hran⟩ := runTail_spec hB hin hdep hran
    refine ⟨out, ?_, hran.length, hran.scatter⟩
    unfold fillRun
    rw [hd]
    exact hout

end Specs

end XstdBits
