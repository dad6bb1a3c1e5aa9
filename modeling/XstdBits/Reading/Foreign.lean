/-
  File: XstdBits/Reading/Foreign.lean
  Subject: the ends of `bit_convert` that are no container of this library (`bit_convertible.hpp`,
  `bit_layout.hpp`, `ext/boost/detail/dynamic_bitset.hpp`).

  * `PlainType`: a block, an array of blocks or a `std::bitset`, through its bytes;
  * `DynamicBitset`: Boost's functions, with what its documentation says of them; `sinkBlocks` is
    what `to_block_range` writes into, `gatherBlock` what `from_block_range` reads;
  * `BitConvertSource`: what `bit_convert` asks of a source, and the ways that ask no more of it.

  Every way between any two ends leaves position `i` at position `i`, and refuses what the target
  cannot hold (`convert_ends`).
-/
import XstdBits.Reading.Convert
import XstdBits.Set.Flags
import XstdBits.Set.View

namespace XstdBits

open BitBlockContainer

/-! ## 1. Plain values -/

/-- A fixed width that is no container's: a block or an array of blocks of whole bytes, or a
    `std::bitset`. -/
inductive PlainType where
  | blocks (w count : Nat) (pos : 0 < w) (whole : 8 ∣ w ∨ count ≤ 1)
      (resident : count * w + 8 ≤ 2 ^ 63)
  | bitset (n : Nat) (resident : n + 8 ≤ 2 ^ 63)

namespace PlainType

/-- `bit_width_v`. -/
def width : PlainType → Nat
  | blocks w count _ _ _ => count * w
  | bitset n _ => n

/-- A value: so many blocks, or a bitset's bits. -/
def Value : PlainType → Type
  | blocks w count _ _ _ => { elems : List (BitVec w) // elems.length = count }
  | bitset n _ => BitVec n

/-- Position `i` of a value, clear past its width. -/
def bit : (t : PlainType) → t.Value → Nat → Bool
  | blocks _ _ _ _ _, x, i => bitAt x.val i
  | bitset _ _, x, i => BitVec.getLsbD x i

/-- `bit_bytes<N>`. -/
def bytes (o : Nat → Nat → Bool) : (t : PlainType) → t.Value → List Byte
  | blocks w count _ _ _, x => bitBytes (o w 8) (count * w) x.val
  | bitset _ _, x => bitsetObject x

/-- `from_fixed_bytes` of so many blocks. -/
def blocksOfBytes (o : Nat → Nat → Bool) (w count : Nat) (bytes : List Byte) : List (BitVec w) :=
  if count * w = 0 then List.replicate count zero
  else copyBits (o 8 w) bytes (List.replicate count zero)

/-- `from_fixed_bytes` of a bitset. -/
def bitsetOfBytes (n : Nat) (bytes : List Byte) : BitVec n :=
  if n = 0 then 0 else bitsetOfObject n bytes

theorem length_blocksOfBytes {o : Nat → Nat → Bool} {w count : Nat} {bytes : List Byte}
    (hw : 0 < w) : (blocksOfBytes o w count bytes).length = count := by
  unfold blocksOfBytes
  split
  · exact List.length_replicate
  · exact (copyBits_place (o 8 w) bytes (by decide) hw fun _ => bitAt_zeros).1.trans
      List.length_replicate

/-- `from_fixed_bytes`. -/
def ofBytes (o : Nat → Nat → Bool) : (t : PlainType) → List Byte → t.Value
  | blocks w count pos _ _, bytes => ⟨blocksOfBytes o w count bytes, length_blocksOfBytes pos⟩
  | bitset n _, bytes => bitsetOfBytes n bytes

variable {o : Nat → Nat → Bool} {t : PlainType}

/-- **The bytes of a plain value hold its positions.** -/
theorem bytes_spec (x : t.Value) : (t.bytes o x).length = byteCount t.width ∧
    ∀ p, bitAt (t.bytes o x) p = t.bit x p := by
  cases t with
  | blocks w count pos whole resident =>
      obtain ⟨elems, hlen⟩ := x
      have hlay : ByteLayout elems := by
        unfold ByteLayout
        rw [hlen]
        exact whole
      obtain ⟨hl, hbits⟩ := @bitBytes_spec w (o w 8) (count * w) elems pos hlay
      refine ⟨hl, fun p => (hbits p).trans ?_⟩
      show (decide (p < byteCount (count * w) * 8) && bitAt elems p) = bitAt elems p
      by_cases hp : p < byteCount (count * w) * 8
      · rw [decide_eq_true hp, Bool.true_and]
      · have := byteCount_mul_ge (n := count * w)
        rw [bitAt_of_le pos (by rw [hlen]; omega), Bool.and_false]
  | bitset n resident => exact bitsetObject_spec x

/-- A value is clear past its width. -/
theorem bit_of_width {x : t.Value} {p : Nat} (h : t.width ≤ p) : t.bit x p = false := by
  cases t with
  | blocks w count pos whole resident => exact bitAt_of_le pos (by rw [x.property]; exact h)
  | bitset n resident => exact BitVec.getLsbD_of_ge x p h

/-- **A value made of bytes holds their positions**, as far as it reaches. -/
theorem bit_ofBytes (bytes : List Byte) (p : Nat) :
    t.bit (t.ofBytes o bytes) p = (decide (p < t.width) && bitAt bytes p) := by
  by_cases hp : p < t.width
  · rw [decide_eq_true hp, Bool.true_and]
    cases t with
    | blocks w count pos whole resident =>
        have hne : count * w ≠ 0 := Nat.ne_of_gt (Nat.lt_of_le_of_lt (Nat.zero_le p) hp)
        have hlay : ByteLayout (List.replicate count (zero : BitVec w)) := by
          unfold ByteLayout
          rw [List.length_replicate]
          exact whole
        show bitAt (blocksOfBytes o w count bytes) p = bitAt bytes p
        unfold blocksOfBytes
        rw [if_neg hne]
        exact (copyBits_spec (o 8 w) (by decide) pos (byteLayout_bytes bytes) hlay
          fun _ _ => bitAt_zeros).2 p (by rw [List.length_replicate]; exact hp)
    | bitset n resident =>
        have hne : n ≠ 0 := Nat.ne_of_gt (Nat.lt_of_le_of_lt (Nat.zero_le p) hp)
        show (bitsetOfBytes n bytes).getLsbD p = bitAt bytes p
        unfold bitsetOfBytes
        rw [if_neg hne, getLsbD_bitsetOfObject, decide_eq_true (show p < n from hp), Bool.true_and]
  · rw [decide_eq_false hp, Bool.false_and, bit_of_width (Nat.le_of_not_lt hp)]

end PlainType

/-! ## 2. Boost's blocks -/

/-- `block_sink`. -/
structure BlockSink (u : Nat) where
  dst : List (BitVec u)
  index : Nat

namespace BlockSink
variable {w u : Nat}

/-- A block of the target's own type: stored, or dropped past the last. -/
def store (s : BlockSink u) (block : BitVec u) : List (BitVec u) :=
  if s.index < s.dst.length then s.dst.set s.index block else s.dst

/-- A block of another type: or-ed in a byte at a time, as far as the target reaches. -/
def orBytes (s : BlockSink u) (block : BitVec w) : List (BitVec u) :=
  let first := s.index * bytesPerBlock w
  let last := max first (min (first + bytesPerBlock w) (valueBytes s.dst))
  forUp first last (fun j dst => orBlockByte dst j (blockByte [block] (j - first))) s.dst

/-- `*it = block`; `same` says that the two are blocks of one type. -/
def assign (same : Bool) (s : BlockSink u) (block : BitVec w) : BlockSink u :=
  { s with dst := if h : same = true ∧ w = u then s.store (block.cast h.2) else s.orBytes block }

/-- `++it`. -/
def next (s : BlockSink u) : BlockSink u := { s with index := s.index + 1 }

end BlockSink

/-- What a copy of blocks into a sink leaves. -/
def sinkBlocks {w u : Nat} (same : Bool) (blocks : List (BitVec w)) (dst : List (BitVec u)) :
    List (BitVec u) :=
  (blocks.foldl (fun s block => (s.assign same block).next) (⟨dst, 0⟩ : BlockSink u)).dst

/-- `gather_block`: block `i` at another width, a byte at a time. -/
def gatherBlock {w : Nat} (same : Bool) (u : Nat) (src : List (BitVec w)) (i : Nat) : BitVec u :=
  if h : same = true ∧ w = u then (src.getD i zero).cast h.2
  else
    let first := i * bytesPerBlock u
    (forUp first (min (first + bytesPerBlock u) (valueBytes src))
      (fun j target => orBlockByte target (j - first) (blockByte src j)) [zero]).getD 0 zero

section Sink
variable {w u : Nat} {same : Bool}

/-- What a sink holds once the blocks of `pre` are in it. -/
structure SinkHolds (n : Nat) (pre : List (BitVec w)) (s : BlockSink u) : Prop where
  index : s.index = pre.length
  length : s.dst.length = n
  bits : ∀ q, q < n * u → bitAt s.dst q = bitAt pre q

variable {n : Nat} {pre : List (BitVec w)} {s : BlockSink u} {block : BitVec w}

/-- The blocks of `pre` and one more, at a position of one of them. -/
theorem bitAt_push (hw : 0 < w) (q : Nat) : bitAt (pre ++ [block]) q =
    (bitAt pre q || (decide (pre.length * w ≤ q) && block.getLsbD (q - pre.length * w))) := by
  rw [bitAt_append hw]
  split
  · rename_i hq
    rw [decide_eq_false (by omega), Bool.false_and, Bool.or_false]
  · rename_i hq
    rw [bitAt_singleton hw, bitAt_of_le hw (by omega), Bool.false_or, decide_eq_true (by omega),
      Bool.true_and]

/-- A block of the target's own type stands where it belongs, or nowhere past the last. -/
theorem SinkHolds.store {s : BlockSink w} (hw : 0 < w) (h : SinkHolds n pre s) :
    (s.store block).length = n ∧
      ∀ q, q < n * w → bitAt (s.store block) q = bitAt (pre ++ [block]) q := by
  unfold BlockSink.store
  refine ⟨?_, fun q hq => ?_⟩
  · split
    · rw [List.length_set, h.length]
    · exact h.length
  · obtain ⟨i, t, ht, rfl⟩ := exists_pos hw q
    have hi := (pos_lt_iff ht).mp hq
    have hbits := h.bits (i * w + t) hq
    rw [bitAt_push hw]
    by_cases hin : s.index = i
    · -- the block itself, where nothing was yet
      have hle : pre.length * w ≤ i * w + t := by rw [← h.index, hin]; omega
      rw [if_pos (by rw [hin, h.length]; exact hi), bitAt_set (by rw [hin, h.length]; exact hi),
        pos_div ht, pos_mod ht, if_pos hin.symm, bitAt_of_le hw hle, Bool.false_or,
        decide_eq_true hle, Bool.true_and, ← h.index, hin, Nat.add_sub_cancel_left]
    · have hkeep : bitAt (if s.index < s.dst.length then s.dst.set s.index block else s.dst)
          (i * w + t) = bitAt s.dst (i * w + t) := by
        split
        · rename_i hlt
          rw [bitAt_set hlt, pos_div ht, if_neg (Ne.symm hin)]
        · rfl
      rw [hkeep, hbits]
      by_cases hle : pre.length * w ≤ i * w + t
      · have hlt : pre.length < i + 1 := by
          refine block_lt_of_mul_lt (w := w) ?_
          rw [Nat.succ_mul]
          omega
        have hnext := Nat.mul_le_mul_right w (show pre.length + 1 ≤ i by rw [h.index] at hin; omega)
        rw [Nat.succ_mul] at hnext
        rw [BitVec.getLsbD_of_ge block _ (by omega), Bool.and_false, Bool.or_false]
      · rw [decide_eq_false hle, Bool.false_and, Bool.or_false]

/-- A block of another type is or-ed in byte by byte, as far as the target reaches. -/
theorem SinkHolds.orBytes (hw : tilingBlock w = true) (hu : 0 < u) (hd : ByteLayout s.dst)
    (h : SinkHolds n pre s) : (s.orBytes block).length = n ∧
      ∀ q, q < n * u → bitAt (s.orBytes block) q = bitAt (pre ++ [block]) q := by
  unfold BlockSink.orBytes
  dsimp only
  generalize hfirst : s.index * bytesPerBlock w = first
  generalize hlast : max first (min (first + bytesPerBlock w) (valueBytes s.dst)) = last
  have h8 := dvd_of_tilingBlock hw
  have hpos := pos_of_tilingBlock hw
  have hwhole := bytesPerBlock_whole h8
  have hstart : pre.length * w = 8 * first := by
    rw [← h.index, ← hfirst, Nat.mul_left_comm, hwhole]
  -- the bytes below `j` are in, and nothing else
  have hinv := forUp_inv (a := first) (b := last)
    (f := fun j dst => orBlockByte dst j (blockByte [block] (j - first))) (s := s.dst)
    (fun j dst => dst.length = n ∧ ∀ q, q < n * u → bitAt dst q =
      (bitAt pre q || (decide (pre.length * w ≤ q) && decide (q / 8 < j) &&
        block.getLsbD (q - pre.length * w))))
    (by omega) ⟨h.length, fun q hq => by
      rw [h.bits q hq]
      by_cases hle : pre.length * w ≤ q
      · rw [decide_eq_false (show ¬ q / 8 < first by omega), Bool.and_false, Bool.false_and,
          Bool.or_false]
      · rw [decide_eq_false hle, Bool.false_and, Bool.false_and, Bool.or_false]⟩
    ?_
  · refine ⟨hinv.1, fun q hq => ?_⟩
    rw [hinv.2 q hq, bitAt_push hpos]
    by_cases hle : pre.length * w ≤ q
    · by_cases hin : q - pre.length * w < w
      · -- the target reaches the byte, and the block does
        have hreach : q / 8 < valueBytes s.dst := by
          have := le_valueBytes_mul (b := s.dst)
          rw [h.length] at this
          omega
        rw [decide_eq_true (show q / 8 < last by omega), Bool.and_true]
      · rw [BitVec.getLsbD_of_ge block _ (by omega), Bool.and_false, Bool.and_false]
    · rw [decide_eq_false hle, Bool.false_and, Bool.false_and]
  · intro j dst hj hend ⟨hl, hbits⟩
    have hlay : ByteLayout dst := byteLayout_congr hd (by rw [hl, h.length])
    have hin : j < valueBytes dst := by
      rw [valueBytes_congr (show dst.length = s.dst.length by rw [hl, h.length])]
      omega
    refine ⟨by unfold orBlockByte; rw [List.length_set, hl], fun q hq => ?_⟩
    have hq8 := Nat.mod_lt q (show 0 < 8 by decide)
    rw [bitAt_orBlockByte hu hin, bytePosition_of_layout hu hlay (by rwa [hl]), hbits q hq,
      getLsbD_blockByte (b := [block]) hpos (Or.inr (Nat.le_refl 1)) hq8, bitAt_singleton hpos]
    by_cases hqj : q / 8 = j
    · rw [decide_eq_true hqj, Bool.true_and, decide_eq_false (show ¬ q / 8 < j by omega),
        decide_eq_true (show q / 8 < j + 1 by omega),
        show 8 * (j - first) + q % 8 = q - pre.length * w by omega,
        decide_eq_true (show pre.length * w ≤ q by omega)]
      simp
    · rw [decide_eq_false hqj, Bool.false_and, Bool.or_false]
      congr 3
      rw [decide_eq_decide]
      omega

/-- **A block written is on its own positions.** -/
theorem SinkHolds.assign (same : Bool) (block : BitVec w) (hw : tilingBlock w = true) (hu : 0 < u)
    (hd : tilingBlock u = true ∨ n ≤ 1) (h : SinkHolds n pre s) :
    SinkHolds n (pre ++ [block]) (s.assign same block).next := by
  have hstep : ∀ dst : List (BitVec u), dst.length = n ∧
      (∀ q, q < n * u → bitAt dst q = bitAt (pre ++ [block]) q) →
      SinkHolds n (pre ++ [block]) (BlockSink.next { s with dst := dst }) :=
    fun dst hdst => ⟨by simp [BlockSink.next, h.index], hdst.1, hdst.2⟩
  unfold BlockSink.assign
  refine hstep _ ?_
  split
  · rename_i heq
    obtain ⟨-, rfl⟩ := heq
    exact h.store hu
  · exact h.orBytes hw hu (by rw [ByteLayout, h.length]; exact hd.imp_left dvd_of_tilingBlock)

/-- **A sink of clear blocks holds the blocks written**, position by position. -/
theorem sinkBlocks_spec (same : Bool) (src : List (BitVec w)) {dst : List (BitVec u)}
    (hw : tilingBlock w = true) (hu : 0 < u) (hd : tilingBlock u = true ∨ dst.length ≤ 1)
    (hclear : ∀ q, q < dst.length * u → bitAt dst q = false) :
    (sinkBlocks same src dst).length = dst.length ∧
      ∀ q, q < dst.length * u → bitAt (sinkBlocks same src dst) q = bitAt src q := by
  have hall (rest : List (BitVec w)) : ∀ (pre : List (BitVec w)) (s : BlockSink u),
      SinkHolds dst.length pre s → SinkHolds dst.length (pre ++ rest)
        (rest.foldl (fun s block => (s.assign same block).next) s) := by
    induction rest with
    | nil => exact fun pre s h => by rwa [List.append_nil]
    | cons block rest ih =>
        intro pre s h
        have := ih (pre ++ [block]) _ (h.assign same block hw hu hd)
        rwa [List.append_assoc, List.singleton_append] at this
  have h := hall src [] ⟨dst, 0⟩ ⟨rfl, rfl, fun q hq => by rw [hclear q hq, bitAt_nil]⟩
  exact ⟨h.length, h.bits⟩

/-- **A block gathered holds the positions of its own place.** -/
theorem getLsbD_gatherBlock {src : List (BitVec w)} (hw : 0 < w) (hs : ByteLayout src)
    (hu : tilingBlock u = true) {i t : Nat} (hi : i * u < src.length * w) (ht : t < u) :
    (gatherBlock same u src i).getLsbD t = bitAt src (i * u + t) := by
  unfold gatherBlock
  split
  · rename_i heq
    obtain ⟨-, rfl⟩ := heq
    rw [bitAt_pos ht]
    rfl
  · have h8 := dvd_of_tilingBlock hu
    have hpos := pos_of_tilingBlock hu
    have hwhole := bytesPerBlock_whole h8
    dsimp only
    generalize hfirst : i * bytesPerBlock u = first
    have hstart : i * u = 8 * first := by
      rw [← hfirst, Nat.mul_left_comm, hwhole]
    have hreach := le_valueBytes_mul (b := src)
    have hinv := forUp_inv (a := first) (b := min (first + bytesPerBlock u) (valueBytes src))
      (f := fun j target => orBlockByte target (j - first) (blockByte src j))
      (s := [(zero : BitVec u)])
      (fun j target => target.length = 1 ∧ ∀ q, q < u →
        bitAt target q = (decide (8 * first + q < 8 * j) && bitAt src (8 * first + q)))
      (by omega) ⟨rfl, fun q hq => by
        rw [bitAt_singleton hpos, decide_eq_false (by omega), Bool.false_and]
        exact getLsbD_zero'⟩
      ?_
    · rw [← bitAt_of_lt ht, hinv.2 t ht, hstart]
      by_cases hin : 8 * first + t < 8 * min (first + bytesPerBlock u) (valueBytes src)
      · rw [decide_eq_true hin, Bool.true_and]
      · rw [decide_eq_false hin, Bool.false_and]
        -- past the source's bytes
        exact (bitAt_of_le hw (by omega)).symm
    · intro j target hj hlast ⟨hl, hbits⟩
      have hlay : ByteLayout target := Or.inl h8
      have hone : valueBytes target = bytesPerBlock u := by
        unfold valueBytes
        rw [hl, Nat.one_mul]
      refine ⟨by unfold orBlockByte; rw [List.length_set, hl], fun q hq => ?_⟩
      have hq8 := Nat.mod_lt q (show 0 < 8 by decide)
      rw [bitAt_orBlockByte hpos (by omega),
        bytePosition_of_layout hpos hlay (by rwa [hl, Nat.one_mul]), hbits q hq,
        getLsbD_blockByte hw hs hq8]
      by_cases hqj : q / 8 = j - first
      · rw [decide_eq_true hqj, decide_eq_false (show ¬ 8 * first + q < 8 * j by omega),
          decide_eq_true (show 8 * first + q < 8 * (j + 1) by omega),
          show 8 * j + q % 8 = 8 * first + q by omega]
        simp
      · rw [decide_eq_false hqj, Bool.false_and, Bool.or_false]
        congr 1
        rw [decide_eq_decide]
        omega

end Sink

/-! ## 3. The two ends -/

/-- `boost::dynamic_bitset<Block>` over the blocks of each width: the functions called of it. -/
structure DynamicBitset where
  Bitset : Nat → Type
  size : {w : Nat} → Bitset w → Nat
  count : {w : Nat} → Bitset w → Nat
  test : {w : Nat} → Bitset w → Nat → Bool
  numBlocks : {w : Nat} → Bitset w → Nat
  /-- the constructor from a size -/
  ofSize : (w : Nat) → Nat → Except Exn (Bitset w)
  /-- the blocks `to_block_range` writes, in its order -/
  toBlockRange : {w : Nat} → Bitset w → List (BitVec w)
  fromBlockRange : {w : Nat} → List (BitVec w) → Bitset w → Bitset w

/-- What its documentation says: as many blocks as the size needs, each position in its own block
    from the least significant bit on and the unused bits clear; blocks are read in place of its
    own, and none of them may have an unused bit set. -/
structure DynamicBitset.Documented (D : DynamicBitset) : Prop where
  count_eq : ∀ {w : Nat} (b : D.Bitset w), D.count b = countBits (D.test b) (D.size b)
  numBlocks_eq : ∀ {w : Nat} (b : D.Bitset w), D.numBlocks b = blocksFor w (D.size b)
  size_ofSize : ∀ {w n : Nat} {b : D.Bitset w}, D.ofSize w n = .ok b → D.size b = n
  length_toBlockRange : ∀ {w : Nat} (b : D.Bitset w), (D.toBlockRange b).length = D.numBlocks b
  bit_toBlockRange : ∀ {w : Nat} (b : D.Bitset w) (i : Nat), tilingBlock w = true →
    bitAt (D.toBlockRange b) i = (decide (i < D.size b) && D.test b i)
  size_fromBlockRange : ∀ {w : Nat} (b : D.Bitset w) (blocks : List (BitVec w)),
    blocks.length = D.numBlocks b → D.size (D.fromBlockRange blocks b) = D.size b
  test_fromBlockRange : ∀ {w : Nat} (b : D.Bitset w) (blocks : List (BitVec w)),
    tilingBlock w = true → blocks.length = D.numBlocks b →
      (∀ i, D.size b ≤ i → bitAt blocks i = false) →
      ∀ i, i < D.size b → D.test (D.fromBlockRange blocks b) i = bitAt blocks i

/-- The blocks of a list of positions. -/
def listedBlocks (w : Nat) (xs : List Bool) : List (BitVec w) :=
  (List.range (blocksFor w xs.length)).map fun k =>
    (BitVec.ofBoolListLE ((xs.drop (k * w)).take w)).setWidth w

theorem length_listedBlocks {w : Nat} {xs : List Bool} :
    (listedBlocks w xs).length = blocksFor w xs.length := by
  unfold listedBlocks
  rw [List.length_map, List.length_range]

theorem bitAt_listedBlocks {w : Nat} (hw : 0 < w) (xs : List Bool) (i : Nat) :
    bitAt (listedBlocks w xs) i = (decide (i < xs.length) && xs.getD i false) := by
  obtain ⟨k, t, ht, rfl⟩ := exists_pos hw i
  rw [bitAt_pos ht]
  by_cases hk : k < blocksFor w xs.length
  · unfold listedBlocks
    rw [List.getD_eq_getElem _ _ (by rwa [List.length_map, List.length_range]),
      List.getElem_map, List.getElem_range, BitVec.getLsbD_setWidth, BitVec.getLsbD_ofBoolListLE,
      decide_eq_true ht, Bool.true_and, getD_take, if_pos ht, getD_drop]
    by_cases hin : k * w + t < xs.length
    · rw [decide_eq_true hin, Bool.true_and]
    · rw [decide_eq_false hin, Bool.false_and, List.getD_eq_default _ _ (by omega)]
  · have hge := le_blocksFor_mul (n := xs.length) hw
    have := Nat.mul_le_mul_right w (Nat.le_of_not_lt hk)
    rw [List.getD_eq_default _ _ (by rw [length_listedBlocks]; omega),
      decide_eq_false (by omega), Bool.false_and]
    exact BitVec.getLsbD_zero

/-- A `dynamic_bitset` as the list of its positions. -/
def listedBitset : DynamicBitset where
  Bitset _ := List Bool
  size b := b.length
  count b := countBits (fun i => b.getD i false) b.length
  test b i := b.getD i false
  numBlocks {w} b := blocksFor w b.length
  ofSize _ n := .ok (List.replicate n false)
  toBlockRange {w} b := listedBlocks w b
  fromBlockRange blocks b := bools (bitAt blocks) b.length

theorem listedBitset_documented : listedBitset.Documented where
  count_eq _ := rfl
  numBlocks_eq _ := rfl
  size_ofSize h := by
    cases h
    exact List.length_replicate
  length_toBlockRange _ := length_listedBlocks
  bit_toBlockRange b i hw := bitAt_listedBlocks (pos_of_tilingBlock hw) b i
  size_fromBlockRange b blocks _ := by
    show (bools (bitAt blocks) (List.length b)).length = List.length b
    unfold bools
    rw [List.length_map, List.length_range]
  test_fromBlockRange b blocks _ _ _ i hi := by
    show (bools (bitAt blocks) (List.length b)).getD i false = bitAt blocks i
    unfold bools
    rw [List.getD_eq_getElem _ _ (by rwa [List.length_map, List.length_range]),
      List.getElem_map, List.getElem_range]

/-- `bit_convert_source`: a width, a count and a copy into blocks that start clear. -/
structure BitConvertSource where
  width : Nat
  count : Nat
  copy : (u : Nat) → List (BitVec u) → List (BitVec u)

/-- What `bit_convert` is given: a container, a plain value or a `boost::dynamic_bitset`, whose
    blocks are no more than an address reaches. -/
inductive BitEnd (D : DynamicBitset) where
  | held {w : Nat} {V : Vehicle w} (s : Source V)
  | plain (t : PlainType) (x : t.Value)
  | dynamic {w : Nat} (tiles : tilingBlock w = true) (b : D.Bitset w)
      (resident : D.numBlocks b * w < 2 ^ 63)

/-- What it is to make. -/
inductive BitTarget where
  | owner {w : Nat} (V : Vehicle w) (reading : Reading)
  | plain (t : PlainType)
  | dynamic (w : Nat)

def BitTarget.Result (D : DynamicBitset) : BitTarget → Type
  | owner V _ => BitBlockContainer V
  | plain t => t.Value
  | dynamic w => D.Bitset w

namespace BitEnd
variable {D : DynamicBitset} (o same : Nat → Nat → Bool) (src : BitEnd D)

/-- Position `i`, clear past the width. -/
def bit : BitEnd D → Nat → Bool
  | held s, i => s.bit i
  | plain t x, i => t.bit x i
  | dynamic _ b _, i => decide (i < D.size b) && D.test b i

/-- `bit_source` of each. `o` says which two blocks copy as objects, `same` which have one type. -/
def bitSource : BitEnd D → BitConvertSource
  | held s => ⟨s.width, s.count o, fun _ dst => s.copy o dst⟩
  | plain t x =>
      ⟨t.width, Source.countBytes (t.bytes o x), fun u dst => copyBits (o 8 u) (t.bytes o x) dst⟩
  | @dynamic _ w _ b _ =>
      ⟨D.size b, D.count b, fun u dst => sinkBlocks (same w u) (D.toBlockRange b) dst⟩

/-- `bit_source::width`. -/
def width : BitEnd D → Nat
  | held s => s.width
  | plain t _ => t.width
  | dynamic _ b _ => D.size b

/-- `fixed_bytes`, beside the width. -/
def fixedBytes : BitEnd D → Option (Nat × List Byte)
  | @held _ _ V s => if s.isFixed then some (V.extent, s.fixedBytes o) else none
  | plain t x => some (t.width, t.bytes o x)
  | dynamic _ _ _ => none

/-- `bit_width_v`, of a width fixed by its type. -/
def fixedWidth : BitEnd D → Option Nat
  | @held _ _ V s => if s.isFixed then some V.extent else none
  | plain t _ => some t.width
  | dynamic _ _ _ => none

/-- `gather_block` out of `bit_source::blocks`, which a window and a `dynamic_bitset` have not. -/
def gather : BitEnd D → Option ((u : Nat) → Nat → BitVec u)
  | @held _ w V s =>
      if s.window.isSome then none
      else if V.hasStaticSize && !s.owns then
        some fun u i => gatherBlock (same 8 u) u (s.fixedBytes o) i
      else some fun u i => gatherBlock (same w u) u s.bits.mBlocks.elems i
  | plain t x => some fun u i => gatherBlock (same 8 u) u (t.bytes o x) i
  | dynamic _ _ _ => none

end BitEnd

/-! ## 4. The ways -/

namespace BitConvertSource
variable {w : Nat} (o : Nat → Nat → Bool) (mem : Memory) (src : BitConvertSource) (V : Vehicle w)
  (reading : Reading)

/-- The bytes of `narrow_blocks`, the last one masked to the width. -/
def narrowedBytes (n : Nat) : List Byte :=
  let bytes := src.copy 8 (List.replicate (byteCount n) zero)
  if n % 8 ≠ 0 then
    bytes.set (byteCount n - 1) (bytes.getD (byteCount n - 1) zero &&& partialBlockMask (n % 8))
  else bytes

/-- `narrow_blocks`: a position past the fixed target's width is refused. -/
def narrowBlocks {α : Type} (n : Nat) (ofBytes : List Byte → α) : Except Exn α :=
  let bytes := src.narrowedBytes n
  if Source.countBytes bytes ≠ src.count then .error .overflowError else .ok (ofBytes bytes)

/-- `copy_blocks`: sized first, so that a target that cannot hold the width throws before a block is
    written. -/
def copyBlocks : Except Exn (BitBlockContainer V) :=
  match resize mem (targetWidth V reading src.width) false (BitBlockContainer.default V 0) with
  | .error e _ => .error e
  | .ok _ sized =>
      let target := (sized.withElems fun elems => src.copy w elems).eraseUnused.recount
      if (reading = .sets ∧ V.hasStaticCapacity = true) ∧
          (target.size < src.width ∧ target.count ≠ src.count) then .error .badAlloc
      else .ok target

end BitConvertSource

/-- The bytes of `convert_fixed`, out of a width `n` into a width `m`: whole, into zeros. -/
def widened (n m : Nat) (bytes : List Byte) : List Byte :=
  if n = m then bytes else bytes ++ List.replicate (byteCount m - byteCount n) zero

/-- A `dynamic_bitset` made at a width, its blocks gathered. -/
def DynamicBitset.gathered (D : DynamicBitset) {w : Nat} (gather : Nat → BitVec w) (n : Nat) :
    Except Exn (D.Bitset w) :=
  match D.ofSize w n with
  | .error e => .error e
  | .ok b => .ok (D.fromBlockRange ((List.range (D.numBlocks b)).map gather) b)

section Ways
variable {D : DynamicBitset} (o same : Nat → Nat → Bool) (mem : Memory) (src : BitEnd D)

/-- `bit_convert` into a fixed width made of its bytes. -/
def BitEnd.toFixed {α : Type} (n : Nat) (ofBytes : List Byte → α) : Except Exn α :=
  match src.fixedBytes o with
  | some (m, bytes) => .ok (ofBytes (widened m n bytes))
  | .none => (src.bitSource o same).narrowBlocks n ofBytes

/-- `bit_convert` into an owner. -/
def BitEnd.toOwner {w : Nat} (V : Vehicle w) (reading : Reading) :
    Except Exn (BitBlockContainer V) :=
  if V.hasStaticSize then src.toFixed o same V.extent (fromFixedBytes o V)
  else (src.bitSource o same).copyBlocks mem V reading

/-- `bit_convert` into a plain value. -/
def BitEnd.toPlain (t : PlainType) : Except Exn t.Value :=
  src.toFixed o same t.width (t.ofBytes o)

/-- The ways `bit_convert` has from one end to another: between owners its own, over one block type
    or across two; an owner of one static block read as that block. -/
inductive Converts : BitEnd D → (t : BitTarget) → Except Exn (t.Result D) → Prop where
  | owners {w w' : Nat} {V : Vehicle w} {V' : Vehicle w'} (s : Source V) (reading : Reading)
      {result : Except Exn (BitBlockContainer V')} (h : Conversion V' o mem reading s result) :
      Converts (.held s) (.owner V' reading) result
  | owner (src : BitEnd D) {w : Nat} (V : Vehicle w) (reading : Reading) :
      Converts src (.owner V reading) (src.toOwner o same mem V reading)
  | plain (src : BitEnd D) (t : PlainType) : Converts src (.plain t) (src.toPlain o same t)
  | block {w : Nat} {V : Vehicle w} (s : Source V) (pos : 0 < w)
      (resident : 1 * w + 8 ≤ 2 ^ 63) (fixed : s.isFixed = true) (owns : s.owns = true)
      (single : V.staticNumBlocks = 1) :
      Converts (.held s) (.plain (.blocks w 1 pos (.inr (Nat.le_refl 1)) resident))
        (.ok ⟨[s.bits.mBlocks.elems.getD 0 zero], rfl⟩)
  | dynamic (src : BitEnd D) (w : Nat) {gather : (u : Nat) → Nat → BitVec u}
      (blocks : src.gather o same = some gather) :
      Converts src (.dynamic w) (D.gathered (gather w) src.width)

end Ways

/-! ## 5. What is read -/

/-- A source reads the positions of `bit`. -/
structure BitConvertSource.Reads (src : BitConvertSource) (bit : Nat → Bool) : Prop where
  clear : ∀ i, src.width ≤ i → bit i = false
  count : src.count = countBits bit src.width
  copy : ∀ {u : Nat} (dst : List (BitVec u)), (tilingBlock u = true ∨ dst.length ≤ 1) → 0 < u →
    (∀ q, q < dst.length * u → bitAt dst q = false) →
    (src.copy u dst).length = dst.length ∧
      ∀ q, q < dst.length * u → bitAt (src.copy u dst) q = bit q
  resident : byteCount src.width * 8 < 2 ^ 63

/-- A container that is read as a source is. -/
structure Mirrors (o : Nat → Nat → Bool) {w : Nat} {V : Vehicle w} (s : Source V)
    (src : BitConvertSource) (bit : Nat → Bool) : Prop where
  bit : ∀ i, s.bit i = bit i
  width : s.width = src.width
  count : s.count o = src.count
  copy : ∀ {u : Nat} (dst : List (BitVec u)), (tilingBlock u = true ∨ dst.length ≤ 1) → 0 < u →
    (∀ q, q < dst.length * u → bitAt dst q = false) → s.copy o dst = src.copy u dst

section Reads
variable {src : BitConvertSource} {bit : Nat → Bool} {o same : Nat → Nat → Bool} {D : DynamicBitset}

/-- **What reads positions is read as a window of its bytes is.** -/
theorem BitConvertSource.Reads.mirror (h : src.Reads bit) :
    ∃ s : Source ViewOp.byteSpan, Mirrors o s src bit := by
  obtain ⟨hl, hbits⟩ := h.copy (List.replicate (byteCount src.width) (zero : Byte))
    (Or.inl (by decide)) (by decide) fun _ _ => bitAt_zeros
  rw [List.length_replicate] at hl hbits
  generalize src.copy 8 (List.replicate (byteCount src.width) zero) = bytes at hl hbits
  have hge := byteCount_mul_ge (n := src.width)
  have hlen : (ViewOp.spanOf bytes).mBlocks.elems.length = byteCount src.width := hl
  let s : Source ViewOp.byteSpan :=
    { bits := ViewOp.spanOf bytes
      reading := .sequence
      owns := false
      window := some (0, src.width)
      inv := lent_inv rfl
      held := fun hs => by cases hs
      resident := by rw [hlen]; exact h.resident
      inside := fun offset size hw => by
        cases hw
        refine ⟨?_, rfl, rfl⟩
        rw [lent_size rfl, hlen]
        omega }
  have hbit (i : Nat) : s.bit i = bit i := by
    show (decide (i < src.width) && bitAt bytes (0 + i)) = bit i
    by_cases hi : i < src.width
    · rw [decide_eq_true hi, Bool.true_and, Nat.zero_add, hbits i (by omega)]
    · rw [decide_eq_false hi, Bool.false_and, h.clear i (by omega)]
  refine ⟨s, hbit, rfl, ?_, fun {u} dst hd hu hclear => ?_⟩
  · rw [s.count_eq, h.count]
    exact countBits_congr fun p _ => hbit p
  · obtain ⟨hl₁, hbits₁⟩ := s.copy_spec o dst hd hu hclear
    obtain ⟨hl₂, hbits₂⟩ := h.copy dst hd hu hclear
    refine bitAt_ext (hl₁.trans hl₂.symm) fun p hp => ?_
    rw [hl₁] at hp
    rw [hbits₁ p hp, hbits₂ p hp, hbit]

theorem reads_plain (t : PlainType) (x : t.Value) :
    ((BitEnd.plain t x : BitEnd D).bitSource o same).Reads (t.bit x) := by
  obtain ⟨hl, hbits⟩ := t.bytes_spec (o := o) x
  refine ⟨fun i hi => PlainType.bit_of_width hi, ?_, fun {u} dst hd hu hclear => ?_, ?_⟩
  · show Source.countBytes (t.bytes o x) = countBits (t.bit x) t.width
    rw [Source.countBytes_eq, hl, countBits_congr fun p _ => hbits p]
    exact countBits_of_clear byteCount_mul_ge fun p hp _ => PlainType.bit_of_width hp
  · obtain ⟨hl', hbits'⟩ := copyBits_spec (o 8 u) (by decide) hu
      (byteLayout_bytes (t.bytes o x)) (hd.imp_left dvd_of_tilingBlock) hclear
    exact ⟨hl', fun q hq => (hbits' q hq).trans (hbits q)⟩
  · show byteCount t.width * 8 < 2 ^ 63
    have hres : t.width + 8 ≤ 2 ^ 63 := by
      cases t with
      | blocks w count pos whole resident => exact resident
      | bitset n resident => exact resident
    unfold byteCount
    omega

theorem reads_dynamic (hD : D.Documented) {w : Nat} (tiles : tilingBlock w = true) (b : D.Bitset w)
    (resident : D.numBlocks b * w < 2 ^ 63) :
    ((BitEnd.dynamic tiles b resident).bitSource o same).Reads
      (BitEnd.dynamic tiles b resident).bit := by
  have hcut (i : Nat) (hi : i < D.size b) : (decide (i < D.size b) && D.test b i) = D.test b i := by
    rw [decide_eq_true hi, Bool.true_and]
  refine ⟨fun i (hi : D.size b ≤ i) => ?_, ?_, fun {u} dst hd hu hclear => ?_, ?_⟩
  · show (decide (i < D.size b) && D.test b i) = false
    rw [decide_eq_false (by omega), Bool.false_and]
  · show D.count b = countBits (fun i => decide (i < D.size b) && D.test b i) (D.size b)
    rw [hD.count_eq]
    exact countBits_congr fun p hp => (hcut p hp).symm
  · obtain ⟨hl, hbits⟩ := sinkBlocks_spec (same w u) (D.toBlockRange b) tiles hu hd hclear
    exact ⟨hl, fun q hq => (hbits q hq).trans (hD.bit_toBlockRange b q tiles)⟩
  · show byteCount (D.size b) * 8 < 2 ^ 63
    -- whole blocks are whole bytes
    have hdvd : 8 ∣ D.numBlocks b * w := Dvd.dvd.mul_left (dvd_of_tilingBlock tiles) _
    have hsize := le_blocksFor_mul (n := D.size b) (pos_of_tilingBlock tiles)
    rw [← hD.numBlocks_eq] at hsize
    unfold byteCount
    omega

/-- Every end is read as a container is. -/
theorem BitEnd.mirror (o same : Nat → Nat → Bool) (hD : D.Documented) (src : BitEnd D) :
    ∃ (w : Nat) (V : Vehicle w) (s : Source V), Mirrors o s (src.bitSource o same) src.bit := by
  cases src with
  | held s => exact ⟨_, _, s, fun _ => rfl, rfl, rfl, fun _ _ _ _ => rfl⟩
  | plain t x => exact ⟨_, _, (reads_plain t x).mirror⟩
  | dynamic tiles b resident => exact ⟨_, _, (reads_dynamic hD tiles b resident).mirror⟩

end Reads

/-! ## 6. The law -/

namespace BitEnd
variable {D : DynamicBitset}

/-- What a target cannot hold: a position past a fixed width out of a run-time one, a key past a
    set's capacity, a width past a sequence's. A `dynamic_bitset` holds all. -/
def Refused (src : BitEnd D) : BitTarget → Prop
  | .owner V reading =>
      if V.hasStaticSize then src.fixedWidth = .none ∧ ∃ p, V.extent ≤ p ∧ src.bit p = true
      else V.hasStaticCapacity = true ∧
        match reading with
        | .sets => ∃ p, V.extent ≤ p ∧ src.bit p = true
        | .sequence => V.extent < src.width
  | .plain t => src.fixedWidth = .none ∧ ∃ p, t.width ≤ p ∧ src.bit p = true
  | .dynamic _ => False

/-- What a completed conversion leaves: the source's positions, each in its own place; a run-time
    sequence and a `dynamic_bitset` take the source's width. -/
def Becomes (src : BitEnd D) : (t : BitTarget) → t.Result D → Prop
  | .owner V reading, d =>
      d.Inv ∧ (∀ i, d.bit i = src.bit i) ∧
        (reading = .sequence → V.hasStaticSize = false → d.size = src.width)
  | .plain t, x => ∀ i, t.bit x i = src.bit i
  | .dynamic _, b => D.size b = src.width ∧ ∀ i, i < D.size b → D.test b i = src.bit i

/-- `bit_convertible`: an owner or a plain value at least as wide as a fixed source, or blocks that
    Boost takes. -/
def Convertible (src : BitEnd D) : BitTarget → Prop
  | .owner V _ => V.storage ≠ .lent ∧
      (V.hasStaticSize = true → ∀ n, src.fixedWidth = some n → n ≤ V.extent)
  | .plain t => ∀ n, src.fixedWidth = some n → n ≤ t.width
  | .dynamic w => tilingBlock w = true

/-- The storage the target asks for is granted. -/
def Granted (mem : Memory) (src : BitEnd D) : BitTarget → Prop
  | @BitTarget.owner w V reading =>
      V.hasStaticSize = false → Grants V mem (blocksFor w (targetWidth V reading src.width))
  | .plain _ => True
  | .dynamic w => ∃ b, D.ofSize w src.width = .ok b

end BitEnd

/-- What a conversion answers. -/
structure Answers {D : DynamicBitset} (mem : Memory) (src : BitEnd D) (t : BitTarget)
    (result : Except Exn (t.Result D)) : Prop where
  exact : ∀ x, result = .ok x → src.Becomes t x
  refuses : src.Refused t → ∃ e, result = .error e
  returns : ¬ src.Refused t → src.Granted mem t → ∃ x, result = .ok x

section Law
variable {D : DynamicBitset} {o same : Nat → Nat → Bool} {mem : Memory} {src : BitEnd D}

/-- The bytes of a fixed width hold its positions, and there are none past it. -/
theorem BitEnd.fixedBytes_spec {n : Nat} {bytes : List Byte}
    (h : src.fixedBytes o = some (n, bytes)) : src.fixedWidth = some n ∧
      bytes.length = byteCount n ∧ (∀ p, bitAt bytes p = src.bit p) ∧
      ∀ p, n ≤ p → src.bit p = false := by
  cases src with
  | held s =>
      unfold fixedBytes at h
      dsimp only at h
      split at h
      · rename_i hf
        cases h
        obtain ⟨hst, hbit, hclear⟩ := s.bit_of_fixed hf
        obtain ⟨hl, hbytes⟩ := s.fixedBytes_spec o hst
        exact ⟨if_pos hf, hl, fun p => (hbytes p).trans (hbit p).symm,
          fun p hp => (hbit p).trans (hclear p hp)⟩
      · cases h
  | plain t x =>
      cases h
      obtain ⟨hl, hbits⟩ := t.bytes_spec (o := o) x
      exact ⟨rfl, hl, hbits, fun p hp => PlainType.bit_of_width hp⟩
  | dynamic tiles b resident => cases h

theorem BitEnd.fixedWidth_none (h : src.fixedBytes o = .none) : src.fixedWidth = .none := by
  cases src with
  | held s =>
      unfold fixedBytes at h
      dsimp only at h
      split at h
      · cases h
      · rename_i hf
        exact if_neg hf
  | plain t x => cases h
  | dynamic tiles b resident => rfl

/-- A width crosses into a wider one whole, and its positions with it. -/
theorem bitAt_widened {n m : Nat} {bytes : List Byte} {bit : Nat → Bool}
    (hl : bytes.length = byteCount n) (hbits : ∀ p, bitAt bytes p = bit p) (p : Nat) :
    bitAt (widened n m bytes) p = bit p := by
  unfold widened
  split
  · exact hbits p
  · rw [bitAt_append (by decide), ← hbits p]
    split
    · rfl
    · rename_i hge
      rw [bitAt_zeros, bitAt_of_le (by decide) (by omega)]

/-- **A fixed width is filled out of a run-time one exactly where nothing is past it.** -/
theorem narrowBlocks_answers {α : Type} (o same : Nat → Nat → Bool) (src : BitEnd D)
    (hD : D.Documented) (n : Nat) (ofBytes : List Byte → α) :
    ((∃ p, n ≤ p ∧ src.bit p = true) →
      (src.bitSource o same).narrowBlocks n ofBytes = .error .overflowError) ∧
    (¬ (∃ p, n ≤ p ∧ src.bit p = true) → ∃ bytes : List Byte,
      (src.bitSource o same).narrowBlocks n ofBytes = .ok (ofBytes bytes) ∧
        ∀ p, (decide (p < n) && bitAt bytes p) = src.bit p) := by
  obtain ⟨w, V, s, hm⟩ := src.mirror o same hD
  have hbytes : (src.bitSource o same).narrowedBytes n = narrowedBytes o s n := by
    unfold BitConvertSource.narrowedBytes narrowedBytes
    rw [hm.copy _ (Or.inl (by decide)) (by decide) fun _ _ => bitAt_zeros]
  obtain ⟨hl, hbits⟩ := bitAt_narrowedBytes (o := o) (s := s) n
  have hcount : Source.countBytes (narrowedBytes o s n) ≠ (src.bitSource o same).count ↔
      ∃ p, n ≤ p ∧ src.bit p = true := by
    rw [Source.countBytes_eq, hl, ← hm.count, s.count_eq o,
      countBits_cut_ne_iff byteCount_mul_ge hbits fun p hp => s.bit_of_width hp]
    simp only [hm.bit]
  unfold BitConvertSource.narrowBlocks
  rw [hbytes]
  dsimp only
  constructor
  · intro hlost
    rw [if_pos (hcount.mpr hlost)]
  · intro hkept
    refine ⟨_, if_neg fun hne => hkept (hcount.mp hne), fun p => ?_⟩
    rw [hbits, ← hm.bit]
    by_cases hp : p < n
    · rw [decide_eq_true hp, Bool.true_and, Bool.true_and]
    · rw [decide_eq_false hp, Bool.false_and, hm.bit]
      exact (Bool.eq_false_iff.mpr fun hb => hkept ⟨p, by omega, hb⟩).symm

/-- Sources read alike are copied alike into a run-time width. -/
theorem Mirrors.copyBlocks {w w' : Nat} {V : Vehicle w} {V' : Vehicle w'} {s : Source V}
    {b : BitConvertSource} {bit : Nat → Bool} (hm : Mirrors o s b bit)
    (hs : V'.hasStoredSize = true) (reading : Reading) :
    b.copyBlocks mem V' reading = copyBlocks o mem s V' reading := by
  unfold BitConvertSource.copyBlocks XstdBits.copyBlocks
  rw [← hm.width, ← hm.count]
  cases hr : resize mem (targetWidth V' reading s.width) false (BitBlockContainer.default V' 0) with
  | error e d => rfl
  | ok u sized =>
      obtain ⟨hdef, hzero⟩ := default_spec (V := V') (Or.inl hs) 0
      obtain ⟨hinv, -, hbits⟩ := resizeTo_ok hdef hs hr
      have hclear (q : Nat) : bitAt sized.mBlocks.elems q = false := by
        refine (hbits q).trans ?_
        rw [hzero]
        split
        · split <;> rfl
        · rfl
      have hcopy := hm.copy sized.mBlocks.elems hinv.tiles V'.bits_pos fun q _ => hclear q
      unfold withElems
      dsimp only
      rw [hcopy]

theorem BitEnd.width_bitSource (src : BitEnd D) : (src.bitSource o same).width = src.width := by
  cases src <;> rfl

/-- **A run-time target takes any source.** -/
theorem copyBlocks_answers (hD : D.Documented) {w' : Nat} {V' : Vehicle w'}
    (hs : V'.hasStoredSize = true) (reading : Reading) :
    Answers mem src (.owner V' reading) ((src.bitSource o same).copyBlocks mem V' reading) := by
  obtain ⟨w, V, s, hm⟩ := src.mirror o same hD
  have hns := stored_not_static hs
  have hwidth : s.width = src.width := hm.width.trans src.width_bitSource
  have hlaw : Lawful mem s reading (copyBlocks o mem s V' reading) := copyBlocks_lawful hs
  rw [hm.copyBlocks hs reading]
  have href : src.Refused (.owner V' reading) ↔ Refused s V' reading := by
    unfold BitEnd.Refused Refused
    dsimp only
    rw [hns, if_neg (by decide), if_neg (by decide), hwidth]
    cases reading with
    | sets => simp only [hm.bit]
    | sequence => exact Iff.rfl
  refine ⟨fun d hd => ?_, fun h => hlaw.refuses (href.mp h), fun h hg => ?_⟩
  · have hconv := hlaw.exact d hd
    exact ⟨hconv.inv, fun i => (hconv.bit i).trans (hm.bit i),
      fun hseq hn => (hconv.size hseq hn).trans hwidth⟩
  · refine hlaw.returns (fun h' => h (href.mpr h')) fun hn => ?_
    rw [hwidth]
    exact hg hn

/-- **A fixed width takes a fixed one whole, and what fits of a run-time one.** -/
theorem toFixed_answers {α : Type} (o same : Nat → Nat → Bool) (src : BitEnd D)
    (ofBytes : List Byte → α) (hD : D.Documented) {n : Nat}
    (hle : ∀ m, src.fixedWidth = some m → m ≤ n) :
    (∀ x, src.toFixed o same n ofBytes = .ok x → ∃ bytes : List Byte, x = ofBytes bytes ∧
      ∀ p, (decide (p < n) && bitAt bytes p) = src.bit p) ∧
    (src.fixedWidth = .none ∧ (∃ p, n ≤ p ∧ src.bit p = true) →
      ∃ e, src.toFixed o same n ofBytes = .error e) ∧
    (¬ (src.fixedWidth = .none ∧ ∃ p, n ≤ p ∧ src.bit p = true) →
      ∃ x, src.toFixed o same n ofBytes = .ok x) := by
  unfold BitEnd.toFixed
  cases hf : src.fixedBytes o with
  | some fixed =>
      obtain ⟨m, bytes⟩ := fixed
      obtain ⟨hwidth, hl, hbytes, hclear⟩ := src.fixedBytes_spec hf
      have hm := hle m hwidth
      refine ⟨fun x hx => ?_, fun h => ?_, fun _ => ⟨_, rfl⟩⟩
      · cases hx
        refine ⟨_, rfl, fun p => ?_⟩
        rw [bitAt_widened hl hbytes]
        by_cases hp : p < n
        · rw [decide_eq_true hp, Bool.true_and]
        · rw [decide_eq_false hp, Bool.false_and, hclear p (by omega)]
      · rw [hwidth] at h
        cases h.1
  | none =>
      obtain ⟨hlost, hkept⟩ := narrowBlocks_answers o same src hD n ofBytes
      refine ⟨fun x hx => ?_, fun h => ⟨_, hlost h.2⟩, fun h => ?_⟩
      · dsimp only at hx
        by_cases hp : ∃ p, n ≤ p ∧ src.bit p = true
        · rw [hlost hp] at hx
          cases hx
        · obtain ⟨bytes, hok, hbits⟩ := hkept hp
          rw [hok] at hx
          cases hx
          exact ⟨bytes, rfl, hbits⟩
      · obtain ⟨bytes, hok, -⟩ := hkept fun hp => h ⟨src.fixedWidth_none hf, hp⟩
        exact ⟨_, hok⟩

/-- **An owner takes any source.** -/
theorem toOwner_answers (hD : D.Documented) {w' : Nat} {V' : Vehicle w'} {reading : Reading}
    (h : src.Convertible (.owner V' reading)) :
    Answers mem src (.owner V' reading) (src.toOwner o same mem V' reading) := by
  obtain ⟨hv, hle⟩ := h
  unfold BitEnd.toOwner
  cases hs : V'.hasStaticSize with
  | false => exact copyBlocks_answers hD (not_static_stored hv hs) reading
  | true =>
      have href : src.Refused (.owner V' reading) ↔
          src.fixedWidth = .none ∧ ∃ p, V'.extent ≤ p ∧ src.bit p = true := by
        unfold BitEnd.Refused
        dsimp only
        rw [if_pos hs]
      obtain ⟨hexact, hrefuses, hreturns⟩ := toFixed_answers o same src (fromFixedBytes o V') hD
        (hle hs)
      refine ⟨fun d hd => ?_, fun h => hrefuses (href.mp h),
        fun h _ => hreturns fun h' => h (href.mpr h')⟩
      obtain ⟨bytes, rfl, hbits⟩ := hexact d hd
      obtain ⟨hinv, hbit⟩ := fromFixedBytes_spec (o := o) hs bytes
      exact ⟨hinv, fun i => (hbit i).trans (hbits i), fun _ hn => by rw [hs] at hn; cases hn⟩

/-- **A plain value takes any source.** -/
theorem toPlain_answers (hD : D.Documented) {t : PlainType} (h : src.Convertible (.plain t)) :
    Answers mem src (.plain t) (src.toPlain o same t) := by
  obtain ⟨hexact, hrefuses, hreturns⟩ := toFixed_answers o same src (t.ofBytes o) hD h
  refine ⟨fun x hx p => ?_, hrefuses, fun h _ => hreturns h⟩
  obtain ⟨bytes, rfl, hbits⟩ := hexact x hx
  exact (t.bit_ofBytes bytes p).trans (hbits p)

/-- Between owners, over one block type or across two. -/
theorem owners_answers {w w' : Nat} {V : Vehicle w} {V' : Vehicle w'} {s : Source V}
    {reading : Reading} {result : Except Exn (BitBlockContainer V')}
    (hc : (BitEnd.held s : BitEnd D).Convertible (.owner V' reading))
    (h : Conversion V' o mem reading s result) :
    Answers mem (.held s : BitEnd D) (.owner V' reading) result := by
  obtain ⟨hv, hle⟩ := hc
  have hfixed : (BitEnd.held s : BitEnd D).fixedWidth = .none ↔ s.isFixed = false := by
    unfold BitEnd.fixedWidth
    dsimp only
    split
    · rename_i hf
      simp [hf]
    · rename_i hf
      simp [hf]
  have hlaw := h.lawful hv fun hs hf => hle hs V.extent (if_pos hf)
  have href : (BitEnd.held s : BitEnd D).Refused (.owner V' reading) ↔ Refused s V' reading := by
    unfold BitEnd.Refused Refused
    dsimp only
    rw [hfixed]
    cases reading with
    | sets => exact Iff.rfl
    | sequence => exact Iff.rfl
  exact ⟨fun d hd => ⟨(hlaw.exact d hd).inv, (hlaw.exact d hd).bit, (hlaw.exact d hd).size⟩,
    fun h' => hlaw.refuses (href.mp h'),
    fun h' hg => hlaw.returns (fun h'' => h' (href.mpr h'')) hg⟩

/-- **A block gathered holds the source's positions.** -/
theorem getLsbD_gather {gather : (u : Nat) → Nat → BitVec u} (h : src.gather o same = some gather)
    {u : Nat} (hu : tilingBlock u = true) {i t : Nat} (hi : i * u < src.width) (ht : t < u) :
    (gather u i).getLsbD t = src.bit (i * u + t) := by
  cases src with
  | @held w V s =>
      unfold BitEnd.gather at h
      dsimp only at h
      split at h
      · cases h
      · rename_i hwin
        rw [Bool.not_eq_true, Option.isSome_eq_false_iff, Option.isNone_iff_eq_none] at hwin
        have hbit (p : Nat) : s.bit p = s.bits.bit p := by
          unfold Source.bit
          rw [hwin]
        split at h
        · rename_i hf
          cases h
          rw [Bool.and_eq_true] at hf
          obtain ⟨hl, hbytes⟩ := s.fixedBytes_spec o hf.1
          have hwidth : s.width = V.extent := by
            unfold Source.width
            rw [hwin]
            exact if_pos (by rw [Bool.and_eq_true]; exact hf)
          have hge := byteCount_mul_ge (n := s.width)
          have hreach : i * u < (s.fixedBytes o).length * 8 := by
            rw [hl, ← hwidth]
            exact Nat.lt_of_lt_of_le hi hge
          rw [getLsbD_gatherBlock (by decide) (byteLayout_bytes _) hu hreach ht, hbytes]
          exact (hbit _).symm
        · cases h
          rw [getLsbD_gatherBlock V.bits_pos s.inv.byteLayout hu
            (Nat.lt_of_lt_of_le hi s.width_le) ht]
          exact (hbit _).symm
  | plain p x =>
      cases h
      obtain ⟨hl, hbits⟩ := p.bytes_spec (o := o) x
      have hge := byteCount_mul_ge (n := p.width)
      have hreach : i * u < (p.bytes o x).length * 8 := by
        rw [hl]
        exact Nat.lt_of_lt_of_le hi hge
      rw [getLsbD_gatherBlock (by decide) (byteLayout_bytes _) hu hreach ht, hbits]
      rfl
  | dynamic tiles b resident => cases h

theorem BitEnd.bit_of_width (hD : D.Documented) {i : Nat} (h : src.width ≤ i) :
    src.bit i = false := by
  obtain ⟨w, V, s, hm⟩ := src.mirror (fun _ _ => false) (fun _ _ => false) hD
  rw [← hm.bit]
  refine s.bit_of_width ?_
  rwa [hm.width, src.width_bitSource]

/-- **A `dynamic_bitset` made holds the source**, at the source's width; its unused bits stay
    clear, as Boost asks. -/
theorem gathered_answers (hD : D.Documented) {w : Nat} (hw : tilingBlock w = true)
    {gather : (u : Nat) → Nat → BitVec u} (h : src.gather o same = some gather) :
    Answers mem src (.dynamic w) (D.gathered (gather w) src.width) := by
  have hpos := pos_of_tilingBlock hw
  unfold DynamicBitset.gathered
  cases hb : D.ofSize w src.width with
  | error e =>
      refine ⟨fun x hx => (by cases hx), fun h' => False.elim h', fun _ ⟨b, hg⟩ => ?_⟩
      rw [hb] at hg
      cases hg
  | ok b =>
      refine ⟨fun x hx => ?_, fun h' => False.elim h', fun _ _ => ⟨_, rfl⟩⟩
      cases hx
      have hsize := hD.size_ofSize hb
      have hblocks := hD.numBlocks_eq b
      generalize hlist : (List.range (D.numBlocks b)).map (gather w) = blocks
      have hlen : blocks.length = D.numBlocks b := by
        rw [← hlist, List.length_map, List.length_range]
      have hbits (p : Nat) : bitAt blocks p = src.bit p := by
        obtain ⟨i, t, ht, rfl⟩ := exists_pos hpos p
        by_cases hi : i < D.numBlocks b
        · have hlt : i * w < src.width := by
            rw [← hsize]
            exact (lt_blocksFor_iff hpos).mp (hblocks ▸ hi)
          rw [bitAt_pos ht, ← getLsbD_gather h hw hlt ht, ← hlist, List.getD_eq_getElem _ _
            (by rwa [hlist, hlen]), List.getElem_map, List.getElem_range]
        · have hge := le_blocksFor_mul (n := D.size b) hpos
          have := Nat.mul_le_mul_right w (Nat.le_of_not_lt hi)
          rw [← hblocks, hsize] at hge
          rw [bitAt_of_le hpos (by rw [hlen]; omega), src.bit_of_width hD (by omega)]
      have hclear (p : Nat) (hp : D.size b ≤ p) : bitAt blocks p = false := by
        rw [hbits, src.bit_of_width hD (by omega)]
      have hkeep := hD.size_fromBlockRange b blocks hlen
      refine ⟨hkeep.trans hsize, fun i hi => ?_⟩
      rw [hD.test_fromBlockRange b blocks hw hlen hclear i (by rwa [← hkeep]), hbits]

/-- **The law of every way.** Between any two ends `bit_convert` takes (a container or a view of
    one, a window, a block, an array of blocks, a `std::bitset`, a `boost::dynamic_bitset`) it
    leaves position `i` of the source at position `i`, gives a run-time sequence and a
    `dynamic_bitset` the source's width, and throws exactly where the target cannot hold a set
    position or the width, apart from the storage it asks for. -/
theorem convert_ends (hD : D.Documented) {t : BitTarget} {result : Except Exn (t.Result D)}
    (hc : src.Convertible t) (h : Converts o same mem src t result) : Answers mem src t result := by
  cases h with
  | owners _ _ hs => exact owners_answers hc hs
  | owner => exact toOwner_answers hD hc
  | plain => exact toPlain_answers hD hc
  | @block w V s pos resident fixed owns single =>
      obtain ⟨hst, hbit, -⟩ := s.bit_of_fixed fixed
      have hlen : s.bits.mBlocks.elems.length = 1 := by
        have hshape := s.inv.shape
        unfold Shape at hshape
        rw [hshape, size_of_static hst]
        unfold Vehicle.staticNumBlocks at single
        rwa [if_pos hst] at single
      have hone : [s.bits.mBlocks.elems.getD 0 zero] = s.bits.mBlocks.elems := by
        obtain ⟨b, hb⟩ := List.length_eq_one_iff.mp hlen
        rw [hb]
        rfl
      refine ⟨fun x hx i => ?_, fun h' => ?_, fun _ _ => ⟨_, rfl⟩⟩
      · cases hx
        show bitAt [s.bits.mBlocks.elems.getD 0 zero] i = s.bit i
        rw [hone]
        exact (hbit i).symm
      · have hwidth : (BitEnd.held s : BitEnd D).fixedWidth = some V.extent := if_pos fixed
        have hnone := h'.1
        rw [hwidth] at hnone
        cases hnone
  | dynamic _ _ blocks => exact gathered_answers hD hc blocks

/-- A `dynamic_bitset` of thirteen over bytes. -/
def thirteen : BitEnd listedBitset :=
  .dynamic (w := 8) rfl
    [true, false, false, false, false, true, false, false, false, false, false, false, true]
    (by decide)

/-- It goes into a vector of bytes. -/
theorem convert_ends_thirteen : ∃ d : BitBlockContainer (byteVector false),
    thirteen.toOwner (fun _ _ => false) (fun _ _ => true) .ample (byteVector false) .sequence =
      .ok d ∧ d.size = 13 ∧ d.bit 12 = true := by
  have hconvertible : thirteen.Convertible (.owner (byteVector false) .sequence) :=
    ⟨by decide, fun hs => by cases hs⟩
  have hanswers := convert_ends listedBitset_documented hconvertible
    (Converts.owner thirteen (byteVector false) .sequence : Converts (fun _ _ => false)
      (fun _ _ => true) .ample thirteen (.owner (byteVector false) .sequence) _)
  obtain ⟨d, hd⟩ := hanswers.returns (fun h => by cases h.1) fun _ _ => ⟨2, rfl⟩
  obtain ⟨-, hbit, hsize⟩ := hanswers.exact d hd
  exact ⟨d, hd, hsize rfl rfl, hbit 12⟩

end Law

end XstdBits
