/-
  File: XstdBits/Reading/Transport.lean
  Subject: bytes between blocks of any two types, and a fixed layout through its bytes
  (`bit_layout.hpp`).

  * `BlockType` is what the layout tests ask of a block: its digits, `sizeof`, whether it is a
    class. `copiesObjects` is the choice between the copy of the objects and the shifts.
  * `Aligned` says of two ranges that a position of the one and a position of the other share a
    place exactly where they are one position: the copy is right over these ranges and no others
    (`carriesPositions_iff`). Whole bytes in every block, or one block alone, always are.
  * a value comes back from its bytes where every position it has is placed within them
    (`bytesBits_bitBytes`); a foreign object does where its bytes past the width are clear.

  Blocks of another width are asked for by no owner, and `fixed_blocks_source` admits them.
-/
import XstdBits.Reading.Hash

namespace XstdBits

open BitBlockContainer (bitAt_zeros getD_zeros)

/-! ## 1. Block types -/

/-- A block's type: the digits of its values, the bytes of its objects, whether it is a class. -/
structure BlockType where
  digits : Nat
  size : Nat
  isClass : Bool
  digits_pos : 0 < digits
  digits_le : digits ≤ 8 * size
  deriving DecidableEq, Repr

namespace BlockType

/-- `unsigned char`. -/
def byte : BlockType where
  digits := 8
  size := 1
  isClass := false
  digits_pos := by decide
  digits_le := by decide

/-- `value_bits_fill_object`. -/
def valueBitsFillObject (t : BlockType) : Bool := t.digits == 8 * t.size

/-- `block_copies_as_bytes`: built in, little-endian and without padding. -/
def blockCopiesAsBytes (little : Bool) (t : BlockType) : Bool :=
  little && !t.isClass && t.valueBitsFillObject

/-- Whether `copy_bits` copies the objects: not in constant evaluation, and where both blocks copy
    as bytes. -/
def copiesObjects (constant little : Bool) (s t : BlockType) : Bool :=
  !constant && (s.blockCopiesAsBytes little && t.blockCopiesAsBytes little)

/-- `copy_bits` between blocks of two types. -/
def copyBits (constant little : Bool) (s t : BlockType) (src : List (BitVec s.digits))
    (dst : List (BitVec t.digits)) : List (BitVec t.digits) :=
  XstdBits.copyBits (copiesObjects constant little s t) src dst

/-- `fixed_blocks_source`: so many blocks, of a width that holds `n`. -/
def fixedBlocksSource (t : BlockType) (count n : Nat) : Bool := decide (n ≤ count * t.digits)

/-- `bit_bytes<N>` of blocks. -/
def bitBytes (constant little : Bool) (t : BlockType) (n : Nat) (value : List (BitVec t.digits)) :
    List Byte :=
  t.copyBits constant little byte value (List.replicate (byteCount n) zero)

/-- `bytes_bits` into so many blocks, value-initialised. -/
def bytesBits (constant little : Bool) (t : BlockType) (count : Nat) (bytes : List Byte) :
    List (BitVec t.digits) :=
  byte.copyBits constant little t bytes (List.replicate count zero)

variable {little : Bool} {t : BlockType}

theorem dvd_of_copies (h : t.blockCopiesAsBytes little = true) : 8 ∣ t.digits := by
  unfold blockCopiesAsBytes valueBitsFillObject at h
  rw [Bool.and_eq_true, beq_iff_eq] at h
  exact ⟨t.size, h.2⟩

end BlockType

/-! ## 2. The copy -/

section Copy
variable {w v m n : Nat}

/-- What a copy into clear blocks is to leave: the source as far as both reach, and the rest
    clear. -/
def CarriesPositions (src : List (BitVec w)) (dst out : List (BitVec v)) : Prop :=
  out.length = dst.length ∧
  (∀ i, i < src.length * w → i < dst.length * v → bitAt out i = bitAt src i) ∧
  ∀ i, src.length * w ≤ i ∨ dst.length * v ≤ i → bitAt out i = false

/-- So many blocks of a width: whole bytes in every block, or one block alone. -/
def WholeBytes (w m : Nat) : Prop := 8 ∣ w ∨ m ≤ 1

/-- Positions of two ranges share a place exactly where they are the same. -/
def Aligned (w m v n : Nat) : Prop :=
  ∀ p q, p < m * w → q < n * v → (bytePosition w p = bytePosition v q ↔ p = q)

theorem WholeBytes.place (hw : 0 < w) (h : WholeBytes w m) {p : Nat} (hp : p < m * w) :
    bytePosition w p = p := by
  have hlen : (List.replicate m (zero : BitVec w)).length = m := List.length_replicate
  refine bytePosition_of_layout (b := List.replicate m zero) hw ?_ (by rwa [hlen])
  unfold ByteLayout
  rwa [hlen]

/-- **Whole bytes are aligned with whole bytes**, and one block alone with either. -/
theorem aligned_of_wholeBytes (hw : 0 < w) (hv : 0 < v) (hm : WholeBytes w m)
    (hn : WholeBytes v n) : Aligned w m v n := by
  intro p q hp hq
  rw [hm.place hw hp, hn.place hv hq]

/-- A range with one position set. -/
theorem exists_single (hw : 0 < w) {p : Nat} (hp : p < m * w) :
    ∃ src : List (BitVec w), src.length = m ∧ ∀ q, bitAt src q = decide (q = p) := by
  obtain ⟨i, t, ht, rfl⟩ := exists_pos hw p
  have hi := (pos_lt_iff ht).mp hp
  refine ⟨(List.replicate m zero).set i (shl unit t), by simp, fun q => ?_⟩
  obtain ⟨i', t', ht', rfl⟩ := exists_pos hw q
  rw [bitAt_set (by simpa using hi), pos_div ht', pos_mod ht', bitAt_zeros]
  have hpos : i' * w + t' = i * w + t ↔ i' = i ∧ t' = t := pos_inj ht' ht
  by_cases h : i' = i
  · rw [if_pos h, getLsbD_unit_shl ht', decide_eq_decide, hpos]
    simp [h]
  · rw [if_neg h, decide_eq_false fun hc => h (hpos.mp hc).1]

/-- **Aligned ranges carry position to position.** -/
theorem carriesPositions_of_aligned (asObjects : Bool) (hw : 0 < w) (hv : 0 < v)
    {src : List (BitVec w)} {dst : List (BitVec v)} (h : Aligned w src.length v dst.length)
    (hclear : ∀ p, bitAt dst p = false) :
    CarriesPositions src dst (copyBits asObjects src dst) := by
  obtain ⟨hl, hbits⟩ := copyBits_place asObjects src hw hv hclear
  refine ⟨hl, fun i hi hi' => ?_, fun i hi => ?_⟩
  · rw [hbits i hi', ← (h i i hi hi').mpr rfl, byteBit_bytePosition hw]
  · by_cases hi' : i < dst.length * v
    · rw [hbits i hi']
      refine byteBit_clear fun p hp hplace => ?_
      have := (h p i hp hi').mp hplace
      omega
    · exact bitAt_of_le hv (by rw [hl]; omega)

/-- **The copy is right over aligned ranges and no others.** -/
theorem carriesPositions_iff (asObjects : Bool) (hw : 0 < w) (hv : 0 < v) :
    (∀ (src : List (BitVec w)) (dst : List (BitVec v)), src.length = m → dst.length = n →
      (∀ p, bitAt dst p = false) → CarriesPositions src dst (copyBits asObjects src dst)) ↔
    Aligned w m v n := by
  constructor
  · intro h p q hp hq
    -- one position of the source, looked for at one position of the target
    obtain ⟨src, hsrc, hone⟩ := exists_single hw hp
    have hclear (x : Nat) : bitAt (List.replicate n (zero : BitVec v)) x = false := bitAt_zeros
    obtain ⟨-, hin, hout⟩ := h src _ hsrc List.length_replicate hclear
    obtain ⟨-, hbits⟩ := copyBits_place asObjects src hw hv hclear
    rw [hsrc, List.length_replicate] at hin hout
    have hq' := hbits q (by rwa [List.length_replicate])
    constructor
    · intro hplace
      rw [← hplace, byteBit_bytePosition hw, hone, decide_eq_true rfl] at hq'
      by_cases hqm : q < m * w
      · rw [hin q hqm hq, hone, decide_eq_true_eq] at hq'
        exact hq'.symm
      · rw [hout q (Or.inl (by omega))] at hq'
        cases hq'
    · rintro rfl
      rw [hin p hp hq, hone, decide_eq_true rfl] at hq'
      obtain ⟨p', -, hplace, hp'⟩ := exists_of_byteBit hq'.symm
      rw [hone, decide_eq_true_eq] at hp'
      rwa [hp'] at hplace
  · intro h src dst hm hn hclear
    subst hm hn
    exact carriesPositions_of_aligned asObjects hw hv h hclear

/-- **Both ways carry the same**, into clear blocks. -/
theorem copyBits_paths (hw : 0 < w) (hv : 0 < v) (src : List (BitVec w)) {dst : List (BitVec v)}
    (hclear : ∀ p, bitAt dst p = false) : copyBits true src dst = copyBits false src dst := by
  obtain ⟨hl, hbits⟩ := copyBits_place true src hw hv hclear
  obtain ⟨hl', hbits'⟩ := copyBits_place false src hw hv hclear
  refine bitAt_ext (hl.trans hl'.symm) fun p hp => ?_
  rw [hl] at hp
  rw [hbits p hp, hbits' p hp]

/-- **The copy of the objects is a copy of their bytes**: the source's first ones over the
    target's, the rest of which stand. -/
theorem flatMap_copyObjects (hw : 0 < w) (hv : 0 < v) (hw8 : 8 ∣ w) (hv8 : 8 ∣ v)
    (src : List (BitVec w)) (dst : List (BitVec v)) {bytes : Nat} (hs : bytes ≤ valueBytes src)
    (hd : bytes ≤ valueBytes dst) : (copyObjects src dst bytes).flatMap objectBytes =
      (src.flatMap objectBytes).take bytes ++ (dst.flatMap objectBytes).drop bytes := by
  obtain ⟨hl, hbits⟩ := copyObjects_spec src hv hd
  have hvb := valueBytes_congr hl
  have hbyte (j : Nat) (hj : j < valueBytes dst) : blockByte (copyObjects src dst bytes) j =
      if j < bytes then blockByte src j else blockByte dst j := by
    refine BitVec.eq_of_getLsbD_eq fun k hk => ?_
    have hx : 8 * j + k < dst.length * v := by
      have hend : 8 * valueBytes dst = dst.length * v := by
        unfold valueBytes
        rw [Nat.mul_left_comm, bytesPerBlock_whole hv8]
      omega
    rw [getLsbD_blockByte hv (Or.inl hv8) hk, hbits,
      bytePosition_of_layout hv (b := dst) (Or.inl hv8) hx, show (8 * j + k) / 8 = j by omega]
    split
    · rw [getLsbD_blockByte hw (Or.inl hw8) hk, byteBit_of_layout hw (Or.inl hw8)]
    · rw [getLsbD_blockByte hv (Or.inl hv8) hk]
  rw [flatMap_objectBytes hv8, flatMap_objectBytes hw8, flatMap_objectBytes hv8, hvb]
  unfold stringBytes
  refine List.ext_getElem (by simp; omega) fun j h1 h2 => ?_
  rw [List.getElem_map, List.getElem_range, hbyte j (by simpa using h1), List.getElem_append]
  split
  · rename_i hj
    rw [dif_pos (by simp; omega)]
    simp
  · rename_i hj
    have hlen : ((List.map (blockByte src) (List.range (valueBytes src))).take bytes).length =
        bytes := by
      simp
      omega
    rw [dif_neg (by omega)]
    simp only [hlen, List.getElem_drop, List.getElem_map, List.getElem_range]
    rw [Nat.add_sub_cancel' (by omega)]

end Copy

/-! ## 3. Through the bytes -/

namespace BlockType
variable {constant little : Bool} {t : BlockType} {n : Nat}

theorem bitBytes_eq (value : List (BitVec t.digits)) : bitBytes constant little t n value =
    XstdBits.bitBytes (copiesObjects constant little t byte) n value := rfl

/-- Every position of the blocks is the one at its place in the bytes. -/
theorem bytesBits_place (constant little : Bool) (t : BlockType) (count : Nat)
    (bytes : List Byte) :
    (bytesBits constant little t count bytes).length = count ∧ ∀ p, p < count * t.digits →
      bitAt (bytesBits constant little t count bytes) p =
        bitAt bytes (bytePosition t.digits p) := by
  have hclear (p : Nat) : bitAt (List.replicate count (zero : BitVec t.digits)) p = false :=
    bitAt_zeros
  obtain ⟨hl, hbits⟩ := copyBits_place (copiesObjects constant little byte t) bytes (by decide)
    t.digits_pos hclear
  rw [List.length_replicate] at hl hbits
  exact ⟨hl, fun p hp => (hbits p hp).trans (byteBit_of_layout (by decide) (byteLayout_bytes _) _)⟩

/-- **A value comes back from its bytes exactly where they have the place of every position set**,
    in constant evaluation or not on either way. -/
theorem bytesBits_bitBytes (constant' : Bool) (value : List (BitVec t.digits)) :
    bytesBits constant' little t value.length (bitBytes constant little t n value) = value ↔
      ∀ p, bitAt value p = true → bytePosition t.digits p < 8 * byteCount n := by
  obtain ⟨hl, hbits⟩ := bytesBits_place constant' little t value.length
    (bitBytes constant little t n value)
  rw [bitBytes_eq] at hl hbits ⊢
  have hback (p : Nat) (hp : p < value.length * t.digits) := (hbits p hp).trans
    ((bitBytes_place _ n value t.digits_pos).2 _)
  simp only [byteBit_bytePosition t.digits_pos] at hback
  constructor
  · intro h p hp
    have hlt : p < value.length * t.digits := by
      by_contra hge
      rw [bitAt_of_le t.digits_pos (by omega)] at hp
      cases hp
    have hp' := hback p hlt
    rw [h, hp, Bool.and_true] at hp'
    have := of_decide_eq_true hp'.symm
    omega
  · intro h
    refine bitAt_ext hl fun p hp => ?_
    rw [hl] at hp
    rw [hback p hp]
    cases hb : bitAt value p with
    | false => rw [Bool.and_false]
    | true =>
        have := h p hb
        rw [decide_eq_true (by omega), Bool.and_true]

/-- **Whole bytes have every position below the width placed within the width's bytes.** -/
theorem place_lt_byteCount {count : Nat} (h : WholeBytes t.digits count)
    (hn : n ≤ count * t.digits) {p : Nat} (hp : p < n) :
    bytePosition t.digits p < 8 * byteCount n := by
  have := byteCount_mul_ge (n := n)
  rw [h.place t.digits_pos (by omega)]
  omega

end BlockType

/-! ## 4. A foreign object -/

section Container

/-- Object bytes copied, one by one in constant evaluation and as one copy outside it. -/
def copyObjectBytes (constant : Bool) (src dst : List Byte) (bytes : Nat) : List Byte :=
  if constant then forUp 0 bytes (fun j dst => dst.set j (src.getD j zero)) dst
  else src.take bytes ++ dst.drop bytes

/-- `bit_bytes<N>` of an object read as its bytes. -/
def containerBytes (constant : Bool) (n : Nat) (object : List Byte) : List Byte :=
  let bytes := List.replicate (byteCount n) zero
  if 0 < byteCount n then copyObjectBytes constant object bytes (byteCount n) else bytes

/-- `bytes_bits` into an object of so many bytes. -/
def containerBits (constant : Bool) (n size : Nat) (bytes : List Byte) : List Byte :=
  let object := List.replicate size zero
  if byteCount n = 0 then object else copyObjectBytes constant bytes object (byteCount n)

variable {n : Nat}

/-- Both ways copy the first bytes and leave the rest. -/
theorem copyObjectBytes_spec (constant : Bool) (src dst : List Byte) {bytes : Nat}
    (hs : bytes ≤ src.length) (hd : bytes ≤ dst.length) :
    (copyObjectBytes constant src dst bytes).length = dst.length ∧
      ∀ j, (copyObjectBytes constant src dst bytes).getD j zero =
        if j < bytes then src.getD j zero else dst.getD j zero := by
  unfold copyObjectBytes
  cases constant with
  | true =>
      rw [if_pos rfl]
      refine forUp_inv (f := fun j (d : List Byte) => d.set j (src.getD j zero)) (s := dst)
        (fun k d => d.length = dst.length ∧
          ∀ j, d.getD j zero = if j < k then src.getD j zero else dst.getD j zero)
        (Nat.zero_le bytes) ⟨rfl, fun j => by simp⟩ ?_
      intro k d _ hk hd'
      obtain ⟨hl, hbytes⟩ := hd'
      refine ⟨by rw [List.length_set, hl], fun j => ?_⟩
      rw [getD_set, hbytes]
      by_cases hj : k = j
      · subst hj
        rw [if_pos ⟨rfl, by omega⟩, if_pos (by omega)]
      · rw [if_neg fun hc => hj hc.1]
        by_cases hlt : j < k
        · rw [if_pos hlt, if_pos (by omega)]
        · rw [if_neg hlt, if_neg (by omega)]
  | false =>
      rw [if_neg (by decide)]
      refine ⟨by simp; omega, fun j => ?_⟩
      rw [getD_append', List.length_take, Nat.min_eq_left hs]
      split
      · rename_i hj
        rw [List.getD_eq_getElem?_getD, List.getElem?_take_of_lt hj, List.getD_eq_getElem?_getD]
      · rename_i hj
        rw [List.getD_eq_getElem?_getD, List.getElem?_drop, Nat.add_sub_cancel' (by omega),
          List.getD_eq_getElem?_getD]

theorem containerBytes_spec (constant : Bool) {object : List Byte}
    (hn : byteCount n ≤ object.length) :
    (containerBytes constant n object).length = byteCount n ∧ ∀ j, j < byteCount n →
      (containerBytes constant n object).getD j zero = object.getD j zero := by
  unfold containerBytes
  dsimp only
  split
  · obtain ⟨hl, hcopy⟩ := copyObjectBytes_spec constant object
      (List.replicate (byteCount n) zero) hn (by simp)
    refine ⟨by rw [hl, List.length_replicate], fun j hj => ?_⟩
    rw [hcopy, if_pos hj]
  · exact ⟨List.length_replicate, fun j hj => absurd hj (by omega)⟩

theorem containerBits_spec (constant : Bool) {size : Nat} {bytes : List Byte}
    (hb : bytes.length = byteCount n) (hn : byteCount n ≤ size) :
    (containerBits constant n size bytes).length = size ∧
      ∀ j, (containerBits constant n size bytes).getD j zero =
        if j < byteCount n then bytes.getD j zero else zero := by
  unfold containerBits
  dsimp only
  split
  · rename_i h0
    refine ⟨List.length_replicate, fun j => ?_⟩
    rw [if_neg (by omega), getD_zeros]
  · obtain ⟨hl, hcopy⟩ := copyObjectBytes_spec constant bytes (List.replicate size zero)
      (Nat.le_of_eq hb.symm) (by simpa using hn)
    refine ⟨by rw [hl, List.length_replicate], fun j => ?_⟩
    rw [hcopy, getD_zeros]

/-- **An object comes back from its bytes exactly where they have every position set**, in constant
    evaluation or not on either way. -/
theorem containerBits_containerBytes (constant constant' : Bool) {object : List Byte}
    (hn : n ≤ 8 * object.length) :
    containerBits constant' n object.length (containerBytes constant n object) = object ↔
      ∀ p, bitAt object p = true → p < 8 * byteCount n := by
  have hle : byteCount n ≤ object.length := by
    unfold byteCount
    omega
  obtain ⟨hlb, hread⟩ := containerBytes_spec constant hle
  obtain ⟨hl, hback⟩ := containerBits_spec constant' hlb hle
  constructor
  · intro h p hp
    by_contra hge
    have hbyte := hback (p / 8)
    rw [h, if_neg (by omega)] at hbyte
    unfold bitAt at hp
    rw [hbyte, getLsbD_zero'] at hp
    cases hp
  · intro h
    refine ext_getD (d := zero) hl fun j _ => ?_
    rw [hback]
    by_cases hj : j < byteCount n
    · rw [if_pos hj, hread j hj]
    · -- a byte past the width's has no position
      rw [if_neg hj]
      refine BitVec.eq_of_getLsbD_eq fun k hk => ?_
      rw [getLsbD_zero']
      symm
      by_contra hne
      have hbit : bitAt object (j * 8 + k) = true := by
        rw [bitAt_pos hk]
        exact (Bool.not_eq_false _).mp hne
      have := h _ hbit
      omega

end Container

/-! ## 5. Transport -/

/-- **Bytes between blocks.** Over any two block types the copy into clear blocks is right exactly
    over aligned ranges, as whole bytes and one block alone are; where both blocks copy as bytes the
    copy of the objects is the one by shifts, and is a copy of their bytes. A value with nothing at
    or above the width comes back from `bit_bytes` through `bytes_bits` exactly where every position
    it has is placed within the width's bytes, as whole bytes and one block alone have them; and an
    object read as its bytes does where it has no position past them. -/
theorem byte_transport_iff (constant constant' little : Bool) :
    (∀ (s t : BlockType) (m n : Nat),
      ((∀ (src : List (BitVec s.digits)) (dst : List (BitVec t.digits)), src.length = m →
          dst.length = n → (∀ p, bitAt dst p = false) →
          CarriesPositions src dst (s.copyBits constant little t src dst)) ↔
        Aligned s.digits m t.digits n) ∧
      (WholeBytes s.digits m → WholeBytes t.digits n → Aligned s.digits m t.digits n)) ∧
    (∀ (s t : BlockType), s.blockCopiesAsBytes little = true → t.blockCopiesAsBytes little = true →
      ∀ (src : List (BitVec s.digits)) (dst : List (BitVec t.digits)), (∀ p, bitAt dst p = false) →
        copyBits true src dst = copyBits false src dst ∧
        (copyBits true src dst).flatMap objectBytes =
          (src.flatMap objectBytes).take (min (valueBytes src) (valueBytes dst)) ++
            (dst.flatMap objectBytes).drop (min (valueBytes src) (valueBytes dst))) ∧
    (∀ (t : BlockType) (count n : Nat), t.fixedBlocksSource count n = true →
      (∀ value : List (BitVec t.digits), value.length = count →
        (∀ p, n ≤ p → bitAt value p = false) →
        (t.bytesBits constant' little count (t.bitBytes constant little n value) = value ↔
          ∀ p, bitAt value p = true → bytePosition t.digits p < 8 * byteCount n)) ∧
      (WholeBytes t.digits count →
        ∀ p, p < n → bytePosition t.digits p < 8 * byteCount n)) ∧
    ∀ (n : Nat) (object : List Byte), n ≤ 8 * object.length →
      (containerBits constant' n object.length (containerBytes constant n object) = object ↔
        ∀ p, bitAt object p = true → p < 8 * byteCount n) := by
  refine ⟨fun s t m n => ⟨carriesPositions_iff _ s.digits_pos t.digits_pos,
    aligned_of_wholeBytes s.digits_pos t.digits_pos⟩, fun s t hs ht src dst hclear => ⟨?_, ?_⟩,
    fun t count n hn => ⟨fun value hl _ => ?_, fun hw p hp => ?_⟩,
    fun n object hn => containerBits_containerBytes constant constant' hn⟩
  · exact copyBits_paths s.digits_pos t.digits_pos src hclear
  · exact flatMap_copyObjects s.digits_pos t.digits_pos (BlockType.dvd_of_copies hs)
      (BlockType.dvd_of_copies ht) src dst (Nat.min_le_left _ _) (Nat.min_le_right _ _)
  · subst hl
    exact BlockType.bytesBits_bitBytes constant' value
  · exact BlockType.place_lt_byteCount hw (of_decide_eq_true hn) hp

/-- `xstd::bit_uint<12>`, in the two bytes of a `std::uint16_t`. -/
def twelveBits : BlockType where
  digits := 12
  size := 2
  isClass := false
  digits_pos := by decide
  digits_le := by decide

/-- Position twenty of two such blocks is lost: their bytes are four, and a width of twenty-four
    has three. -/
theorem byte_transport_twelve :
    let value : List (BitVec twelveBits.digits) := [0, 0x100]
    twelveBits.fixedBlocksSource 2 24 = true ∧ (∀ p, 24 ≤ p → bitAt value p = false) ∧
      ∀ constant constant' little : Bool,
        twelveBits.bitBytes constant little 24 value = [0, 0, 0] ∧
        twelveBits.bytesBits constant' little 2 (twelveBits.bitBytes constant little 24 value) =
          [0, 0] ∧
        twelveBits.bytesBits constant' little 2 (twelveBits.bitBytes constant little 24 value) ≠
          value :=
  ⟨by decide, fun _ hp => bitAt_of_le (by decide) hp, by decide⟩

/-- `std::uint32_t`. -/
def word32 : BlockType where
  digits := 32
  size := 4
  isClass := false
  digits_pos := by decide
  digits_le := by decide

/-- A word over clear bytes, and back. -/
theorem byte_transport_word : CarriesPositions [(0x80018203 : BitVec word32.digits)]
      (List.replicate 3 (zero : BitVec BlockType.byte.digits))
      (word32.copyBits false true .byte [0x80018203] (List.replicate 3 zero)) ∧
    word32.bytesBits true true 1 (word32.bitBytes false true 20 [0x00018203]) = [0x00018203] := by
  have h := byte_transport_iff false true true
  have hone : WholeBytes word32.digits 1 := Or.inr (Nat.le_refl 1)
  constructor
  · exact (h.1 word32 .byte 1 3).1.mpr ((h.1 word32 .byte 1 3).2 hone (Or.inl (by decide))) _ _ rfl
      List.length_replicate fun _ => bitAt_zeros
  · have h20 := h.2.2.1 word32 1 20 (by decide)
    have hbelow (p : Nat) (hp : 20 ≤ p) :
        bitAt [(0x00018203 : BitVec word32.digits)] p = false := by
      rw [bitAt_singleton (by decide)]
      by_cases hlt : p < 32
      · have hall : ∀ q : Fin 32, 20 ≤ q.val →
            (0x00018203 : BitVec word32.digits).getLsbD q.val = false := by decide
        exact hall ⟨p, hlt⟩ hp
      · exact BitVec.getLsbD_of_ge _ _ (Nat.le_of_not_lt hlt)
    refine (h20.1 _ rfl hbelow).mpr fun p hb => h20.2 hone p ?_
    by_contra hge
    rw [hbelow p (by omega)] at hb
    cases hb

end XstdBits
