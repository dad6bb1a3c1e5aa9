/-
  File: XstdBits/Set/Flags.lean
  Subject: a set of flags and the masks it converts with (`flag_block.hpp`, `bit_fixed_set.hpp`).

  A mask is an integer, an enumeration or a `std::bitset`. It is read as a word of one block or of
  several (`toBlock`) and written back from one (`fromBlock`); a bitset goes through bytes, by its
  object's or by its positions' values.
  * `toBlock_spec`, `fromBlock_spec`: the word holds the mask's bits and nothing else.
  * `fits_iff`: the check on a mask is exact, by a shift of one block and by a second encoding of an
    array of them.
  * `lowBitsOf_spec`, `getLsbD_toMask`: what crosses either way.
-/
import XstdBits.Set.Adaptor
import XstdBits.Reading.Compare

namespace XstdBits

/-! ## 1. Masks as words -/

/-- How a type of masks is read as a word of blocks (`flag_block`): an integer or an enumeration as
    its own unsigned block, a bitset through bytes as blocks that tile its width. -/
structure MaskType where
  /-- the positions of a mask, a sign bit among them -/
  bits : Nat
  /-- the digits of a block of the word -/
  digits : Nat
  isBitset : Bool
  /-- whether a bitset's object bytes hold its positions in order -/
  asObject : Bool
  digits_pos : 0 < digits
  own_block : isBitset = false → digits = bits
  tiles : isBitset = true → tilingBlock digits = true

/-- `std::bitset`'s bytes, position by position. -/
def bitsetBytes {m : Nat} (mask : BitVec m) : List Byte :=
  forUp 0 m (fun i bytes =>
    if mask.getLsbD i = true then bytes.set (i / 8) (bytes.getD (i / 8) 0 ||| shl unit (i % 8))
    else bytes) (List.replicate (byteCount m) 0)

/-- `mask[i] = value`. -/
def assignBit {m : Nat} (mask : BitVec m) (i : Nat) (value : Bool) : BitVec m :=
  if value then mask ||| shl unit i else mask &&& ~~~shl unit i

/-- Bytes of positions back into a bitset, position by position. -/
def bytesBitset (m : Nat) (bytes : List Byte) : BitVec m :=
  forUp 0 m (fun i mask =>
    assignBit mask i (decide (shr (bytes.getD (i / 8) 0) (i % 8) &&& unit ≠ zero))) zero

/-- A bitset's first object bytes, its positions in order and clear past the last. -/
def bitsetObject {m : Nat} (mask : BitVec m) : List Byte :=
  (List.range (byteCount m)).map fun j => (shr mask (8 * j)).setWidth 8

/-- The bitset with those object bytes. -/
def bitsetOfObject (m : Nat) (bytes : List Byte) : BitVec m :=
  (BitVec.ofBoolListLE ((List.range m).map (bitAt bytes))).setWidth m

namespace MaskType
variable (o : Nat → Nat → Bool) (t : MaskType)

/-- The blocks of the word. -/
def blocks : Nat := if t.isBitset then blocksFor t.digits t.bits else 1

/-- Whether the word is one block and no array. -/
def isBlock : Bool := !t.isBitset || decide (t.bits ≤ t.digits)

/-- `bytes_bits` into the word. -/
def bytesBits (bytes : List Byte) : List (BitVec t.digits) :=
  copyBits (o 8 t.digits) bytes (List.replicate t.blocks zero)

/-- `to_block`. -/
def toBlock (mask : BitVec t.bits) : List (BitVec t.digits) :=
  if t.isBitset then
    t.bytesBits o (if t.asObject then bitsetObject mask else bitsetBytes mask)
  else [mask.setWidth t.digits]

/-- `from_block`. -/
def fromBlock (word : List (BitVec t.digits)) : BitVec t.bits :=
  if t.isBitset then
    let bytes := bitBytes (o t.digits 8) t.bits word
    if t.asObject then bitsetOfObject t.bits bytes else bytesBitset t.bits bytes
  else (word.getD 0 zero).setWidth t.bits

end MaskType

section Bytes
variable {m : Nat} {mask : BitVec m} {bytes : List Byte}

theorem bitAt_orBit {i : Nat} (hi : i / 8 < bytes.length) {p : Nat} :
    bitAt (bytes.set (i / 8) (bytes.getD (i / 8) 0 ||| shl unit (i % 8))) p =
      (bitAt bytes p || decide (p = i)) := by
  rw [bitAt_set hi]
  by_cases hp : p / 8 = i / 8
  · rw [if_pos hp, BitVec.getLsbD_or, getLsbD_unit_shl (Nat.mod_lt p (by decide)), ← hp]
    have hiff : p % 8 = i % 8 ↔ p = i := by omega
    rw [decide_eq_decide.mpr hiff]
    rfl
  · have hne : p ≠ i := fun hc => hp (by rw [hc])
    rw [if_neg hp, decide_eq_false hne, Bool.or_false]

/-- **The bytes of a bitset hold its positions**, read by value. -/
theorem bitsetBytes_spec (mask : BitVec m) : (bitsetBytes mask).length = byteCount m ∧
    ∀ p, bitAt (bitsetBytes mask) p = mask.getLsbD p := by
  have hinv := forUp_inv (f := fun i (bytes : List Byte) =>
      if mask.getLsbD i = true then bytes.set (i / 8) (bytes.getD (i / 8) 0 ||| shl unit (i % 8))
      else bytes) (s := List.replicate (byteCount m) 0)
    (fun n bytes => bytes.length = byteCount m ∧
      ∀ p, bitAt bytes p = (decide (p < n) && mask.getLsbD p))
    (Nat.zero_le m) ⟨List.length_replicate, fun p => by
      rw [decide_eq_false (by omega), Bool.false_and]
      exact BitBlockContainer.bitAt_zeros⟩ ?_
  · refine ⟨hinv.1, fun p => ?_⟩
    unfold bitsetBytes
    rw [hinv.2]
    by_cases hp : p < m
    · rw [decide_eq_true hp, Bool.true_and]
    · rw [decide_eq_false hp, Bool.false_and, BitVec.getLsbD_of_ge _ _ (by omega)]
  · intro i bytes _ hi ⟨hlen, hbits⟩
    have hin : i / 8 < bytes.length := by
      rw [hlen]
      unfold byteCount
      omega
    by_cases hset : mask.getLsbD i = true
    · rw [if_pos hset]
      refine ⟨by rw [List.length_set, hlen], fun p => ?_⟩
      rw [bitAt_orBit hin, hbits]
      by_cases hpi : p = i
      · rw [hpi, hset]
        simp
      · rw [decide_eq_false hpi, Bool.or_false]
        congr 1
        exact decide_eq_decide.mpr (by omega)
    · rw [if_neg hset]
      refine ⟨hlen, fun p => ?_⟩
      rw [hbits]
      by_cases hpi : p = i
      · rw [hpi, Bool.eq_false_iff.mpr hset, Bool.and_false, Bool.and_false]
      · congr 1
        exact decide_eq_decide.mpr (by omega)

/-- The object bytes hold them too. -/
theorem bitsetObject_spec (mask : BitVec m) : (bitsetObject mask).length = byteCount m ∧
    ∀ p, bitAt (bitsetObject mask) p = mask.getLsbD p := by
  have hlen : (bitsetObject mask).length = byteCount m := by
    unfold bitsetObject
    rw [List.length_map, List.length_range]
  refine ⟨hlen, fun p => ?_⟩
  obtain ⟨j, k, hk, rfl⟩ := exists_pos (w := 8) (by decide) p
  rw [bitAt_pos hk]
  by_cases hj : j < byteCount m
  · rw [List.getD_eq_getElem _ _ (hlen ▸ hj)]
    unfold bitsetObject
    rw [List.getElem_map, List.getElem_range, BitVec.getLsbD_setWidth, decide_eq_true hk,
      Bool.true_and, getLsbD_shr, Nat.mul_comm 8 j]
  · have := byteCount_mul_ge (n := m)
    have hle : byteCount m * 8 ≤ j * 8 := Nat.mul_le_mul_right 8 (by omega)
    rw [List.getD_eq_default _ _ (by omega), BitVec.getLsbD_zero, BitVec.getLsbD_of_ge _ _ (by omega)]

theorem getLsbD_assignBit {i p : Nat} {value : Bool} (hp : p < m) :
    (assignBit mask i value).getLsbD p = if p = i then value else mask.getLsbD p := by
  unfold assignBit
  cases value with
  | true =>
      rw [if_pos rfl, BitVec.getLsbD_or, getLsbD_unit_shl hp]
      by_cases hpi : p = i
      · rw [if_pos hpi, decide_eq_true hpi, Bool.or_true]
      · rw [if_neg hpi, decide_eq_false hpi, Bool.or_false]
  | false =>
      rw [if_neg (by decide), BitVec.getLsbD_and, BitVec.getLsbD_not, getLsbD_unit_shl hp,
        decide_eq_true hp, Bool.true_and]
      by_cases hpi : p = i
      · rw [if_pos hpi, decide_eq_true hpi, Bool.not_true, Bool.and_false]
      · rw [if_neg hpi, decide_eq_false hpi, Bool.not_false, Bool.and_true]

/-- **A bitset made from bytes holds their positions below its width.** -/
theorem getLsbD_bytesBitset (p : Nat) :
    (bytesBitset m bytes).getLsbD p = (decide (p < m) && bitAt bytes p) := by
  have hinv := forUp_inv (f := fun i (mask : BitVec m) =>
      assignBit mask i (decide (shr (bytes.getD (i / 8) 0) (i % 8) &&& unit ≠ zero))) (s := zero)
    (fun n mask => ∀ p, p < m → mask.getLsbD p = (decide (p < n) && bitAt bytes p))
    (Nat.zero_le m) (fun p _ => by
      rw [getLsbD_zero', decide_eq_false (by omega), Bool.false_and]) ?_
  · by_cases hp : p < m
    · exact hinv p hp
    · rw [decide_eq_false hp, Bool.false_and, BitVec.getLsbD_of_ge _ _ (by omega)]
  · intro i mask _ _ ih p hp
    rw [getLsbD_assignBit hp]
    by_cases hpi : p = i
    · have hbit := blockIntersects_shr_unit (b := bytes.getD (i / 8) 0) (k := i % 8) (by decide)
      unfold blockIntersects at hbit
      rw [if_pos hpi, hbit, hpi, decide_eq_true (Nat.lt_succ_self i), Bool.true_and]
      rfl
    · rw [if_neg hpi, ih p hp]
      congr 1
      exact decide_eq_decide.mpr (by omega)

theorem getLsbD_bitsetOfObject (p : Nat) :
    (bitsetOfObject m bytes).getLsbD p = (decide (p < m) && bitAt bytes p) := by
  unfold bitsetOfObject
  rw [BitVec.getLsbD_setWidth, BitVec.getLsbD_ofBoolListLE]
  by_cases hp : p < m
  · rw [decide_eq_true hp, Bool.true_and, Bool.true_and, List.getD_eq_getElem _ _ (by simpa using hp),
      List.getElem_map, List.getElem_range]
  · rw [decide_eq_false hp, Bool.false_and, Bool.false_and]

end Bytes

namespace MaskType
variable {o : Nat → Nat → Bool} {t : MaskType}

/-- The word covers the mask. -/
theorem bits_le : t.bits ≤ t.blocks * t.digits := by
  unfold blocks
  by_cases hb : t.isBitset = true
  · rw [if_pos hb]
    exact le_blocksFor_mul t.digits_pos
  · rw [if_neg hb, t.own_block (by simpa using hb), Nat.one_mul]

theorem byteLayout {word : List (BitVec t.digits)} (h : word.length = t.blocks) :
    ByteLayout word := by
  by_cases hb : t.isBitset = true
  · exact Or.inl (dvd_of_tilingBlock (t.tiles hb))
  · refine Or.inr ?_
    rw [h]
    unfold blocks
    rw [if_neg hb]

theorem bytesBits_spec (bytes : List Byte) : (t.bytesBits o bytes).length = t.blocks ∧
    ∀ p, p < t.blocks * t.digits → bitAt (t.bytesBits o bytes) p = bitAt bytes p := by
  have hlen : (List.replicate t.blocks (zero : BitVec t.digits)).length = t.blocks :=
    List.length_replicate
  have h := copyBits_spec (o 8 t.digits) (by decide) t.digits_pos (byteLayout_bytes bytes)
    (byteLayout hlen) fun p _ => BitBlockContainer.bitAt_zeros
  rw [hlen] at h
  exact h

/-- **The word holds the mask's bits**, and nothing else. -/
theorem toBlock_spec (mask : BitVec t.bits) : (t.toBlock o mask).length = t.blocks ∧
    ∀ p, bitAt (t.toBlock o mask) p = mask.getLsbD p := by
  unfold toBlock
  by_cases hb : t.isBitset = true
  · rw [if_pos hb]
    have hbytes : ∀ p, bitAt (if t.asObject then bitsetObject mask else bitsetBytes mask) p =
        mask.getLsbD p := by
      split
      · exact (bitsetObject_spec mask).2
      · exact (bitsetBytes_spec mask).2
    obtain ⟨hlen, hbits⟩ := bytesBits_spec (o := o) (t := t)
      (if t.asObject then bitsetObject mask else bitsetBytes mask)
    refine ⟨hlen, fun p => ?_⟩
    by_cases hp : p < t.blocks * t.digits
    · rw [hbits p hp, hbytes]
    · have := t.bits_le
      rw [bitAt_of_le t.digits_pos (by rw [hlen]; omega), BitVec.getLsbD_of_ge _ _ (by omega)]
  · rw [if_neg hb]
    have hown := t.own_block (by simpa using hb)
    refine ⟨by unfold blocks; rw [if_neg hb]; rfl, fun p => ?_⟩
    by_cases hp : p < t.digits
    · rw [bitAt_of_lt hp, List.getD_cons_zero, BitVec.getLsbD_setWidth, decide_eq_true hp,
        Bool.true_and]
    · rw [bitAt_of_le t.digits_pos (by rw [List.length_singleton, Nat.one_mul]; omega),
        BitVec.getLsbD_of_ge _ _ (by omega)]

/-- **The mask made from a word holds its bits**, those the mask has a position for. -/
theorem fromBlock_spec {word : List (BitVec t.digits)} (h : word.length = t.blocks) (p : Nat) :
    (t.fromBlock o word).getLsbD p = (decide (p < t.bits) && bitAt word p) := by
  unfold fromBlock
  by_cases hb : t.isBitset = true
  · rw [if_pos hb]
    dsimp only
    have hbytes : bitAt (bitBytes (o t.digits 8) t.bits word) p = _ :=
      (bitBytes_spec t.digits_pos (byteLayout h)).2 p
    have hread : (if t.asObject then bitsetOfObject t.bits (bitBytes (o t.digits 8) t.bits word)
        else bytesBitset t.bits (bitBytes (o t.digits 8) t.bits word)).getLsbD p =
          (decide (p < t.bits) && bitAt (bitBytes (o t.digits 8) t.bits word) p) := by
      split
      · exact getLsbD_bitsetOfObject p
      · exact getLsbD_bytesBitset p
    rw [hread, hbytes]
    by_cases hp : p < t.bits
    · have := byteCount_mul_ge (n := t.bits)
      rw [decide_eq_true (show p < byteCount t.bits * 8 by omega), Bool.true_and]
    · rw [decide_eq_false hp, Bool.false_and, Bool.false_and]
  · rw [if_neg hb]
    have hown := t.own_block (by simpa using hb)
    rw [BitVec.getLsbD_setWidth]
    by_cases hp : p < t.bits
    · rw [bitAt_of_lt (hown ▸ hp)]
    · rw [decide_eq_false hp, Bool.false_and, Bool.false_and]

end MaskType

/-! ## 2. The set and its masks -/

namespace FlagSet
open BitBlockContainer

variable {w : Nat} {V : Vehicle w} (o : Nat → Nat → Bool) (t : MaskType)

/-- `assign_bits` of a field of blocks: block for block from the set's own type, else as bytes. -/
def assignBits {u : Nat} (c : BitBlockContainer V) (field : List (BitVec u)) :
    BitBlockContainer V :=
  if h : u = w then c.assignSameBlocks (field.map (BitVec.cast h))
  else c.assignBytes (o 8 w) (bitBytes (o u 8) V.extent field)

variable (V) in
/-- `low_bits_of`: the mask's bits below the width, as a set. -/
def lowBitsOf (mask : BitVec t.bits) : BitBlockContainer V :=
  assignBits o (.default V 0) (t.toBlock o mask)

/-- The conversion to a mask. -/
def toMask (c : BitBlockContainer V) : BitVec t.bits :=
  t.fromBlock o (t.bytesBits o (c.toBytes (o w 8) (byteCount V.extent)))

variable (V) in
/-- `fits`: an array of blocks is encoded a second time, without the bits past the width. -/
def fits (mask : BitVec t.bits) : Bool :=
  if V.extent = t.blocks * t.digits then true
  else if t.isBlock then shr ((t.toBlock o mask).getD 0 zero) V.extent == zero
  else t.toBlock o (toMask o t (lowBitsOf V o t mask)) == t.toBlock o mask

variable (V) in
/-- The conversion from a mask, which asserts that it fits. -/
def fromMask (mask : BitVec t.bits) : Except Exn (BitBlockContainer V) :=
  if fits V o t mask then .ok (assignBits o (.default V 0) (t.toBlock o mask)) else .error .abort

/-- `operator==` of a set and a mask. -/
def equalMask (c : BitBlockContainer V) (mask : BitVec t.bits) : Bool :=
  fits V o t mask && setEqual c (lowBitsOf V o t mask)

section Conversion
variable {o} {t} {c : BitBlockContainer V} {mask : BitVec t.bits}

theorem assignBits_spec {u : Nat} (hc : c.Inv) (hs : V.hasStaticSize = true) (hu : 0 < u)
    {field : List (BitVec u)} (hf : ByteLayout field) : (assignBits o c field).Inv ∧
      ∀ p, (assignBits o c field).bit p = (decide (p < V.extent) && bitAt field p) := by
  rw [← size_of_static hs (c := c)]
  unfold assignBits
  split
  · rename_i h
    subst h
    have hid : field.map (BitVec.cast (rfl : u = u)) = field :=
      (List.map_congr_left fun b _ => BitVec.cast_eq rfl b).trans (List.map_id' field)
    rw [hid]
    exact assignSameBlocks_spec hc hs _
  · obtain ⟨hinv, hbits⟩ := assignBytes_spec (o 8 w) hc hs (bitBytes (o u 8) V.extent field)
    refine ⟨hinv, fun p => ?_⟩
    rw [hbits, (bitBytes_spec hu hf).2, size_of_static hs]
    by_cases hp : p < V.extent
    · have := byteCount_mul_ge (n := V.extent)
      rw [decide_eq_true (show p < byteCount V.extent * 8 by omega), Bool.true_and]
    · rw [decide_eq_false hp, Bool.false_and, Bool.false_and]

/-- **From a mask the set takes the bits below its width.** -/
theorem lowBitsOf_spec (hs : V.hasStaticSize = true) (mask : BitVec t.bits) :
    (lowBitsOf V o t mask).Inv ∧
      ∀ p, (lowBitsOf V o t mask).bit p = (decide (p < V.extent) && mask.getLsbD p) := by
  obtain ⟨hlen, hbits⟩ := t.toBlock_spec (o := o) mask
  obtain ⟨hinv, hbit⟩ := assignBits_spec (o := o) (default_spec (V := V) (Or.inr hs) 0).1 hs
    t.digits_pos (MaskType.byteLayout hlen)
  exact ⟨hinv, fun p => (hbit p).trans (by rw [hbits])⟩

/-- **A mask takes all of the set**, whose width the mask has positions for. -/
theorem getLsbD_toMask (hs : V.hasStaticSize = true) (hn : V.extent ≤ t.bits) (hc : c.Inv)
    (p : Nat) : (toMask o t c).getLsbD p = c.bit p := by
  obtain ⟨hlen, hbits⟩ := t.bytesBits_spec (o := o) (c.toBytes (o w 8) (byteCount V.extent))
  have hbytes := (toBytes_spec (o w 8) hc (byteCount V.extent)).2 p
  unfold toMask
  rw [MaskType.fromBlock_spec hlen]
  by_cases hp : p < V.extent
  · have h1 := byteCount_mul_ge (n := V.extent)
    have h2 := t.bits_le
    rw [hbits p (by omega), hbytes, decide_eq_true (show p < byteCount V.extent * 8 by omega),
      decide_eq_true (show p < t.bits by omega), Bool.true_and, Bool.true_and]
  · rw [hc.clear p (by rw [size_of_static hs]; omega)]
    by_cases hpt : p < t.blocks * t.digits
    · rw [hbits p hpt, hbytes, hc.clear p (by rw [size_of_static hs]; omega), Bool.and_false,
        Bool.and_false]
    · rw [bitAt_of_le t.digits_pos (by rw [hlen]; omega), Bool.and_false]

/-- No bit of the mask at or past the width. -/
def Below (n : Nat) (mask : BitVec t.bits) : Prop := ∀ p, n ≤ p → mask.getLsbD p = false

/-- **The check on a mask is exact.** -/
theorem fits_iff (hs : V.hasStaticSize = true) (hn : V.extent ≤ t.bits) :
    fits V o t mask = true ↔ Below V.extent mask := by
  obtain ⟨hlen, hbits⟩ := t.toBlock_spec (o := o) mask
  have hcover := t.bits_le
  unfold fits Below
  by_cases hfull : V.extent = t.blocks * t.digits
  · rw [if_pos hfull]
    exact ⟨fun _ p hp => BitVec.getLsbD_of_ge _ _ (by omega), fun _ => rfl⟩
  · rw [if_neg hfull]
    by_cases hblock : t.isBlock = true
    · -- one block: what the shift leaves is what lies past the width
      rw [if_pos hblock, beq_iff_eq, eq_zero_iff]
      have hword : ∀ p, ((t.toBlock o mask).getD 0 zero).getLsbD p = mask.getLsbD p := by
        intro p
        by_cases hp : p < t.digits
        · rw [← hbits, bitAt_of_lt hp]
        · have hone : t.bits ≤ t.digits := by
            unfold MaskType.isBlock at hblock
            rw [Bool.or_eq_true, Bool.not_eq_true', decide_eq_true_eq] at hblock
            rcases hblock with h | h
            · rw [t.own_block h]
            · exact h
          rw [BitVec.getLsbD_of_ge _ _ (by omega), BitVec.getLsbD_of_ge _ _ (by omega)]
      constructor
      · intro h p hp
        by_cases hpd : p - V.extent < t.digits
        · have := h (p - V.extent) hpd
          rwa [getLsbD_shr, hword, show V.extent + (p - V.extent) = p by omega] at this
        · rw [← hword, BitVec.getLsbD_of_ge _ _ (by omega)]
      · intro h j _
        rw [getLsbD_shr, hword]
        exact h _ (by omega)
    · -- several: the two encodings agree where nothing was dropped
      rw [if_neg hblock, beq_iff_eq]
      obtain ⟨hinv, hlow⟩ := lowBitsOf_spec (o := o) hs mask
      obtain ⟨hlen', hbits'⟩ := t.toBlock_spec (o := o) (toMask o t (lowBitsOf V o t mask))
      have hcut : ∀ p, bitAt (t.toBlock o (toMask o t (lowBitsOf V o t mask))) p =
          (decide (p < V.extent) && mask.getLsbD p) := fun p => by
        rw [hbits', getLsbD_toMask hs hn hinv, hlow]
      constructor
      · intro h p hp
        rw [← hbits, ← h, hcut, decide_eq_false (by omega), Bool.false_and]
      · intro h
        refine bitAt_ext (hlen'.trans hlen.symm) fun p _ => ?_
        rw [hcut, hbits]
        by_cases hp : p < V.extent
        · rw [decide_eq_true hp, Bool.true_and]
        · rw [decide_eq_false hp, Bool.false_and, h p (by omega)]

theorem fromMask_ok (hs : V.hasStaticSize = true) (hn : V.extent ≤ t.bits)
    (h : Below V.extent mask) : ∃ c, fromMask V o t mask = .ok c ∧ c.Inv ∧
      ∀ p, c.bit p = mask.getLsbD p := by
  obtain ⟨hinv, hbits⟩ := lowBitsOf_spec (V := V) (o := o) hs mask
  refine ⟨lowBitsOf V o t mask, if_pos ((fits_iff hs hn).mpr h), hinv, fun p => ?_⟩
  rw [hbits]
  by_cases hp : p < V.extent
  · rw [decide_eq_true hp, Bool.true_and]
  · rw [decide_eq_false hp, Bool.false_and, h p (by omega)]

/-- A set's mask has nothing past the set's width. -/
theorem below_toMask (hs : V.hasStaticSize = true) (hn : V.extent ≤ t.bits) (hc : c.Inv) :
    Below V.extent (toMask o t c) := fun p hp => by
  rw [getLsbD_toMask hs hn hc, hc.clear p (by rwa [size_of_static hs])]

end Conversion

/-! ## 3. Operators between a set and a mask -/

/-- The operators that take a mask on either side. -/
inductive MaskOp where
  | and
  | sub
  | or
  | xor
  deriving DecidableEq, Repr

/-- What an operator does to masks. -/
def MaskOp.onMasks {m : Nat} : MaskOp → BitVec m → BitVec m → BitVec m
  | .and, lhs, rhs => lhs &&& rhs
  | .sub, lhs, rhs => lhs &&& ~~~rhs
  | .or, lhs, rhs => lhs ||| rhs
  | .xor, lhs, rhs => lhs ^^^ rhs

/-- The set the mask converts to, handed to an operator. -/
def converting (mask : BitVec t.bits) (f : BitBlockContainer V → Action V Unit) : Action V Unit :=
  fun c =>
    match fromMask V o t mask with
    | .error e => .error e c
    | .ok other => f other c

/-- The compound operator: `&=` and `-=` take the low bits of any mask, `|=` and `^=` convert it. -/
def compound (mem : Memory) : MaskOp → BitVec t.bits → Action V Unit
  | .and, mask => SetAdaptor.andAssign (.of (lowBitsOf V o t mask))
  | .sub, mask => SetAdaptor.subAssign (.of (lowBitsOf V o t mask))
  | .or, mask => converting o t mask fun other => SetAdaptor.orAssign mem (.of other)
  | .xor, mask => converting o t mask fun other => SetAdaptor.xorAssign mem (.of other)

/-- `set op mask`: the compound operator on a copy. -/
def withMask (mem : Memory) (op : MaskOp) (c : BitBlockContainer V) (mask : BitVec t.bits) :
    Except Exn (BitBlockContainer V) :=
  match compound o t mem op mask c with
  | .ok _ d => .ok d
  | .error e _ => .error e

/-- `mask op set`: the mirror, but for the difference, which converts the mask first. -/
def maskWith (mem : Memory) : MaskOp → BitVec t.bits → BitBlockContainer V →
    Except Exn (BitBlockContainer V)
  | .sub, mask, c => (fromMask V o t mask).map fun nrv => nrv.subAssign (.of c)
  | op, mask, c => withMask o t mem op c mask

section Operators
variable {o} {t} {c : BitBlockContainer V} {mask : BitVec t.bits} {mem : Memory}

/-- `&=` and `-=` take every mask. -/
def MaskOp.isTotal : MaskOp → Bool
  | .and => true
  | .sub => true
  | _ => false

theorem converting_ok {other : BitBlockContainer V} (h : fromMask V o t mask = .ok other)
    (f : BitBlockContainer V → Action V Unit) : converting o t mask f c = f other c := by
  unfold converting
  rw [h]

theorem compound_and (hs : V.hasStaticSize = true) (hn : V.extent ≤ t.bits) (hc : c.Inv) :
    ∃ d, compound o t mem .and mask c = .ok () d ∧ d.Inv ∧
      toMask o t d = MaskOp.and.onMasks (toMask o t c) mask := by
  obtain ⟨hinv, hlow⟩ := lowBitsOf_spec (V := V) (o := o) hs mask
  obtain ⟨-, hbits, hd⟩ := combine_spec (.of (lowBitsOf V o t mask)) hc hinv actsBitwise_and
    fun p _ => Bool.false_and _
  have hd : (c.andAssign (.of (lowBitsOf V o t mask))).Inv := hd
  refine ⟨_, rfl, hd, BitVec.eq_of_getLsbD_eq fun p _ => ?_⟩
  rw [getLsbD_toMask hs hn hd]
  show _ = (toMask o t c &&& mask).getLsbD p
  rw [BitVec.getLsbD_and, getLsbD_toMask hs hn hc]
  refine (hbits p).trans ?_
  show (c.bit p && (lowBitsOf V o t mask).bit p) = _
  rw [hlow]
  by_cases hp : p < V.extent
  · rw [decide_eq_true hp, Bool.true_and]
  · rw [hc.clear p (by rw [size_of_static hs]; omega), Bool.false_and, Bool.false_and]

theorem compound_sub (hs : V.hasStaticSize = true) (hn : V.extent ≤ t.bits) (hc : c.Inv) :
    ∃ d, compound o t mem .sub mask c = .ok () d ∧ d.Inv ∧
      toMask o t d = MaskOp.sub.onMasks (toMask o t c) mask := by
  obtain ⟨hinv, hlow⟩ := lowBitsOf_spec (V := V) (o := o) hs mask
  obtain ⟨-, hbits, hd⟩ := combine_spec (.of (lowBitsOf V o t mask)) hc hinv actsBitwise_sub
    fun p _ => Bool.false_and _
  have hd : (c.subAssign (.of (lowBitsOf V o t mask))).Inv := hd
  refine ⟨_, rfl, hd, BitVec.eq_of_getLsbD_eq fun p hp => ?_⟩
  rw [getLsbD_toMask hs hn hd]
  show _ = (toMask o t c &&& ~~~mask).getLsbD p
  rw [BitVec.getLsbD_and, BitVec.getLsbD_not, getLsbD_toMask hs hn hc, decide_eq_true hp,
    Bool.true_and]
  refine (hbits p).trans ?_
  show (c.bit p && !(lowBitsOf V o t mask).bit p) = _
  rw [hlow]
  by_cases hp : p < V.extent
  · rw [decide_eq_true hp, Bool.true_and]
  · rw [hc.clear p (by rw [size_of_static hs]; omega), Bool.false_and, Bool.false_and]

/-- An operator that admits the other set first leaves the operation on the two, bit by bit. -/
theorem admitted_mask (hs : V.hasStaticSize = true) (hn : V.extent ≤ t.bits) (hc : c.Inv)
    {other : BitBlockContainer V} (ho : other.Inv) {op : BitVec w → BitVec w → BitVec w}
    {g : Bool → Bool → Bool} (hop : ActsBitwise op g) (hg : g false false = false)
    {r : BitVec t.bits} (hr : ∀ p, r.getLsbD p = g (c.bit p) (other.bit p)) :
    ∃ d, admitThen mem (.of other) op c = .ok () d ∧ d.Inv ∧ toMask o t d = r := by
  obtain ⟨x, d, hd⟩ : ∃ x d, admitThen mem (.of other) op c = .ok x d :=
    admitThen_within (show (Operand.get (.of other) c).Inv from ho) fun p hp =>
      ho.clear p (by rw [size_of_static hs] at hp ⊢; exact hp)
  obtain ⟨hinv, -, hbits⟩ := admitThen_ok hc (show (Operand.get (.of other) c).Inv from ho)
    (Or.inr hs) hop hg hd
  refine ⟨d, hd, hinv, BitVec.eq_of_getLsbD_eq fun p _ => ?_⟩
  rw [getLsbD_toMask hs hn hinv, hbits, hr]
  rfl

theorem compound_or (hs : V.hasStaticSize = true) (hn : V.extent ≤ t.bits) (hc : c.Inv)
    (hm : Below V.extent mask) : ∃ d, compound o t mem .or mask c = .ok () d ∧ d.Inv ∧
      toMask o t d = MaskOp.or.onMasks (toMask o t c) mask := by
  obtain ⟨other, hother, ho, hbits⟩ := fromMask_ok (V := V) (o := o) hs hn hm
  obtain ⟨d, hd, hinv, hmask⟩ := admitted_mask (o := o) hs hn hc ho
    actsBitwise_or rfl (r := toMask o t c ||| mask) fun p => by
      rw [BitVec.getLsbD_or, getLsbD_toMask hs hn hc, hbits]
  exact ⟨d, (converting_ok hother _).trans hd, hinv, hmask⟩

theorem compound_xor (hs : V.hasStaticSize = true) (hn : V.extent ≤ t.bits) (hc : c.Inv)
    (hm : Below V.extent mask) : ∃ d, compound o t mem .xor mask c = .ok () d ∧ d.Inv ∧
      toMask o t d = MaskOp.xor.onMasks (toMask o t c) mask := by
  obtain ⟨other, hother, ho, hbits⟩ := fromMask_ok (V := V) (o := o) hs hn hm
  obtain ⟨d, hd, hinv, hmask⟩ := admitted_mask (o := o) hs hn hc ho
    actsBitwise_xor rfl (r := toMask o t c ^^^ mask) fun p => by
      rw [BitVec.getLsbD_xor, getLsbD_toMask hs hn hc, hbits]
  exact ⟨d, (converting_ok hother _).trans hd, hinv, hmask⟩

/-- **The compound operators are those of the masks.** -/
theorem compound_spec (hs : V.hasStaticSize = true) (hn : V.extent ≤ t.bits) (hc : c.Inv)
    {op : MaskOp} (h : op.isTotal = true ∨ Below V.extent mask) :
    ∃ d, compound o t mem op mask c = .ok () d ∧ d.Inv ∧
      toMask o t d = op.onMasks (toMask o t c) mask := by
  cases op with
  | and => exact compound_and hs hn hc
  | sub => exact compound_sub hs hn hc
  | or => exact compound_or hs hn hc (h.resolve_left (by decide))
  | xor => exact compound_xor hs hn hc (h.resolve_left (by decide))

theorem withMask_spec (hs : V.hasStaticSize = true) (hn : V.extent ≤ t.bits) (hc : c.Inv)
    {op : MaskOp} (h : op.isTotal = true ∨ Below V.extent mask) :
    ∃ d, withMask o t mem op c mask = .ok d ∧ d.Inv ∧
      toMask o t d = op.onMasks (toMask o t c) mask := by
  obtain ⟨d, hd, hinv, hmask⟩ := compound_spec (o := o) hs hn hc h
  refine ⟨d, ?_, hinv, hmask⟩
  unfold withMask
  rw [hd]

theorem onMasks_comm {m : Nat} {op : MaskOp} (h : op ≠ .sub) (x y : BitVec m) :
    op.onMasks x y = op.onMasks y x := by
  cases op with
  | and => exact BitVec.and_comm x y
  | sub => exact absurd rfl h
  | or => exact BitVec.or_comm x y
  | xor => exact BitVec.xor_comm x y

/-- **So are the mirrors**, of which `&` alone takes every mask. -/
theorem maskWith_spec (hs : V.hasStaticSize = true) (hn : V.extent ≤ t.bits) (hc : c.Inv)
    {op : MaskOp} (h : op = .and ∨ Below V.extent mask) :
    ∃ d, maskWith o t mem op mask c = .ok d ∧ d.Inv ∧
      toMask o t d = op.onMasks mask (toMask o t c) := by
  by_cases hsub : op = .sub
  · subst hsub
    obtain ⟨nrv, hnrv, hinv, hbits⟩ := fromMask_ok (V := V) (o := o) hs hn
      (h.resolve_left (by decide))
    obtain ⟨-, hsubbits, hd⟩ := combine_spec (.of c) hinv hc actsBitwise_sub
      fun p _ => Bool.false_and _
    have hd : (nrv.subAssign (.of c)).Inv := hd
    refine ⟨nrv.subAssign (.of c), ?_, hd, BitVec.eq_of_getLsbD_eq fun p hp => ?_⟩
    · show (fromMask V o t mask).map _ = _
      rw [hnrv]
      rfl
    · rw [getLsbD_toMask hs hn hd]
      show _ = (mask &&& ~~~toMask o t c).getLsbD p
      rw [BitVec.getLsbD_and, BitVec.getLsbD_not, getLsbD_toMask hs hn hc, decide_eq_true hp,
        Bool.true_and, ← hbits]
      exact hsubbits p
  · have hmirror : maskWith o t mem op mask c = withMask o t mem op c mask := by
      cases op <;> first | rfl | exact absurd rfl hsub
    have htotal : op.isTotal = true ∨ Below V.extent mask := by
      rcases h with h | h
      · rw [h]
        exact Or.inl rfl
      · exact Or.inr h
    rw [hmirror, onMasks_comm hsub]
    exact withMask_spec hs hn hc htotal

/-- **Equality with a mask sees every bit of it.** -/
theorem equalMask_iff (hs : V.hasStaticSize = true) (hn : V.extent ≤ t.bits) (hc : c.Inv) :
    equalMask o t c mask = true ↔ ∀ p, mask.getLsbD p = c.bit p := by
  obtain ⟨hinv, hlow⟩ := lowBitsOf_spec (V := V) (o := o) hs mask
  unfold equalMask
  rw [Bool.and_eq_true, fits_iff hs hn, setEqual_iff hc hinv]
  constructor
  · intro ⟨hbelow, heq⟩ p
    rw [heq, hlow]
    by_cases hp : p < V.extent
    · rw [decide_eq_true hp, Bool.true_and]
    · rw [decide_eq_false hp, Bool.false_and, hbelow p (by omega)]
  · intro h
    have hbelow : Below V.extent mask := fun p hp => by
      rw [h, hc.clear p (by rwa [size_of_static hs])]
    refine ⟨hbelow, fun p => ?_⟩
    rw [hlow, ← h]
    by_cases hp : p < V.extent
    · rw [decide_eq_true hp, Bool.true_and]
    · rw [decide_eq_false hp, Bool.false_and, hbelow p (by omega)]

end Operators

/-- **Sets of flags and their masks.** Every mask without a bit past the width comes back from the
    set made of it, every set from its mask; the operators between the two are those of the masks,
    `&` and set-less-mask for every mask and the others for masks that fit, and equality sees the
    mask's bits past the width too. -/
theorem mask_laws (mem : Memory) (hs : V.hasStaticSize = true) (hn : V.extent ≤ t.bits) :
    (∀ mask, Below V.extent mask →
      ∃ c, fromMask V o t mask = .ok c ∧ c.Inv ∧ toMask o t c = mask) ∧
    (∀ c : BitBlockContainer V, c.Inv →
      ∃ d, fromMask V o t (toMask o t c) = .ok d ∧ d.mBlocks.elems = c.mBlocks.elems) ∧
    (∀ (c : BitBlockContainer V) (mask : BitVec t.bits) (op : MaskOp), c.Inv →
      (op.isTotal = true ∨ Below V.extent mask) →
        (∃ d, compound o t mem op mask c = .ok () d ∧ d.Inv ∧
          toMask o t d = op.onMasks (toMask o t c) mask) ∧
        ∃ d, withMask o t mem op c mask = .ok d ∧ d.Inv ∧
          toMask o t d = op.onMasks (toMask o t c) mask) ∧
    (∀ (c : BitBlockContainer V) (mask : BitVec t.bits) (op : MaskOp), c.Inv →
      (op = .and ∨ Below V.extent mask) →
        ∃ d, maskWith o t mem op mask c = .ok d ∧ d.Inv ∧
          toMask o t d = op.onMasks mask (toMask o t c)) ∧
    (∀ (c : BitBlockContainer V) (mask : BitVec t.bits), c.Inv →
      (equalMask o t c mask = true ↔ ∀ p, mask.getLsbD p = c.bit p)) := by
  refine ⟨fun mask hm => ?_, fun c hc => ?_, fun c mask op hc h => ?_, fun c mask op hc h => ?_,
    fun c mask hc => equalMask_iff hs hn hc⟩
  · obtain ⟨c, hfrom, hinv, hbits⟩ := fromMask_ok (V := V) (o := o) hs hn hm
    refine ⟨c, hfrom, hinv, BitVec.eq_of_getLsbD_eq fun p _ => ?_⟩
    rw [getLsbD_toMask hs hn hinv, hbits]
  · obtain ⟨d, hfrom, hinv, hbits⟩ := fromMask_ok (V := V) (o := o) hs hn (below_toMask hs hn hc)
    refine ⟨d, hfrom, bitAt_ext ?_ fun p _ => ?_⟩
    · rw [hinv.shape, hc.shape, size_of_static hs, size_of_static hs]
    · exact (hbits p).trans (getLsbD_toMask hs hn hc p)
  · exact ⟨compound_spec hs hn hc h, withMask_spec hs hn hc h⟩
  · exact maskWith_spec hs hn hc h

/-- A bitset of nine positions in bytes. -/
def nineBits : MaskType where
  bits := 9
  digits := 8
  isBitset := true
  asObject := true
  digits_pos := byte_pos
  own_block := fun h => Bool.noConfusion h
  tiles := fun _ => rfl

/-- Nine flags in bytes. -/
def nineFlags : Vehicle 8 where
  storage := .fixed 9
  bits_pos := byte_pos
  bits_int := byte_int
  holds_width := rfl
  whole_blocks := rfl

theorem mask_laws_nine : ∃ c, fromMask nineFlags (fun _ _ => false) nineBits 257#9 = .ok c ∧ c.Inv ∧
    toMask (fun _ _ => false) nineBits c = 257#9 :=
  (mask_laws (fun _ _ => false) nineBits .ample (show nineFlags.hasStaticSize = true from rfl)
    (show nineFlags.extent ≤ nineBits.bits from Nat.le_refl 9)).1 257#9 fun _ hp =>
      BitVec.getLsbD_of_ge _ _ hp

end FlagSet

end XstdBits
