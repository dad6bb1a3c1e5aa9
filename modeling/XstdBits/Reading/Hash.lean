/-
  File: XstdBits/Reading/Hash.lean
  Subject: the message `bit_hash_append` sends to a hash (`hash.hpp`).

  * `hashAppendBitString` is the list of updates: the bytes of the bit string, in one update over
    the storage where its objects are those bytes or assembled 256 at a time where they are not,
    then the length at a run-time width.
  * `hash_append_size` is Hash2's own: `SizeAppends` says what is relied on of it.

  The string's bytes say which positions are set (`stringBytes_eq_iff`), and the length which width
  or which last key they stop at; the last section puts the message beside `bit_equal`.
-/
import XstdBits.Container.Transfer
import XstdBits.Reading.Compare

namespace XstdBits

open BitBlockContainer

/-! ## 1. The updates -/

section Updates
variable {w : Nat}

/-- The first `n` bytes of the string of the blocks. -/
def stringBytes (blocks : List (BitVec w)) (n : Nat) : List Byte :=
  (List.range n).map (blockByte blocks)

/-- `assemble_bit_bytes`: at most 256 bytes an update. -/
def assembleBitBytes (blocks : List (BitVec w)) (n : Nat) : List (List Byte) :=
  forStep 256 0 n (fun first updates =>
    updates ++ [(List.range (min 256 (n - first))).map fun j => blockByte blocks (first + j)]) []

/-- The object of a little-endian block without padding. -/
def objectBytes (block : BitVec w) : List Byte :=
  (List.range (w / 8)).map fun k => (block >>> (8 * k)).setWidth 8

/-- `update_bit_bytes`: `asObjects` says that the blocks copy as bytes, outside constant
    evaluation. No update of nothing. -/
def updateBitBytes (asObjects : Bool) (blocks : List (BitVec w)) (n : Nat) : List (List Byte) :=
  if asObjects then if n ≠ 0 then [(blocks.flatMap objectBytes).take n] else []
  else assembleBitBytes blocks n

theorem flatten_assembleBitBytes (blocks : List (BitVec w)) (n : Nat) :
    (assembleBitBytes blocks n).flatten = stringBytes blocks n := by
  unfold assembleBitBytes
  have hturn (q : Nat) (updates : List (List Byte)) (hq : q < n)
      (ih : updates.flatten = stringBytes blocks (min q n)) :
      (updates ++ [(List.range (min 256 (n - q))).map fun j => blockByte blocks (q + j)]).flatten =
        stringBytes blocks (min (q + 256) n) := by
    rw [List.flatten_append, ih, List.flatten_singleton]
    unfold stringBytes
    rw [Nat.min_eq_left (Nat.le_of_lt hq),
      show min (q + 256) n = q + min 256 (n - q) by omega, List.range_add, List.map_append,
      List.map_map]
    rfl
  obtain ⟨q, hq, hflat⟩ := forStep_inv (k := 256) (a := 0) (s := [])
    (fun q (updates : List (List Byte)) => updates.flatten = stringBytes blocks (min q n))
    (by decide) (by rw [Nat.zero_min]; rfl) hturn
  rw [hflat, Nat.min_eq_right hq]

/-- A block of whole bytes is the string of its own object. -/
theorem flatMap_objectBytes (hw : 8 ∣ w) : ∀ blocks : List (BitVec w),
    blocks.flatMap objectBytes = stringBytes blocks (valueBytes blocks)
  | [] => by simp [stringBytes, valueBytes]
  | block :: blocks => by
      have hm : bytesPerBlock w = w / 8 := by
        have := bytesPerBlock_whole hw
        omega
      rw [List.flatMap_cons, flatMap_objectBytes hw blocks]
      unfold stringBytes valueBytes
      rw [List.length_cons, Nat.succ_mul, Nat.add_comm, List.range_add, List.map_append,
        List.map_map, hm]
      congr 1
      · refine List.map_congr_left fun k hk => ?_
        have hk' : k < w / 8 := List.mem_range.mp hk
        unfold blockByte
        rw [hm, Nat.div_eq_of_lt hk', Nat.mod_eq_of_lt hk']
        rfl
      · refine List.map_congr_left fun k hk => ?_
        unfold blockByte
        by_cases h0 : w / 8 = 0
        · rw [List.mem_range, h0, Nat.mul_zero] at hk
          omega
        · rw [Function.comp_apply, hm, Nat.add_div_left _ (by omega), Nat.add_mod_left]
          rfl

/-- **Both ways send the bytes of the string.** -/
theorem flatten_updateBitBytes {asObjects : Bool} (hw : asObjects = true → 8 ∣ w)
    {blocks : List (BitVec w)} {n : Nat} (hn : n ≤ valueBytes blocks) :
    (updateBitBytes asObjects blocks n).flatten = stringBytes blocks n := by
  unfold updateBitBytes
  split
  · rename_i ha
    split
    · rw [List.flatten_singleton, flatMap_objectBytes (hw ha)]
      unfold stringBytes
      rw [← List.map_take, List.take_range, Nat.min_eq_left hn]
    · rename_i h0
      obtain rfl : n = 0 := by omega
      rfl
  · exact flatten_assembleBitBytes _ _

/-- **The bytes of two strings are the same where the strings agree** as far as those reach. -/
theorem stringBytes_eq_iff {w' : Nat} {x : List (BitVec w)} {y : List (BitVec w')} (hw : 0 < w)
    (hw' : 0 < w') (hx : ByteLayout x) (hy : ByteLayout y) {n : Nat} :
    stringBytes x n = stringBytes y n ↔ ∀ q, q < 8 * n → bitAt x q = bitAt y q := by
  unfold stringBytes
  rw [List.map_inj_left]
  constructor
  · intro h q hq
    have hj := h (q / 8) (List.mem_range.mpr (by omega))
    rw [show q = 8 * (q / 8) + q % 8 by omega,
      ← getLsbD_blockByte hw hx (Nat.mod_lt _ (by decide)),
      ← getLsbD_blockByte hw' hy (Nat.mod_lt _ (by decide)), hj]
  · intro h j hj
    have hj := List.mem_range.mp hj
    refine BitVec.eq_of_getLsbD_eq fun k hk => ?_
    rw [getLsbD_blockByte hw hx hk, getLsbD_blockByte hw' hy hk]
    exact h _ (by omega)

end Updates

/-! ## 2. The message -/

/-- What is relied on of Hash2's `hash_append_size`: the size converted to the flavor's unsigned
    `size_type` goes out as that type's bytes, as many for every size. -/
structure SizeAppends (digits : Nat) (appendSize : Nat → List Byte) : Prop where
  bytes : 8 ≤ digits
  length_eq : ∀ n m, (appendSize n).length = (appendSize m).length
  apart : ∀ n m, appendSize n = appendSize m → n % 2 ^ digits = m % 2 ^ digits

section Message
variable {w : Nat} {V : Vehicle w}

/-- `bit_byte_count`: the bytes of a width, and of a run-time set those up to its last key's. -/
def bitByteCount (reading : Reading) (c : BitBlockContainer V) : Nat :=
  if reading = .sets ∧ V.hasStaticSize = false then
    let last := c.totalFindPrev c.size
    if last = c.size then 0 else last / 8 + 1
  else byteCount c.size

/-- `hash_append_bit_string`: the string, then at a run-time width its length, a set's in bytes and
    a sequence's in bits; an empty static width sends one zero byte. -/
def hashAppendBitString (appendSize : Nat → List Byte) (asObjects : Bool) (reading : Reading)
    (c : BitBlockContainer V) : List (List Byte) :=
  if V.hasStaticSize ∧ V.extent = 0 then [[0]]
  else
    let n := bitByteCount reading c
    updateBitBytes asObjects c.mBlocks.elems n ++
      if V.hasStaticSize then []
      else
        match reading with
        | .sets => [appendSize n]
        | .sequence => [appendSize c.size]

variable {c : BitBlockContainer V}

/-- **What the string stops at**: past it everything is clear, and a run-time set has a key in its
    last byte. -/
theorem bitByteCount_spec (reading : Reading) (h : c.Inv) :
    bitByteCount reading c ≤ valueBytes c.mBlocks.elems ∧
    (∀ q, 8 * bitByteCount reading c ≤ q → c.bit q = false) ∧
    (reading = .sets → V.hasStaticSize = false → bitByteCount reading c ≠ 0 →
      ∃ q, 8 * (bitByteCount reading c - 1) ≤ q ∧ c.bit q = true) := by
  have hsz := h.shape.size_le
  have hbytes := le_valueBytes_mul (b := c.mBlocks.elems)
  unfold bitByteCount
  split
  · dsimp only
    rw [totalFindPrev_eq h (Nat.le_refl _)]
    rcases prevSet_spec c.bit c.size c.size with ⟨h1, h2, h3⟩ | ⟨h1, h2⟩
    · rw [if_neg (by omega)]
      refine ⟨by omega, fun q hq => ?_, fun _ _ _ => ⟨_, by omega, h2⟩⟩
      by_cases hlt : q < c.size
      · exact h3 q (by omega) hlt
      · exact h.clear q (by omega)
    · rw [if_pos h1]
      refine ⟨Nat.zero_le _, fun q _ => ?_, fun _ _ h0 => absurd rfl h0⟩
      by_cases hlt : q < c.size
      · exact h2 q hlt
      · exact h.clear q (by omega)
  · rename_i hneg
    unfold byteCount
    refine ⟨by omega, fun q hq => h.clear q (by omega), fun hr hs => absurd ⟨hr, hs⟩ hneg⟩

/-- What follows the string. -/
def lengthBytes (appendSize : Nat → List Byte) (reading : Reading) (c : BitBlockContainer V) :
    List Byte :=
  if V.hasStaticSize then []
  else
    match reading with
    | .sets => appendSize (bitByteCount .sets c)
    | .sequence => appendSize c.size

/-- **The message**, whichever way its bytes go out. -/
theorem flatten_hashAppend {appendSize : Nat → List Byte} {asObjects : Bool} (h : c.Inv)
    (reading : Reading) (hw : asObjects = true → 8 ∣ w)
    (h0 : ¬ (V.hasStaticSize = true ∧ V.extent = 0)) :
    (hashAppendBitString appendSize asObjects reading c).flatten =
      stringBytes c.mBlocks.elems (bitByteCount reading c) ++ lengthBytes appendSize reading c := by
  unfold hashAppendBitString lengthBytes
  rw [if_neg h0]
  dsimp only
  rw [List.flatten_append, flatten_updateBitBytes hw (bitByteCount_spec reading h).1]
  congr 1
  split
  · rfl
  · cases reading with
    | sets => exact List.flatten_singleton
    | sequence => exact List.flatten_singleton

end Message

/-! ## 3. The law -/

section Law
variable {w w' : Nat} {V : Vehicle w} {V' : Vehicle w'}

/-- `static_width` of an owner or of a whole view. -/
def Vehicle.staticWidth (V : Vehicle w) : Option Nat :=
  if V.hasStaticSize then some V.extent else .none

/-- The same keys, or the same bools. -/
def SameReading (reading : Reading) (x : BitBlockContainer V) (y : BitBlockContainer V') : Prop :=
  match reading with
  | .sets => ∀ q, x.bit q = y.bit q
  | .sequence => boolsOf x = boolsOf y

/-- `bit_equal` within one storage type. -/
def bitEqual (reading : Reading) (x y : BitBlockContainer V) (hx : x.Inv) (hy : y.Inv) : Bool :=
  match reading with
  | .sets => setEqual x y
  | .sequence => (Bools.wholly x hx).equalBools (.wholly y hy)

/-- `bit_equal` across storages. -/
def bitEqualWords (reading : Reading) (x : BitBlockContainer V) (y : BitBlockContainer V')
    (hx : x.Inv) (hy : y.Inv) : Bool :=
  match reading with
  | .sets => equalKeyWords x y
  | .sequence => (Bools.wholly x hx).equalWords (.wholly y hy)

variable {x y : BitBlockContainer V} {z : BitBlockContainer V'} {reading : Reading}

theorem bitEqual_iff (hx : x.Inv) (hy : y.Inv) :
    bitEqual reading x y hx hy = true ↔ SameReading reading x y := by
  unfold bitEqual SameReading
  cases reading with
  | sets => exact setEqual_iff hx hy
  | sequence =>
      dsimp only
      rw [Bools.equalBools_iff (x := .wholly x hx) (y := .wholly y hy) rfl,
        Bools.toList_of_whole _ rfl, Bools.toList_of_whole _ rfl]
      rfl

theorem bitEqualWords_iff (hx : x.Inv) (hz : z.Inv) (hw : V.staticWidth = V'.staticWidth) :
    bitEqualWords reading x z hx hz = true ↔ SameReading reading x z := by
  unfold bitEqualWords SameReading
  cases reading with
  | sets => exact equalKeyWords_iff hx hz
  | sequence =>
      dsimp only
      rw [Bools.equalWords_iff (x := .wholly x hx) (y := .wholly z hz) hw,
        Bools.toList_of_whole _ rfl, Bools.toList_of_whole _ rfl]
      rfl

/-- What agrees as far as both strings reach agrees throughout. -/
theorem agree_of_count (hx : x.Inv) (hz : z.Inv)
    (hn : bitByteCount reading x = bitByteCount reading z)
    (h : ∀ q, q < 8 * bitByteCount reading x → x.bit q = z.bit q) (q : Nat) :
    x.bit q = z.bit q := by
  by_cases hq : q < 8 * bitByteCount reading x
  · exact h q hq
  · rw [(bitByteCount_spec reading hx).2.1 q (by omega),
      (bitByteCount_spec reading hz).2.1 q (by omega)]

/-- The string of a run-time set with the same keys is no longer. -/
theorem count_le (hx : x.Inv) (hz : z.Inv) (hs : V.hasStaticSize = false)
    (h : ∀ q, x.bit q = z.bit q) : bitByteCount .sets x ≤ bitByteCount .sets z := by
  by_contra hlt
  obtain ⟨q, hq, hb⟩ := (bitByteCount_spec .sets hx).2.2 rfl hs (by omega)
  rw [h, (bitByteCount_spec .sets hz).2.1 q (by omega)] at hb
  cases hb

/-- Types of one width fix it alike. -/
theorem hasStaticSize_eq (hw : V.staticWidth = V'.staticWidth) :
    V.hasStaticSize = V'.hasStaticSize ∧ (V.hasStaticSize = true → V.extent = V'.extent) := by
  unfold Vehicle.staticWidth at hw
  cases hs : V.hasStaticSize <;> cases hs' : V'.hasStaticSize <;> simp_all

/-- **Values that read alike have strings of one length**, widths alike. -/
theorem SameReading.count_eq (hx : x.Inv) (hz : z.Inv) (hw : V.staticWidth = V'.staticWidth)
    (h : SameReading reading x z) :
    bitByteCount reading x = bitByteCount reading z ∧ (reading = .sequence → x.size = z.size) ∧
      ∀ q, x.bit q = z.bit q := by
  obtain ⟨hstatic, hextent⟩ := hasStaticSize_eq hw
  cases reading with
  | sets =>
      refine ⟨?_, (fun hr => by cases hr), h⟩
      cases hs : V.hasStaticSize with
      | false =>
          exact Nat.le_antisymm (count_le hx hz hs h)
            (count_le hz hx (hstatic.symm.trans hs) fun q => (h q).symm)
      | true =>
          have hs' := hstatic.symm.trans hs
          have hsize : x.size = z.size := by
            unfold size
            rw [if_pos hs, if_pos hs', hextent hs]
          unfold bitByteCount
          rw [if_neg (by simp [hs]), if_neg (by simp [hs']), hsize]
  | sequence =>
      obtain ⟨hn, hbits⟩ := bools_eq_iff.mp h
      refine ⟨?_, fun _ => hn, fun q => ?_⟩
      · unfold bitByteCount
        rw [if_neg (by simp), if_neg (by simp), hn]
      · by_cases hq : q < x.size
        · exact hbits q hq
        · rw [hx.clear q (by omega), hz.clear q (by omega)]

variable {appendSize : Nat → List Byte} {digits : Nat} {o o' : Bool}

/-- Lengths that go out alike are those of one set, or of one sequence. -/
theorem lengthBytes_eq (hx : x.Inv) (hz : z.Inv) (hw : V.staticWidth = V'.staticWidth)
    (h : SameReading reading x z) :
    lengthBytes appendSize reading x = lengthBytes appendSize reading z := by
  obtain ⟨hn, hsize, -⟩ := h.count_eq hx hz hw
  unfold lengthBytes
  rw [(hasStaticSize_eq hw).1]
  split
  · rfl
  · cases reading with
    | sets => exact congrArg appendSize hn
    | sequence => exact congrArg appendSize (hsize rfl)

theorem length_lengthBytes (ha : SizeAppends digits appendSize)
    (hw : V.staticWidth = V'.staticWidth) :
    (lengthBytes appendSize reading x).length = (lengthBytes appendSize reading z).length := by
  unfold lengthBytes
  rw [(hasStaticSize_eq hw).1]
  split
  · rfl
  · cases reading with
    | sets => exact ha.length_eq _ _
    | sequence => exact ha.length_eq _ _

/-- Sequences whose strings are as long and whose lengths go out alike are as long. -/
theorem size_eq_of_bytes (ha : SizeAppends digits appendSize) (hw : V.staticWidth = V'.staticWidth)
    (hn : bitByteCount .sequence x = bitByteCount .sequence z)
    (ht : lengthBytes appendSize .sequence x = lengthBytes appendSize .sequence z) :
    x.size = z.size := by
  obtain ⟨hstatic, hextent⟩ := hasStaticSize_eq hw
  cases hs : V.hasStaticSize with
  | true =>
      unfold size
      rw [if_pos hs, if_pos (hstatic.symm.trans hs), hextent hs]
  | false =>
      have hs' := hstatic.symm.trans hs
      unfold lengthBytes at ht
      rw [hs, hs', if_neg (by decide), if_neg (by decide)] at ht
      unfold bitByteCount byteCount at hn
      rw [if_neg (by simp), if_neg (by simp)] at hn
      -- both are within eight of the string's end, and the lengths tell those apart
      have hmod := ha.apart _ _ ht
      have hdvd : 8 ∣ 2 ^ digits := by
        have h8 : 2 ^ 3 ∣ 2 ^ digits := Nat.pow_dvd_pow 2 (Nat.le_trans (by decide) ha.bytes)
        exact h8
      have hmod8 : x.size % 8 = z.size % 8 := by
        rw [← Nat.mod_mod_of_dvd x.size hdvd, ← Nat.mod_mod_of_dvd z.size hdvd, hmod]
      omega

/-- **Two messages are the same exactly where the values read alike.** -/
theorem message_eq_iff (ha : SizeAppends digits appendSize) (hx : x.Inv) (hz : z.Inv)
    (hw : V.staticWidth = V'.staticWidth) (ho : o = true → 8 ∣ w) (ho' : o' = true → 8 ∣ w') :
    (hashAppendBitString appendSize o reading x).flatten =
      (hashAppendBitString appendSize o' reading z).flatten ↔ SameReading reading x z := by
  obtain ⟨hstatic, hextent⟩ := hasStaticSize_eq hw
  by_cases h0 : V.hasStaticSize = true ∧ V.extent = 0
  · have h0' : V'.hasStaticSize = true ∧ V'.extent = 0 :=
      ⟨hstatic.symm.trans h0.1, (hextent h0.1).symm.trans h0.2⟩
    have hsx : x.size = 0 := by
      unfold size
      rw [if_pos h0.1, h0.2]
    have hsz : z.size = 0 := by
      unfold size
      rw [if_pos h0'.1, h0'.2]
    unfold hashAppendBitString
    rw [if_pos h0, if_pos h0']
    refine iff_of_true rfl ?_
    cases reading with
    | sets => exact fun q => (hx.clear q (by omega)).trans (hz.clear q (by omega)).symm
    | sequence => exact bools_eq_iff.mpr ⟨hsx.trans hsz.symm, fun q hq => by omega⟩
  · have h0' : ¬ (V'.hasStaticSize = true ∧ V'.extent = 0) := by
      intro hc
      have hs := hstatic.trans hc.1
      exact h0 ⟨hs, (hextent hs).trans hc.2⟩
    rw [flatten_hashAppend hx reading ho h0, flatten_hashAppend hz reading ho' h0']
    constructor
    · intro h
      obtain ⟨hstring, ht⟩ := List.append_inj' h (length_lengthBytes ha hw)
      have hn : bitByteCount reading x = bitByteCount reading z := by
        have := congrArg List.length hstring
        unfold stringBytes at this
        simpa using this
      rw [← hn] at hstring
      have hagree := agree_of_count hx hz hn ((stringBytes_eq_iff V.bits_pos V'.bits_pos
        hx.byteLayout hz.byteLayout).mp hstring)
      cases reading with
      | sets => exact hagree
      | sequence =>
          exact bools_eq_iff.mpr ⟨size_eq_of_bytes ha hw hn ht, fun q _ => hagree q⟩
    · intro h
      obtain ⟨hn, -, hagree⟩ := h.count_eq hx hz hw
      rw [← hn]
      rw [(stringBytes_eq_iff V.bits_pos V'.bits_pos hx.byteLayout hz.byteLayout).mpr
        fun q _ => hagree q, lengthBytes_eq hx hz hw h]

/-- **The hash law.** Of two values of one reading and one kind of width, whatever blocks and storage
    hold them and whichever way their bytes go out, the messages are the same exactly where
    `bit_equal` holds: by the blocks of one storage type, or by the words of two. -/
theorem hash_law (ha : SizeAppends digits appendSize) (reading : Reading) (x y : BitBlockContainer V)
    (z : BitBlockContainer V') (hx : x.Inv) (hy : y.Inv) (hz : z.Inv)
    (hw : V.staticWidth = V'.staticWidth) (ox oy oz : Bool) (hox : ox = true → 8 ∣ w)
    (hoy : oy = true → 8 ∣ w) (hoz : oz = true → 8 ∣ w') :
    ((hashAppendBitString appendSize ox reading x).flatten =
        (hashAppendBitString appendSize oy reading y).flatten ↔ bitEqual reading x y hx hy = true) ∧
    ((hashAppendBitString appendSize ox reading x).flatten =
        (hashAppendBitString appendSize oz reading z).flatten ↔
      bitEqualWords reading x z hx hz = true) :=
  ⟨(message_eq_iff ha hx hy rfl hox hoy).trans (bitEqual_iff hx hy).symm,
    (message_eq_iff ha hx hz hw hox hoz).trans (bitEqualWords_iff hx hz hw).symm⟩

/-- The size as the little-endian bytes of a `std::uint64_t`. -/
theorem sizeAppends_word : SizeAppends 64 fun n => objectBytes (BitVec.ofNat 64 n) where
  bytes := by decide
  length_eq n m := by simp [objectBytes]
  apart n m h := by
    have hbytes (b : BitVec 64) : objectBytes b = stringBytes [b] (valueBytes [b]) := by
      rw [← flatMap_objectBytes (by decide), List.flatMap_singleton]
    have hlay (b : BitVec 64) : ByteLayout [b] := Or.inl (by decide)
    rw [hbytes, hbytes] at h
    have hbits := (stringBytes_eq_iff (x := [BitVec.ofNat 64 n]) (y := [BitVec.ofNat 64 m])
      (by decide) (by decide) (hlay _) (hlay _)).mp h
    have heq : BitVec.ofNat 64 n = BitVec.ofNat 64 m := by
      refine BitVec.eq_of_getLsbD_eq fun j hj => ?_
      have hj' := hbits j hj
      rwa [bitAt_singleton (by decide), bitAt_singleton (by decide)] at hj'
    have := congrArg BitVec.toNat heq
    rwa [BitVec.toNat_ofNat, BitVec.toNat_ofNat] at this

/-- A `std::vector` of 64-bit blocks, as a set or a sequence holds it. -/
def wordVector (counted : Bool) : Vehicle 64 where
  storage := .growing
    { counted := counted, maxBlocks := ptrdiffMax / 8, hasCapacity := true, isAlwaysEqual := true,
      propagateOnCopy := false, propagateOnMove := true, propagateOnSwap := false,
      nothrowMoveAssignable := true }
  bits_pos := word_pos
  bits_int := word_int
  holds_width := rfl
  whole_blocks := rfl

/-- The set of nine over byte blocks sends what it sends over words, and what the set of three does
    not. -/
theorem hash_law_nine : ∃ (x y : BitBlockContainer (byteVector true))
    (z : BitBlockContainer (wordVector true)) (appendSize : Nat → List Byte),
    (hashAppendBitString appendSize true .sets x).flatten ≠
      (hashAppendBitString appendSize true .sets y).flatten ∧
    (hashAppendBitString appendSize true .sets x).flatten =
      (hashAppendBitString appendSize false .sets z).flatten := by
  have hM := unsignedMapping_bijective 8
  have hx := ((SetRun.start 0 : SetRun (byteVector true) (unsignedMapping 8) false true _ .empty).step
    .ample (.insert 9) (show (unsignedMapping 8).isKey 9 = true by decide) rfl).represents
    (by decide) hM
  have hy := ((SetRun.start 0 : SetRun (byteVector true) (unsignedMapping 8) false true _ .empty).step
    .ample (.insert 3) (show (unsignedMapping 8).isKey 3 = true by decide) rfl).represents
    (by decide) hM
  have hz := ((SetRun.start 0 : SetRun (wordVector true) (unsignedMapping 8) false true _ .empty).step
    .ample (.insert 9) (show (unsignedMapping 8).isKey 9 = true by decide) rfl).represents
    (by decide) hM
  have h := hash_law sizeAppends_word .sets _ _ _ hx.inv hy.inv hz.inv rfl true true false
    (fun _ => by decide) (fun _ => by decide) fun _ => by decide
  exact ⟨_, _, _, _, fun he => Bool.false_ne_true (h.1.mp he), h.2.mpr rfl⟩

end Law

end XstdBits
