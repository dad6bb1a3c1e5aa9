/-
  File: XstdBits/Reading/HashBools.lean
  Subject: the model's message, which a sequence's `hash_append` writes (`hash.hpp`,
  `intrinsic.hpp`).

  * `stringBlock` regroups blocks of any width into words of 64 positions: a part of a block where
    64 divides the width, else up to eight bytes. A read past the last block has no answer.
  * `Expansion.expand` spreads a word into 64 bytes of zero or one, in each of its three ways.
  * `updateBools` sends eight words an update out of one buffer, the last cut at the width.

  What goes out is one byte a position, in order (`updateBools_spec`), and so what Hash2 writes of
  an array or a vector of the same bools.
-/
import XstdBits.Container.Machine
import XstdBits.Reading.Hash
import XstdBits.Valarray.Scatter

namespace XstdBits

/-! ## 1. Words of the string -/

section Words
variable {w : Nat} (blocks : List (BitVec w))

/-- Byte `j`, of a block that is there. -/
def readByte (j : Nat) : Option Byte :=
  if j / bytesPerBlock w < blocks.length then some (blockByte blocks j) else none

/-- Byte `j` or-ed into place. -/
def placeByte (first j : Nat) (block : BitVec 64) : Option (BitVec 64) :=
  (readByte blocks j).map fun byte => block ||| shl (byte.setWidth 64) (8 * (j - first))

/-- `string_block(blocks, k)`: positions `[64 k, 64 k + 64)`, zero past the last block. -/
def stringBlock (k : Nat) : Option (BitVec 64) :=
  if w % 64 = 0 then
    let perBlock := w / 64
    blocks[k / perBlock]?.map fun block => (shr block (64 * (k % perBlock))).setWidth 64
  else
    let first := k * 8
    let last := min (first + 8) (blocks.length * bytesPerBlock w)
    tryStep 1 first last (placeByte blocks first) zero

variable {blocks}

/-- A byte among the value bytes is read, and its bits or-ed in. -/
theorem placeByte_spec (hw : 0 < w) (hb : ByteLayout blocks) {first j : Nat} (hf : first ≤ j)
    (hj : j < valueBytes blocks) (block : BitVec 64) : ∃ v, placeByte blocks first j block = some v ∧
      ∀ t, t < 64 → v.getLsbD t = (block.getLsbD t ||
        (decide (8 * j ≤ 8 * first + t ∧ 8 * first + t < 8 * j + 8) &&
          bitAt blocks (8 * first + t))) := by
  have hread : readByte blocks j = some (blockByte blocks j) :=
    if_pos (Nat.div_lt_of_lt_mul (by rwa [Nat.mul_comm]))
  unfold placeByte
  rw [hread]
  refine ⟨_, rfl, fun t ht => ?_⟩
  rw [BitVec.getLsbD_or, getLsbD_shl ht, BitVec.getLsbD_setWidth]
  congr 1
  by_cases hlo : 8 * (j - first) ≤ t
  · rw [decide_eq_true hlo, decide_eq_true (by omega), Bool.true_and, Bool.true_and]
    by_cases hhi : t - 8 * (j - first) < 8
    · rw [getLsbD_blockByte hw hb hhi, decide_eq_true (by omega), Bool.true_and]
      congr 1
      omega
    · rw [BitVec.getLsbD_of_ge _ _ (by omega), decide_eq_false (by omega), Bool.false_and]
  · rw [decide_eq_false hlo, Bool.false_and, decide_eq_false (by omega), Bool.false_and]

/-- A part of a block is in it, and is the word. -/
theorem stringBlock_part {q k : Nat} {blocks : List (BitVec (64 * q))} (hq : 0 < q)
    (hk : 64 * k < blocks.length * (64 * q)) : ∃ v, stringBlock blocks k = some v ∧
      ∀ t, t < 64 → v.getLsbD t = bitAt blocks (64 * k + t) := by
  have hin : k / q < blocks.length := by
    refine Nat.div_lt_of_lt_mul ?_
    rw [Nat.mul_left_comm] at hk
    rw [Nat.mul_comm]
    omega
  unfold stringBlock
  rw [if_pos (Nat.mul_mod_right 64 q)]
  show ∃ v, (blocks[k / (64 * q / 64)]?.map _) = _ ∧ _
  rw [Nat.mul_div_cancel_left q (by decide), List.getElem?_eq_getElem hin]
  refine ⟨_, rfl, fun t ht => ?_⟩
  have hmod := Nat.mod_lt k hq
  have hpart : 64 * (k % q) + t < 64 * q := by omega
  have hpos : 64 * k + t = k / q * (64 * q) + (64 * (k % q) + t) := by
    have hdiv := Nat.div_add_mod' k q
    rw [Nat.mul_left_comm]
    omega
  rw [hpos, bitAt_pos hpart, List.getD_eq_getElem _ _ hin, BitVec.getLsbD_setWidth,
    decide_eq_true ht, Bool.true_and, getLsbD_shr]

/-- **Eight bytes or-ed into place** are the word, as far as the blocks have bytes. -/
theorem stringBlock_bytes (hw : 0 < w) (hb : ByteLayout blocks) (hne : ¬ w % 64 = 0) {k : Nat}
    (hk : 64 * k < blocks.length * w) : ∃ v, stringBlock blocks k = some v ∧
      ∀ t, t < 64 → v.getLsbD t = bitAt blocks (64 * k + t) := by
  have hbytes := le_valueBytes_mul (b := blocks)
  unfold stringBlock
  rw [if_neg hne]
  dsimp only
  generalize hend : blocks.length * bytesPerBlock w = bytes
  have hvalue : valueBytes blocks = bytes := hend
  obtain ⟨v, hv, -, hbits⟩ := tryStep_one (f := placeByte blocks (k * 8)) (s := zero)
    (fun j (block : BitVec 64) => k * 8 ≤ j ∧
      ∀ t, t < 64 → block.getLsbD t = (decide (64 * k + t < 8 * j) && bitAt blocks (64 * k + t)))
    (show k * 8 ≤ min (k * 8 + 8) bytes by omega)
    ⟨Nat.le_refl _, fun t ht => by
      rw [decide_eq_false (by omega), Bool.false_and]
      exact getLsbD_zero'⟩ fun j block hj hP => by
      obtain ⟨v, hv, hplaced⟩ := placeByte_spec hw hb hP.1 (by omega) block
      refine ⟨v, hv, by omega, fun t ht => ?_⟩
      rw [hplaced t ht, hP.2 t ht, show 8 * (k * 8) + t = 64 * k + t by omega,
        ← Bool.and_or_distrib_right, ← Bool.decide_or]
      congr 1
      rw [decide_eq_decide]
      omega
  refine ⟨v, hv, fun t ht => ?_⟩
  rw [hbits t ht]
  by_cases hp : 64 * k + t < 8 * min (k * 8 + 8) bytes
  · rw [decide_eq_true hp, Bool.true_and]
  · rw [decide_eq_false hp, Bool.false_and, bitAt_of_le hw]
    omega

/-- **The word of 64 positions**, at every block width, and no read past the last block. -/
theorem stringBlock_spec (hw : 0 < w) (hb : ByteLayout blocks) {k : Nat}
    (hk : 64 * k < blocks.length * w) : ∃ v, stringBlock blocks k = some v ∧
      ∀ t, t < 64 → v.getLsbD t = bitAt blocks (64 * k + t) := by
  by_cases hdvd : w % 64 = 0
  · obtain ⟨q, rfl⟩ := Nat.dvd_of_mod_eq_zero hdvd
    exact stringBlock_part (by omega) hk
  · exact stringBlock_bytes hw hb hdvd hk

end Words

/-! ## 2. Words as bools -/

/-- The object of a bool. -/
def boolByte (v : Bool) : Byte := if v then 1 else 0

theorem getLsbD_boolByte {v : Bool} {t : Nat} (ht : t < 8) :
    (boolByte v).getLsbD t = (decide (t = 0) && v) := by
  have hone : ∀ t, t < 8 → (1 : Byte).getLsbD t = decide (t = 0) := by decide
  unfold boolByte
  cases v
  · rw [Bool.and_false]
    exact BitVec.getLsbD_zero
  · rw [Bool.and_true]
    exact hone t ht

/-- `byte_bools`: every byte's bits as the bytes zero and one. -/
def byteBools : List (List Byte) :=
  (List.range 256).map fun byte => (List.range 8).map fun i => BitVec.ofNat 8 (byte >>> i &&& 1)

/-- The low bit of each byte. -/
def lowBits : BitVec 64 := 0x0101010101010101#64

/-- A byte under each bit of a mask, zero under the others. -/
def maskzMov (mask : BitVec 64) (bytes : List Byte) : List Byte :=
  (List.range 64).map fun i => if mask.getLsbD i then bytes.getD i 0 else 0

/-- The ways `expand_block` is compiled: by the table, by a deposit a byte (`bit_expand` being
    xstd-ints'), or by one masked move. -/
inductive Expansion where
  | table
  | deposit (bitExpand : BitVec 64 → BitVec 64 → BitVec 64)
  | masked

namespace Expansion

/-- `expand_block(block, bools)`: what it writes over `bools`. -/
def expand (e : Expansion) (block : BitVec 64) : List Byte :=
  match e with
  | table => (List.range 8).flatMap fun i =>
      byteBools.getD (BitVec.setWidth 8 (shr block (8 * i))).toNat []
  | deposit bitExpand => (List.range 8).flatMap fun i =>
      objectBytes (bitExpand (shr block (8 * i)) lowBits)
  | masked => maskzMov block (List.replicate 64 1)

/-- What is relied on of the deposit. -/
def Lawful (e : Expansion) : Prop :=
  match e with
  | deposit bitExpand => Expands bitExpand
  | _ => True

/-- Eight bytes of eight are sixty-four. -/
theorem eight_of_eight (f : Nat → Byte) :
    ((List.range 8).flatMap fun i => (List.range 8).map fun j => f (8 * i + j)) =
      (List.range 64).map f := by
  have hrange : (List.range 8).flatMap (fun i => (List.range 8).map fun j => 8 * i + j) =
      List.range 64 := by decide
  rw [← hrange, List.map_flatMap]
  simp only [List.map_map, Function.comp_def]

theorem byteBools_spec (b : Byte) :
    byteBools.getD b.toNat [] = (List.range 8).map fun j => boolByte (b.getLsbD j) := by
  unfold byteBools
  rw [List.getD_eq_getElem _ _ (by simpa using b.isLt), List.getElem_map, List.getElem_range]
  refine List.map_congr_left fun j _ => ?_
  have hbit : b.toNat >>> j &&& 1 = (b.getLsbD j).toNat := by
    rw [← BitVec.testBit_toNat, Nat.testBit, Nat.and_one_is_mod, Nat.one_and_eq_mod_two]
    rcases Nat.mod_two_eq_zero_or_one (b.toNat >>> j) with h | h <;> rw [h] <;> rfl
  rw [hbit]
  cases b.getLsbD j <;> rfl

/-- The low bits are the first of each byte, and as many below as there are bytes. -/
theorem lowBits_spec : (∀ k, k < 8 → ∀ t, t < 8 → lowBits.getLsbD (8 * k + t) = decide (t = 0)) ∧
    ∀ k, k < 8 → countBits lowBits.getLsbD (8 * k) = k := by
  decide

theorem deposit_spec {bitExpand : BitVec 64 → BitVec 64 → BitVec 64} (he : Expands bitExpand)
    (src : BitVec 64) : objectBytes (bitExpand src lowBits) =
      (List.range 8).map fun k => boolByte (src.getLsbD k) := by
  unfold objectBytes
  refine List.map_congr_left fun k hk => BitVec.eq_of_getLsbD_eq fun t ht => ?_
  have hk : k < 8 := List.mem_range.mp hk
  obtain ⟨hlow, hcount⟩ := lowBits_spec
  rw [BitVec.getLsbD_setWidth, decide_eq_true ht, Bool.true_and, BitVec.getLsbD_ushiftRight,
    he _ _ _ (by omega), hlow k hk t ht]
  rw [getLsbD_boolByte ht]
  by_cases h0 : t = 0
  · rw [h0, Nat.add_zero, hcount k hk]
  · rw [decide_eq_false h0, Bool.false_and, Bool.false_and]

/-- **A word as 64 bools**, bit `t` in byte `t`, whichever way it is compiled. -/
theorem expand_eq {e : Expansion} (he : e.Lawful) (block : BitVec 64) :
    e.expand block = (List.range 64).map fun t => boolByte (block.getLsbD t) := by
  cases e with
  | table =>
      rw [← eight_of_eight]
      refine congrArg List.flatten (List.map_congr_left fun i _ => ?_)
      rw [byteBools_spec]
      refine List.map_congr_left fun j hj => ?_
      rw [BitVec.getLsbD_setWidth, decide_eq_true (List.mem_range.mp hj), Bool.true_and,
        getLsbD_shr]
  | deposit bitExpand =>
      rw [← eight_of_eight]
      refine congrArg List.flatten (List.map_congr_left fun i _ => ?_)
      rw [deposit_spec he]
      refine List.map_congr_left fun j _ => ?_
      rw [getLsbD_shr]
  | masked =>
      refine List.map_congr_left fun t ht => ?_
      unfold boolByte
      rw [List.getD_eq_getElem _ _ (by simpa using ht), List.getElem_replicate]

end Expansion

/-! ## 3. The updates -/

section Updates
variable {w : Nat}

/-- Bytes written over a buffer from `offset` on. -/
def overwrite (buffer : List Byte) (offset : Nat) (bytes : List Byte) : List Byte :=
  buffer.take offset ++ bytes ++ buffer.drop (offset + bytes.length)

def stringBlocks (n : Nat) : Nat := (n + 63) / 64

variable (e : Expansion) (blocks : List (BitVec w)) (n : Nat)

/-- Word `k` expanded into its place in the buffer. -/
def expandWord (first k : Nat) (buffer : List Byte) : Option (List Byte) :=
  (stringBlock blocks k).map fun block => overwrite buffer ((k - first) * 64) (e.expand block)

/-- One update: up to eight words from `first` on, and up to position `n` and no further. -/
def updateTurn (first : Nat) (s : List Byte × List (List Byte)) :
    Option (List Byte × List (List Byte)) :=
  let last := min (first + 8) (stringBlocks n)
  (tryStep 1 first last (expandWord e blocks first) s.1).map fun buffer =>
    (buffer, s.2 ++ [buffer.take (min n (last * 64) - first * 64)])

/-- `update_bools(h, blocks, n)`: the updates. -/
def updateBools : Option (List (List Byte)) :=
  (tryStep 8 0 (stringBlocks n) (updateTurn e blocks n) (List.replicate (8 * 64) 0, [])).map (·.2)

variable {e} {blocks} {n}

/-- What is overwritten from the end of a prefix on makes the prefix longer. -/
theorem take_overwrite {buffer bytes : List Byte} {offset : Nat} (h : offset ≤ buffer.length) :
    (overwrite buffer offset bytes).take (offset + bytes.length) = buffer.take offset ++ bytes := by
  unfold overwrite
  rw [List.take_append_of_le_length, List.take_of_length_le] <;> simp [h]

theorem length_overwrite {buffer bytes : List Byte} {offset : Nat}
    (h : offset + bytes.length ≤ buffer.length) :
    (overwrite buffer offset bytes).length = buffer.length := by
  unfold overwrite
  simp
  omega

/-- The bytes of the positions `[p, p + m)`. -/
def boolBytes (blocks : List (BitVec w)) (p m : Nat) : List Byte :=
  (List.range m).map fun t => boolByte (bitAt blocks (p + t))

theorem boolBytes_add (p a b : Nat) :
    boolBytes blocks p (a + b) = boolBytes blocks p a ++ boolBytes blocks (p + a) b := by
  unfold boolBytes
  rw [List.range_add, List.map_append, List.map_map]
  simp only [Function.comp_def, Nat.add_assoc]

theorem take_boolBytes {p m k : Nat} (h : k ≤ m) :
    (boolBytes blocks p m).take k = boolBytes blocks p k := by
  unfold boolBytes
  rw [← List.map_take, List.take_range, Nat.min_eq_left h]

/-- **The buffer** holds the bytes of as many words as were expanded into it. -/
theorem buffer_spec (he : e.Lawful) (hw : 0 < w) (hb : ByteLayout blocks)
    (hn : n ≤ blocks.length * w) {first last : Nat} (hfirst : first ≤ last) (hroom : last ≤ first + 8)
    (hlast : last ≤ stringBlocks n) {buffer : List Byte} (hlen : buffer.length = 8 * 64) : ∃ out,
      tryStep 1 first last (expandWord e blocks first) buffer = some out ∧ out.length = 8 * 64 ∧
      out.take ((last - first) * 64) = boolBytes blocks (first * 64) ((last - first) * 64) := by
  obtain ⟨out, hout, -, hol, htake⟩ := tryStep_one (f := expandWord e blocks first) (s := buffer)
    (fun q out => first ≤ q ∧ out.length = 8 * 64 ∧
      out.take ((q - first) * 64) = boolBytes blocks (first * 64) ((q - first) * 64))
    hfirst ⟨Nat.le_refl _, hlen, by simp [boolBytes]⟩ fun q out hq ⟨hle, hol, htake⟩ => by
      unfold stringBlocks at hlast
      obtain ⟨word, hword, hbits⟩ := stringBlock_spec hw hb (show 64 * q < blocks.length * w by omega)
      have hbytes : e.expand word = boolBytes blocks (first * 64 + (q - first) * 64) 64 := by
        rw [Expansion.expand_eq he]
        refine List.map_congr_left fun t ht => ?_
        rw [hbits t (List.mem_range.mp ht)]
        congr 2
        omega
      have hlength : (e.expand word).length = 64 := by
        rw [hbytes]
        simp [boolBytes]
      have hnext : (q + 1 - first) * 64 = (q - first) * 64 + 64 := by omega
      refine ⟨overwrite out ((q - first) * 64) (e.expand word), ?_, by omega, ?_, ?_⟩
      · unfold expandWord
        rw [hword]
        rfl
      · rw [length_overwrite (by omega), hol]
      · have hover : (overwrite out ((q - first) * 64) (e.expand word)).take
            ((q - first) * 64 + (e.expand word).length) = _ := take_overwrite (by omega)
        rw [hlength] at hover
        rw [hnext, hover, htake, hbytes, ← boolBytes_add]
  exact ⟨out, hout, hol, htake⟩

/-- An update sends the bytes up to its last word, or up to the width. -/
theorem updateTurn_spec (he : e.Lawful) (hw : 0 < w) (hb : ByteLayout blocks)
    (hn : n ≤ blocks.length * w) {q : Nat} (hq : q < stringBlocks n)
    {s : List Byte × List (List Byte)} (hlen : s.1.length = 8 * 64)
    (hflat : s.2.flatten = boolBytes blocks 0 (min n (q * 64))) : ∃ t,
      updateTurn e blocks n q s = some t ∧ t.1.length = 8 * 64 ∧
      t.2.flatten = boolBytes blocks 0 (min n ((q + 8) * 64)) := by
  unfold updateTurn
  dsimp only
  generalize hl : min (q + 8) (stringBlocks n) = last
  obtain ⟨out, hout, hol, htake⟩ : ∃ out,
      tryStep 1 q last (expandWord e blocks q) s.1 = some out ∧ out.length = 8 * 64 ∧
      out.take ((last - q) * 64) = boolBytes blocks (q * 64) ((last - q) * 64) :=
    buffer_spec he hw hb hn (by omega) (by omega) (by omega) hlen
  unfold stringBlocks at hq hl
  have hcut : min n (last * 64) - q * 64 ≤ (last - q) * 64 := by omega
  have hsent : out.take (min n (last * 64) - q * 64) =
      boolBytes blocks (q * 64) (min n (last * 64) - q * 64) := by
    rw [← take_boolBytes hcut, ← htake, List.take_take, Nat.min_eq_left hcut]
  have hsum : q * 64 + (min n (last * 64) - q * 64) = min n ((q + 8) * 64) := by omega
  rw [hout]
  refine ⟨_, rfl, hol, ?_⟩
  rw [List.flatten_append, List.flatten_singleton, hflat, hsent, ← hsum,
    show min n (q * 64) = q * 64 by omega, boolBytes_add, Nat.zero_add]

/-- **The updates send one byte a position**, and read nothing past the last block. -/
theorem updateBools_spec (he : e.Lawful) (hw : 0 < w) (hb : ByteLayout blocks)
    (hn : n ≤ blocks.length * w) : ∃ ups, updateBools e blocks n = some ups ∧
      ups.flatten = boolBytes blocks 0 n := by
  obtain ⟨q, s, hq, hs, -, hflat⟩ := tryStep_inv (f := updateTurn e blocks n) (a := 0)
    (s := (List.replicate (8 * 64) 0, []))
    (fun q s => s.1.length = 8 * 64 ∧ s.2.flatten = boolBytes blocks 0 (min n (q * 64)))
    (show 0 < 8 by decide) ⟨List.length_replicate, by simp [boolBytes]⟩ fun q s hq hs =>
      updateTurn_spec he hw hb hn hq hs.1 hs.2
  refine ⟨s.2, ?_, ?_⟩
  · unfold updateBools
    rw [hs]
    rfl
  · rw [hflat]
    congr 1
    unfold stringBlocks at hq
    omega

end Updates

/-! ## 4. The message -/

section Message
variable {w : Nat} {V : Vehicle w}

/-- `hash_append_bools(pr, h, f, c)`: its updates, `appendSize` being what `hash_append_size` sends. -/
def hashAppendBools (appendSize : Nat → List Byte) (e : Expansion) (c : BitBlockContainer V) :
    Option (List (List Byte)) :=
  if V.hasStaticSize ∧ V.extent = 0 then some [[0]]
  else (updateBools e c.mBlocks.elems c.size).map fun updates =>
    if V.hasStaticSize then updates else updates ++ [appendSize c.size]

/-- What Hash2 writes of a `std::array<bool, N>`: its elements, and one zero byte where it has none. -/
def arrayMessage (bs : List Bool) : List Byte := if bs = [] then [0] else bs.map boolByte

/-- What Hash2 writes of a `std::vector<bool>`: its elements, then their count. -/
def vectorMessage (appendSize : Nat → List Byte) (bs : List Bool) : List Byte :=
  bs.map boolByte ++ appendSize bs.length

variable {appendSize : Nat → List Byte} {e : Expansion} {c : BitBlockContainer V}

theorem boolBytes_boolsOf {w' : Nat} {blocks : List (BitVec w')}
    (h : ∀ p, p < c.size → bitAt blocks p = c.bit p) :
    boolBytes blocks 0 c.size = (boolsOf c).map boolByte := by
  unfold boolBytes boolsOf bools
  rw [List.map_map]
  refine List.map_congr_left fun p hp => ?_
  rw [Nat.zero_add, h p (List.mem_range.mp hp)]
  rfl

/-- **The message of a sequence is its model's**: over blocks of any width and whichever way a word
    is expanded, one byte a position and in order, as Hash2 writes of an array or a vector of the same
    bools; whatever other blocks agree with it below its width, padding and all, send the same. -/
theorem hash_append_bools_exact (he : e.Lawful) (h : c.Inv) :
    (∃ updates, hashAppendBools appendSize e c = some updates ∧
      updates.flatten = if V.hasStaticSize then arrayMessage (boolsOf c)
        else vectorMessage appendSize (boolsOf c)) ∧
    ∀ {w' : Nat} {blocks : List (BitVec w')} {e' : Expansion}, e'.Lawful → 0 < w' →
      ByteLayout blocks → c.size ≤ blocks.length * w' →
      (∀ p, p < c.size → bitAt blocks p = c.bit p) →
      ∃ updates, updateBools e' blocks c.size = some updates ∧
        updates.flatten = (boolsOf c).map boolByte := by
  have hlength : (boolsOf c).length = c.size := by
    unfold boolsOf bools
    rw [List.length_map, List.length_range]
  constructor
  · unfold hashAppendBools
    by_cases h0 : V.hasStaticSize = true ∧ V.extent = 0
    · rw [if_pos h0, if_pos h0.1]
      have hsize : c.size = 0 := by
        unfold BitBlockContainer.size
        rw [if_pos h0.1, h0.2]
      have hnil : boolsOf c = [] := List.eq_nil_of_length_eq_zero (hlength.trans hsize)
      refine ⟨_, rfl, ?_⟩
      rw [hnil]
      rfl
    · obtain ⟨updates, hups, hflat⟩ := updateBools_spec he V.bits_pos h.byteLayout h.shape.size_le
      have hbytes : updates.flatten = (boolsOf c).map boolByte :=
        hflat.trans (boolBytes_boolsOf fun _ _ => rfl)
      rw [if_neg h0, hups]
      refine ⟨_, rfl, ?_⟩
      dsimp only
      by_cases hs : V.hasStaticSize = true
      · have hne : boolsOf c ≠ [] := by
          intro hnil
          rw [hnil] at hlength
          unfold BitBlockContainer.size at hlength
          rw [if_pos hs] at hlength
          exact h0 ⟨hs, hlength.symm⟩
        rw [if_pos hs, if_pos hs, hbytes]
        exact (if_neg hne).symm
      · rw [if_neg hs, if_neg hs, List.flatten_append, List.flatten_singleton, hbytes, ← hlength]
        rfl
  · intro w' blocks e' he' hw hb hn hagree
    obtain ⟨updates, hups, hflat⟩ := updateBools_spec he' hw hb hn
    exact ⟨updates, hups, hflat.trans (boolBytes_boolsOf hagree)⟩

/-- Twelve bools over byte blocks, each byte of them deposited. -/
theorem hash_append_bools_twelve : ∃ updates,
    hashAppendBools (fun n => objectBytes (BitVec.ofNat 64 n)) (.deposit expandBits)
      (fourOfTwelve true) = some updates ∧
    updates.flatten = vectorMessage (fun n => objectBytes (BitVec.ofNat 64 n))
      [true, false, false, true, false, true, false, false, false, false, true, false] :=
  (hash_append_bools_exact (show (Expansion.deposit expandBits).Lawful from expands_expandBits)
    (fourOfTwelve_inv true)).1

end Message

end XstdBits
