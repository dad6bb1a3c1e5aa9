/-
  File: XstdBits/Container/Layout.lean
  Subject: blocks as bytes, and the copy between two block widths (`bit_layout.hpp`).

  * `blockByte` reads byte `j` of a range of blocks, `orBlockByte` writes one into blocks that
    start clear; a block whose width is no whole number of bytes has a ragged last byte.
  * `copyBits` carries byte `j` to byte `j` as far as the shorter range reaches, by shifts or, where
    a block's object is its value's bytes, as one copy of the objects (`copyObjects`).
  * `bytePosition` is the place a position has among the bytes; over blocks laid out in bytes
    (`ByteLayout`) that is the position itself.
  * `copyBits_place`: every position of the target receives what the source has at its place,
    whichever way the bytes are carried; `copyBits_spec` is that over blocks laid out in bytes.
-/
import XstdBits.Container.Storage

namespace XstdBits

/-! ## 1. Bytes -/

abbrev Byte := BitVec 8

/-- The bytes a width needs. -/
def byteCount (n : Nat) : Nat := (n + 7) / 8

def bytesPerBlock (w : Nat) : Nat := byteCount w

section Bytes
variable {w v : Nat}

/-- The bytes a range of blocks holds as positions. -/
def valueBytes (blocks : List (BitVec w)) : Nat := blocks.length * bytesPerBlock w

/-- Byte `j` of a range of blocks: the positions `[8 j, 8 j + 8)`. -/
def blockByte (blocks : List (BitVec w)) (j : Nat) : Byte :=
  (shr (blocks.getD (j / bytesPerBlock w) zero) (8 * (j % bytesPerBlock w))).setWidth 8

/-- The write side, an or into blocks that start clear. -/
def orBlockByte (blocks : List (BitVec w)) (j : Nat) (byte : Byte) : List (BitVec w) :=
  blocks.set (j / bytesPerBlock w) (blocks.getD (j / bytesPerBlock w) zero |||
    shl (byte.setWidth w) (8 * (j % bytesPerBlock w)))

/-- `copy_bytes_by_shifts`. -/
def copyBytesByShifts (src : List (BitVec w)) (dst : List (BitVec v)) (bytes : Nat) :
    List (BitVec v) :=
  forUp 0 bytes (fun j dst => orBlockByte dst j (blockByte src j)) dst

/-- An object byte overwritten, as a copy of the objects does. -/
def storeByte (blocks : List (BitVec w)) (j : Nat) (byte : Byte) : List (BitVec w) :=
  blocks.set (j / bytesPerBlock w)
    (blocks.getD (j / bytesPerBlock w) zero &&&
        ~~~(shl (BitVec.setWidth w (ones : Byte)) (8 * (j % bytesPerBlock w))) |||
      shl (byte.setWidth w) (8 * (j % bytesPerBlock w)))

/-- The first object bytes in one copy: byte `j` of a built-in, little-endian block without padding
    is byte `j` of its value. -/
def copyObjects (src : List (BitVec w)) (dst : List (BitVec v)) (bytes : Nat) : List (BitVec v) :=
  forUp 0 bytes (fun j dst => storeByte dst j (blockByte src j)) dst

/-- `copy_bits`: `asObjects` says that both blocks copy as bytes, outside constant evaluation. -/
def copyBits (asObjects : Bool) (src : List (BitVec w)) (dst : List (BitVec v)) : List (BitVec v) :=
  let bytes := min (valueBytes src) (valueBytes dst)
  if asObjects then copyObjects src dst bytes else copyBytesByShifts src dst bytes

/-- `bit_bytes<N>` of a field of blocks. -/
def bitBytes (asObjects : Bool) (n : Nat) (src : List (BitVec w)) : List Byte :=
  copyBits asObjects src (List.replicate (byteCount n) 0)

/-- Blocks whose bytes are eight positions each: whole bytes in every block, or one block alone. -/
def ByteLayout (blocks : List (BitVec w)) : Prop := 8 ∣ w ∨ blocks.length ≤ 1

theorem byteLayout_bytes (bytes : List Byte) : ByteLayout bytes := Or.inl (Nat.dvd_refl 8)

theorem byteLayout_congr {b : List (BitVec w)} {c : List (BitVec w)} (h : ByteLayout b)
    (hl : c.length = b.length) : ByteLayout c := by
  rcases h with h | h
  · exact Or.inl h
  · exact Or.inr (by omega)

theorem bytesPerBlock_pos (hw : 0 < w) : 0 < bytesPerBlock w := by
  unfold bytesPerBlock byteCount
  omega

theorem le_bytesPerBlock_mul : w ≤ bytesPerBlock w * 8 := by
  unfold bytesPerBlock byteCount
  omega

/-- A block of whole bytes has no room to spare. -/
theorem bytesPerBlock_whole (h : 8 ∣ w) : 8 * bytesPerBlock w = w := by
  unfold bytesPerBlock byteCount
  omega

theorem valueBytes_congr {b c : List (BitVec w)} (h : c.length = b.length) :
    valueBytes c = valueBytes b := by
  unfold valueBytes
  rw [h]

theorem le_valueBytes_mul {b : List (BitVec w)} : b.length * w ≤ valueBytes b * 8 := by
  unfold valueBytes
  rw [Nat.mul_assoc]
  exact Nat.mul_le_mul_left _ le_bytesPerBlock_mul

/-! ## 2. The place of a position -/

/-- Where a range of blocks has position `p` among the positions of its bytes: every block starts
    on a byte of its own. -/
def bytePosition (w p : Nat) : Nat := p / w * (8 * bytesPerBlock w) + p % w

/-- Position `x` of the bytes of a range of blocks. -/
def byteBit (blocks : List (BitVec w)) (x : Nat) : Bool :=
  (blockByte blocks (x / 8)).getLsbD (x % 8)

theorem bytePosition_pos {i t : Nat} (ht : t < w) :
    bytePosition w (i * w + t) = i * (8 * bytesPerBlock w) + t := by
  unfold bytePosition
  rw [pos_div ht, pos_mod ht]

/-- A block's positions fit its bytes. -/
theorem lt_bytes {t : Nat} (ht : t < w) : t < 8 * bytesPerBlock w := by
  have := le_bytesPerBlock_mul (w := w)
  omega

theorem bytePosition_lt {b : List (BitVec w)} (hw : 0 < w) {p : Nat} (hp : p < b.length * w) :
    bytePosition w p < 8 * valueBytes b := by
  obtain ⟨i, t, ht, rfl⟩ := exists_pos hw p
  unfold valueBytes
  rw [bytePosition_pos ht, Nat.mul_left_comm 8, pos_lt_iff (lt_bytes ht)]
  exact (pos_lt_iff ht).mp hp

/-- **Whole bytes in every block, or one block alone, have every position in its own place.** -/
theorem bytePosition_of_layout {b : List (BitVec w)} (hw : 0 < w) (hb : ByteLayout b) {p : Nat}
    (hp : p < b.length * w) : bytePosition w p = p := by
  obtain ⟨i, t, ht, rfl⟩ := exists_pos hw p
  rw [bytePosition_pos ht]
  rcases hb with hw8 | hone
  · rw [bytesPerBlock_whole hw8]
  · have hi := (pos_lt_iff ht).mp hp
    obtain rfl : i = 0 := by omega
    rw [Nat.zero_mul, Nat.zero_mul]

/-- The byte a position stands in: its block's, and its own in the block. -/
theorem bytePosition_div {i t j : Nat} (hw : 0 < w) (ht : t < w) :
    bytePosition w (i * w + t) / 8 = j ↔
      i = j / bytesPerBlock w ∧ t / 8 = j % bytesPerBlock w := by
  have hlt := lt_bytes ht
  have hsplit : bytePosition w (i * w + t) / 8 = i * bytesPerBlock w + t / 8 := by
    rw [bytePosition_pos ht, Nat.mul_left_comm]
    omega
  rw [hsplit]
  obtain ⟨q, s, hs, rfl⟩ := exists_pos (bytesPerBlock_pos hw) j
  rw [pos_div hs, pos_mod hs]
  exact pos_inj (by omega) hs

theorem bytePosition_mod {i t : Nat} (ht : t < w) : bytePosition w (i * w + t) % 8 = t % 8 := by
  rw [bytePosition_pos ht, Nat.mul_left_comm]
  omega

/-- Position `x` of the bytes is an offset in one block, clear past the block's width. -/
theorem byteBit_eq (blocks : List (BitVec w)) (x : Nat) : byteBit blocks x =
    (blocks.getD (x / (8 * bytesPerBlock w)) zero).getLsbD (x % (8 * bytesPerBlock w)) := by
  unfold byteBit blockByte
  rw [BitVec.getLsbD_setWidth, getLsbD_shr, decide_eq_true (Nat.mod_lt x (by decide)),
    Bool.true_and, Nat.div_div_eq_div_mul, Nat.mod_mul, Nat.add_comm]

/-- **A position is read at its place**, -/
theorem byteBit_bytePosition (hw : 0 < w) (blocks : List (BitVec w)) (p : Nat) :
    byteBit blocks (bytePosition w p) = bitAt blocks p := by
  obtain ⟨i, t, ht, rfl⟩ := exists_pos hw p
  rw [byteBit_eq, bytePosition_pos ht, pos_div (lt_bytes ht), pos_mod (lt_bytes ht), bitAt_pos ht]

/-- and nothing is read elsewhere. -/
theorem exists_of_byteBit {blocks : List (BitVec w)} {x : Nat} (hx : byteBit blocks x = true) :
    ∃ p, p < blocks.length * w ∧ bytePosition w p = x ∧ bitAt blocks p = true := by
  rw [byteBit_eq] at hx
  have ht := BitVec.lt_of_getLsbD hx
  have hi : x / (8 * bytesPerBlock w) < blocks.length := by
    by_contra hge
    rw [List.getD_eq_default _ _ (by omega), getLsbD_zero'] at hx
    cases hx
  exact ⟨x / (8 * bytesPerBlock w) * w + x % (8 * bytesPerBlock w), (pos_lt_iff ht).mpr hi,
    by rw [bytePosition_pos ht, Nat.div_add_mod'], by rw [bitAt_pos ht]; exact hx⟩

theorem byteBit_clear {blocks : List (BitVec w)} {x : Nat}
    (h : ∀ p, p < blocks.length * w → bytePosition w p ≠ x) : byteBit blocks x = false := by
  by_contra hne
  obtain ⟨p, hp, hpx, -⟩ := exists_of_byteBit ((Bool.not_eq_false _).mp hne)
  exact h p hp hpx

/-- What is in its own place is read at its own position, and past the blocks all is clear. -/
theorem byteBit_of_layout {b : List (BitVec w)} (hw : 0 < w) (hb : ByteLayout b) (x : Nat) :
    byteBit b x = bitAt b x := by
  by_cases hx : x < b.length * w
  · have h := byteBit_bytePosition hw b x
    rwa [bytePosition_of_layout hw hb hx] at h
  · rw [bitAt_of_le hw (by omega)]
    refine byteBit_clear fun p hp => ?_
    rw [bytePosition_of_layout hw hb hp]
    omega

/-! ## 3. One byte -/

/-- **Byte `j` holds the positions `[8 j, 8 j + 8)`.** -/
theorem getLsbD_blockByte {b : List (BitVec w)} (hw : 0 < w) (hb : ByteLayout b) {j k : Nat}
    (hk : k < 8) : (blockByte b j).getLsbD k = bitAt b (8 * j + k) := by
  rw [← byteBit_of_layout hw hb]
  unfold byteBit
  rw [show (8 * j + k) / 8 = j by omega, show (8 * j + k) % 8 = k by omega]

/-- A byte moved to its place in a block. -/
theorem getLsbD_placed {byte : Byte} {s t : Nat} (ht : t < w) :
    (shl (byte.setWidth w) (8 * s)).getLsbD t = (decide (t / 8 = s) && byte.getLsbD (t % 8)) := by
  rw [getLsbD_shl ht, BitVec.getLsbD_setWidth]
  by_cases hs : t / 8 = s
  · have h1 : decide (8 * s ≤ t) = true := decide_eq_true (by omega)
    have h2 : decide (t - 8 * s < w) = true := decide_eq_true (by omega)
    have h3 : decide (t / 8 = s) = true := decide_eq_true hs
    rw [h1, h2, h3, show t - 8 * s = t % 8 by omega]
    simp
  · have h3 : decide (t / 8 = s) = false := decide_eq_false hs
    rw [h3, Bool.false_and]
    by_cases h1 : 8 * s ≤ t
    · rw [BitVec.getLsbD_of_ge byte _ (by omega)]
      simp
    · simp [h1]

/-- The block of a byte is one of the range's. -/
theorem byte_block_lt {b : List (BitVec w)} {j : Nat} (hj : j < valueBytes b) :
    j / bytesPerBlock w < b.length := Nat.div_lt_of_lt_mul (by rwa [Nat.mul_comm])

/-- A byte or-ed in adds the positions placed in it. -/
theorem bitAt_orBlockByte {b : List (BitVec w)} (hw : 0 < w) {j : Nat} (hj : j < valueBytes b)
    {byte : Byte} {p : Nat} : bitAt (orBlockByte b j byte) p = (bitAt b p ||
      (decide (bytePosition w p / 8 = j) && byte.getLsbD (bytePosition w p % 8))) := by
  obtain ⟨i, t, ht, rfl⟩ := exists_pos hw p
  have hplace := bytePosition_div (i := i) (j := j) hw ht
  unfold orBlockByte
  rw [bitAt_set (byte_block_lt hj), pos_div ht, pos_mod ht, bytePosition_mod ht]
  by_cases hij : i = j / bytesPerBlock w
  · rw [if_pos hij, BitVec.getLsbD_or, getLsbD_placed ht, ← hij, bitAt_pos ht]
    congr 2
    rw [decide_eq_decide, hplace]
    simp [hij]
  · rw [if_neg hij, decide_eq_false fun h => hij (hplace.mp h).1, Bool.false_and, Bool.or_false]

/-- A byte stored replaces the positions placed in it. -/
theorem bitAt_storeByte {b : List (BitVec w)} (hw : 0 < w) {j : Nat} (hj : j < valueBytes b)
    {byte : Byte} {p : Nat} : bitAt (storeByte b j byte) p =
      if bytePosition w p / 8 = j then byte.getLsbD (bytePosition w p % 8) else bitAt b p := by
  obtain ⟨i, t, ht, rfl⟩ := exists_pos hw p
  have hplace := bytePosition_div (i := i) (j := j) hw ht
  unfold storeByte
  rw [bitAt_set (byte_block_lt hj), pos_div ht, pos_mod ht, bytePosition_mod ht]
  by_cases hij : i = j / bytesPerBlock w
  · rw [if_pos hij, BitVec.getLsbD_or, BitVec.getLsbD_and, BitVec.getLsbD_not, getLsbD_placed ht,
      getLsbD_placed ht, getLsbD_ones, ← hij, bitAt_pos ht]
    have h8 : decide (t % 8 < 8) = true := decide_eq_true (Nat.mod_lt _ (by decide))
    by_cases hs : t / 8 = j % bytesPerBlock w
    · rw [if_pos (hplace.mpr ⟨hij, hs⟩)]
      simp [hs, h8]
    · rw [if_neg fun h => hs (hplace.mp h).2]
      simp [hs, ht]
  · rw [if_neg hij, if_neg fun h => hij (hplace.mp h).1]

/-! ## 4. The copy -/

/-- **The copy by shifts adds to every position what the source has at its place.** -/
theorem copyBytesByShifts_spec (src : List (BitVec w)) {dst : List (BitVec v)} (hv : 0 < v)
    {bytes : Nat} (hbytes : bytes ≤ valueBytes dst) :
    (copyBytesByShifts src dst bytes).length = dst.length ∧
      ∀ p, bitAt (copyBytesByShifts src dst bytes) p = (bitAt dst p ||
        (decide (bytePosition v p / 8 < bytes) && byteBit src (bytePosition v p))) := by
  refine forUp_inv (f := fun j d => orBlockByte d j (blockByte src j)) (s := dst)
    (fun n d => d.length = dst.length ∧ ∀ p, bitAt d p = (bitAt dst p ||
      (decide (bytePosition v p / 8 < n) && byteBit src (bytePosition v p))))
    (Nat.zero_le bytes) ⟨rfl, fun p => by simp⟩ ?_
  intro n d _ hn hd
  obtain ⟨hl, hbits⟩ := hd
  have hvb := valueBytes_congr hl
  refine ⟨by unfold orBlockByte; rw [List.length_set, hl], fun p => ?_⟩
  rw [bitAt_orBlockByte hv (by omega), hbits p]
  by_cases hpn : bytePosition v p / 8 = n
  · subst hpn
    unfold byteBit
    simp
  · rw [decide_eq_false hpn, Bool.false_and, Bool.or_false]
    congr 2
    exact decide_eq_decide.mpr (by omega)

/-- **The copy of the objects writes every position placed below its end.** -/
theorem copyObjects_spec (src : List (BitVec w)) {dst : List (BitVec v)} (hv : 0 < v)
    {bytes : Nat} (hbytes : bytes ≤ valueBytes dst) :
    (copyObjects src dst bytes).length = dst.length ∧
      ∀ p, bitAt (copyObjects src dst bytes) p =
        if bytePosition v p / 8 < bytes then byteBit src (bytePosition v p) else bitAt dst p := by
  refine forUp_inv (f := fun j d => storeByte d j (blockByte src j)) (s := dst)
    (fun n d => d.length = dst.length ∧ ∀ p, bitAt d p =
      if bytePosition v p / 8 < n then byteBit src (bytePosition v p) else bitAt dst p)
    (Nat.zero_le bytes) ⟨rfl, fun p => by simp⟩ ?_
  intro n d _ hn hd
  obtain ⟨hl, hbits⟩ := hd
  have hvb := valueBytes_congr hl
  refine ⟨by unfold storeByte; rw [List.length_set, hl], fun p => ?_⟩
  rw [bitAt_storeByte hv (by omega), hbits p]
  by_cases hpn : bytePosition v p / 8 = n
  · rw [if_pos hpn, if_pos (by omega), ← hpn]
    rfl
  · rw [if_neg hpn]
    by_cases hlt : bytePosition v p / 8 < n
    · rw [if_pos hlt, if_pos (by omega)]
    · rw [if_neg hlt, if_neg (by omega)]

/-- **`copy_bits` carries to every position what the source has at its place**, over blocks that
    start clear and by either way. -/
theorem copyBits_place (asObjects : Bool) (src : List (BitVec w)) {dst : List (BitVec v)}
    (hw : 0 < w) (hv : 0 < v) (hclear : ∀ p, bitAt dst p = false) :
    (copyBits asObjects src dst).length = dst.length ∧ ∀ p, p < dst.length * v →
      bitAt (copyBits asObjects src dst) p = byteBit src (bytePosition v p) := by
  have hle : min (valueBytes src) (valueBytes dst) ≤ valueBytes dst := Nat.min_le_right _ _
  -- a place past the shorter range's end has nothing of the source
  have hpast (p : Nat) (hp : p < dst.length * v)
      (hx : ¬ bytePosition v p / 8 < min (valueBytes src) (valueBytes dst)) :
      byteBit src (bytePosition v p) = false := by
    have hlt := bytePosition_lt hv hp
    refine byteBit_clear fun q hq => ?_
    have hlt' := bytePosition_lt hw hq
    omega
  unfold copyBits
  dsimp only
  cases asObjects
  · have h := copyBytesByShifts_spec src hv hle
    refine ⟨h.1, fun p hp => (h.2 p).trans ?_⟩
    rw [hclear p, Bool.false_or]
    by_cases hx : bytePosition v p / 8 < min (valueBytes src) (valueBytes dst)
    · rw [decide_eq_true hx, Bool.true_and]
    · rw [hpast p hp hx, Bool.and_false]
  · have h := copyObjects_spec src hv hle
    refine ⟨h.1, fun p hp => (h.2 p).trans ?_⟩
    split
    · rfl
    · rename_i hx
      rw [hclear p, hpast p hp hx]

/-- **`copy_bits` carries position `p` to position `p`**, over blocks that start clear and by
    either way. -/
theorem copyBits_spec (asObjects : Bool) {src : List (BitVec w)} {dst : List (BitVec v)}
    (hw : 0 < w) (hv : 0 < v) (hs : ByteLayout src) (hd : ByteLayout dst)
    (hclear : ∀ p, p < dst.length * v → bitAt dst p = false) :
    (copyBits asObjects src dst).length = dst.length ∧
      ∀ p, p < dst.length * v → bitAt (copyBits asObjects src dst) p = bitAt src p := by
  have hall (p : Nat) : bitAt dst p = false := by
    by_cases hp : p < dst.length * v
    · exact hclear p hp
    · exact bitAt_of_le hv (by omega)
  obtain ⟨hl, hbits⟩ := copyBits_place asObjects src hw hv hall
  refine ⟨hl, fun p hp => ?_⟩
  rw [hbits p hp, bytePosition_of_layout hv hd hp, byteBit_of_layout hw hs]

theorem byteCount_mul_ge {n : Nat} : n ≤ byteCount n * 8 := by
  unfold byteCount
  omega

/-- **`bit_bytes` holds the first places of its source**, as many as its bytes have. -/
theorem bitBytes_place (asObjects : Bool) (n : Nat) (src : List (BitVec w)) (hw : 0 < w) :
    (bitBytes asObjects n src).length = byteCount n ∧ ∀ x,
      bitAt (bitBytes asObjects n src) x = (decide (x < byteCount n * 8) && byteBit src x) := by
  unfold bitBytes
  have hbytes : (List.replicate (byteCount n) (0 : Byte)).length = byteCount n :=
    List.length_replicate
  have hclear (p : Nat) : bitAt (List.replicate (byteCount n) (0 : Byte)) p = false := by
    rw [bitAt_replicate (by decide)]
    simp
  have h := copyBits_place asObjects src hw (by decide) hclear
  rw [hbytes] at h
  refine ⟨h.1, fun x => ?_⟩
  by_cases hx : x < byteCount n * 8
  · rw [h.2 x hx, bytePosition_of_layout (by decide) (byteLayout_bytes _) (by rwa [hbytes]),
      decide_eq_true hx, Bool.true_and]
  · rw [bitAt_of_le (by decide) (by rw [h.1]; omega), decide_eq_false hx, Bool.false_and]

/-- **`bit_bytes` holds the first positions of its source**, laid out in bytes. -/
theorem bitBytes_spec {asObjects : Bool} {n : Nat} {src : List (BitVec w)} (hw : 0 < w)
    (hs : ByteLayout src) : (bitBytes asObjects n src).length = byteCount n ∧
      ∀ p, bitAt (bitBytes asObjects n src) p = (decide (p < byteCount n * 8) && bitAt src p) := by
  obtain ⟨hl, hbits⟩ := bitBytes_place asObjects n src hw
  exact ⟨hl, fun p => by rw [hbits, byteBit_of_layout hw hs]⟩

end Bytes

end XstdBits
