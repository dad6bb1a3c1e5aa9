/-
  File: XstdBits/Reading/Convert.lean
  Subject: `bit_convert` between two containers (`bit_convert.hpp`, `bit_convertible.hpp`).

  * `Source` is what is read: an owner, a view of one, or a window of a sequence;
  * a fixed width into one at least as wide goes block for block (`convertSameBlocks`) or as bytes
    (`convertFixed`), a run-time width into a fixed one as bytes (`narrowBlocks`), and anything into
    a run-time width by its blocks, taken over (`adoptBlocks`) or copied (`copyBlocks`);
  * a window is copied in steps of the narrower block (`copyWindow`).

  Every way leaves position `i` of the source at position `i` (`Converted`), and refuses what the
  target cannot hold (`Refused`); the last section says so of
  `bit_convert` itself.
-/
import XstdBits.Container.Growth
import XstdBits.Reading.Hash

namespace XstdBits

open BitBlockContainer

/-! ## 1. What is read -/

/-- A container as `bit_convert` reads it: an owner, a view of one, or a window of a sequence. Its
    blocks are as many as their type can hold, and short of 2 ^ 60 bytes, which no address reaches. -/
structure Source {w : Nat} (V : Vehicle w) where
  bits : BitBlockContainer V
  reading : Reading
  owns : Bool
  /-- a window's offset and size -/
  window : Option (Nat × Nat)
  inv : bits.Inv
  held : V.hasStoredSize = true → bits.mBlocks.elems.length ≤ V.maxBlocks
  resident : bits.mBlocks.elems.length * w < 2 ^ 63
  inside : ∀ offset size, window = some (offset, size) →
    offset + size ≤ bits.size ∧ owns = false ∧ reading = .sequence

/-- The chunks of a window, in steps of the narrower block, or-ed into blocks that start clear. -/
def copyWindow {w u : Nat} {V : Vehicle w} (bits : BitBlockContainer V) (offset size : Nat)
    (dst : List (BitVec u)) : List (BitVec u) :=
  let step := min w u
  let n := min size (dst.length * u)
  forStep step 0 n (fun p dst =>
    let chunk := bits.blockAt (offset + p) &&& partialBlockMask (min step (n - p))
    dst.set (p / u) (dst.getD (p / u) zero ||| shl (chunk.setWidth u) (p % u))) dst

namespace Source
variable {w : Nat} {V : Vehicle w} (s : Source V)

/-- `fixed_width`: an owner or a whole view of a width its type carries. -/
def isFixed : Bool := s.window.isNone && V.hasStaticSize

/-- `bit_source::width`: a sequence's is its size, a set's its whole blocks, capped. -/
def width : Nat :=
  match s.window with
  | .some (_, size) => size
  | .none =>
      if V.hasStaticSize && !s.owns then V.extent
      else
        match s.reading with
        | .sets => min (s.bits.numBlocks * w) s.bits.maxSize
        | .sequence => s.bits.size

/-- `fixed_bytes`. `o` says which two blocks copy as objects. -/
def fixedBytes (o : Nat → Nat → Bool) : List Byte := s.bits.toBytes (o w 8) (byteCount V.extent)

/-- `count_bytes`. -/
def countBytes (bytes : List Byte) : Nat := (bytes.map popcount).sum

/-- `bit_source::count`. -/
def count (o : Nat → Nat → Bool) : Nat :=
  match s.window with
  | .some (offset, size) => s.bits.countRange offset size
  | .none => if V.hasStaticSize && !s.owns then countBytes (s.fixedBytes o) else s.bits.count

/-- `bit_source::copy`, into blocks that start clear. -/
def copy (o : Nat → Nat → Bool) {u : Nat} (dst : List (BitVec u)) : List (BitVec u) :=
  match s.window with
  | .some (offset, size) => copyWindow s.bits offset size dst
  | .none =>
      if V.hasStaticSize && !s.owns then copyBits (o 8 u) (s.fixedBytes o) dst
      else copyBits (o w u) s.bits.mBlocks.elems dst

/-- Position `i` of the source, clear past its width. -/
def bit (i : Nat) : Bool :=
  match s.window with
  | .some (offset, size) => windowBit s.bits offset size i
  | .none => s.bits.bit i

end Source

section Window
variable {w u : Nat} {V : Vehicle w} {c : BitBlockContainer V} {offset size : Nat}
  {dst : List (BitVec u)}

/-- A step of the narrower block lands inside a single target block. -/
theorem chunk_inside (hc : c.Inv) (hin : offset + size ≤ c.size)
    (hd : tilingBlock u = true ∨ dst.length ≤ 1) (hu : 0 < u) {p : Nat}
    (hp : p < min size (dst.length * u)) (hstep : min w u ∣ p) :
    p % u + min (min w u) (min size (dst.length * u) - p) ≤ u := by
  have hmod := Nat.mod_lt p hu
  have hone (h1 : dst.length ≤ 1) : dst.length * u ≤ u := by
    have := Nat.mul_le_mul_right u h1
    omega
  rcases hd with ht | h1
  · rcases hc.tiles with htw | hcw
    · -- the step divides the block, and the position is a multiple of it
      obtain ⟨m, hm⟩ := min_dvd_of_tilingBlock htw ht
      obtain ⟨k, hk⟩ := (Nat.dvd_mod_iff (Dvd.intro _ hm.symm)).mpr hstep
      have hkm : k < m := by
        by_contra hge
        have := Nat.mul_le_mul_left (min w u) (Nat.le_of_not_lt hge)
        omega
      have := Nat.mul_le_mul_left (min w u) (Nat.succ_le_of_lt hkm)
      rw [Nat.mul_succ] at this
      omega
    · -- the source has one block, so there is one step
      have hsz := hc.shape.size_le
      have hw1 := Nat.mul_le_mul_right w hcw
      obtain ⟨k, rfl⟩ := hstep
      rcases Nat.eq_zero_or_pos k with rfl | hk
      · simp
      · have := Nat.mul_le_mul_left (min w u) (Nat.succ_le_of_lt hk)
        by_cases hwu : w ≤ u
        · omega
        · have hmu : min w u = u := by omega
          rw [hmu, Nat.mul_mod_right]
          omega
  · have := hone h1
    rw [Nat.mod_eq_of_lt (by omega)]
    omega

/-- One chunk, within the block it lands in. -/
theorem bitAt_orChunk {d : List (BitVec u)} {chunk : BitVec w} {len p q : Nat} (hu : 0 < u)
    (hin : p % u + len ≤ u) (hq : q < d.length * u)
    (hchunk : ∀ k, len ≤ k → chunk.getLsbD k = false) :
    bitAt (d.set (p / u) (d.getD (p / u) zero ||| shl (chunk.setWidth u) (p % u))) q =
      (bitAt d q || (decide (p ≤ q) && chunk.getLsbD (q - p))) := by
  obtain ⟨i, j, hj, rfl⟩ := exists_pos hu q
  have hi : i < d.length := (pos_lt_iff hj).mp hq
  have hp := Nat.div_add_mod' p u
  have hpu := Nat.mod_lt p hu
  by_cases hip : p / u = i
  · rw [bitAt_set (by omega), pos_div hj, if_pos hip.symm, pos_mod hj, BitVec.getLsbD_or,
      getLsbD_shl hj, BitVec.getLsbD_setWidth, hip, bitAt_pos hj]
    rw [hip] at hp
    congr 1
    by_cases hle : p % u ≤ j
    · simp [hle, show p ≤ i * u + j by omega, show j - p % u < u by omega,
        show i * u + j - p = j - p % u by omega]
    · simp [hle, show ¬ p ≤ i * u + j by omega]
  · have hkeep : bitAt (d.set (p / u) (d.getD (p / u) zero ||| shl (chunk.setWidth u) (p % u)))
        (i * u + j) = bitAt d (i * u + j) := by
      by_cases hpd : p / u < d.length
      · rw [bitAt_set hpd, pos_div hj, if_neg (Ne.symm hip)]
      · rw [List.set_eq_of_length_le (by omega)]
    rw [hkeep]
    by_cases hle : p ≤ i * u + j
    · -- a later block: the chunk has ended
      have hlt : p / u < i := by
        rcases block_trichotomy (p / u) i u with ⟨h, -⟩ | ⟨h, -⟩ | ⟨-, h⟩
        · exact h
        · exact absurd h hip
        · omega
      have := Nat.mul_le_mul_right u (Nat.succ_le_of_lt hlt)
      rw [Nat.succ_mul] at this
      rw [hchunk _ (by omega), Bool.and_false, Bool.or_false]
    · rw [decide_eq_false hle, Bool.false_and, Bool.or_false]

/-- **A window's copy carries its position `q` to position `q`.** -/
theorem copyWindow_spec (hc : c.Inv) (hin : offset + size ≤ c.size)
    (hd : tilingBlock u = true ∨ dst.length ≤ 1) (hu : 0 < u)
    (hclear : ∀ q, q < dst.length * u → bitAt dst q = false) :
    (copyWindow c offset size dst).length = dst.length ∧ ∀ q, q < dst.length * u →
      bitAt (copyWindow c offset size dst) q = windowBit c offset size q := by
  have hsz := hc.shape.size_le
  have hw := V.bits_pos
  unfold copyWindow
  dsimp only
  generalize hn : min size (dst.length * u) = n
  have hturn (p : Nat) (d : List (BitVec u)) (hp : p < n)
      (h : min w u ∣ p ∧ d.length = dst.length ∧ ∀ q, q < dst.length * u →
        bitAt d q = (decide (q < min p n) && c.bit (offset + q))) :
      let chunk := c.blockAt (offset + p) &&& partialBlockMask (min (min w u) (n - p))
      let d' := d.set (p / u) (d.getD (p / u) zero ||| shl (chunk.setWidth u) (p % u))
      min w u ∣ p + min w u ∧ d'.length = dst.length ∧ ∀ q, q < dst.length * u →
        bitAt d' q = (decide (q < min (p + min w u) n) && c.bit (offset + q)) := by
    obtain ⟨hdvd, hl, hbits⟩ := h
    have hfits := chunk_inside hc hin hd hu (by omega) hdvd
    rw [hn] at hfits
    refine ⟨Nat.dvd_add hdvd (Nat.dvd_refl _), by rw [List.length_set, hl], fun q hq => ?_⟩
    rw [bitAt_orChunk hu hfits (by rwa [hl]) fun k hk => by
      rw [BitVec.getLsbD_and, getLsbD_partialBlockMask (by omega), decide_eq_false (by omega),
        Bool.and_false], hbits q hq, BitVec.getLsbD_and, getLsbD_partialBlockMask (by omega)]
    by_cases hqp : q < p
    · simp [hqp, show q < n by omega, show ¬ p ≤ q by omega, show q < p + min w u by omega]
    · by_cases hqe : q - p < min (min w u) (n - p)
      · rw [getLsbD_blockAt hc.shape (by omega) (by omega),
          show offset + p + (q - p) = offset + q by omega]
        rw [decide_eq_true hqe]
        simp [hqp, show p ≤ q by omega, show q < n by omega, show q < p + min w u by omega]
      · rw [decide_eq_false hqe, decide_eq_false (show ¬ q < min p n by omega),
          decide_eq_false (show ¬ q < min (p + min w u) n by omega)]
        simp
  obtain ⟨p, hp, -, hl, hbits⟩ := forStep_inv (k := min w u) (a := 0) (b := n) (s := dst)
    (fun p (d : List (BitVec u)) => min w u ∣ p ∧ d.length = dst.length ∧
      ∀ q, q < dst.length * u → bitAt d q = (decide (q < min p n) && c.bit (offset + q)))
    (by omega) ⟨Nat.dvd_zero _, rfl, fun q hq => by simp [hclear q hq]⟩ hturn
  refine ⟨hl, fun q hq => ?_⟩
  rw [hbits q hq]
  unfold windowBit
  congr 1
  rw [decide_eq_decide]
  omega

end Window

namespace Source
variable {w : Nat} {V : Vehicle w} {s : Source V}

theorem size_le_maxSize : s.bits.size ≤ s.bits.maxSize := by
  have hsz := s.inv.shape.size_le
  have hn := s.inv.shape.numBlocks
  unfold maxSize
  split
  · rename_i hc
    exact s.inv.capacity hc
  · split
    · rename_i hs
      have h1 := s.held hs
      have h2 := s.inv.bound hs
      refine Nat.le_trans hsz (Nat.mul_le_mul_right w ?_)
      omega
    · exact Nat.le_refl _

/-- **Every position of the source lies below its width.** -/
theorem bit_of_width {i : Nat} (h : s.width ≤ i) : s.bit i = false := by
  have hsz := s.inv.shape.size_le
  have hmax := size_le_maxSize (s := s)
  unfold width at h
  unfold bit
  split at h
  · exact windowBit_of_le h
  · refine s.inv.clear i ?_
    split at h
    · rename_i hf
      rw [Bool.and_eq_true] at hf
      unfold size
      rw [if_pos hf.1]
      exact h
    · rw [s.inv.shape.numBlocks] at h
      cases hr : s.reading with
      | sets =>
          rw [hr] at h
          dsimp only at h
          omega
      | sequence =>
          rw [hr] at h
          exact h

theorem size_le_width (hwin : s.window = .none) : s.bits.size ≤ s.width := by
  have hsz := s.inv.shape.size_le
  have hmax := size_le_maxSize (s := s)
  unfold width
  rw [hwin]
  dsimp only
  split
  · rename_i hf
    rw [Bool.and_eq_true] at hf
    unfold size
    rw [if_pos hf.1]
  · rw [s.inv.shape.numBlocks]
    split <;> omega

theorem width_le : s.width ≤ s.bits.mBlocks.elems.length * w := by
  have hsz := s.inv.shape.size_le
  unfold width
  split
  · rename_i offset size hwin
    have := (s.inside offset size hwin).1
    omega
  · split
    · rename_i hf
      rw [Bool.and_eq_true] at hf
      unfold size at hsz
      rwa [if_pos hf.1] at hsz
    · rw [s.inv.shape.numBlocks]
      split
      · exact Nat.min_le_left _ _
      · exact hsz

theorem countBytes_eq (bytes : List Byte) :
    countBytes bytes = countBits (bitAt bytes) (bytes.length * 8) :=
  sum_countBits (by decide) bytes

theorem fixedBytes_spec (o : Nat → Nat → Bool) (hs : V.hasStaticSize = true) :
    (s.fixedBytes o).length = byteCount V.extent ∧ ∀ p, bitAt (s.fixedBytes o) p = s.bits.bit p := by
  obtain ⟨hl, hbits⟩ := toBytes_spec (o w 8) s.inv (byteCount V.extent)
  have hext : s.bits.size = V.extent := by
    unfold size
    rw [if_pos hs]
  refine ⟨hl, fun p => ?_⟩
  unfold fixedBytes
  rw [hbits]
  by_cases hp : p < byteCount V.extent * 8
  · rw [decide_eq_true hp, Bool.true_and]
  · have := byteCount_mul_ge (n := V.extent)
    rw [decide_eq_false hp, Bool.false_and, s.inv.clear p (by omega)]

/-- **`count` is the number of positions** of the source. -/
theorem count_eq (o : Nat → Nat → Bool) : s.count o = countBits s.bit s.width := by
  unfold count bit
  cases hwin : s.window with
  | some range =>
      obtain ⟨offset, size⟩ := range
      have hwidth : s.width = size := by
        unfold width
        rw [hwin]
      dsimp only
      rw [countRange_eq s.inv.shape (s.inside offset size hwin).1, hwidth]
      exact countBits_congr fun p hp => (windowBit_of_lt hp).symm
  | none =>
      have hle := size_le_width hwin
      have hclear (p : Nat) (hp : s.bits.size ≤ p) := s.inv.clear p hp
      dsimp only
      rw [countBits_of_clear hle fun p hp _ => hclear p hp]
      split
      · rename_i hf
        rw [Bool.and_eq_true] at hf
        obtain ⟨hl, hbits⟩ := s.fixedBytes_spec o hf.1
        have hext : s.bits.size = V.extent := by
          unfold size
          rw [if_pos hf.1]
        rw [countBytes_eq, hl, countBits_congr fun p _ => hbits p]
        refine countBits_of_clear ?_ fun p hp _ => hclear p hp
        rw [hext]
        exact byteCount_mul_ge
      · exact BitBlockContainer.count_eq s.inv

/-- **`copy` carries position `q` to position `q`**, as far as the target reaches. -/
theorem copy_spec (o : Nat → Nat → Bool) {u : Nat} (dst : List (BitVec u))
    (hd : tilingBlock u = true ∨ dst.length ≤ 1) (hu : 0 < u)
    (hclear : ∀ q, q < dst.length * u → bitAt dst q = false) :
    (s.copy o dst).length = dst.length ∧
      ∀ q, q < dst.length * u → bitAt (s.copy o dst) q = s.bit q := by
  have hlay : ByteLayout dst := hd.imp_left dvd_of_tilingBlock
  unfold copy bit
  cases hwin : s.window with
  | some range =>
      obtain ⟨offset, size⟩ := range
      exact copyWindow_spec s.inv (s.inside offset size hwin).1 hd hu hclear
  | none =>
      dsimp only
      split
      · rename_i hf
        rw [Bool.and_eq_true] at hf
        have hcopy := copyBits_spec (o 8 u) (by decide) hu (byteLayout_bytes (s.fixedBytes o)) hlay
          hclear
        exact ⟨hcopy.1, fun q hq => (hcopy.2 q hq).trans ((s.fixedBytes_spec o hf.1).2 q)⟩
      · exact copyBits_spec (o w u) V.bits_pos hu s.inv.byteLayout hlay hclear

end Source

/-! ## 2. The ways -/

section Ways
variable {w w' : Nat} {V : Vehicle w} (o : Nat → Nat → Bool) (mem : Memory) (s : Source V)

/-- `assign_bits` of an array of bytes: block for block into byte blocks, else as bytes. -/
def assignBits (c : BitBlockContainer V) (bytes : List Byte) : BitBlockContainer V :=
  if h : 8 = w then c.assignSameBlocks (bytes.map (BitVec.cast h))
  else c.assignBytes (o 8 w) (bitBytes (o 8 8) V.extent bytes)

/-- `from_fixed_bytes`. -/
def fromFixedBytes (V' : Vehicle w') (bytes : List Byte) : BitBlockContainer V' :=
  if V'.extent = 0 then .default V' 0 else assignBits o (.default V' 0) bytes

/-- `convert_fixed` where the two are no owners over one block type: the bytes cross whole. -/
def convertFixed (V' : Vehicle w') : BitBlockContainer V' :=
  if V.extent = V'.extent then fromFixedBytes o V' (s.fixedBytes o)
  else
    fromFixedBytes o V'
      (s.fixedBytes o ++ List.replicate (byteCount V'.extent - byteCount V.extent) zero)

/-- `convert_fixed` of two owners over one block type: block for block into zeros. -/
def convertSameBlocks (V' : Vehicle w) : BitBlockContainer V' :=
  (BitBlockContainer.default V' 0).withElems fun elems =>
    s.bits.mBlocks.elems ++ elems.drop s.bits.mBlocks.elems.length

/-- The bytes of `narrow_blocks`, the last one masked to the width. -/
def narrowedBytes (n : Nat) : List Byte :=
  let bytes := s.copy o (List.replicate (byteCount n) zero)
  if n % 8 ≠ 0 then
    bytes.set (byteCount n - 1) (bytes.getD (byteCount n - 1) zero &&& partialBlockMask (n % 8))
  else bytes

/-- `narrow_blocks`: a position past the fixed target's width is refused. -/
def narrowBlocks (V' : Vehicle w') : Except Exn (BitBlockContainer V') :=
  let bytes := narrowedBytes o s V'.extent
  if Source.countBytes bytes ≠ s.count o then .error .overflowError
  else .ok (fromFixedBytes o V' bytes)

/-- `target_width`: a set covers the width in whole blocks, up to the capacity it has. -/
def targetWidth (V' : Vehicle w') (reading : Reading) (width : Nat) : Nat :=
  match reading with
  | .sets =>
      let whole := blocksFor w' width * w' % 2 ^ 64
      if V'.hasStaticCapacity then min whole V'.extent else whole
  | .sequence => width

/-- `copy_blocks`: sized first, so that a target that cannot hold the width throws before a block is
    written. -/
def copyBlocks (V' : Vehicle w') (reading : Reading) : Except Exn (BitBlockContainer V') :=
  match resize mem (targetWidth V' reading s.width) false (BitBlockContainer.default V' 0) with
  | .error e _ => .error e
  | .ok _ sized =>
      let target := (sized.withElems fun elems => s.copy o elems).eraseUnused.recount
      if (reading = .sets ∧ V'.hasStaticCapacity = true) ∧
          (target.size < s.width ∧ target.count ≠ s.count o) then .error .badAlloc
      else .ok target

/-- `adopts_from`, of an rvalue owner: one block container, in a capacity that holds all of it. -/
def adopts (V V' : Vehicle w) : Bool :=
  match V.storage, V'.storage with
  | .growing t, .growing t' => { t with counted := false } == { t' with counted := false }
  | .capped n, .capped m => blocksFor w n == blocksFor w m && m == blocksFor w m * w
  | _, _ => false

/-- `adopt_blocks`: adopted whole, a sequence then takes the source's width. -/
def adoptBlocks (V' : Vehicle w) (reading : Reading) : Except Exn (BitBlockContainer V') :=
  let adopted := BitBlockContainer.adopt V' s.bits.extract.1
  match reading with
  | .sets => .ok adopted
  | .sequence =>
      match resize mem s.width false adopted with
      | .error e _ => .error e
      | .ok _ target => .ok target

/-- `bit_convert` of two that are no owners over one block type. -/
def bitConvert (V' : Vehicle w') (reading : Reading) : Except Exn (BitBlockContainer V') :=
  if V'.hasStaticSize && s.isFixed then .ok (convertFixed o s V')
  else if V'.hasStaticSize then narrowBlocks o s V'
  else copyBlocks o mem s V' reading

/-- `bit_convert` into an owner over the source's block type. -/
def bitConvertBlocks (rvalue : Bool) (V' : Vehicle w) (reading : Reading) :
    Except Exn (BitBlockContainer V') :=
  if V'.hasStaticSize && s.isFixed then
    .ok (if s.owns then convertSameBlocks s V' else convertFixed o s V')
  else if V'.hasStaticSize then narrowBlocks o s V'
  else if rvalue && s.owns && adopts V V' then adoptBlocks mem s V' reading
  else copyBlocks o mem s V' reading

end Ways

/-! ## 3. What each way leaves -/

/-- **Position `i` is where it was**, and a run-time sequence is as wide as its source. -/
structure Converted {w w' : Nat} {V : Vehicle w} {V' : Vehicle w'} (s : Source V) (reading : Reading)
    (d : BitBlockContainer V') : Prop where
  inv : d.Inv
  bit : ∀ i, d.bit i = s.bit i
  size : reading = .sequence → V'.hasStaticSize = false → d.size = s.width

section Fixed
variable {w w' : Nat} {V : Vehicle w} {V' : Vehicle w'} {o : Nat → Nat → Bool} {s : Source V}
  {reading : Reading}

theorem assignBits_spec {c : BitBlockContainer V} (hc : c.Inv) (hs : V.hasStaticSize = true)
    {bytes : List Byte} : (assignBits o c bytes).Inv ∧ ∀ p, (assignBits o c bytes).bit p =
      (decide (p < V.extent) && bitAt bytes p) := by
  rw [← size_of_static hs (c := c)]
  unfold assignBits
  split
  · rename_i h
    subst h
    have hid : bytes.map (BitVec.cast (rfl : 8 = 8)) = bytes :=
      (List.map_congr_left fun b _ => BitVec.cast_eq rfl b).trans (List.map_id' bytes)
    rw [hid]
    exact assignSameBlocks_spec hc hs _
  · obtain ⟨hinv, hbits⟩ := assignBytes_spec (o 8 w) hc hs
      (bitBytes (o 8 8) V.extent bytes)
    refine ⟨hinv, fun p => ?_⟩
    rw [hbits, (bitBytes_spec (by decide) (byteLayout_bytes bytes)).2, size_of_static hs]
    by_cases hp : p < V.extent
    · have := byteCount_mul_ge (n := V.extent)
      rw [decide_eq_true (show p < byteCount V.extent * 8 by omega), Bool.true_and]
    · rw [decide_eq_false hp, Bool.false_and, Bool.false_and]

theorem fromFixedBytes_spec (hs : V'.hasStaticSize = true) (bytes : List Byte) :
    (fromFixedBytes o V' bytes).Inv ∧ ∀ p, (fromFixedBytes o V' bytes).bit p =
      (decide (p < V'.extent) && bitAt bytes p) := by
  obtain ⟨hinv, hbits⟩ := default_spec (V := V') (Or.inr hs) 0
  unfold fromFixedBytes
  split
  · rename_i h0
    exact ⟨hinv, fun p => by rw [hbits, h0, decide_eq_false (by omega), Bool.false_and]⟩
  · exact assignBits_spec hinv hs

/-- A fixed source is the whole of its storage. -/
theorem Source.bit_of_fixed (hf : s.isFixed = true) :
    V.hasStaticSize = true ∧ (∀ p, s.bit p = s.bits.bit p) ∧
      ∀ p, V.extent ≤ p → s.bits.bit p = false := by
  unfold isFixed at hf
  rw [Bool.and_eq_true, Option.isNone_iff_eq_none] at hf
  refine ⟨hf.2, fun p => ?_, fun p hp => s.inv.clear p ?_⟩
  · unfold bit
    rw [hf.1]
  · rwa [size_of_static hf.2]

/-- **The bytes cross whole into zeros.** -/
theorem convertFixed_spec (hs : V'.hasStaticSize = true) (hf : s.isFixed = true)
    (hle : V.extent ≤ V'.extent) : Converted s reading (convertFixed o s V') := by
  obtain ⟨hst, hbit, hclear⟩ := s.bit_of_fixed hf
  obtain ⟨hl, hbytes⟩ := s.fixedBytes_spec o hst
  have hcut (p : Nat) : (decide (p < V'.extent) && s.bits.bit p) = s.bits.bit p := by
    by_cases hp : p < V'.extent
    · rw [decide_eq_true hp, Bool.true_and]
    · rw [hclear p (by omega), Bool.and_false]
  unfold convertFixed
  split
  · obtain ⟨hinv, hbits⟩ := fromFixedBytes_spec (o := o) hs (s.fixedBytes o)
    exact ⟨hinv, fun p => by rw [hbits, hbytes, hcut, hbit], fun _ h => by rw [hs] at h; cases h⟩
  · obtain ⟨hinv, hbits⟩ := fromFixedBytes_spec (o := o) hs (s.fixedBytes o ++
      List.replicate (byteCount V'.extent - byteCount V.extent) zero)
    refine ⟨hinv, fun p => ?_, fun _ h => by rw [hs] at h; cases h⟩
    rw [hbits, bitAt_append (by decide), hl, hbit]
    split
    · rw [hbytes, hcut]
    · rename_i hge
      have := byteCount_mul_ge (n := V.extent)
      rw [bitAt_zeros, Bool.and_false, hclear p (by omega)]

/-- **Block for block into zeros.** -/
theorem convertSameBlocks_spec {V' : Vehicle w} (hs : V'.hasStaticSize = true)
    (hf : s.isFixed = true) (hle : V.extent ≤ V'.extent) :
    Converted s reading (convertSameBlocks s V') := by
  obtain ⟨hst, hbit, hclear⟩ := s.bit_of_fixed hf
  obtain ⟨hinv, hbits⟩ := default_spec (V := V') (Or.inr hs) 0
  have hw := V.bits_pos
  have hsrc := s.inv.shape
  have hdst := hinv.shape
  unfold Shape at hsrc hdst
  rw [size_of_static hst] at hsrc
  rw [size_of_static hs] at hdst
  have hll : s.bits.mBlocks.elems.length ≤ (BitBlockContainer.default V' 0).mBlocks.elems.length := by
    rw [hsrc, hdst]
    exact blocksFor_mono hw hle
  have hsw : SameWidth (BitBlockContainer.default V' 0) (convertSameBlocks s V') := by
    refine sameWidth_withElems ?_
    rw [List.length_append, List.length_drop]
    omega
  have hbit' (p : Nat) : (convertSameBlocks s V').bit p = s.bits.bit p := by
    have h : (convertSameBlocks s V').bit p = bitAt (s.bits.mBlocks.elems ++
        (BitBlockContainer.default V' 0).mBlocks.elems.drop s.bits.mBlocks.elems.length) p := rfl
    rw [h, bitAt_append hw]
    split
    · rfl
    · rename_i hge
      rw [bitAt_drop hw, s.bits.bit_of_le (by omega)]
      exact hbits _
  refine ⟨hinv.write hsw (fun p hp => ?_) fun hc => ?_, fun p => (hbit' p).trans (hbit p).symm,
    fun _ h => by rw [hs] at h; cases h⟩
  · rw [size_of_static hs] at hp
    rw [hbit', hclear p (by omega)]
  · rw [not_counted_of_static hs] at hc
    cases hc

theorem bitAt_narrowedBytes (n : Nat) : (narrowedBytes o s n).length = byteCount n ∧
    ∀ p, bitAt (narrowedBytes o s n) p = (decide (p < n) && s.bit p) := by
  have hcopy := s.copy_spec o (List.replicate (byteCount n) (zero : Byte))
    (Or.inl (by decide)) (by decide) fun p _ => bitAt_zeros
  rw [List.length_replicate] at hcopy
  obtain ⟨hl, hbits⟩ := hcopy
  have hge := byteCount_mul_ge (n := n)
  have hlast : byteCount n * 8 < n + 8 := by
    unfold byteCount
    omega
  unfold narrowedBytes
  dsimp only
  split
  · rename_i hr
    have hpos : byteCount n - 1 < byteCount n := by
      unfold byteCount
      omega
    refine ⟨by rw [List.length_set, hl], fun p => ?_⟩
    rw [bitAt_set (by rw [hl]; exact hpos)]
    split
    · rename_i hp
      have hp8 := Nat.mod_lt p (show 0 < 8 by decide)
      rw [BitVec.getLsbD_and, getLsbD_partialBlockMask (by omega), ← hp, Bool.and_comm]
      have hread := hbits p (by omega)
      unfold bitAt at hread
      rw [hread]
      congr 1
      rw [decide_eq_decide]
      unfold byteCount at hp
      omega
    · rename_i hp
      by_cases hpn : p < byteCount n * 8
      · rw [hbits p hpn, decide_eq_true (show p < n by omega), Bool.true_and]
      · rw [bitAt_of_le (by decide) (by rw [hl]; omega), decide_eq_false (by omega),
          Bool.false_and]
  · rename_i hr
    have hn : byteCount n * 8 = n := by
      unfold byteCount
      omega
    refine ⟨hl, fun p => ?_⟩
    by_cases hpn : p < n
    · rw [hbits p (by omega), decide_eq_true hpn, Bool.true_and]
    · rw [bitAt_of_le (by decide) (by rw [hl]; omega), decide_eq_false hpn, Bool.false_and]

/-- **A fixed width refuses a run-time source exactly for a position past it**, and holds the rest. -/
theorem narrowBlocks_spec (reading : Reading) (hs : V'.hasStaticSize = true) :
    ((∃ p, V'.extent ≤ p ∧ s.bit p = true) → narrowBlocks o s V' = .error .overflowError) ∧
    (¬ (∃ p, V'.extent ≤ p ∧ s.bit p = true) →
      ∃ d, narrowBlocks o s V' = .ok d ∧ Converted s reading d) := by
  obtain ⟨hl, hbytes⟩ := bitAt_narrowedBytes (o := o) (s := s) V'.extent
  obtain ⟨hinv, hbits⟩ := fromFixedBytes_spec (o := o) hs (narrowedBytes o s V'.extent)
  have hcount : Source.countBytes (narrowedBytes o s V'.extent) ≠ s.count o ↔
      ∃ p, V'.extent ≤ p ∧ s.bit p = true := by
    rw [Source.countBytes_eq, hl, s.count_eq o]
    exact countBits_cut_ne_iff byteCount_mul_ge hbytes fun p hp => s.bit_of_width hp
  unfold narrowBlocks
  dsimp only
  constructor
  · intro hlost
    rw [if_pos (hcount.mpr hlost)]
  · intro hkept
    rw [if_neg fun hne => hkept (hcount.mp hne)]
    refine ⟨_, rfl, hinv, fun p => ?_, fun _ h => by rw [hs] at h; cases h⟩
    rw [hbits, hbytes]
    by_cases hp : p < V'.extent
    · rw [decide_eq_true hp, Bool.true_and, Bool.true_and]
    · rw [decide_eq_false hp, Bool.false_and]
      exact (Bool.eq_false_iff.mpr fun hb => hkept ⟨p, by omega, hb⟩).symm

end Fixed

section RunTime
variable {w w' : Nat} {V : Vehicle w} {V' : Vehicle w'} {o : Nat → Nat → Bool} {mem : Memory}
  {s : Source V} {reading : Reading}

/-- A container rewritten, its tail cleared and its count taken anew. -/
theorem rewritten_spec {c d : BitBlockContainer V} (hc : c.Inv) (hsw : SameWidth c d) :
    d.eraseUnused.recount.Inv ∧ d.eraseUnused.recount.size = c.size ∧
      ∀ p, d.eraseUnused.recount.bit p = (d.bit p && decide (p < c.size)) := by
  have hsw' : SameWidth c d.eraseUnused := hsw.trans sameWidth_eraseUnused
  have hbit (p : Nat) : d.eraseUnused.bit p = (d.bit p && decide (p < c.size)) := by
    rw [bit_eraseUnused (hsw.shape hc.shape), hsw.size]
  have hclear (p : Nat) (hp : c.size ≤ p) : d.eraseUnused.bit p = false := by
    rw [hbit, decide_eq_false (by omega), Bool.and_false]
  have hrbit (p : Nat) : d.eraseUnused.recount.bit p = d.eraseUnused.bit p :=
    bit_congr mBlocks_recount
  refine ⟨hc.write (hsw'.trans sameWidth_recount) (fun p hp => ?_) fun hs => ?_,
    (hsw'.trans sameWidth_recount).size, fun p => (hrbit p).trans (hbit p)⟩
  · rw [hrbit, hclear p hp]
  · rw [mCount_recount (hsw'.shape hc.shape) (fun p hp => hclear p (by rwa [hsw'.size] at hp)) hs,
      hsw'.size]
    exact countBits_congr fun p _ => (hrbit p).symm

/-- The width a set takes: short of the address space, no multiplication wraps. -/
theorem targetWidth_sets : targetWidth V' .sets s.width =
    if V'.hasStaticCapacity then min (blocksFor w' s.width * w') V'.extent
    else blocksFor w' s.width * w' := by
  have h1 := blocksFor_mul_lt (n := s.width) V'.bits_pos
  have h2 := s.width_le
  have h3 := s.resident
  have h4 := V'.bits_int
  unfold targetWidth
  dsimp only
  rw [Nat.mod_eq_of_lt (by omega)]

/-- What a target cannot hold: a position past a fixed width out of a run-time one, a key past a
    set's capacity, a width past a sequence's. -/
def Refused (s : Source V) (V' : Vehicle w') (reading : Reading) : Prop :=
  if V'.hasStaticSize then s.isFixed = false ∧ ∃ p, V'.extent ≤ p ∧ s.bit p = true
  else V'.hasStaticCapacity = true ∧
    match reading with
    | .sets => ∃ p, V'.extent ≤ p ∧ s.bit p = true
    | .sequence => V'.extent < s.width

/-- **What a conversion answers**: the source exactly where it returns, and nothing where the target
    cannot hold it; it returns elsewhere, memory permitting. -/
structure Lawful (mem : Memory) (s : Source V) (reading : Reading)
    (result : Except Exn (BitBlockContainer V')) : Prop where
  exact : ∀ d, result = .ok d → Converted s reading d
  refuses : Refused s V' reading → ∃ e, result = .error e
  returns : ¬ Refused s V' reading → (V'.hasStaticSize = false →
    Grants V' mem (blocksFor w' (targetWidth V' reading s.width))) → ∃ d, result = .ok d

/-- The width a target takes is within its capacity, unless it is refused. -/
theorem targetWidth_fits (hs : V'.hasStaticSize = false) (h : ¬ Refused s V' reading) :
    overCapacity V' (targetWidth V' reading s.width) = false := by
  unfold overCapacity
  cases hc : V'.hasStaticCapacity with
  | false => rfl
  | true =>
      rw [Bool.true_and, decide_eq_false_iff_not]
      cases reading with
      | sets =>
          rw [targetWidth_sets, if_pos hc]
          omega
      | sequence =>
          intro hlt
          refine h ?_
          unfold Refused
          rw [hs, if_neg (by decide)]
          exact ⟨hc, hlt⟩

/-- What the sized target holds once the blocks are copied. -/
theorem copied_spec (hs : V'.hasStoredSize = true) {n : Nat} {sized : BitBlockContainer V'}
    (hr : resize mem n false (BitBlockContainer.default V' 0) = .ok () sized) :
    let target := (sized.withElems fun elems => s.copy o elems).eraseUnused.recount
    target.Inv ∧ target.size = n ∧ (∀ p, target.bit p = (decide (p < n) && s.bit p)) ∧
      (target.count ≠ s.count o ↔ ∃ p, n ≤ p ∧ s.bit p = true) := by
  obtain ⟨hdef, hzero⟩ := default_spec (V := V') (Or.inl hs) 0
  obtain ⟨hinv, hsize, hbits⟩ := resizeTo_ok hdef hs hr
  have hclear (q : Nat) : bitAt sized.mBlocks.elems q = false := by
    refine (hbits q).trans ?_
    rw [hzero]
    split
    · split <;> rfl
    · rfl
  obtain ⟨hl, hcopy⟩ := s.copy_spec o _ hinv.tiles V'.bits_pos fun q _ => hclear q
  have hsz := hinv.shape.size_le
  obtain ⟨htinv, htsize, htbit⟩ := rewritten_spec hinv
    (sameWidth_withElems (f := fun elems => s.copy o elems) hl)
  have hbit (p : Nat) : ((sized.withElems fun elems => s.copy o elems).eraseUnused.recount).bit p =
      (decide (p < n) && s.bit p) := by
    rw [htbit, hsize, Bool.and_comm]
    by_cases hp : p < n
    · rw [decide_eq_true hp, Bool.true_and, Bool.true_and]
      exact hcopy p (by omega)
    · rw [decide_eq_false hp, Bool.false_and, Bool.false_and]
  refine ⟨htinv, htsize.trans hsize, hbit, ?_⟩
  rw [BitBlockContainer.count_eq htinv, htsize, hsize, s.count_eq o]
  exact countBits_cut_ne_iff (Nat.le_refl n) hbit fun p hp => s.bit_of_width hp

/-- A position past the width taken is past a set's capacity. -/
theorem past_targetWidth {p : Nat} (hp : targetWidth V' reading s.width ≤ p)
    (hb : s.bit p = true) : reading = .sets ∧ V'.hasStaticCapacity = true ∧
      targetWidth V' reading s.width = V'.extent ∧ V'.extent < s.width := by
  have hlt : p < s.width := by
    by_contra hge
    rw [s.bit_of_width (by omega)] at hb
    cases hb
  have hwhole := le_blocksFor_mul (n := s.width) V'.bits_pos
  cases reading with
  | sequence =>
      unfold targetWidth at hp
      dsimp only at hp
      omega
  | sets =>
      rw [targetWidth_sets] at hp ⊢
      split at hp
      · rename_i hc
        rw [if_pos hc]
        exact ⟨rfl, hc, by omega, by omega⟩
      · omega

/-- **A run-time target takes the source, sized first.** -/
theorem copyBlocks_lawful (hs : V'.hasStoredSize = true) :
    Lawful mem s reading (copyBlocks o mem s V' reading) := by
  have hns := stored_not_static hs
  cases hr : resize mem (targetWidth V' reading s.width) false (BitBlockContainer.default V' 0) with
  | error e d =>
      have hresult : copyBlocks o mem s V' reading = .error e := by
        unfold copyBlocks
        rw [hr]
      refine ⟨fun d hd => ?_, fun _ => ⟨e, hresult⟩, fun href hg => ?_⟩
      · rw [hresult] at hd
        cases hd
      · obtain ⟨d', hd'⟩ := resizeTo_of_grants (c := BitBlockContainer.default V' 0) (v := false)
          (targetWidth_fits hns href) (hg hns)
        unfold resize at hr
        rw [hd'] at hr
        cases hr
  | ok u sized =>
      obtain ⟨hinv, hsize, hbit, hcount⟩ := copied_spec (o := o) (s := s) hs hr
      generalize hto : (sized.withElems fun elems => s.copy o elems).eraseUnused.recount = target
        at hinv hsize hbit hcount
      have hresult : copyBlocks o mem s V' reading =
          if (reading = .sets ∧ V'.hasStaticCapacity = true) ∧
            (target.size < s.width ∧ target.count ≠ s.count o) then .error .badAlloc
          else .ok target := by
        unfold copyBlocks
        rw [hr]
        dsimp only
        rw [hto]
      -- a position is lost exactly where the count shows it
      have hlost : (∃ p, targetWidth V' reading s.width ≤ p ∧ s.bit p = true) ↔
          (reading = .sets ∧ V'.hasStaticCapacity = true) ∧
            (target.size < s.width ∧ target.count ≠ s.count o) := by
        rw [hcount, hsize]
        constructor
        · intro ⟨p, hp, hb⟩
          obtain ⟨h1, h2, h3, h4⟩ := past_targetWidth hp hb
          exact ⟨⟨h1, h2⟩, by omega, p, hp, hb⟩
        · intro h
          exact h.2.2
      rw [hresult]
      refine ⟨fun d hd => ?_, fun href => ?_, fun href _ => ?_⟩
      · split at hd
        · cases hd
        · rename_i hkept
          cases hd
          refine ⟨hinv, fun p => ?_, fun hseq _ => ?_⟩
          · rw [hbit]
            by_cases hp : p < targetWidth V' reading s.width
            · rw [decide_eq_true hp, Bool.true_and]
            · rw [decide_eq_false hp, Bool.false_and]
              exact (Bool.eq_false_iff.mpr fun hb => hkept (hlost.mp ⟨p, by omega, hb⟩)).symm
          · rw [hsize, hseq]
            rfl
      · unfold Refused at href
        rw [hns, if_neg (by decide)] at href
        obtain ⟨hc, href⟩ := href
        have hcap := hinv.capacity hc
        rw [hsize] at hcap
        cases reading with
        | sets =>
            obtain ⟨p, hp, hb⟩ := href
            rw [if_pos (hlost.mp ⟨p, by omega, hb⟩)]
            exact ⟨_, rfl⟩
        | sequence =>
            exact absurd href (Nat.not_lt.mpr hcap)
      · rw [if_neg fun hthrow => ?_]
        · exact ⟨_, rfl⟩
        · obtain ⟨p, hp, hb⟩ := hlost.mpr hthrow
          obtain ⟨h1, h2, h3, -⟩ := past_targetWidth hp hb
          refine href ?_
          unfold Refused
          rw [hns, if_neg (by decide), h1]
          exact ⟨h2, p, by omega, hb⟩

/-- Blocks that move over into one container fit it. -/
theorem adopts_fits {V₁ : Vehicle w} (h : adopts V V₁ = true) :
    V₁.hasStoredSize = true ∧ Adoptable V₁ s.bits.mBlocks.elems ∧
      (V₁.hasStaticCapacity = true → s.width ≤ V₁.extent) := by
  have hwidth := s.width_le
  have hlen := s.inv.shape
  unfold Shape at hlen
  unfold adopts at h
  split at h
  · rename_i t t' hst hst'
    have hs : V.hasStoredSize = true := by
      unfold Vehicle.hasStoredSize
      rw [hst]
    have hs' : V₁.hasStoredSize = true := by
      unfold Vehicle.hasStoredSize
      rw [hst']
    have hc' : V₁.hasStaticCapacity = false := by
      unfold Vehicle.hasStaticCapacity
      rw [hst']
    have hbound := s.inv.bound hs
    rw [s.inv.shape.numBlocks] at hbound
    refine ⟨hs', ⟨fun _ => hbound, fun hc => ?_, fun hn => ?_⟩, fun hc => ?_⟩
    · rw [hc'] at hc
      cases hc
    · rw [hs'] at hn
      cases hn
    · rw [hc'] at hc
      cases hc
  · rename_i n m hst hst'
    rw [Bool.and_eq_true, beq_iff_eq, beq_iff_eq] at h
    have hs : V.hasStoredSize = true := by
      unfold Vehicle.hasStoredSize
      rw [hst]
    have hs' : V₁.hasStoredSize = true := by
      unfold Vehicle.hasStoredSize
      rw [hst']
    have hext' : V₁.extent = m := by
      unfold Vehicle.extent
      rw [hst']
    have hcap := s.inv.capacity (by unfold Vehicle.hasStaticCapacity; rw [hst])
    unfold Vehicle.extent at hcap
    rw [hst] at hcap
    have hbound := s.inv.bound hs
    rw [s.inv.shape.numBlocks] at hbound
    -- the source's blocks are no more than its capacity's, which the target has too
    have hle : s.bits.mBlocks.elems.length * w ≤ m := by
      have := blocksFor_mono V.bits_pos hcap
      rw [← hlen, h.1] at this
      have := Nat.mul_le_mul_right w this
      omega
    refine ⟨hs', ⟨fun _ => hbound, fun _ => by rw [hext']; exact hle, fun hn => ?_⟩, fun _ => ?_⟩
    · rw [hs'] at hn
      cases hn
    · rw [hext']
      omega
  · cases h

/-- **Blocks taken over are the source's own.** -/
theorem adoptBlocks_lawful {V₁ : Vehicle w} (h : adopts V V₁ = true) (hwin : s.window = .none) :
    Lawful mem s reading (adoptBlocks mem s V₁ reading) := by
  obtain ⟨hs, hfit, hcap⟩ := adopts_fits (s := s) h
  have hns := stored_not_static hs
  obtain ⟨hinv, hsize, hbits⟩ := @adopt_spec w V₁ s.bits.extract.1 hfit
  have hbit (p : Nat) : (BitBlockContainer.adopt V₁ s.bits.extract.1).bit p = s.bit p := by
    unfold Source.bit
    rw [hwin]
    exact hbits p
  have hkept : ¬ Refused s V₁ reading := by
    unfold Refused
    rw [hns, if_neg (by decide)]
    intro ⟨hc, href⟩
    cases reading with
    | sets =>
        obtain ⟨p, hp, hb⟩ := href
        rw [s.bit_of_width (Nat.le_trans (hcap hc) hp)] at hb
        cases hb
    | sequence => exact absurd href (Nat.not_lt.mpr (hcap hc))
  cases reading with
  | sets =>
      refine ⟨fun d hd => ?_, fun href => absurd href hkept, fun _ _ => ⟨_, rfl⟩⟩
      cases hd
      exact ⟨hinv, hbit, fun hseq => by cases hseq⟩
  | sequence =>
      have hfits : overCapacity V₁ s.width = false := targetWidth_fits hns hkept
      refine ⟨fun d hd => ?_, fun href => absurd href hkept, fun _ hg => ?_⟩
      · unfold adoptBlocks at hd
        dsimp only at hd
        split at hd
        · cases hd
        · rename_i u target hr
          cases hd
          obtain ⟨htinv, htsize, htbits⟩ := resizeTo_ok hinv hs hr
          refine ⟨htinv, fun p => ?_, fun _ _ => htsize⟩
          rw [htbits]
          by_cases hp : p < s.width
          · rw [if_pos hp, hbit]
            split
            · rfl
            · rename_i hge
              rw [← hbit]
              exact (hinv.clear p (by omega)).symm
          · rw [if_neg hp, s.bit_of_width (by omega)]
      · obtain ⟨d, hd⟩ := resizeTo_of_grants (c := BitBlockContainer.adopt V₁ s.bits.extract.1)
          (v := false) hfits (hg hns)
        refine ⟨d, ?_⟩
        unfold adoptBlocks resize
        dsimp only
        rw [hd]

end RunTime

/-! ## 4. The law -/

section Law
variable {w w' : Nat} {V : Vehicle w} {V' : Vehicle w'} {o : Nat → Nat → Bool} {mem : Memory}
  {s : Source V} {reading : Reading} {result : Except Exn (BitBlockContainer V')}

/-- The conversions of a source into an owner: across block types, and over one block type from an
    lvalue or an rvalue. -/
inductive Conversion (V' : Vehicle w') (o : Nat → Nat → Bool) (mem : Memory) (reading : Reading) :
    {w : Nat} → {V : Vehicle w} → Source V → Except Exn (BitBlockContainer V') → Prop where
  | across {w : Nat} {V : Vehicle w} (s : Source V) :
      Conversion V' o mem reading s (bitConvert o mem s V' reading)
  | blocks {V : Vehicle w'} (s : Source V) (rvalue : Bool) :
      Conversion V' o mem reading s (bitConvertBlocks o mem s rvalue V' reading)

/-- A fixed width into one at least as wide is never refused. -/
theorem fixed_lawful {d : BitBlockContainer V'} (hs : V'.hasStaticSize = true)
    (hf : s.isFixed = true) (h : Converted s reading d) : Lawful mem s reading (.ok d) := by
  refine ⟨fun d' hd => ?_, fun href => ?_, fun _ _ => ⟨d, rfl⟩⟩
  · cases hd
    exact h
  · unfold Refused at href
    rw [hs, if_pos rfl, hf] at href
    cases href.1

theorem narrow_lawful (hs : V'.hasStaticSize = true) (hf : s.isFixed = false) :
    Lawful mem s reading (narrowBlocks o s V') := by
  obtain ⟨hthrows, hkeeps⟩ := narrowBlocks_spec (o := o) (s := s) reading hs
  have href : Refused s V' reading ↔ ∃ p, V'.extent ≤ p ∧ s.bit p = true := by
    unfold Refused
    rw [hs, if_pos rfl, hf]
    simp
  refine ⟨fun d hd => ?_, fun h => ⟨_, hthrows (href.mp h)⟩, fun h _ => ?_⟩
  · by_cases hlost : ∃ p, V'.extent ≤ p ∧ s.bit p = true
    · rw [hthrows hlost] at hd
      cases hd
    · obtain ⟨d', hd', hconv⟩ := hkeeps hlost
      rw [hd'] at hd
      cases hd
      exact hconv
  · obtain ⟨d, hd, -⟩ := hkeeps fun hc => h (href.mpr hc)
    exact ⟨d, hd⟩

theorem not_static_stored (hv : V'.storage ≠ .lent) (hs : V'.hasStaticSize = false) :
    V'.hasStoredSize = true := by
  rcases V'.owned_of_not_lent hv with h | h
  · exact h
  · rw [hs] at h
    cases h

/-- Whatever way is taken. -/
theorem Conversion.lawful (hv : V'.storage ≠ .lent)
    (hle : V'.hasStaticSize = true → s.isFixed = true → V.extent ≤ V'.extent)
    (h : Conversion V' o mem reading s result) : Lawful mem s reading result := by
  cases h with
  | across =>
      unfold bitConvert
      cases hs : V'.hasStaticSize with
      | true =>
          cases hf : s.isFixed with
          | true => exact fixed_lawful hs hf (convertFixed_spec hs hf (hle hs hf))
          | false => exact narrow_lawful hs hf
      | false => exact copyBlocks_lawful (not_static_stored hv hs)
  | blocks _ rvalue =>
      unfold bitConvertBlocks
      cases hs : V'.hasStaticSize with
      | true =>
          cases hf : s.isFixed with
          | true =>
              rw [Bool.and_self, if_pos rfl]
              refine fixed_lawful hs hf ?_
              split
              · exact convertSameBlocks_spec hs hf (hle hs hf)
              · exact convertFixed_spec hs hf (hle hs hf)
          | false => exact narrow_lawful hs hf
      | false =>
          rw [Bool.false_and, if_neg (by decide), if_neg (by decide)]
          split
          · rename_i ha
            rw [Bool.and_eq_true, Bool.and_eq_true] at ha
            refine adoptBlocks_lawful ha.2 ?_
            -- a window owns nothing
            cases hwin : s.window with
            | none => rfl
            | some range =>
                have := (s.inside range.1 range.2 hwin).2.1
                rw [this] at ha
                cases ha.1.2
          · exact copyBlocks_lawful (not_static_stored hv hs)

/-- Results of sources that read alike read alike. -/
theorem Converted.same {w₁ : Nat} {V₁ : Vehicle w₁} {t : Source V₁} {d e : BitBlockContainer V'}
    (hd : Converted s reading d) (he : Converted t reading e) (hbit : ∀ p, s.bit p = t.bit p)
    (hwidth : s.width = t.width) : SameReading reading d e := by
  have hagree (p : Nat) : d.bit p = e.bit p := by rw [hd.bit, he.bit, hbit]
  cases reading with
  | sets => exact hagree
  | sequence =>
      refine bools_eq_iff.mpr ⟨?_, fun p _ => hagree p⟩
      cases hs : V'.hasStaticSize with
      | true => rw [size_of_static hs, size_of_static hs]
      | false => rw [hd.size rfl hs, he.size rfl hs, hwidth]

/-- **The conversion law.** When `bit_convert` returns, position `i` of the result is set exactly
    when position `i` of the source is; apart from memory it throws exactly where the target cannot
    hold the source; and sources that read alike give results that read alike, whichever way each
    was taken. -/
theorem convert_law (hv : V'.storage ≠ .lent)
    (hle : V'.hasStaticSize = true → s.isFixed = true → V.extent ≤ V'.extent)
    (h : Conversion V' o mem reading s result) :
    Lawful mem s reading result ∧
    ∀ {w₁ : Nat} {V₁ : Vehicle w₁} (t : Source V₁) (o₁ : Nat → Nat → Bool) (mem₁ : Memory)
      (result₁ : Except Exn (BitBlockContainer V')),
      (V'.hasStaticSize = true → t.isFixed = true → V₁.extent ≤ V'.extent) →
      Conversion V' o₁ mem₁ reading t result₁ → (∀ p, s.bit p = t.bit p) → s.width = t.width →
      ∀ d e, result = .ok d → result₁ = .ok e → SameReading reading d e := by
  have hlaw := h.lawful hv hle
  refine ⟨hlaw, fun t o₁ mem₁ result₁ hle₁ h₁ hbit hwidth d e hd he => ?_⟩
  exact (hlaw.exact d hd).same ((h₁.lawful hv hle₁).exact e he) hbit hwidth

/-- The growing set of nine goes into 256 positions, and the ninth is there. -/
theorem convert_law_nine : ∃ (s : Source (byteVector true)) (d : BitBlockContainer fixedBytes),
    bitConvert (fun _ _ => false) .ample s fixedBytes .sets = .ok d ∧ d.bit 9 = true := by
  have h0 : SetRun (byteVector true) (unsignedMapping 8) false true _ .empty := .start 0
  have h1 := h0.step .ample (.insert 9) (show (unsignedMapping 8).isKey 9 = true by decide) rfl
  have hc := h1.represents (by decide) (unsignedMapping_bijective 8)
  let s : Source (byteVector true) :=
    { bits := _, reading := .sets, owns := true, window := none, inv := hc.inv,
      held := fun _ => by decide, resident := by decide, inside := fun _ _ h => by cases h }
  have hlaw := (convert_law (by decide) (fun _ hf => by cases hf)
    (.across s : Conversion fixedBytes (fun _ _ => false) .ample .sets s _)).1
  have hkept : ¬ Refused s fixedBytes .sets := by
    intro ⟨_, p, hp, hb⟩
    have hwidth : s.width ≤ 256 := Nat.le_of_ble_eq_true rfl
    rw [s.bit_of_width (Nat.le_trans hwidth hp)] at hb
    cases hb
  obtain ⟨d, hd⟩ := hlaw.returns hkept fun hs => by cases hs
  refine ⟨s, d, hd, ?_⟩
  rw [(hlaw.exact d hd).bit]
  exact (hc.bit 9).mpr ⟨9, OrderedKeys.mem_insert.mpr (Or.inl rfl), rfl⟩

end Law

end XstdBits
