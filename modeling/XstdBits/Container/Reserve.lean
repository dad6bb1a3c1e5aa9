/-
  File: XstdBits/Container/Reserve.lean
  Subject: when a growth completes, and what it keeps in reserve.

  * a width that fits is reached (`HasRoom`), and so is one whose blocks are in hand already
    (`Reserved`), which asks the memory for nothing.
  * `resizeTo_ends` and `append_ends` say both ends of a growth: what a return leaves, and that a
    throw leaves the container as it was and came where neither held.
  * `Intact` is what a caller sees of the strong guarantee: elements, width and kept count.
-/
import XstdBits.Container.Growth

namespace XstdBits

namespace BitBlockContainer
variable {w : Nat} {V : Vehicle w} {c d : BitBlockContainer V} {mem : Memory} {n m k : Nat}
  {v : Bool} {value : BitVec w}

/-! ## 1. A width that fits -/

/-- **A width that fits**: the container counts its positions, the capacity holds them, and the
    memory grants blocks up to it. -/
structure HasRoom (V : Vehicle w) (mem : Memory) (n : Nat) : Prop where
  addressable : n ≤ V.maxAddressableWidth
  capacity : overCapacity V n = false
  grants : ∀ k, k ≤ blocksFor w n → Grants V mem k

theorem overCapacity_mono (h : overCapacity V n = false) (hm : m ≤ n) :
    overCapacity V m = false := by
  unfold overCapacity at h ⊢
  cases hc : V.hasStaticCapacity with
  | false => rfl
  | true =>
      rw [hc, Bool.true_and, decide_eq_false_iff_not] at h
      rw [Bool.true_and, decide_eq_false_iff_not]
      omega

theorem HasRoom.mono (h : HasRoom V mem n) (hm : m ≤ n) : HasRoom V mem m where
  addressable := Nat.le_trans hm h.addressable
  capacity := overCapacity_mono h.capacity hm
  grants k hk := h.grants k (Nat.le_trans hk (blocksFor_mono V.bits_pos hm))

/-- A vector of bytes has room for sixteen positions in ample memory. -/
theorem hasRoom_byteVector {counted : Bool} (hn : n ≤ 16) : HasRoom (byteVector counted) .ample n :=
  HasRoom.mono (n := 16)
    ⟨Nat.le_of_ble_eq_true rfl, rfl, fun _ hk => grants_byteVector hk⟩ hn

theorem HasRoom.checked (h : HasRoom V mem n) : checkAddressableWidth V n = .ok n := by
  unfold checkAddressableWidth
  rw [if_neg (Nat.not_lt.mpr h.addressable)]

theorem HasRoom.makeRoom (h : HasRoom V mem n) (b : Blocks w) :
    ∃ b', b.makeRoom V mem (blocksFor w n) = .ok b' :=
  makeRoom_of_grants (blocks_fit h.capacity) (h.grants _ (Nat.le_refl _))

/-! ## 2. A width in hand -/

/-- **A width in hand**: the capacity holds it and its blocks are reserved. -/
structure Reserved (c : BitBlockContainer V) (n : Nat) : Prop where
  capacity : overCapacity V n = false
  blocks : V.hasStaticCapacity = false →
    blocksFor w n ≤ c.mBlocks.reserved ∧ blocksFor w n ≤ V.maxNumBlocks

theorem Reserved.mono (h : Reserved c n) (hm : m ≤ n) : Reserved c m where
  capacity := overCapacity_mono h.capacity hm
  blocks hc := by
    obtain ⟨h1, h2⟩ := h.blocks hc
    have := blocksFor_mono V.bits_pos hm
    exact ⟨by omega, by omega⟩

/-- What is reserved stays in hand while the reserve does not shrink. -/
theorem Reserved.kept (h : Reserved c n) (hd : c.mBlocks.reserved ≤ d.mBlocks.reserved) :
    Reserved d n where
  capacity := h.capacity
  blocks hc := by
    obtain ⟨h1, h2⟩ := h.blocks hc
    exact ⟨Nat.le_trans h1 hd, h2⟩

/-- Blocks in hand are not asked for. -/
theorem Reserved.makeRoom_eq (h : Reserved c n) :
    c.mBlocks.makeRoom V mem (blocksFor w n) = .ok c.mBlocks := by
  unfold Blocks.makeRoom
  split
  · rename_i hc
    rw [if_neg (Nat.not_lt.mpr (blocks_fit h.capacity hc))]
  · rename_i hc
    rw [if_pos (h.blocks (by simpa using hc))]

theorem Reserved.makeRoom (h : Reserved c n) :
    ∃ b, c.mBlocks.makeRoom V mem (blocksFor w n) = .ok b :=
  ⟨_, h.makeRoom_eq⟩

/-- The width held is within the capacity. -/
theorem Inv.overCapacity_eq (h : c.Inv) : overCapacity V c.size = false := by
  unfold overCapacity
  cases hc : V.hasStaticCapacity with
  | false => rfl
  | true =>
      have := h.capacity hc
      rw [Bool.true_and, decide_eq_false_iff_not]
      omega

/-- **The width held is in hand.** -/
theorem Inv.reserved (h : c.Inv) (hr : c.mBlocks.Roomy V) (hs : V.hasStoredSize = true) :
    Reserved c c.size where
  capacity := h.overCapacity_eq
  blocks hc := by
    have hb := h.bound hs
    have hroomy := hr hc
    rw [h.shape.numBlocks] at hb
    rw [h.shape] at hb hroomy
    exact ⟨hroomy, hb⟩

/-! ## 3. What a growth leaves -/

theorem SameWidth.roomy (h : SameWidth c d) (hr : c.mBlocks.Roomy V) : d.mBlocks.Roomy V := by
  intro hc
  rw [h.length, h.reserved]
  exact hr hc

/-- The blocks of a completed resize, before its writes within them. -/
theorem resizeTo_blocks (hr : resizeTo mem n v c = .ok () d) : ∃ fill blocks,
    c.mBlocks.resize V mem (blocksFor w n) fill = .ok blocks ∧
      d.mBlocks.elems.length = blocks.elems.length ∧ d.mBlocks.reserved = blocks.reserved := by
  have hgrown {g : BitBlockContainer V}
      (hg : (if v = true ∧ c.size < n then c.growOnes mem (blocksFor w n)
        else c.growZeros mem (blocksFor w n)) = .ok g) : ∃ fill blocks,
      c.mBlocks.resize V mem (blocksFor w n) fill = .ok blocks ∧
        SameWidth { c with mBlocks := blocks } g := by
    split at hg
    · unfold growOnes at hg
      dsimp only at hg
      split at hg
      · cases hg
      · rename_i blocks hb
        cases hg
        refine ⟨ones, blocks, hb, ?_⟩
        split
        · exact sameWidth_setBlock
        · exact SameWidth.refl
    · unfold growZeros at hg
      split at hg
      · cases hg
      · rename_i blocks hb
        cases hg
        exact ⟨zero, blocks, hb, SameWidth.refl⟩
  unfold resizeTo at hr
  split at hr
  · cases hr
  · dsimp only at hr
    split at hr
    · cases hr
    · rename_i g hg
      obtain ⟨fill, blocks, hb, hsw⟩ := hgrown hg
      simp only [EStateM.Result.ok.injEq, true_and] at hr
      have herase : SameWidth (g.storeSize n) d := by
        rw [← hr]
        exact sameWidth_eraseUnused.trans sameWidth_storeCount
      refine ⟨fill, blocks, hb, ?_, ?_⟩
      · rw [herase.length, mBlocks_storeSize, hsw.length]
      · rw [herase.reserved, mBlocks_storeSize, hsw.reserved]

/-- **When a width is reached**: the capacity holds it, and there is room for its blocks. -/
theorem resizeTo_iff : (∃ d, resizeTo mem n v c = .ok () d) ↔
    overCapacity V n = false ∧ ∃ b, c.mBlocks.makeRoom V mem (blocksFor w n) = .ok b := by
  refine ⟨fun ⟨d, hd⟩ => ⟨?_, ?_⟩, fun h => resizeTo_of_room h.1 h.2⟩
  · unfold resizeTo at hd
    split at hd
    · cases hd
    · rename_i hover
      exact Bool.not_eq_true _ ▸ hover
  · obtain ⟨fill, blocks, hb, -⟩ := resizeTo_blocks hd
    unfold Blocks.resize at hb
    split at hb
    · cases hb
    · rename_i b hb'
      exact ⟨b, hb'⟩

/-- The blocks of a completed append, before its write within them. -/
theorem append_blocks (hr : append mem value c = .ok () d) : ∃ fill blocks,
    c.mBlocks.pushBack V mem fill = .ok blocks ∧
      d.mBlocks.elems.length = blocks.elems.length ∧ d.mBlocks.reserved = blocks.reserved := by
  unfold append at hr
  split at hr
  · cases hr
  · dsimp only at hr
    split at hr
    · cases hr
    · rename_i g hg
      simp only [EStateM.Result.ok.injEq, true_and] at hr
      have hblocks : d.mBlocks = g.mBlocks := by
        rw [← hr, mBlocks_countUp, mBlocks_storeSize]
      rw [hblocks]
      split at hg
      · split at hg
        · cases hg
        · rename_i blocks hb
          cases hg
          refine ⟨_, blocks, hb, ?_, rfl⟩
          rw [sameWidth_setBlock.length]
      · split at hg
        · cases hg
        · rename_i blocks hb
          cases hg
          exact ⟨_, blocks, hb, rfl, rfl⟩

/-- **A container at another width**: the positions both have as they were, new ones at `v`, and
    no less in reserve. -/
structure Resized (c d : BitBlockContainer V) (n : Nat) (v : Bool) : Prop where
  inv : d.Inv
  roomy : d.mBlocks.Roomy V
  size : d.size = n
  bit : ∀ p, d.bit p = if p < n then (if p < c.size then c.bit p else v) else false
  reserved : c.mBlocks.reserved ≤ d.mBlocks.reserved

/-- **Both ends of a resize.** -/
theorem resizeTo_ends (h : c.Inv) (hs : V.hasStoredSize = true) :
    Ends (resizeTo mem n v) c (fun _ d => Resized c d n v)
      fun _ t => t = c ∧ ¬ Reserved c n ∧ ¬ HasRoom V mem n := by
  refine ends_iff.mpr ⟨fun _ d hd => ?_, fun e t he => ⟨resizeTo_strong e t he, ?_, ?_⟩⟩
  · obtain ⟨hinv, hsize, hbit⟩ := resizeTo_ok h hs hd
    obtain ⟨fill, blocks, hb, hlen, hres⟩ := resizeTo_blocks hd
    refine ⟨hinv, ?_, hsize, hbit, ?_⟩
    · intro hc
      rw [hlen, hres]
      exact Blocks.resize_roomy hb hc
    · rw [hres]
      exact Blocks.reserved_resize hb
  · intro hr
    have hroom : ∃ b, c.mBlocks.makeRoom V mem (blocksFor w n) = .ok b := hr.makeRoom
    obtain ⟨d, hd⟩ := resizeTo_of_room (v := v) hr.capacity hroom
    rw [hd] at he
    cases he
  · intro hr
    obtain ⟨d, hd⟩ := resizeTo_of_room (v := v) hr.capacity (hr.makeRoom c.mBlocks)
    rw [hd] at he
    cases he

/-- A block more needs one more block. -/
theorem append_of_room (hc : c.Shape) (hover : overCapacity V (c.size + w) = false)
    (hroom : ∃ b, c.mBlocks.makeRoom V mem (blocksFor w (c.size + w)) = .ok b) :
    ∃ d, append mem value c = .ok () d := by
  obtain ⟨b, hb⟩ := hroom
  rw [blocksFor_add_self V.bits_pos, ← hc] at hb
  unfold append Blocks.pushBack
  rw [if_neg (by rw [hover]; decide)]
  dsimp only
  rw [hb]
  by_cases hr : c.size % w ≠ 0
  · rw [if_pos hr]
    exact ⟨_, rfl⟩
  · rw [if_neg hr]
    exact ⟨_, rfl⟩

/-- **A container with a block's bits more**, and no less in reserve. -/
structure Appended (c d : BitBlockContainer V) (value : BitVec w) : Prop where
  inv : d.Inv
  roomy : d.mBlocks.Roomy V
  size : d.size = c.size + w
  bit : ∀ p, d.bit p = if p < c.size then c.bit p else
    (decide (p < c.size + w) && value.getLsbD (p - c.size))
  reserved : c.mBlocks.reserved ≤ d.mBlocks.reserved

/-- **Both ends of an append.** -/
theorem append_ends (h : c.Inv) (hs : V.hasStoredSize = true) :
    Ends (append mem value) c (fun _ d => Appended c d value)
      fun _ t => t = c ∧ ¬ Reserved c (c.size + w) ∧ ¬ HasRoom V mem (c.size + w) := by
  refine ends_iff.mpr ⟨fun _ d hd => ?_, fun e t he => ⟨append_strong e t he, ?_, ?_⟩⟩
  · obtain ⟨hinv, hsize, hbit⟩ := append_ok h hs hd
    obtain ⟨fill, blocks, hb, hlen, hres⟩ := append_blocks hd
    refine ⟨hinv, ?_, hsize, hbit, ?_⟩
    · intro hc
      rw [hlen, hres]
      exact Blocks.pushBack_roomy hb hc
    · rw [hres]
      exact Blocks.reserved_pushBack hb
  · intro hr
    have hroom : ∃ b, c.mBlocks.makeRoom V mem (blocksFor w (c.size + w)) = .ok b := hr.makeRoom
    obtain ⟨d, hd⟩ : ∃ d, append mem value c = .ok () d := append_of_room h.shape hr.capacity hroom
    rw [hd] at he
    cases he
  · intro hr
    obtain ⟨d, hd⟩ : ∃ d, append mem value c = .ok () d :=
      append_of_room h.shape hr.capacity (hr.makeRoom c.mBlocks)
    rw [hd] at he
    cases he

/-- A resize within what is in hand leaves the reserve. -/
theorem Reserved.resizeTo_kept (h : Reserved c n) (hr : resizeTo mem n v c = .ok () d) :
    d.mBlocks.reserved = c.mBlocks.reserved := by
  obtain ⟨fill, blocks, hb, -, hres⟩ := resizeTo_blocks hr
  unfold Blocks.resize at hb
  rw [h.makeRoom_eq] at hb
  cases hb
  exact hres

theorem Reserved.append_kept (h : Reserved c (c.size + w)) (hc : c.Shape)
    (hr : append mem value c = .ok () d) : d.mBlocks.reserved = c.mBlocks.reserved := by
  obtain ⟨fill, blocks, hb, -, hres⟩ := append_blocks hr
  unfold Blocks.pushBack at hb
  rw [show c.mBlocks.elems.length + 1 = blocksFor w (c.size + w) by
    rw [blocksFor_add_self V.bits_pos, ← hc], h.makeRoom_eq] at hb
  cases hb
  exact hres

/-! ## 4. What a throw leaves -/

/-- **As it was**: the elements, the width and the kept count. -/
structure Intact (c d : BitBlockContainer V) : Prop where
  size : d.size = c.size
  bit : ∀ p, d.bit p = c.bit p
  count : d.storedCount = c.storedCount

theorem Intact.refl : Intact c c := ⟨rfl, fun _ => rfl, rfl⟩

theorem Intact.of_eq (h : d = c) : Intact c d := by
  rw [h]
  exact Intact.refl

/-- The kept count is that of the elements. -/
theorem Inv.intact (h : c.Inv) (hd : d.Inv) (hsize : d.size = c.size)
    (hbit : ∀ p, p < c.size → d.bit p = c.bit p) : Intact c d := by
  have hall (p : Nat) : d.bit p = c.bit p := by
    by_cases hp : p < c.size
    · exact hbit p hp
    · rw [h.clear p (by omega), hd.clear p (by omega)]
  refine ⟨hsize, hall, ?_⟩
  unfold storedCount
  split
  · rename_i hc
    rw [h.count hc, hd.count hc, hsize]
    exact countBits_congr fun p _ => hall p
  · rfl

/-- **A shrink leaves the positions below its width**, and asks the memory for nothing. -/
theorem shrink_ends (h : c.Inv) (hr : c.mBlocks.Roomy V) (hs : V.hasStoredSize = true)
    (hn : n ≤ c.size) :
    Ends (resizeTo mem n v) c (fun _ d => Resized c d n v) fun _ _ => False :=
  (resizeTo_ends h hs).mono (fun _ _ hd => hd) fun _ _ ht => ht.2.1 ((h.reserved hr hs).mono hn)

end BitBlockContainer

end XstdBits
