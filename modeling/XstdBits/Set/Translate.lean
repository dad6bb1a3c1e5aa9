/-
  File: XstdBits/Set/Translate.lean
  Subject: the shifts, of the storage and of a set over it.

  * the storage's shifts move every position by `n` at the width it has.
  * `shl` and `shr` are the set's: a run-time width grows towards `max_size()` first, and a shift
    that keeps no key empties the set where it stands (`shl_ok`, `shr_ok`).
  * over keys that are their own positions they translate the set.
-/
import XstdBits.Container.Machine
import XstdBits.Set.Iterator

namespace XstdBits

/-! ## 1. The storage -/

namespace BitBlockContainer
variable {w : Nat} {V : Vehicle w} {c : BitBlockContainer V} {n : Nat}

/-- **The storage shifts**: `<<=` holds at `p` the old position `p - n` and `>>=` the old position
    `p + n`, at the old width, and a kept count is the number of set positions that stayed. -/
theorem storage_shifts (h : c.Inv) (hn : n < c.size) :
    ((c.shlAssign n).Inv ∧ (c.shlAssign n).size = c.size ∧
      (∀ i, n ≤ i → i < c.size → (c.shlAssign n).bit i = c.bit (i - n)) ∧
      (∀ i, i < n ∨ c.size ≤ i → (c.shlAssign n).bit i = false) ∧
      (V.hasStoredCount = true →
        (c.shlAssign n).mCount = countBits (fun p => decide (p + n < c.size) && c.bit p) c.size)) ∧
    ((c.shrAssign n).Inv ∧ (c.shrAssign n).size = c.size ∧
      (∀ i, i + n < c.size → (c.shrAssign n).bit i = c.bit (i + n)) ∧
      (∀ i, c.size ≤ i + n → (c.shrAssign n).bit i = false) ∧
      (V.hasStoredCount = true →
        (c.shrAssign n).mCount = countBits (fun p => decide (n ≤ p) && c.bit p) c.size)) := by
  have hl := h.shlAssign hn
  have hr := h.shrAssign hn
  have hls := (sameWidth_shlAssign h.shape hn).size
  have hrs := (sameWidth_shrAssign h.shape hn).size
  refine ⟨⟨hl, hls, fun i h1 h2 => ?_, fun i hi => ?_, fun hs => ?_⟩,
    hr, hrs, fun i _ => bit_shrAssign h.shape hn, fun i hi => ?_, fun hs => ?_⟩
  · rw [bit_shlAssign h.shape hn, decide_eq_true ⟨h1, h2⟩, Bool.true_and]
  · rw [bit_shlAssign h.shape hn, decide_eq_false (by omega), Bool.false_and]
  · rw [hl.count hs, hls, countBits_shlAssign h.shape hn]
    rw [countBits_of_clear (n := c.size - n) (Nat.sub_le _ _) fun p hp _ => by
      rw [decide_eq_false (by omega), Bool.false_and]]
    refine countBits_congr fun p hp => ?_
    rw [decide_eq_true (by omega), Bool.true_and]
  · rw [bit_shrAssign h.shape hn]
    exact h.clear _ hi
  · rw [hr.count hs, hrs, countBits_shrAssign h hn]
    have hsplit : c.size = n + (c.size - n) := by omega
    conv_rhs => rw [hsplit]
    rw [countBits_add, countBits_eq_zero fun p hp => by
      rw [decide_eq_false (by omega), Bool.false_and], Nat.zero_add]
    refine countIn_congr fun p hp _ => ?_
    rw [decide_eq_true hp, Bool.true_and]

/-- Four positions of twelve moved by three, up and down: one leaves either way. -/
theorem storage_shifts_twelve :
    (∀ i, 3 ≤ i → i < 12 → ((fourOfTwelve true).shlAssign 3).bit i = (fourOfTwelve true).bit (i - 3)) ∧
    (∀ i, i + 3 < 12 → ((fourOfTwelve true).shrAssign 3).bit i = (fourOfTwelve true).bit (i + 3)) ∧
    ((fourOfTwelve true).shlAssign 3).mCount = 3 ∧ ((fourOfTwelve true).shrAssign 3).mCount = 3 := by
  obtain ⟨⟨-, -, hup, -, hupCount⟩, -, -, hdown, -, hdownCount⟩ :=
    storage_shifts (n := 3) (fourOfTwelve_inv true) (Nat.le_of_ble_eq_true rfl)
  exact ⟨hup, hdown, (hupCount rfl).trans (by decide), (hdownCount rfl).trans (by decide)⟩

end BitBlockContainer

/-! ## 2. The set -/

namespace SetAdaptor
variable {w : Nat} {V : Vehicle w} {Key : Type} (M : KeyMapping Key)

/-- `operator<<=`: a run-time width grows towards `max_size()` first, and a shift that keeps no key
    asks for no growth. -/
def shl (mem : Memory) (n : Nat) : Action V Unit := fun c =>
  if V.hasStaticSize then
    if n < c.size then .ok () (c.shlAssign n) else .error .abort c
  else if V.hasZeroCapacity then .ok () c
  else if n < maxSize M c then
    let lowest := c.findFirst
    let width := c.size
    let top := maxSize M c
    -- a difference of two `size_t`
    if lowest = width ∨ toSize (top + 2 ^ 64 - lowest) ≤ n then .ok () (c.fill false)
    else
      match BitBlockContainer.resize mem (min (widthSum width n) top) false c with
      | .error e d => .error e d
      | .ok _ d => .ok () (d.shlAssign n)
  else .error .abort c

/-- `operator>>=`. -/
def shr (n : Nat) : Action V Unit := fun c =>
  if V.hasStaticSize then
    if n < c.size then .ok () (c.shrAssign n) else .error .abort c
  else if n < maxSize M c then
    if n < c.size then .ok () (c.shrAssign n) else .ok () (c.fill false)
  else .error .abort c

section Shifts
variable {M} {c d : BitBlockContainer V} {mem : Memory} {n : Nat}

theorem maxSize_stored (M : KeyMapping Key) (hs : V.hasStoredSize = true) : maxSize M c =
    if V.hasStaticCapacity then V.extent
    else match M.size with
      | .some k => min k c.maxSize
      | .none => c.maxSize := by
  unfold maxSize
  cases M.size <;> simp [BitBlockContainer.stored_not_static hs, hs]

/-- A difference of two `size_t` that does not wrap. -/
theorem toSize_sub {a b : Nat} (ha : a ≤ sizeMax) (hb : b ≤ a) :
    toSize (a + 2 ^ 64 - b) = a - b := by
  unfold toSize
  unfold sizeMax at ha
  rw [show a + 2 ^ 64 - b = a - b + 2 ^ 64 by omega, Nat.add_mod_right, Nat.mod_eq_of_lt (by omega)]

theorem storedMax_eq (hs : V.hasStoredSize = true) (hc : ¬ V.hasStaticCapacity = true) :
    c.maxSize = min V.maxBlocks V.maxNumBlocks * w := by
  unfold BitBlockContainer.maxSize
  rw [if_neg hc, if_pos hs]

theorem maxSize_le (M : KeyMapping Key) (hs : V.hasStoredSize = true) :
    maxSize M c ≤ sizeMax := by
  rw [maxSize_stored M hs]
  split
  · exact V.extent_le
  · rename_i hc
    have hle : c.maxSize ≤ sizeMax := by
      rw [storedMax_eq hs hc]
      exact Nat.le_trans (Nat.mul_le_mul_right w (Nat.min_le_right _ _)) V.maxWidth_le
    split
    · exact Nat.le_trans (Nat.min_le_right _ _) hle
    · exact hle

/-- A width up to `max_size()` is within the capacity, and its blocks within their `max_size()`. -/
theorem fits_maxSize (hs : V.hasStoredSize = true) (hn : n ≤ maxSize M c) :
    BitBlockContainer.overCapacity V n = false ∧ (V.hasStaticCapacity = false →
      blocksFor w n ≤ V.maxBlocks ∧ blocksFor w n ≤ V.maxNumBlocks) := by
  rw [maxSize_stored M hs] at hn
  unfold BitBlockContainer.overCapacity
  cases hc : V.hasStaticCapacity with
  | true =>
      rw [hc, if_pos rfl] at hn
      refine ⟨?_, fun h => absurd h (by decide)⟩
      rw [Bool.true_and, decide_eq_false_iff_not]
      omega
  | false =>
      rw [hc, if_neg (by decide)] at hn
      have hle : n ≤ min V.maxBlocks V.maxNumBlocks * w := by
        rw [← storedMax_eq (c := c) hs (by rw [hc]; decide)]
        split at hn
        · exact Nat.le_trans hn (Nat.min_le_right _ _)
        · exact hn
      have hb := (blocksFor_le_iff V.bits_pos).mpr hle
      exact ⟨rfl, fun _ => ⟨Nat.le_trans hb (Nat.min_le_left _ _),
        Nat.le_trans hb (Nat.min_le_right _ _)⟩⟩

/-- What memory that refuses nothing grants, below `max_size()`. -/
theorem grants_maxSize (hs : V.hasStoredSize = true) (hn : n ≤ maxSize M c)
    (hmem : ∀ k, ∃ r, mem.allocate k = .ok r) :
    BitBlockContainer.Grants V mem (blocksFor w n) := by
  intro hc
  obtain ⟨h1, h2⟩ := (fits_maxSize hs hn).2 hc
  obtain ⟨r, hr⟩ := hmem (blocksFor w n)
  exact ⟨r, Blocks.allocateFor_ok.mpr ⟨h1, h2, hr⟩⟩

/-- `<<=` of a run-time width within its precondition, its sum of widths being exact. -/
theorem shl_stored (mem : Memory) (hs : V.hasStoredSize = true) (hn : n < maxSize M c) :
    shl M mem n c =
      if c.findFirst = c.size ∨ toSize (maxSize M c + 2 ^ 64 - c.findFirst) ≤ n then
        .ok () (c.fill false)
      else
        match BitBlockContainer.resize mem (min (c.size + n) (maxSize M c)) false c with
        | .error e d => .error e d
        | .ok _ d => .ok () (d.shlAssign n) := by
  have htop := maxSize_le M hs (c := c)
  have hz : ¬ V.hasZeroCapacity = true := by
    intro hz
    obtain ⟨hc, he⟩ := BitBlockContainer.capacity_of_zero hz
    rw [maxSize_stored M hs, if_pos hc, he] at hn
    omega
  have hwidth : min (widthSum c.size n) (maxSize M c) = min (c.size + n) (maxSize M c) := by
    unfold widthSum
    split <;> omega
  unfold shl
  rw [BitBlockContainer.stored_not_static hs, if_neg (by decide), if_neg hz, if_pos hn]
  dsimp only
  rw [hwidth]

/-- Where `<<=` empties the set no key lands below `max_size()`; -/
theorem none_lands (h : c.Inv) (hs : V.hasStoredSize = true)
    (hnone : c.findFirst = c.size ∨ toSize (maxSize M c + 2 ^ 64 - c.findFirst) ≤ n) :
    ¬ ∃ p, c.bit p = true ∧ p + n < maxSize M c := by
  intro ⟨p, hb, hp⟩
  have htop := maxSize_le M hs (c := c)
  have hps := h.lt_size hb
  rw [BitBlockContainer.findFirst_eq h] at hnone
  rcases nextSet_spec c.bit 0 c.size with ⟨-, -, -, h4⟩ | ⟨-, h2⟩
  · have hle : nextSet c.bit 0 c.size ≤ p := by
      by_contra hlt
      rw [h4 p (Nat.zero_le p) (by omega)] at hb
      cases hb
    rcases hnone with hw | hd
    · omega
    · rw [toSize_sub htop (by omega)] at hd
      omega
  · rw [h2 p (Nat.zero_le p) hps] at hb
    cases hb

/-- and elsewhere the lowest one does, of a set within its `max_size()`. -/
theorem lowest_lands (h : c.Inv) (hs : V.hasStoredSize = true)
    (hin : ∀ p, c.bit p = true → p < maxSize M c)
    (hsome : ¬ (c.findFirst = c.size ∨ toSize (maxSize M c + 2 ^ 64 - c.findFirst) ≤ n)) :
    ∃ p, c.bit p = true ∧ p + n < maxSize M c := by
  have htop := maxSize_le M hs (c := c)
  rw [not_or, BitBlockContainer.findFirst_eq h] at hsome
  rcases nextSet_spec c.bit 0 c.size with ⟨-, -, h3, -⟩ | ⟨h1, -⟩
  · have hlow := hin _ h3
    have hd := hsome.2
    rw [toSize_sub htop (by omega)] at hd
    exact ⟨_, h3, by omega⟩
  · exact absurd h1 hsome.1

/-- **What a completed left shift of a run-time width leaves**: the positions that land below
    `max_size()`, at a width that stops there. -/
theorem shl_ok (h : c.Inv) (hs : V.hasStoredSize = true) (hn : n < maxSize M c)
    (hr : shl M mem n c = .ok () d) :
    d.Inv ∧ (∀ p, d.bit p = (decide (n ≤ p ∧ p < maxSize M c) && c.bit (p - n))) ∧
      ((∃ p, c.bit p = true ∧ p + n < maxSize M c) →
        d.size = min (c.size + n) (maxSize M c)) := by
  rw [shl_stored mem hs hn] at hr
  split at hr
  · rename_i hnone
    cases hr
    have hout := none_lands h hs hnone
    obtain ⟨-, hbit, hinv⟩ := BitBlockContainer.fill_spec h (v := false)
    refine ⟨hinv, fun p => ?_, fun hc => absurd hc hout⟩
    rw [hbit, Bool.and_false]
    symm
    by_contra hne
    rw [Bool.not_eq_false, Bool.and_eq_true, decide_eq_true_eq] at hne
    exact hout ⟨p - n, hne.2, by omega⟩
  · rename_i hsome
    rw [not_or, BitBlockContainer.findFirst_eq h] at hsome
    split at hr
    · cases hr
    · rename_i e he
      cases hr
      obtain ⟨hinv, hsize, hbit⟩ := BitBlockContainer.resizeTo_ok h hs he
      have hpos : 0 < c.size := by
        rcases nextSet_spec c.bit 0 c.size with ⟨-, h2, -⟩ | ⟨h1, -⟩
        · omega
        · exact absurd h1 hsome.1
      have hne : n < e.size := by omega
      refine ⟨hinv.shlAssign hne, fun p => ?_, fun _ => ?_⟩
      · rw [BitBlockContainer.bit_shlAssign hinv.shape hne, hsize, hbit]
        by_cases hnp : n ≤ p ∧ p < maxSize M c
        · cases hb : c.bit (p - n) with
          | false => simp
          | true =>
              have hps := h.lt_size hb
              have hin : n ≤ p ∧ p < min (c.size + n) (maxSize M c) := by omega
              rw [decide_eq_true hin, decide_eq_true hnp, if_pos (by omega), if_pos hps]
        · rw [decide_eq_false hnp, decide_eq_false (by omega), Bool.false_and, Bool.false_and]
      · rw [(BitBlockContainer.sameWidth_shlAssign hinv.shape hne).size, hsize]

/-- A shift that keeps no key asks for no growth, of a set within its `max_size()`. -/
theorem shl_still (h : c.Inv) (hs : V.hasStoredSize = true)
    (hin : ∀ p, c.bit p = true → p < maxSize M c) (hn : n < maxSize M c)
    (hout : ¬ ∃ p, c.bit p = true ∧ p + n < maxSize M c) (hr : shl M mem n c = .ok () d) :
    d.size = c.size := by
  rw [shl_stored mem hs hn] at hr
  split at hr
  · cases hr
    exact (BitBlockContainer.fill_spec h (v := false)).1.size
  · rename_i hsome
    exact absurd (lowest_lands h hs hin hsome) hout

/-- **A shift that keeps a key completes where the memory refuses nothing**, and one that keeps none
    asks for none. -/
theorem shl_completes (mem : Memory) (h : c.Inv) (hs : V.hasStoredSize = true)
    (hin : ∀ p, c.bit p = true → p < maxSize M c) (hn : n < maxSize M c)
    (hmem : (∀ k, ∃ r, mem.allocate k = .ok r) ∨
      ¬ ∃ p, c.bit p = true ∧ p + n < maxSize M c) :
    ∃ d, shl M mem n c = .ok () d := by
  rw [shl_stored mem hs hn]
  split
  · exact ⟨_, rfl⟩
  · rename_i hsome
    rcases hmem with hmem | hout
    · have hle : min (c.size + n) (maxSize M c) ≤ maxSize M c := Nat.min_le_right _ _
      obtain ⟨e, he⟩ := BitBlockContainer.resizeTo_of_grants (v := false) (c := c)
        (fits_maxSize hs hle).1 (grants_maxSize hs hle hmem)
      unfold BitBlockContainer.resize
      rw [he]
      exact ⟨_, rfl⟩
    · exact absurd (lowest_lands h hs hin hsome) hout

/-- **What a right shift leaves**: every position moved down by `n`. -/
theorem shr_ok (h : c.Inv) (hr : shr M n c = .ok () d) :
    d.Inv ∧ d.size = c.size ∧ ∀ p, d.bit p = c.bit (p + n) := by
  have hin (hn : n < c.size) : (c.shrAssign n).Inv ∧ (c.shrAssign n).size = c.size ∧
      ∀ p, (c.shrAssign n).bit p = c.bit (p + n) :=
    ⟨h.shrAssign hn, (BitBlockContainer.sameWidth_shrAssign h.shape hn).size,
      fun p => BitBlockContainer.bit_shrAssign h.shape hn⟩
  unfold shr at hr
  split at hr
  · split at hr
    · rename_i hn
      cases hr
      exact hin hn
    · cases hr
  · split at hr
    · split at hr
      · rename_i hn
        cases hr
        exact hin hn
      · cases hr
        obtain ⟨hsw, hbit, hinv⟩ := BitBlockContainer.fill_spec h (v := false)
        refine ⟨hinv, hsw.size, fun p => ?_⟩
        rw [hbit, Bool.and_false, h.clear _ (by omega)]
    · cases hr

/-- Blocks within their `max_size()` are of a width within the storage's. -/
theorem size_le_storedMax (h : c.Inv) (hs : V.hasStoredSize = true)
    (hc : ¬ V.hasStaticCapacity = true) (hblocks : c.mBlocks.elems.length ≤ V.maxBlocks) :
    c.size ≤ c.maxSize := by
  rw [storedMax_eq hs hc]
  have hbound := h.bound hs
  rw [h.shape.numBlocks] at hbound
  exact Nat.le_trans h.shape.size_le
    (Nat.mul_le_mul_right w (Nat.le_min.mpr ⟨hblocks, hbound⟩))

/-- and, where the universe is open, within the set's. -/
theorem size_le_maxSize (hM : M.size = .none) (h : c.Inv) (hs : V.hasStoredSize = true)
    (hblocks : V.hasStaticCapacity = false → c.mBlocks.elems.length ≤ V.maxBlocks) :
    c.size ≤ maxSize M c := by
  rw [maxSize_stored M hs]
  split
  · rename_i hc
    exact h.capacity hc
  · rename_i hc
    rw [hM]
    exact size_le_storedMax h hs hc (hblocks (by simpa using hc))

end Shifts

/-- A key of the identity is its own position. -/
theorem contains_sizeKey {c : BitBlockContainer V} (h : c.Inv) (k : Fin (2 ^ 64)) :
    contains (unsignedMapping 64) c k = c.bit k.val := by
  have hk : k.val ≤ sizeMax := by
    unfold sizeMax
    omega
  rw [contains_eq h, unsignedMapping_isKey.mpr hk, Bool.true_and]
  show c.bit (toSize k) = _
  rw [toSize_of_le hk]

/-- The keys `<<=` leaves are those below the ceiling that came from a key. -/
theorem contains_shl {c d : BitBlockContainer V} (h : c.Inv) (hd : d.Inv) {n ceiling : Nat}
    (hbit : ∀ p, d.bit p = (decide (n ≤ p ∧ p < ceiling) && c.bit (p - n))) (k : Fin (2 ^ 64)) :
    contains (unsignedMapping 64) d k = true ↔ k.val < ceiling ∧
      ∃ q : Fin (2 ^ 64), contains (unsignedMapping 64) c q = true ∧ k.val = q.val + n := by
  rw [contains_sizeKey hd, hbit, Bool.and_eq_true, decide_eq_true_eq]
  constructor
  · intro ⟨⟨h1, h2⟩, h3⟩
    have hk := k.isLt
    exact ⟨h2, ⟨k.val - n, by omega⟩, by rw [contains_sizeKey h]; exact h3,
      (Nat.sub_add_cancel h1).symm⟩
  · intro ⟨h2, q, hq, he⟩
    rw [contains_sizeKey h] at hq
    refine ⟨⟨by omega, h2⟩, ?_⟩
    rw [he, Nat.add_sub_cancel]
    exact hq

/-- The keys `>>=` leaves are those that came down by `n`. -/
theorem contains_shr {c d : BitBlockContainer V} (h : c.Inv) (hd : d.Inv) {n : Nat}
    (htop : ∀ p, c.bit p = true → p < 2 ^ 64) (hbit : ∀ p, d.bit p = c.bit (p + n))
    (k : Fin (2 ^ 64)) : contains (unsignedMapping 64) d k = true ↔
      ∃ q : Fin (2 ^ 64), contains (unsignedMapping 64) c q = true ∧ q.val = k.val + n := by
  rw [contains_sizeKey hd, hbit]
  constructor
  · intro hb
    exact ⟨⟨k.val + n, htop _ hb⟩, by rw [contains_sizeKey h]; exact hb, rfl⟩
  · intro ⟨q, hq, he⟩
    rw [contains_sizeKey h, he] at hq
    exact hq

/-- **The shifts translate a set of positions**: over memory that refuses nothing `<<=` leaves the
    keys that land below `max_size()`, at a width that grows as far as they need and never past it;
    where no key lands there it asks for no growth; `>>=` leaves those that were at `n` or above.
    The blocks are within their own `max_size()`. -/
theorem translate_exact {c : BitBlockContainer V} (h : c.Inv) (hs : V.hasStoredSize = true)
    (hblocks : V.hasStaticCapacity = false → c.mBlocks.elems.length ≤ V.maxBlocks) {n : Nat}
    (hn : n < maxSize (unsignedMapping 64) c) :
    (∀ mem : Memory, (∀ k, ∃ r, mem.allocate k = .ok r) →
      ∃ d, shl (unsignedMapping 64) mem n c = .ok () d ∧ d.Inv ∧
        c.size ≤ d.size ∧ d.size ≤ c.size + n ∧ d.size ≤ maxSize (unsignedMapping 64) c ∧
        ∀ k, contains (unsignedMapping 64) d k = true ↔
          k.val < maxSize (unsignedMapping 64) c ∧
            ∃ q : Fin (2 ^ 64), contains (unsignedMapping 64) c q = true ∧ k.val = q.val + n) ∧
    ((∀ q : Fin (2 ^ 64), contains (unsignedMapping 64) c q = true →
        maxSize (unsignedMapping 64) c ≤ q.val + n) →
      ∀ mem : Memory, ∃ d, shl (unsignedMapping 64) mem n c = .ok () d ∧ d.size = c.size ∧
        ∀ k, contains (unsignedMapping 64) d k = false) ∧
    ∃ d, shr (unsignedMapping 64) n c = .ok () d ∧ d.Inv ∧ d.size = c.size ∧
      ∀ k, contains (unsignedMapping 64) d k = true ↔
        ∃ q : Fin (2 ^ 64), contains (unsignedMapping 64) c q = true ∧ q.val = k.val + n := by
  have hle := size_le_maxSize (M := unsignedMapping 64) rfl h hs hblocks
  have hin (p : Nat) (hb : c.bit p = true) : p < maxSize (unsignedMapping 64) c :=
    Nat.lt_of_lt_of_le (h.lt_size hb) hle
  have htop (p : Nat) (hb : c.bit p = true) : p < 2 ^ 64 := by
    have h1 := hin p hb
    have h2 := maxSize_le (unsignedMapping 64) hs (c := c)
    unfold sizeMax at h2
    omega
  refine ⟨fun mem hmem => ?_, fun hnone mem => ?_, ?_⟩
  · obtain ⟨d, hd⟩ := shl_completes mem h hs hin hn (Or.inl hmem)
    obtain ⟨hinv, hbit, hgrown⟩ := shl_ok h hs hn hd
    have hwidth : d.size = c.size ∨ d.size = min (c.size + n) (maxSize (unsignedMapping 64) c) := by
      by_cases hsome : ∃ p, c.bit p = true ∧ p + n < maxSize (unsignedMapping 64) c
      · exact Or.inr (hgrown hsome)
      · exact Or.inl (shl_still h hs hin hn hsome hd)
    exact ⟨d, hd, hinv, by omega, by omega, by omega, contains_shl h hinv hbit⟩
  · have hout : ¬ ∃ p, c.bit p = true ∧ p + n < maxSize (unsignedMapping 64) c := by
      intro ⟨p, hb, hp⟩
      have hq : contains (unsignedMapping 64) c ⟨p, htop p hb⟩ = true := by
        rw [contains_sizeKey h]
        exact hb
      exact absurd (hnone _ hq) (Nat.not_le_of_lt hp)
    obtain ⟨d, hd⟩ := shl_completes mem h hs hin hn (Or.inr hout)
    obtain ⟨hinv, hbit, -⟩ := shl_ok h hs hn hd
    refine ⟨d, hd, shl_still h hs hin hn hout hd, fun k => ?_⟩
    rw [contains_sizeKey hinv, hbit]
    by_contra hne
    rw [Bool.not_eq_false, Bool.and_eq_true, decide_eq_true_eq] at hne
    exact hout ⟨k.val - n, hne.2, by omega⟩
  · have hcompletes : ∃ d, shr (unsignedMapping 64) n c = .ok () d := by
      unfold shr
      rw [BitBlockContainer.stored_not_static hs, if_neg (by decide), if_pos hn]
      split <;> exact ⟨_, rfl⟩
    obtain ⟨d, hd⟩ := hcompletes
    obtain ⟨hinv, hsize, hbit⟩ := shr_ok h hd
    exact ⟨d, hd, hinv, hsize, contains_shr h hinv htop hbit⟩

/-- `bit_inplace_set<12>`, a set of positions under a capacity. -/
def cappedTwelve : Vehicle 8 where
  storage := .capped 12
  bits_pos := byte_pos
  bits_int := byte_int
  holds_width := rfl
  whole_blocks := rfl

/-- The set of nine and three under a capacity of twelve, moved by four, up and down. -/
theorem translate_exact_capped : ∃ c d e : BitBlockContainer cappedTwelve,
    (∀ k, contains (unsignedMapping 64) d k = true ↔ k.val < 12 ∧
      ∃ q : Fin (2 ^ 64), contains (unsignedMapping 64) c q = true ∧ k.val = q.val + 4) ∧
    (∀ k, contains (unsignedMapping 64) e k = true ↔
      ∃ q : Fin (2 ^ 64), contains (unsignedMapping 64) c q = true ∧ q.val = k.val + 4) ∧
    contains (unsignedMapping 64) c 9 = true := by
  have h0 : Reachable cappedTwelve fun _ => BitBlockContainer.default cappedTwelve 0 :=
    .start fun _ => 0
  have h1 := Reachable.step .ample 0 (.growingInsert 3) h0 (Or.inl rfl) rfl
  have h2 := Reachable.step .ample 0 (.growingInsert 9) h1 (Or.inl rfl) rfl
  have ht := translate_exact (n := 4) (h2.inv (Or.inl rfl) 0) rfl (fun hc => absurd hc (by decide))
    (Nat.le_of_ble_eq_true rfl)
  obtain ⟨d, -, -, -, -, -, hd⟩ := ht.1 .ample fun k => ⟨k, rfl⟩
  obtain ⟨e, -, -, -, he⟩ := ht.2.2
  exact ⟨_, d, e, hd, he, rfl⟩

end SetAdaptor

end XstdBits
