/-
  File: XstdBits/Algorithm/Search.lean
  Subject: the searching and ordering algorithms of `bit_algorithm` over a sequence of bools.

  * a search looks at a block of the window at a time, turned so that the sought value is set
    (`findValue_eq`, `findLastValue_eq`).
  * sortedness and partitions are read off the first find of either value; the definitions of the
    standard, over the bools as a list, stand beside them.
-/
import XstdBits.Container.Contents
import XstdBits.Lib.Partition
import XstdBits.Reading.Compare

namespace XstdBits

namespace BitBlockContainer
variable {w : Nat} {V : Vehicle w} (c : BitBlockContainer V)

/-! ## 1. The search for a value -/

/-- All ones where `value` is false, all zeros where it is true. -/
def flipFor (w : Nat) (value : Bool) : BitVec w := if value then zero else ~~~zero

/-- Where `value` stands among the positions from `n + k` on that are left of `len`. -/
def soughtBlock (n len k : Nat) (value : Bool) : BitVec w :=
  (c.blockAt (n + k) ^^^ flipFor w value) &&& partialBlockMask (min w (len - k))

/-- `find_value`: the first of the `len` positions from `n` that holds `value`, counted from `n`. -/
def findValue (n len : Nat) (value : Bool) : Nat :=
  (firstAnswer w 0 len fun k =>
    let block := c.soughtBlock n len k value
    if block ≠ zero then some (k + countrZero block) else .none).getD len

/-- `find_last_value`: the last of them. -/
def findLastValue (n len : Nat) (value : Bool) : Nat :=
  match findDown (fun j => c.soughtBlock n len (j * w) value != zero) ((len + w - 1) / w) with
  | .some j => j * w + w - 1 - countlZero (c.soughtBlock n len (j * w) value)
  | .none => len

section Find
variable {c} {n len k : Nat} {value : Bool}

theorem getLsbD_soughtBlock (value : Bool) (h : c.Shape) (hlen : n + len ≤ c.size) (hk : k < len)
    {j : Nat} (hj : j < w) : (c.soughtBlock n len k value).getLsbD j =
      (decide (k + j < len) && (c.bit (n + (k + j)) == value)) := by
  have hsz := h.size_le
  have hflip : (flipFor w value).getLsbD j = !value := by
    unfold flipFor zero
    cases value
    · simp [hj]
    · simp
  unfold soughtBlock
  rw [BitVec.getLsbD_and, BitVec.getLsbD_xor, getLsbD_partialBlockMask (Nat.min_le_left _ _),
    getLsbD_blockAt h (by omega) hj, hflip, Nat.add_assoc, Bool.and_comm]
  congr 1
  · rw [decide_eq_decide]
    omega
  · cases c.bit (n + (k + j)) <;> cases value <;> rfl

/-- **The first of them**, by blocks. -/
theorem findValue_eq (h : c.Shape) (hlen : n + len ≤ c.size) :
    c.findValue n len value = nextSet (fun i => c.bit (n + i) == value) 0 len := by
  unfold findValue
  obtain ⟨body, hbody⟩ : ∃ body : Nat → Option Nat, body = fun k =>
    let block := c.soughtBlock n len k value
    if block ≠ zero then some (k + countrZero block) else .none := ⟨_, rfl⟩
  rw [← hbody]
  have hturn : ∀ q, q < len → (∀ i, i < q → i < len → (c.bit (n + i) == value) = false) →
      body q = .none → ∀ i, i < q + w → i < len → (c.bit (n + i) == value) = false := by
    intro q hq hall hb i hi hil
    by_cases hlt : i < q
    · exact hall i hlt hil
    · rw [hbody] at hb
      dsimp only at hb
      split at hb
      · cases hb
      · rename_i hz
        have hbit := getLsbD_soughtBlock value h hlen hq (j := i - q) (by omega)
        rw [not_not.mp hz, show q + (i - q) = i by omega, decide_eq_true hil, Bool.true_and] at hbit
        rw [← hbit]
        exact BitVec.getLsbD_zero
  rcases firstAnswer_cases (fun q => ∀ i, i < q → i < len → (c.bit (n + i) == value) = false)
    V.bits_pos (fun i hi => absurd hi (Nat.not_lt_zero i)) hturn with
    ⟨q, v, hq, hall, hb, hfound⟩ | ⟨q, hq, hall, hnone⟩
  · rw [hfound, Option.getD_some]
    rw [hbody] at hb
    dsimp only at hb
    split at hb
    · rename_i hz
      obtain rfl := Option.some.inj hb
      have hlt := countrZero_lt hz
      have hset := getLsbD_soughtBlock value h hlen hq hlt
      rw [getLsbD_countrZero hz] at hset
      have hset' := hset.symm
      rw [Bool.and_eq_true, decide_eq_true_eq] at hset'
      refine (nextSet_eq (Nat.zero_le _) hset'.1 hset'.2 fun i _ hi => ?_).symm
      by_cases hiq : i < q
      · exact hall i hiq (by omega)
      · have hbit := getLsbD_soughtBlock value h hlen hq (j := i - q) (by omega)
        rw [getLsbD_of_lt_countrZero (by omega), show q + (i - q) = i by omega,
          decide_eq_true (by omega), Bool.true_and] at hbit
        exact hbit.symm
    · cases hb
  · rw [hnone, Option.getD_none]
    exact (nextSet_none fun i _ hi => hall i (by omega) hi).symm

/-- **The last of them**, by blocks from the top. -/
theorem findLastValue_eq (h : c.Shape) (hlen : n + len ≤ c.size) :
    c.findLastValue n len value = prevSet (fun i => c.bit (n + i) == value) len len := by
  have hw := V.bits_pos
  have hchunks (j : Nat) : j < (len + w - 1) / w ↔ j * w < len := by
    rw [chunks_eq hw]
    exact lt_blocksFor_iff hw
  have hin (j i : Nat) (hj : j * w < len) (h1 : j * w ≤ i) (h2 : i < j * w + w) (h3 : i < len) :
      (c.soughtBlock n len (j * w) value).getLsbD (i - j * w) = (c.bit (n + i) == value) := by
    rw [getLsbD_soughtBlock _ h hlen hj (by omega), show j * w + (i - j * w) = i by omega,
      decide_eq_true h3, Bool.true_and]
  -- a block that is zero holds no such position
  have hzero (j i : Nat) (hj : (c.soughtBlock n len (j * w) value != zero) = false)
      (h1 : j * w ≤ i) (h2 : i < j * w + w) (h3 : i < len) : (c.bit (n + i) == value) = false := by
    rw [bne_eq_false_iff_eq] at hj
    rw [← hin j i (by omega) h1 h2 h3, hj]
    exact BitVec.getLsbD_zero
  have hsplit (i : Nat) : i / w * w ≤ i ∧ i < i / w * w + w := by
    have h1 := Nat.div_add_mod' i w
    have h2 := Nat.mod_lt i hw
    omega
  unfold findLastValue
  cases hf : findDown (fun j => c.soughtBlock n len (j * w) value != zero) ((len + w - 1) / w) with
  | some j =>
      obtain ⟨h1, h2, h3⟩ := findDown_some hf
      have hj := (hchunks j).mp h1
      have hne : c.soughtBlock n len (j * w) value ≠ zero := by
        rwa [bne_iff_ne] at h2
      have hlt := countlZero_lt hne
      have hset := getLsbD_soughtBlock value h hlen hj
        (show w - 1 - countlZero (c.soughtBlock n len (j * w) value) < w by omega)
      rw [getLsbD_countlZero hne] at hset
      have hset' := hset.symm
      rw [Bool.and_eq_true, decide_eq_true_eq] at hset'
      dsimp only
      rw [show j * w + w - 1 - countlZero (c.soughtBlock n len (j * w) value) =
        j * w + (w - 1 - countlZero (c.soughtBlock n len (j * w) value)) by omega]
      refine (prevSet_eq hset'.1 hset'.2 fun i hi1 hi2 => ?_).symm
      by_cases hblock : i < j * w + w
      · rw [← hin j i hj (by omega) hblock hi2]
        exact getLsbD_of_countlZero_lt (by omega)
      · have hij : j < i / w := by
          by_contra hle
          have := Nat.mul_le_mul_right w (Nat.le_of_not_lt hle)
          have := hsplit i
          omega
        have hi := hsplit i
        exact hzero (i / w) i (h3 (i / w) hij ((hchunks _).mpr (by omega))) hi.1 hi.2 hi2
  | none =>
      refine (prevSet_none fun i hi => ?_).symm
      have hs := hsplit i
      exact hzero (i / w) i (findDown_none hf (i / w) ((hchunks _).mpr (by omega))) hs.1 hs.2 hi

end Find

/-- `first_mismatch` answers the first of the shorter's positions at which the two differ: a
    difference in its padding lies past them. -/
theorem firstMismatch_eq {x y : BitBlockContainer V} (hx : x.Inv) :
    Bools.firstMismatch x y x.size = nextSet (fun i => x.bit i != y.bit i) 0 x.size := by
  have hagree {n : Nat} (h : ∀ q, q < n → x.bit q = y.bit q) (q : Nat) (hq : q < n) :
      (x.bit q != y.bit q) = false := by
    rw [h q hq]
    exact bne_self_eq_false _
  unfold Bools.firstMismatch
  split
  · rename_i h0
    rw [h0]
    exact (nextSet_none fun j _ hj => absurd hj (Nat.not_lt_zero j)).symm
  · dsimp only
    rcases firstDifference_blocks (y := y) hx.shape with ⟨hz, hsame⟩ | ⟨hne, -, hxor, hlow⟩
    · rw [if_pos hz]
      have hsz := hx.shape.size_le
      exact (nextSet_none fun q _ hq => hagree (agree_below hsame) q (by omega)).symm
    · rw [if_neg hne]
      rw [hxor] at hne ⊢
      have hfd := firstDiff_of_block hlow hne
      generalize (x.firstDifference y).1 * w + countrZero (x.block (x.firstDifference y).1 ^^^
        y.block (x.firstDifference y).1) = d at hfd
      by_cases hd : d < x.size
      · rw [Nat.min_eq_left (by omega)]
        exact (nextSet_eq (f := fun i => x.bit i != y.bit i) (Nat.zero_le d) hd
          (bne_iff_ne.mpr hfd.here) fun q _ hq => hagree hfd.below q hq).symm
      · rw [Nat.min_eq_right (by omega)]
        exact (nextSet_none fun q _ hq => hagree hfd.below q (by omega)).symm

end BitBlockContainer

/-! ## 2. The algorithms -/

section Algorithms
variable {w : Nat} {V : Vehicle w} (r x y : Bools V) (value : Bool)

/-- The bool at a position of the sequence. -/
def Bools.at (i : Nat) : Bool := r.bits.bit (r.offset + i)

/-- `count_true`: the storage's own count on a whole sequence, the window's blocks on a subspan. -/
def countTrue : Nat :=
  if r.isWindowed then r.bits.countRange r.offset r.size else r.bits.count

def bitFind : Nat := r.bits.findValue r.firstPosition r.size value

def bitFindLast : Nat := r.bits.findLastValue r.firstPosition r.size value

/-- `std::ranges::mismatch`, a bool at a time. -/
def mismatch : Nat :=
  (findUp 0 (min x.size y.size) fun i => x.at i != y.at i).getD (min x.size y.size)

/-- `bit_mismatch`, of two sequences of one type. -/
def bitMismatch : Nat :=
  if !x.isWindowed then
    if x.size ≤ y.size then Bools.firstMismatch x.bits y.bits x.size
    else Bools.firstMismatch y.bits x.bits y.size
  else mismatch x y

def bitIsSorted : Bool :=
  let one := r.bits.findValue r.firstPosition r.size true
  r.bits.findValue (r.firstPosition + one) (r.size - one) false == r.size - one

def bitIsPartitioned : Bool :=
  let first := r.bits.findValue r.firstPosition r.size false
  r.bits.findValue (r.firstPosition + first) (r.size - first) true == r.size - first

def bitPartitionPoint : Nat := r.bits.findValue r.firstPosition r.size false

/-- `bit_sort`: the ones counted, then the zeros filled in before them. -/
def bitSort : BitBlockContainer V :=
  let ones := countTrue r
  (r.bits.setRange r.firstPosition (r.size - ones) false).setRange
    (r.firstPosition + r.size - ones) ones true

/-- `bit_partition`: the ones filled in first, the zeros after; where the zeros start. -/
def bitPartition : Nat × BitBlockContainer V :=
  let ones := countTrue r
  (ones, (r.bits.setRange r.firstPosition ones true).setRange
    (r.firstPosition + ones) (r.size - ones) false)

end Algorithms

/-! ## 3. Bools in a list -/

/-- `std::ranges::is_sorted`: no bool below the one before it. -/
def isSorted : List Bool → Bool
  | a :: b :: xs => !decide (b < a) && isSorted (b :: xs)
  | _ => true

/-- `std::ranges::is_partitioned(r, std::identity())`: past the first false, no true. -/
def isPartitioned (xs : List Bool) : Bool := !(xs.dropWhile id).any id

section Lists
variable {f : Nat → Bool} {n k : Nat}

theorem bools_succ : bools f (n + 1) = f 0 :: bools (fun i => f (i + 1)) n := by
  unfold bools
  rw [List.range_succ_eq_map, List.map_cons, List.map_map]
  rfl

theorem isSorted_iff : ∀ {n : Nat} {f : Nat → Bool}, isSorted (bools f n) = true ↔
    ∀ i, i + 1 < n → f i = true → f (i + 1) = true
  | 0, f => iff_of_true rfl fun i hi => by omega
  | 1, f => iff_of_true rfl fun i hi => by omega
  | n + 2, f => by
      have ih := @isSorted_iff (n + 1) fun i => f (i + 1)
      rw [bools_succ] at ih ⊢
      rw [bools_succ]
      show (!decide (f 1 < f 0) && isSorted (f 1 :: bools (fun i => f (i + 2)) n)) = true ↔ _
      rw [Bool.and_eq_true, Bool.not_eq_true', decide_eq_false_iff_not]
      have hpair : ¬ f 1 < f 0 ↔ (f 0 = true → f 1 = true) := by
        cases f 0 <;> cases f 1 <;> decide
      rw [hpair, show isSorted (f 1 :: bools (fun i => f (i + 2)) n) = true ↔ _ from ih]
      constructor
      · intro ⟨h0, h1⟩ i hi
        cases i with
        | zero => exact h0
        | succ i => exact h1 i (by omega)
      · intro h
        exact ⟨h 0 (by omega), fun i hi => h (i + 1) (by omega)⟩

/-- Partitioned bools are set below some point and clear from there on. -/
theorem isPartitioned_iff : ∀ {n : Nat} {f : Nat → Bool}, isPartitioned (bools f n) = true ↔
    ∀ i j, i < j → j < n → f j = true → f i = true
  | 0, f => iff_of_true rfl fun i j _ hj => absurd hj (Nat.not_lt_zero j)
  | n + 1, f => by
      have ih := @isPartitioned_iff n fun i => f (i + 1)
      rw [bools_succ]
      unfold isPartitioned at ih ⊢
      cases h0 : f 0 with
      | true =>
          rw [List.dropWhile_cons_of_pos rfl, ih]
          constructor
          · intro h i j hij hj hfj
            cases i with
            | zero => exact h0
            | succ i =>
                obtain ⟨j, rfl⟩ : ∃ m, j = m + 1 := ⟨j - 1, by omega⟩
                exact h i j (by omega) (by omega) hfj
          · intro h i j hij hj hfj
            exact h (i + 1) (j + 1) (by omega) (by omega) hfj
      | false =>
          rw [List.dropWhile_cons_of_neg (by decide), List.any_cons, id, Bool.false_or,
            Bool.not_eq_true', List.any_eq_false]
          constructor
          · intro h i j hij hj hfj
            obtain ⟨j, rfl⟩ : ∃ m, j = m + 1 := ⟨j - 1, by omega⟩
            exact absurd hfj (h _ (List.mem_map.mpr ⟨j, List.mem_range.mpr (by omega), rfl⟩))
          · intro h b hb hbt
            obtain ⟨j, hj, rfl⟩ := List.mem_map.mp hb
            have hfj := h 0 (j + 1) (by omega) (by rw [List.mem_range] at hj; omega) hbt
            rw [h0] at hfj
            cases hfj

/-- Bools that never turn false again are set from their first set one on. -/
theorem set_from_iff : (∀ i, i + 1 < n → f i = true → f (i + 1) = true) ↔
    ∀ i, nextSet (fun i => f i == true) 0 n ≤ i → i < n → f i = true := by
  constructor
  · intro hstep i hki hi
    have hspec := nextSet_spec (fun i => f i == true) 0 n
    generalize nextSet (fun i => f i == true) 0 n = k at hspec hki
    rcases hspec with ⟨-, -, h3, -⟩ | ⟨h1, -⟩
    · -- induction on the position, from the first set one
      induction i with
      | zero =>
          rw [show (0 : Nat) = k by omega]
          exact eq_of_beq h3
      | succ i ih =>
          by_cases he : k = i + 1
          · rw [← he]
            exact eq_of_beq h3
          · exact hstep i hi (ih (by omega) (by omega))
    · omega
  · intro hall i hi hset
    refine hall (i + 1) ?_ hi
    by_contra hlt
    have hnot := nextSet_clear (Nat.zero_le i) (Nat.lt_of_succ_lt (Nat.lt_of_not_le hlt))
    rw [hset] at hnot
    cases hnot

/-- Partitioned bools are clear from their first clear one on. -/
theorem clear_from_iff : (∀ i j, i < j → j < n → f j = true → f i = true) ↔
    ∀ i, nextSet (fun i => f i == false) 0 n ≤ i → i < n → f i = false := by
  constructor
  · intro hdown i hki hi
    have hspec := nextSet_spec (fun i => f i == false) 0 n
    generalize nextSet (fun i => f i == false) 0 n = k at hspec hki
    rcases hspec with ⟨-, -, h3, -⟩ | ⟨h1, -⟩
    · by_contra hset
      have hset : f i = true := by simpa using hset
      have hk : f k = true := by
        by_cases he : k = i
        · rwa [he]
        · exact hdown k i (by omega) hi hset
      rw [hk] at h3
      cases h3
    · omega
  · intro hclear i j hij hj hset
    have hjk : j < nextSet (fun i => f i == false) 0 n := by
      by_contra hge
      rw [hclear j (Nat.le_of_not_lt hge) hj] at hset
      cases hset
    simpa using nextSet_clear (Nat.zero_le i) (Nat.lt_trans hij hjk)

/-- How often a value stands among the first bools. -/
theorem count_bools (v : Bool) : (bools f n).count v = countBits (fun i => f i == v) n := by
  unfold bools
  rw [List.count, List.countP_map, List.countP_eq_length_filter, ← length_filter_range]
  rfl

/-- **Bools with as many set ones are a permutation of each other.** -/
theorem bools_perm {g : Nat → Bool} (h : countBits f n = countBits g n) :
    (bools f n).Perm (bools g n) := by
  rw [List.perm_iff_count]
  intro v
  rw [count_bools, count_bools]
  cases v
  · have hnot (f : Nat → Bool) : countBits (fun i => f i == false) n = n - countBits f n := by
      rw [← countBits_not]
      exact countBits_congr fun i _ => by cases f i <;> rfl
    rw [hnot, hnot, h]
  · have hid (f : Nat → Bool) : countBits (fun i => f i == true) n = countBits f n :=
      countBits_congr fun i _ => by cases f i <;> rfl
    rw [hid, hid, h]

end Lists

/-! ## 4. The algorithms on the bools -/

section Exact
variable {w : Nat} {V : Vehicle w} {r x y : Bools V} {value : Bool}

theorem bitFind_eq : bitFind r value = nextSet (fun i => r.at i == value) 0 r.size := by
  unfold bitFind
  rw [r.firstPosition_eq]
  exact BitBlockContainer.findValue_eq r.inv.shape r.fits

theorem bitFindLast_eq :
    bitFindLast r value = prevSet (fun i => r.at i == value) r.size r.size := by
  unfold bitFindLast
  rw [r.firstPosition_eq]
  exact BitBlockContainer.findLastValue_eq r.inv.shape r.fits

/-- **`bit_mismatch` answers the first difference**, whichever of the two is the shorter. -/
theorem bitMismatch_eq (hy : y.isWindowed = x.isWindowed) :
    bitMismatch x y = nextSet (fun i => x.at i != y.at i) 0 (min x.size y.size) := by
  have hat (z : Bools V) (hz : z.isWindowed = false) (i : Nat) : z.at i = z.bits.bit i := by
    unfold Bools.at
    rw [(z.whole hz).1, Nat.zero_add]
  unfold bitMismatch
  cases hx : x.isWindowed with
  | true => rfl
  | false =>
      have hyw := hy.trans hx
      have hxs := (x.whole hx).2.1
      have hys := (y.whole hyw).2.1
      simp only [hat x hx, hat y hyw]
      show (if x.size ≤ y.size then _ else _) = _
      by_cases hs : x.size ≤ y.size
      · rw [if_pos hs, Nat.min_eq_left hs, hxs]
        exact BitBlockContainer.firstMismatch_eq x.inv
      · rw [if_neg hs, Nat.min_eq_right (by omega), hys,
          BitBlockContainer.firstMismatch_eq y.inv]
        congr 1
        exact funext fun i => bne_comm

/-- The rest of a sequence from position `k` on, searched again. -/
theorem findValue_rest (r : Bools V) {k : Nat} (hk : k ≤ r.size) :
    r.bits.findValue (r.firstPosition + k) (r.size - k) value = r.size - k ↔
      ∀ i, k ≤ i → i < r.size → r.at i = !value := by
  have hfits := r.fits
  rw [r.firstPosition_eq, BitBlockContainer.findValue_eq r.inv.shape (by omega)]
  have hat (i : Nat) : r.bits.bit (r.offset + k + i) = r.at (k + i) := by
    unfold Bools.at
    rw [Nat.add_assoc]
  have hnot {b : Bool} : (b == value) = false ↔ b = !value := by
    cases b <;> cases value <;> decide
  constructor
  · intro he i hki hi
    rcases nextSet_spec (fun i => r.bits.bit (r.offset + k + i) == value) 0 (r.size - k) with
      ⟨-, h2, -, -⟩ | ⟨-, h2⟩
    · omega
    · have := h2 (i - k) (Nat.zero_le _) (by omega)
      rw [hat, show k + (i - k) = i by omega] at this
      exact hnot.mp this
  · intro hall
    refine nextSet_none fun i _ hi => ?_
    rw [hat]
    exact hnot.mpr (hall (k + i) (by omega) (by omega))

/-- **`bit_is_sorted`: no false after the first true.** -/
theorem bitIsSorted_eq (r : Bools V) : bitIsSorted r = isSorted r.toList := by
  have hone : r.bits.findValue r.firstPosition r.size true =
      nextSet (fun i => r.at i == true) 0 r.size := bitFind_eq
  rw [Bool.eq_iff_iff]
  refine Iff.trans ?_ (isSorted_iff (f := r.at)).symm
  unfold bitIsSorted
  dsimp only
  rw [beq_iff_eq, hone, findValue_rest r nextSet_le, set_from_iff]
  rfl

/-- **`bit_is_partitioned`: no true after the first false.** -/
theorem bitIsPartitioned_eq (r : Bools V) : bitIsPartitioned r = isPartitioned r.toList := by
  have hzero : r.bits.findValue r.firstPosition r.size false =
      nextSet (fun i => r.at i == false) 0 r.size := bitFind_eq
  rw [Bool.eq_iff_iff]
  refine Iff.trans ?_ (isPartitioned_iff (f := r.at)).symm
  unfold bitIsPartitioned
  dsimp only
  rw [beq_iff_eq, hzero, findValue_rest r nextSet_le, clear_from_iff]
  rfl

/-- Partitioned bools are set below their first clear one. -/
theorem partitionPoint_bools {f : Nat → Bool} {n k : Nat} (hk : k ≤ n)
    (hf : ∀ i, i < n → f i = decide (i < k)) :
    partitionPoint (fun i => some (f i)) 0 n = some k :=
  partitionPoint_eq (Nat.zero_le k) hk fun q hq _ => congrArg some (hf q hq)

theorem bitPartitionPoint_eq (r : Bools V) (h : isPartitioned r.toList = true) :
    partitionPoint (fun i => some (r.at i)) 0 r.size = some (bitPartitionPoint r) := by
  have hclear := clear_from_iff.mp ((isPartitioned_iff (f := r.at)).mp h)
  have hzero : bitPartitionPoint r = nextSet (fun i => r.at i == false) 0 r.size := bitFind_eq
  rw [hzero]
  refine partitionPoint_bools nextSet_le fun i hi => ?_
  by_cases hik : i < nextSet (fun i => r.at i == false) 0 r.size
  · rw [decide_eq_true hik]
    simpa using nextSet_clear (Nat.zero_le i) hik
  · rw [decide_eq_false hik]
    exact hclear i (by omega) hi

theorem countTrue_eq (r : Bools V) : countTrue r = countBits r.at r.size := by
  unfold countTrue
  split
  · rw [BitBlockContainer.countRange_eq r.inv.shape r.fits]
    rfl
  · rename_i hw
    rw [Bool.not_eq_true] at hw
    obtain ⟨h1, h2, -⟩ := r.whole hw
    rw [BitBlockContainer.count_eq r.inv, h2]
    refine countBits_congr fun p _ => ?_
    unfold Bools.at
    rw [h1, Nat.zero_add]

/-- **The bools rearranged within the sequence**, with nothing outside of it touched. -/
structure Rearranged (r : Bools V) (d : BitBlockContainer V) : Prop where
  inv : d.Inv
  size : d.size = r.bits.size
  outside : ∀ p, p < r.offset ∨ r.offset + r.size ≤ p → d.bit p = r.bits.bit p
  perm : (windowOf d r.offset r.size).Perm r.toList

/-- Two adjacent ranges written with one value and the other. -/
theorem rearranged_of_fill (r : Bools V) (first : Nat) (v : Bool) (hf : first ≤ r.size)
    (hcount : (if v then first else r.size - first) = countBits r.at r.size) :
    Rearranged r ((r.bits.setRange r.offset first v).setRange (r.offset + first) (r.size - first)
      (!v)) ∧
    ∀ i, i < r.size → ((r.bits.setRange r.offset first v).setRange (r.offset + first)
      (r.size - first) (!v)).bit (r.offset + i) = if i < first then v else !v := by
  have hfits := r.fits
  have h1 : r.offset + first ≤ r.bits.size := by omega
  have hs := (BitBlockContainer.sameWidth_setRange (v := v) r.inv.shape h1).size
  have hinv := r.inv.setRange (v := v) h1
  have h2 : r.offset + first + (r.size - first) ≤ (r.bits.setRange r.offset first v).size := by
    omega
  have hs' := (BitBlockContainer.sameWidth_setRange (v := !v) hinv.shape h2).size
  have hbit (p : Nat) := BitBlockContainer.bit_setRange (v := !v) (p := p) hinv.shape h2
  have hbit' (p : Nat) := BitBlockContainer.bit_setRange (v := v) (p := p) r.inv.shape h1
  have hread (i : Nat) (hi : i < r.size) : ((r.bits.setRange r.offset first v).setRange
      (r.offset + first) (r.size - first) (!v)).bit (r.offset + i) =
      if i < first then v else !v := by
    rw [hbit, hbit']
    by_cases hif : i < first
    · rw [if_neg (by omega), if_pos (by omega), if_pos hif]
    · rw [if_pos (by omega), if_neg hif]
  refine ⟨⟨hinv.setRange h2, hs'.trans hs, fun p hp => ?_, ?_⟩, hread⟩
  · rw [hbit, hbit', if_neg (by omega), if_neg (by omega)]
  · have hn : r.size = first + (r.size - first) := by omega
    refine (bools_perm (f := r.at) ?_).symm
    rw [← hcount, countBits_congr (g := fun i => if i < first then v else !v) hread]
    conv_rhs => rw [hn]
    rw [countBits_add, countBits_const (v := v) fun p hp => if_pos hp,
      countIn_const (v := !v) fun p hp _ => if_neg (by omega)]
    cases v <;> simp

theorem countTrue_le (r : Bools V) : countTrue r ≤ r.size := by
  rw [countTrue_eq r]
  exact countBits_le

/-- **`bit_sort` leaves the bools in order**: the zeros first, as many as there were. -/
theorem bitSort_exact (r : Bools V) :
    Rearranged r (bitSort r) ∧ isSorted (windowOf (bitSort r) r.offset r.size) = true := by
  have hle := countTrue_le r
  have hsort : bitSort r = (r.bits.setRange r.offset (r.size - countTrue r) false).setRange
      (r.offset + (r.size - countTrue r)) (r.size - (r.size - countTrue r)) (!false) := by
    unfold bitSort
    dsimp only
    rw [r.firstPosition_eq, Nat.add_sub_assoc hle, Nat.sub_sub_self hle]
    rfl
  obtain ⟨h1, h2⟩ := rearranged_of_fill r (r.size - countTrue r) false (Nat.sub_le _ _)
    (by rw [if_neg (by decide), Nat.sub_sub_self hle, countTrue_eq r])
  rw [hsort]
  refine ⟨h1, isSorted_iff.mpr fun i hi hset => ?_⟩
  rw [h2 i (by omega)] at hset
  rw [h2 (i + 1) hi]
  split at hset
  · cases hset
  · rw [if_neg (by omega)]
    rfl

/-- **`bit_partition` leaves the ones first and answers where the zeros start.** -/
theorem bitPartition_exact (r : Bools V) :
    Rearranged r (bitPartition r).2 ∧
      isPartitioned (windowOf (bitPartition r).2 r.offset r.size) = true ∧
      partitionPoint (fun i => some ((bitPartition r).2.bit (r.offset + i))) 0 r.size =
        some (bitPartition r).1 := by
  have hle := countTrue_le r
  have hpart : (bitPartition r).2 = (r.bits.setRange r.offset (countTrue r) true).setRange
      (r.offset + countTrue r) (r.size - countTrue r) (!true) := by
    unfold bitPartition
    dsimp only
    rw [r.firstPosition_eq]
    rfl
  obtain ⟨h1, h2⟩ := rearranged_of_fill r (countTrue r) true hle
    (by rw [if_pos rfl, countTrue_eq r])
  have hread (i : Nat) (hi : i < r.size) :
      (bitPartition r).2.bit (r.offset + i) = decide (i < countTrue r) := by
    rw [hpart, h2 i hi]
    by_cases hlt : i < countTrue r
    · rw [if_pos hlt, decide_eq_true hlt]
    · rw [if_neg hlt, decide_eq_false hlt]
      rfl
  refine ⟨hpart ▸ h1, isPartitioned_iff.mpr fun i j hij hj hset => ?_,
    partitionPoint_bools hle hread⟩
  rw [hread j hj, decide_eq_true_eq] at hset
  rw [hread i (by omega)]
  exact decide_eq_true (by omega)

/-- **Searching and ordering are the standard's on the bools**: of every sequence, whole or a
    window, the finds answer the first and the last position of a value and the mismatch the first
    difference; the tests agree; and sorting and partitioning rearrange the bools in order. -/
theorem searches_exact (r : Bools V) :
    (∀ value, FirstSet (fun i => r.at i == value) 0 r.size (bitFind r value) ∧
      LastSet (fun i => r.at i == value) r.size r.size (bitFindLast r value)) ∧
    (∀ y : Bools V, y.isWindowed = r.isWindowed →
      FirstSet (fun i => r.at i != y.at i) 0 (min r.size y.size) (bitMismatch r y)) ∧
    bitIsSorted r = isSorted r.toList ∧
    bitIsPartitioned r = isPartitioned r.toList ∧
    (isPartitioned r.toList = true →
      partitionPoint (fun i => some (r.at i)) 0 r.size = some (bitPartitionPoint r)) ∧
    (Rearranged r (bitSort r) ∧ isSorted (windowOf (bitSort r) r.offset r.size) = true) ∧
    Rearranged r (bitPartition r).2 ∧
      isPartitioned (windowOf (bitPartition r).2 r.offset r.size) = true ∧
      partitionPoint (fun i => some ((bitPartition r).2.bit (r.offset + i))) 0 r.size =
        some (bitPartition r).1 := by
  refine ⟨fun value => ⟨?_, ?_⟩, fun y hy => ?_, bitIsSorted_eq r, bitIsPartitioned_eq r,
    bitPartitionPoint_eq r, bitSort_exact r, bitPartition_exact r⟩
  · rw [bitFind_eq]
    exact nextSet_spec _ _ _
  · rw [bitFindLast_eq]
    exact prevSet_spec _ _ _
  · rw [bitMismatch_eq hy]
    exact nextSet_spec _ _ _

/-- Two windows of twelve bools, two positions apart: the first false one, and where they differ. -/
theorem searches_exact_twelve :
    let x := Bools.window (fourOfTwelve true) (fourOfTwelve_inv true) 3 5 (by decide)
    let y := Bools.window (fourOfTwelve true) (fourOfTwelve_inv true) 5 4 (by decide)
    bitFind x false = 1 ∧ bitMismatch x y = 2 := by
  intro x y
  obtain ⟨hfind, hmismatch, -⟩ := searches_exact x
  exact ⟨(hfind false).1.eq.trans (by decide), (hmismatch y rfl).eq.trans (by decide)⟩

end Exact

end XstdBits
