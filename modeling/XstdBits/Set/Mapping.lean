/-
  File: XstdBits/Set/Mapping.lean
  Subject: how a set's keys map onto positions (`bit_key_mapping.hpp`, `bit_flag_mapping.hpp`).

  * `KeyMapping` is a mapping as the set reading uses it; `from_index` answers nothing where it
    would read past a list or break its own assertion.
  * `KeyMapping.Bijective` says that it is an order-preserving bijection between its keys and the
    positions of its universe.
  * the library's mappings: the unsigned identity, a range of consecutive keys, a list of keys, and
    the one-bit values of a flag type. A key of the last three is the word of its bits.
  * `ExactMapping` adds to the bijection what the mapping says of every other value of the key type.
-/
import XstdBits.Container.Storage
import XstdBits.Lib.OrderedKeys

namespace XstdBits

/-! ## 1. Mappings -/

structure KeyMapping (Key : Type) where
  /-- `size`, of a mapping that closes its universe -/
  size : Option Nat
  isKey : Key → Bool
  toIndex : Key → Nat
  fromIndex : Nat → Option Key
  /-- what `to_index` asks of its argument -/
  indexable : Key → Bool

namespace KeyMapping
variable {Key : Type} (M : KeyMapping Key)

/-- **An order-preserving bijection** between the keys and the positions below `U`. -/
structure Bijective [LT Key] (U : Nat) : Prop where
  size_eq : ∀ n, M.size = some n → n = U
  top : U ≤ 2 ^ 64
  index_lt : ∀ k, M.isKey k = true → M.toIndex k < U
  from_to : ∀ k, M.isKey k = true → M.fromIndex (M.toIndex k) = some k
  to_from : ∀ i, i < U → ∃ k, M.fromIndex i = some k ∧ M.isKey k = true ∧ M.toIndex k = i
  mono : ∀ a b, M.isKey a = true → M.isKey b = true → (a < b ↔ M.toIndex a < M.toIndex b)

variable {M}

theorem Bijective.inj [LT Key] {U : Nat} (hM : M.Bijective U) {a b : Key} (ha : M.isKey a = true)
    (hb : M.isKey b = true) (h : M.toIndex a = M.toIndex b) : a = b := by
  have h1 := hM.from_to a ha
  rw [h, hM.from_to b hb] at h1
  exact (Option.some.inj h1).symm

end KeyMapping

/-! ## 2. The unsigned identity -/

/-- A `size_t` out of an unsigned value. -/
def toSize (n : Nat) : Nat := n % 2 ^ 64

/-- `bit_key_mapping` of an unsigned key of `b` bits: its own position, in a universe left open. -/
def unsignedMapping (b : Nat) : KeyMapping (Fin (2 ^ b)) where
  size := none
  isKey key := toSize key % 2 ^ b == key
  toIndex key := toSize key
  fromIndex index := some ⟨index % 2 ^ b, Nat.mod_lt _ (Nat.two_pow_pos b)⟩
  indexable key := key ≤ sizeMax

theorem toSize_of_le {n : Nat} (h : n ≤ sizeMax) : toSize n = n := by
  unfold sizeMax at h
  exact Nat.mod_eq_of_lt (by omega)

theorem toSize_le {n : Nat} : toSize n ≤ sizeMax := by
  unfold toSize sizeMax
  have := Nat.mod_lt n (show 2 ^ 64 > 0 by decide)
  omega

/-- The keys are the values a `size_t` holds. -/
theorem unsignedMapping_isKey {b : Nat} {k : Fin (2 ^ b)} :
    (unsignedMapping b).isKey k = true ↔ k.val ≤ sizeMax := by
  unfold unsignedMapping
  simp only [beq_iff_eq]
  constructor
  · intro h
    rw [← h]
    exact Nat.le_trans (Nat.mod_le _ _) toSize_le
  · intro h
    rw [toSize_of_le h]
    exact Nat.mod_eq_of_lt k.isLt

/-- **The identity is an order-preserving bijection** onto the positions its type and a `size_t`
    both hold. -/
theorem unsignedMapping_bijective (b : Nat) : (unsignedMapping b).Bijective (2 ^ min b 64) := by
  have hmin : 2 ^ min b 64 ≤ 2 ^ 64 := Nat.pow_le_pow_right (by decide) (Nat.min_le_right _ _)
  have hminb : 2 ^ min b 64 ≤ 2 ^ b := Nat.pow_le_pow_right (by decide) (Nat.min_le_left _ _)
  have hidx (k : Fin (2 ^ b)) (hk : (unsignedMapping b).isKey k = true) :
      (unsignedMapping b).toIndex k = k.val := toSize_of_le (unsignedMapping_isKey.mp hk)
  refine ⟨fun n h => ?_, hmin, fun k hk => ?_, fun k hk => ?_, fun i hi => ?_, fun x y hx hy => ?_⟩
  · cases h
  · rw [hidx k hk]
    have h1 := unsignedMapping_isKey.mp hk
    unfold sizeMax at h1
    rcases Nat.le_total b 64 with hb | hb
    · rw [Nat.min_eq_left hb]
      exact k.isLt
    · rw [Nat.min_eq_right hb]
      omega
  · rw [hidx k hk]
    show some _ = some k
    congr 1
    exact Fin.ext (Nat.mod_eq_of_lt k.isLt)
  · have hik : i % 2 ^ b = i := Nat.mod_eq_of_lt (by omega)
    have hkey : (unsignedMapping b).isKey ⟨i % 2 ^ b, Nat.mod_lt _ (Nat.two_pow_pos b)⟩ = true := by
      rw [unsignedMapping_isKey]
      show i % 2 ^ b ≤ sizeMax
      unfold sizeMax
      omega
    exact ⟨_, rfl, hkey, (hidx _ hkey).trans hik⟩
  · rw [hidx x hx, hidx y hy]
    exact Iff.rfl

/-! ## 3. Ranges, lists and flags -/

/-- `key_distance`: the unsigned distance, saturated past a `size_t`. -/
def keyDistance {b : Nat} (from' to' : BitVec b) : Nat := min (to' - from').toNat sizeMax

/-- `bit_range_mapping`: the `n` consecutive keys from `first`. -/
def bitRangeMapping {b : Nat} (first : BitVec b) (n : Nat) : KeyMapping (BitVec b) where
  size := some n
  isKey key := keyDistance first key < n
  toIndex key := keyDistance first key
  fromIndex index := some (first + BitVec.ofNat b index)
  indexable _ := true

/-- `ordinal`: the integer a key is ordered by. -/
def ordinal {b : Nat} (signed : Bool) (key : BitVec b) : Int :=
  if signed then key.toInt else key.toNat

/-- The values of a `bit_find_mapping`, strictly ascending as it asserts. -/
structure KeyList (signed : Bool) (b : Nat) where
  keys : List (BitVec b)
  ascending : keys.Pairwise fun x y => ordinal signed x < ordinal signed y

/-- `bit_find_mapping`: the keys listed, each at its rank. -/
def bitFindMapping {signed : Bool} {b : Nat} (list : KeyList signed b) : KeyMapping (BitVec b) where
  size := some list.keys.length
  isKey key := rank list key < list.keys.length
  toIndex key := rank list key
  fromIndex index := list.keys[index]?
  indexable _ := true
where
  /-- `lower_bound`, and the size where what it finds is another key. -/
  rank {signed : Bool} {b : Nat} (list : KeyList signed b) (key : BitVec b) : Nat :=
    let first := list.keys.findIdx fun k => !decide (ordinal signed k < ordinal signed key)
    match list.keys[first]? with
    | .none => list.keys.length
    | .some found => if ordinal signed found ≠ ordinal signed key then list.keys.length else first

/-- `bit_flag_mapping`: a value of one bit below `n`, at the position of its bit. -/
def bitFlagMapping (b n : Nat) : KeyMapping (BitVec b) where
  size := some n
  isKey key := popcount key == 1 && countrZero key < n
  toIndex key := countrZero key
  fromIndex index := if index < n then some (shl unit index) else .none
  indexable key := popcount key == 1

/-- The mappings of the library, each with what its own assertions ask of its arguments. -/
inductive LibraryMapping : {Key : Type} → KeyMapping Key → Prop where
  | unsigned (b : Nat) : LibraryMapping (unsignedMapping b)
  | range {b : Nat} (first : BitVec b) (n : Nat) (hn : n ≤ sizeMax) :
      LibraryMapping (bitRangeMapping first n)
  | find {signed : Bool} {b : Nat} (list : KeyList signed b) : LibraryMapping (bitFindMapping list)
  | flag (b n : Nat) (hn : n ≤ b) : LibraryMapping (bitFlagMapping b n)

/-! ## 4. What a value ranks at -/

theorem ordinal_inj {b : Nat} {signed : Bool} {x y : BitVec b}
    (h : ordinal signed x = ordinal signed y) : x = y := by
  unfold ordinal at h
  split at h
  · exact BitVec.eq_of_toInt_eq h
  · exact BitVec.eq_of_toNat_eq (Int.ofNat.inj h)

theorem bitRangeMapping_from_to {b n : Nat} {first key : BitVec b} (hn : n ≤ sizeMax)
    (hk : (bitRangeMapping first n).isKey key = true) :
    (bitRangeMapping first n).fromIndex ((bitRangeMapping first n).toIndex key) = some key := by
  have hlt : keyDistance first key < n := by simpa [bitRangeMapping] using hk
  show some (first + BitVec.ofNat b (keyDistance first key)) = some key
  unfold keyDistance at hlt ⊢
  rw [Nat.min_eq_left (by omega), BitVec.ofNat_toNat, BitVec.setWidth_eq,
    BitVec.add_comm, BitVec.sub_add_cancel]

/-- A value ranks at the size, or where it is listed. -/
theorem bitFindMapping_rank {signed : Bool} {b : Nat} (list : KeyList signed b) (key : BitVec b) :
    bitFindMapping.rank list key = list.keys.length ∨
      list.keys[bitFindMapping.rank list key]? = some key := by
  unfold bitFindMapping.rank
  dsimp only
  split
  · exact Or.inl rfl
  · rename_i found hfound
    split
    · exact Or.inl rfl
    · rename_i hsame
      rw [hfound, ordinal_inj (not_not.mp hsame)]
      exact Or.inr rfl

/-- A value of one bit is the bit at its position. -/
theorem eq_unit_shl {b : Nat} {key : BitVec b} (h : popcount key = 1) :
    key = shl unit (countrZero key) := by
  have hne : key ≠ zero := by
    intro hz
    have h0 : popcount key = 0 := countBits_eq_zero fun p _ => by rw [hz, getLsbD_zero']
    omega
  have hclear := countBits_update (f := key.getLsbD)
    (g := fun p => if p = countrZero key then false else key.getLsbD p) (countrZero_lt hne)
    fun p hp => if_neg hp
  simp only [if_true, getLsbD_countrZero hne, Bool.toNat_true, Bool.toNat_false] at hclear
  unfold popcount at h
  rw [h] at hclear
  have hnone := countBits_eq_zero_iff.mp (Nat.add_right_cancel (hclear.trans (Nat.zero_add 1).symm))
  refine BitVec.eq_of_getLsbD_eq fun j hj => ?_
  rw [getLsbD_unit_shl hj]
  by_cases hjk : j = countrZero key
  · rw [decide_eq_true hjk, hjk]
    exact getLsbD_countrZero hne
  · rw [decide_eq_false hjk]
    have := hnone j hj
    rwa [if_neg hjk] at this

/-- **A value is a key at its own position, or ranks past a closed universe**, where `to_index`
    admits it at all. -/
theorem LibraryMapping.exact {Key : Type} {M : KeyMapping Key} (hM : LibraryMapping M) {key : Key}
    (hx : M.indexable key = true) :
    (M.isKey key = true ∧ M.fromIndex (M.toIndex key) = some key) ∨
      ∃ n, M.size = some n ∧ n ≤ M.toIndex key := by
  cases hM with
  | unsigned b =>
      have hk := unsignedMapping_isKey.mpr (show key.val ≤ sizeMax by simpa [unsignedMapping] using hx)
      exact Or.inl ⟨hk, (unsignedMapping_bijective b).from_to key hk⟩
  | range first n hn =>
      by_cases hk : (bitRangeMapping first n).isKey key = true
      · exact Or.inl ⟨hk, bitRangeMapping_from_to hn hk⟩
      · refine Or.inr ⟨n, rfl, ?_⟩
        simpa [bitRangeMapping] using hk
  | find list =>
      rcases bitFindMapping_rank list key with h | h
      · exact Or.inr ⟨_, rfl, Nat.le_of_eq h.symm⟩
      · have hlt := (List.getElem?_eq_some_iff.mp h).1
        exact Or.inl ⟨decide_eq_true hlt, h⟩
  | flag b n hn =>
      have hone : popcount key = 1 := by simpa [bitFlagMapping] using hx
      by_cases hlt : countrZero key < n
      · left
        simp only [bitFlagMapping, hone, beq_self_eq_true, Bool.true_and, decide_eq_true_eq]
        rw [if_pos hlt, ← eq_unit_shl hone]
        exact ⟨hlt, rfl⟩
      · exact Or.inr ⟨n, rfl, Nat.le_of_not_lt hlt⟩

/-- A key is an argument of its mapping, and ranks within a closed universe. -/
theorem LibraryMapping.of_isKey {Key : Type} {M : KeyMapping Key} (hM : LibraryMapping M) {key : Key}
    (hk : M.isKey key = true) :
    M.indexable key = true ∧ ∀ n, M.size = some n → M.toIndex key < n := by
  cases hM with
  | unsigned b =>
      refine ⟨decide_eq_true (unsignedMapping_isKey.mp hk), fun n hn => ?_⟩
      cases hn
  | range first m hm =>
      refine ⟨rfl, fun n hn => ?_⟩
      cases hn
      exact of_decide_eq_true hk
  | find list =>
      refine ⟨rfl, fun n hn => ?_⟩
      cases hn
      exact of_decide_eq_true hk
  | flag b m hm =>
      simp only [bitFlagMapping, Bool.and_eq_true, decide_eq_true_eq] at hk
      refine ⟨hk.1, fun n hn => ?_⟩
      cases hn
      exact hk.2

theorem LibraryMapping.from_to {Key : Type} {M : KeyMapping Key} (hM : LibraryMapping M) {key : Key}
    (hk : M.isKey key = true) : M.fromIndex (M.toIndex key) = some key := by
  obtain ⟨hx, hlt⟩ := hM.of_isKey hk
  rcases hM.exact hx with h | ⟨n, hn, hle⟩
  · exact h.2
  · have := hlt n hn
    omega

/-! ## 5. The library's bijections -/

/-- A word as a key: ordered by its integer. -/
def KeyWord (_ : Bool) (b : Nat) := BitVec b

instance {signed : Bool} {b : Nat} : LinearOrder (KeyWord signed b) :=
  LinearOrder.lift' (ordinal (b := b) signed) fun _ _ => ordinal_inj

theorem keyWord_lt {signed : Bool} {b : Nat} {x y : KeyWord signed b} :
    x < y ↔ ordinal (b := b) signed x < ordinal signed y := Iff.rfl

section Bijections
variable {signed : Bool} {b n : Nat}

/-- Consecutive keys are as many as their type holds at most. -/
theorem lt_of_consecutive {first : BitVec b}
    (hrun : ∀ i, i < n → ordinal signed (first + BitVec.ofNat b i) = ordinal signed first + i)
    {i : Nat} (hi : i < n) : i < 2 ^ b := by
  by_contra hge
  have hwrap := hrun (2 ^ b) (by omega)
  have hzero : BitVec.ofNat b (2 ^ b) = 0#b := by
    rw [← BitVec.toNat_inj, BitVec.toNat_ofNat, BitVec.toNat_ofNat, Nat.mod_self, Nat.zero_mod]
  have hpos := Nat.two_pow_pos b
  rw [hzero, BitVec.add_zero] at hwrap
  omega

/-- **A range of consecutive keys is a bijection** onto the positions below its size. -/
theorem bitRangeMapping_bijective {first : BitVec b} (hn : n ≤ sizeMax)
    (hrun : ∀ i, i < n → ordinal signed (first + BitVec.ofNat b i) = ordinal signed first + i) :
    @KeyMapping.Bijective (KeyWord signed b) (bitRangeMapping first n) _ n := by
  have hlt (k : BitVec b) (hk : (bitRangeMapping first n).isKey k = true) :
      keyDistance first k < n := of_decide_eq_true hk
  have hord (k : BitVec b) (hk : (bitRangeMapping first n).isKey k = true) :
      ordinal signed k = ordinal signed first + keyDistance first k := by
    rw [← hrun _ (hlt k hk)]
    congr 1
    exact (Option.some.inj (bitRangeMapping_from_to hn hk)).symm
  refine ⟨fun m hm => ?_, ?_, hlt, fun k hk => bitRangeMapping_from_to hn hk, fun i hi => ?_,
    fun x y hx hy => ?_⟩
  · cases hm
    rfl
  · unfold sizeMax at hn
    omega
  · have hd : keyDistance first (first + BitVec.ofNat b i) = i := by
      unfold keyDistance
      rw [BitVec.add_comm, BitVec.add_sub_cancel, BitVec.toNat_ofNat,
        Nat.mod_eq_of_lt (lt_of_consecutive hrun hi), Nat.min_eq_left (by omega)]
    refine ⟨first + BitVec.ofNat b i, rfl, ?_, hd⟩
    show decide (keyDistance first _ < n) = true
    rw [hd]
    exact decide_eq_true hi
  · rw [keyWord_lt, hord x hx, hord y hy]
    show _ ↔ keyDistance first x < keyDistance first y
    omega

/-- A listed key ranks at its place in the list. -/
theorem bitFindMapping_rank_listed (list : KeyList signed b) {i : Nat} {key : BitVec b}
    (hi : list.keys[i]? = some key) : bitFindMapping.rank list key = i := by
  obtain ⟨hlt, hkey⟩ := List.getElem?_eq_some_iff.mp hi
  have hasc (j k : Nat) (hj : j < list.keys.length) (hk : k < list.keys.length) (h : j < k) :
      ordinal signed list.keys[j] < ordinal signed list.keys[k] :=
    List.pairwise_iff_getElem.mp list.ascending j k hj hk h
  have hfind : list.keys.findIdx (fun k => !decide (ordinal signed k < ordinal signed key)) = i := by
    rw [List.findIdx_eq hlt]
    refine ⟨by rw [hkey]; simp, fun j hj => ?_⟩
    have := hasc j i (by omega) hlt hj
    rw [hkey] at this
    simp [this]
  unfold bitFindMapping.rank
  dsimp only
  rw [hfind, hi]
  simp

/-- **A list of keys is a bijection** onto its places. -/
theorem bitFindMapping_bijective (list : KeyList signed b) (hn : list.keys.length ≤ sizeMax) :
    @KeyMapping.Bijective (KeyWord signed b) (bitFindMapping list) _ list.keys.length := by
  have hread (k : BitVec b) (hk : (bitFindMapping list).isKey k = true) :
      list.keys[bitFindMapping.rank list k]? = some k := by
    have hlt : bitFindMapping.rank list k < list.keys.length := of_decide_eq_true hk
    exact (bitFindMapping_rank list k).resolve_left (by omega)
  refine ⟨fun m hm => ?_, ?_, fun k hk => of_decide_eq_true hk, hread, fun i hi => ?_,
    fun x y hx hy => ?_⟩
  · cases hm
    rfl
  · unfold sizeMax at hn
    omega
  · have hat : list.keys[i]? = some list.keys[i] := List.getElem?_eq_getElem hi
    have hrank := bitFindMapping_rank_listed list hat
    refine ⟨list.keys[i], hat, ?_, hrank⟩
    show decide (bitFindMapping.rank list _ < list.keys.length) = true
    rw [hrank]
    exact decide_eq_true hi
  · obtain ⟨hlx, hex⟩ := List.getElem?_eq_some_iff.mp (hread x hx)
    obtain ⟨hly, hey⟩ := List.getElem?_eq_some_iff.mp (hread y hy)
    have hasc (j k : Nat) (hj : j < list.keys.length) (hk : k < list.keys.length) (h : j < k) :
        ordinal signed list.keys[j] < ordinal signed list.keys[k] :=
      List.pairwise_iff_getElem.mp list.ascending j k hj hk h
    show ordinal signed x < ordinal signed y ↔
      bitFindMapping.rank list x < bitFindMapping.rank list y
    constructor
    · intro hlt
      by_contra hge
      rcases Nat.eq_or_lt_of_le (Nat.le_of_not_lt hge) with he | hgt
      · have : x = y := by
          rw [← hex, ← hey]
          congr 1
          exact he.symm
        rw [this] at hlt
        omega
      · have := hasc _ _ hly hlx hgt
        rw [hex, hey] at this
        omega
    · intro hlt
      have := hasc _ _ hlx hly hlt
      rwa [hex, hey] at this

/-- One bit alone ranks at its position. -/
theorem countrZero_unit_shl {i : Nat} (hi : i < b) :
    popcount (shl unit i : BitVec b) = 1 ∧ countrZero (shl unit i : BitVec b) = i := by
  have hone : popcount (shl unit i : BitVec b) = 1 := by
    have hupd := countBits_update (f := fun _ => false) (g := (shl unit i : BitVec b).getLsbD) hi
      fun p hp => ?_
    · rw [countBits_eq_zero fun _ _ => rfl] at hupd
      unfold popcount
      rw [getLsbD_unit_shl hi] at hupd
      simpa using hupd
    · by_cases hpb : p < b
      · rw [getLsbD_unit_shl hpb, decide_eq_false hp]
      · exact BitVec.getLsbD_of_ge _ _ (by omega)
  refine ⟨hone, ?_⟩
  have hread := eq_unit_shl hone
  have hne : (shl unit i : BitVec b) ≠ zero := by
    intro hz
    have := congrArg (fun k => k.getLsbD i) hz
    simp only [getLsbD_unit_shl hi, decide_true, getLsbD_zero'] at this
    cases this
  have hlt := countrZero_lt hne
  have hbit := congrArg (fun k => k.getLsbD i) hread
  simp only [getLsbD_unit_shl hi, decide_true] at hbit
  exact (of_decide_eq_true hbit.symm).symm

/-- **The one-bit values are a bijection** onto the positions of their bits. -/
theorem bitFlagMapping_bijective (hn : n ≤ b) (hb : b ≤ 2 ^ 64) :
    @KeyMapping.Bijective (KeyWord false b) (bitFlagMapping b n) _ n := by
  have hkey (k : BitVec b) (hk : (bitFlagMapping b n).isKey k = true) :
      popcount k = 1 ∧ countrZero k < n := by
    simp only [bitFlagMapping, Bool.and_eq_true, beq_iff_eq, decide_eq_true_eq] at hk
    exact hk
  have hval (k : BitVec b) (hk : (bitFlagMapping b n).isKey k = true) :
      k.toNat = 2 ^ countrZero k := by
    obtain ⟨h1, h2⟩ := hkey k hk
    have hlt : 2 ^ countrZero k < 2 ^ b := Nat.pow_lt_pow_right (by decide) (by omega)
    conv_lhs => rw [eq_unit_shl h1]
    unfold shl unit
    rw [BitVec.toNat_shiftLeft, BitVec.toNat_ofNat, Nat.shiftLeft_eq, Nat.mod_mul_mod, Nat.one_mul,
      Nat.mod_eq_of_lt hlt]
  refine ⟨fun m hm => ?_, by omega, fun k hk => (hkey k hk).2, fun k hk => ?_, fun i hi => ?_,
    fun x y hx hy => ?_⟩
  · cases hm
    rfl
  · obtain ⟨h1, h2⟩ := hkey k hk
    show (if countrZero k < n then some (shl unit (countrZero k)) else none) = some k
    rw [if_pos h2, ← eq_unit_shl h1]
    rfl
  · obtain ⟨h1, h2⟩ := countrZero_unit_shl (b := b) (i := i) (by omega)
    refine ⟨shl unit i, if_pos hi, ?_, h2⟩
    show (popcount _ == 1 && decide (countrZero _ < n)) = true
    rw [h1, h2, decide_eq_true hi]
    rfl
  · show ((x : BitVec b).toNat : Int) < (y : BitVec b).toNat ↔ _
    rw [Int.ofNat_lt, hval x hx, hval y hy]
    exact Nat.pow_lt_pow_iff_right (by decide)

end Bijections

/-! ## 6. What a mapping is exact about -/

section Exact
variable {signed : Bool} {b n : Nat}

/-- **A mapping between the keys and the positions below `n`**: inverse both ways and order
    preserving, its keys told apart, and every other value ranked past them. -/
structure ExactMapping (signed : Bool) (M : KeyMapping (BitVec b)) (n : Nat)
    (keys : BitVec b → Prop) : Prop where
  size : M.size = some n
  isKey_iff : ∀ x, M.isKey x = true ↔ keys x
  index_lt : ∀ x, keys x → M.toIndex x < n
  from_to : ∀ x, keys x → M.fromIndex (M.toIndex x) = some x
  to_from : ∀ i, i < n → ∃ x, M.fromIndex i = some x ∧ keys x ∧ M.toIndex x = i
  mono : ∀ x y, keys x → keys y →
    (ordinal signed x < ordinal signed y ↔ M.toIndex x < M.toIndex y)
  other : ∀ x, ¬ keys x → n ≤ M.toIndex x

/-- A bijection that tells its keys and ranks the others past them is exact. -/
theorem KeyMapping.Bijective.exactMapping {M : KeyMapping (BitVec b)} {keys : BitVec b → Prop}
    (hM : @KeyMapping.Bijective (KeyWord signed b) M _ n) (hsize : M.size = some n)
    (hkeys : ∀ x, M.isKey x = true ↔ keys x) (hother : ∀ x, ¬ M.isKey x = true → n ≤ M.toIndex x) :
    ExactMapping signed M n keys where
  size := hsize
  isKey_iff := hkeys
  index_lt x hx := hM.index_lt x ((hkeys x).mpr hx)
  from_to x hx := hM.from_to x ((hkeys x).mpr hx)
  to_from i hi := by
    obtain ⟨x, hfrom, hx, hto⟩ := hM.to_from i hi
    exact ⟨x, hfrom, (hkeys x).mp hx, hto⟩
  mono x y hx hy := hM.mono x y ((hkeys x).mpr hx) ((hkeys y).mpr hy)
  other x hx := hother x fun hk => hx ((hkeys x).mp hk)

/-- A key that exists a distance above another is reached by adding it. -/
theorem add_of_ordinal {first key : BitVec b} {i : Nat}
    (h : ordinal signed key = ordinal signed first + i) : first + BitVec.ofNat b i = key := by
  unfold ordinal at h
  split at h
  · rw [← BitVec.ofInt_toInt (x := key), h, BitVec.ofInt_add, BitVec.ofInt_toInt,
      BitVec.ofInt_natCast]
  · have hnat : key.toNat = first.toNat + i := by omega
    refine BitVec.eq_of_toNat_eq ?_
    have hlt := key.isLt
    rw [BitVec.toNat_add, BitVec.toNat_ofNat, Nat.add_mod_mod, hnat, Nat.mod_eq_of_lt (by omega)]

/-- The values from the first of consecutive keys on, and below the last of them. -/
theorem bitRangeMapping_isKey {first : BitVec b} (hn : n ≤ sizeMax)
    (hexist : ∀ i, i < n → ∃ key : BitVec b, ordinal signed key = ordinal signed first + i)
    (x : BitVec b) : (bitRangeMapping first n).isKey x = true ↔
      ordinal signed first ≤ ordinal signed x ∧ ordinal signed x < ordinal signed first + n := by
  constructor
  · intro hk
    have hlt : keyDistance first x < n := of_decide_eq_true hk
    obtain ⟨key, hkey⟩ := hexist _ hlt
    have hread : first + BitVec.ofNat b (keyDistance first x) = x :=
      Option.some.inj (bitRangeMapping_from_to hn hk)
    rw [add_of_ordinal hkey] at hread
    rw [← hread, hkey]
    omega
  · intro ⟨hlo, hhi⟩
    obtain ⟨i, hi⟩ := Int.le.dest hlo
    have hin : i < n := by omega
    have hrun : ∀ i, i < n → ordinal signed (first + BitVec.ofNat b i) = ordinal signed first + i := by
      intro i hi
      obtain ⟨key, hkey⟩ := hexist i hi
      rw [add_of_ordinal hkey, hkey]
    obtain ⟨key, hfrom, hkey, -⟩ := (bitRangeMapping_bijective hn hrun).to_from i hin
    have hfrom : first + BitVec.ofNat b i = key := Option.some.inj hfrom
    rw [add_of_ordinal hi.symm] at hfrom
    rw [hfrom]
    exact hkey

/-- **The key mappings are exact**: a range of keys that all exist in their type, whatever its sign
    and width, and a list of ascending keys. -/
theorem mappings_exact (signed : Bool) (b : Nat) :
    (∀ (first : BitVec b) (n : Nat), n ≤ sizeMax →
      (∀ i, i < n → ∃ key : BitVec b, ordinal signed key = ordinal signed first + i) →
      ExactMapping signed (bitRangeMapping first n) n fun x =>
        ordinal signed first ≤ ordinal signed x ∧ ordinal signed x < ordinal signed first + n) ∧
    ∀ list : KeyList signed b, list.keys.length ≤ sizeMax →
      ExactMapping signed (bitFindMapping list) list.keys.length fun x => x ∈ list.keys := by
  refine ⟨fun first n hn hexist => ?_, fun list hn => ?_⟩
  · refine (bitRangeMapping_bijective hn fun i hi => ?_).exactMapping rfl
      (bitRangeMapping_isKey hn hexist) fun x hx => Nat.le_of_not_lt fun hlt => hx (decide_eq_true hlt)
    obtain ⟨key, hkey⟩ := hexist i hi
    rw [add_of_ordinal hkey, hkey]
  · refine (bitFindMapping_bijective list hn).exactMapping rfl (fun x => ?_) fun x hx =>
      Nat.le_of_not_lt fun hlt => hx (decide_eq_true hlt)
    constructor
    · intro hk
      have hlt : bitFindMapping.rank list x < list.keys.length := of_decide_eq_true hk
      exact List.mem_of_getElem? ((bitFindMapping_rank list x).resolve_left (by omega))
    · intro hmem
      obtain ⟨i, hi⟩ := List.mem_iff_getElem?.mp hmem
      refine decide_eq_true ?_
      rw [bitFindMapping_rank_listed list hi]
      exact (List.getElem?_eq_some_iff.mp hi).1

/-- The seven keys from the least of a signed byte. -/
theorem mappings_exact_signed :
    (bitRangeMapping (BitVec.ofInt 8 (-128)) 7).toIndex (BitVec.ofInt 8 (-125)) = 3 ∧
    7 ≤ (bitRangeMapping (BitVec.ofInt 8 (-128)) 7).toIndex (BitVec.ofInt 8 127) := by
  have hexist : ∀ i : Nat, i < 7 → ordinal true (BitVec.ofInt 8 (-128 + i)) =
      ordinal true (BitVec.ofInt 8 (-128)) + i := by decide
  have h := (mappings_exact true 8).1 (BitVec.ofInt 8 (-128)) 7 (by decide) fun i hi =>
    ⟨BitVec.ofInt 8 (-128 + i), hexist i hi⟩
  exact ⟨rfl, h.other _ fun hk => by have := hk.2; revert this; decide⟩

end Exact
end XstdBits
