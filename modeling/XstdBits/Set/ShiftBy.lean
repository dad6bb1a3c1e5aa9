/-
  File: XstdBits/Set/ShiftBy.lean
  Subject: the shifts by a count of any integer type (`shift_by.hpp`, `shl.hpp`, `shr.hpp`).

  * `CountType` is the type of a count and what `unsigned_abs` answers for it, which is not of this
    library: `CountType.Exact` is all that is relied on.
  * `shiftCall` decides between the two operators and `clear`; `shiftCall_spec` says of the choice
    that an operator is called within its precondition and with the whole displacement, and that
    what is emptied has nothing to keep.
  * over keys that are their own positions, `shl` and `shr` translate a set by the count's value.
-/
import XstdBits.Set.Keys

namespace XstdBits

/-! ## 1. Counts -/

/-- The type of a count, and `unsigned_abs` over it. -/
structure CountType where
  isSigned : Bool
  width : Nat
  /-- the digits of the magnitude's type -/
  digits : Nat
  unsignedAbs : BitVec width → BitVec digits

namespace CountType
variable (S : CountType)

/-- A count as an integer. -/
def value (s : BitVec S.width) : Int := if S.isSigned then s.toInt else s.toNat

/-- `unsigned_abs` is exact. -/
def Exact : Prop := ∀ s, (S.unsignedAbs s).toNat = (S.value s).natAbs

/-- The magnitude as a `size_t`, saturated at its top. -/
def saturated (magnitude : BitVec S.digits) : Nat :=
  let n := sizeMax
  if 64 < S.digits then
    if magnitude ≤ BitVec.ofNat S.digits n then toSize magnitude.toNat else n
  else toSize magnitude.toNat

variable {S}

theorem saturated_eq (magnitude : BitVec S.digits) :
    S.saturated magnitude = min magnitude.toNat sizeMax := by
  unfold saturated
  dsimp only
  split
  · rename_i hd
    have htop : (BitVec.ofNat S.digits sizeMax).toNat = sizeMax := by
      refine (BitVec.toNat_ofNat ..).trans (Nat.mod_eq_of_lt ?_)
      exact Nat.lt_of_lt_of_le (by decide : sizeMax < 2 ^ 64)
        (Nat.pow_le_pow_right (by decide) (Nat.le_of_lt hd))
    split
    · rename_i hle
      rw [BitVec.le_def, htop] at hle
      rw [toSize_of_le hle, Nat.min_eq_left hle]
    · rename_i hle
      rw [BitVec.le_def, htop] at hle
      omega
  · rename_i hd
    have hle : magnitude.toNat ≤ sizeMax := by
      have hlt : magnitude.toNat < 2 ^ 64 := Nat.lt_of_lt_of_le magnitude.isLt
        (Nat.pow_le_pow_right (by decide) (by omega))
      unfold sizeMax
      omega
    rw [toSize_of_le hle, Nat.min_eq_left hle]

theorem value_nonneg (h : S.isSigned = false) (s : BitVec S.width) : 0 ≤ S.value s := by
  unfold value
  rw [h, if_neg (by decide)]
  omega

end CountType

/-! ## 2. The choice -/

namespace ShiftableSet
open SetAdaptor (maxSize maxSize_le maxSize_stored shl_ok shl_completes shr_ok contains contains_eq
  FillsUniverse size_le_storedMax)

variable {w : Nat} {V : Vehicle w} {Key : Type}

/-- What `shift_by` calls on the set. -/
inductive ShiftCall where
  | clear
  | shiftLeft (n : Nat)
  | shiftRight (n : Nat)
  deriving DecidableEq, Repr

/-- The precondition of the operators, `n < max_size()`. -/
def ShiftCall.Below (top : Nat) : ShiftCall → Prop
  | .clear => True
  | .shiftLeft n => n < top
  | .shiftRight n => n < top

/-- `x.clear()`, `x <<= n` and `x >>= n`. -/
def ShiftCall.run (M : KeyMapping Key) (mem : Memory) : ShiftCall → Action V Unit
  | .clear => SetAdaptor.clear
  | .shiftLeft n => SetAdaptor.shl M mem n
  | .shiftRight n => SetAdaptor.shr M n

variable (M : KeyMapping Key) (mem : Memory) (S : CountType)

/-- The direction, which a negative count turns. -/
def turned (s : BitVec S.width) (leftward : Bool) : Bool :=
  if S.isSigned then leftward != decide (S.value s < 0) else leftward

/-- The choice: a count at or past `max_size()` empties the set. -/
def shiftCall (x : BitBlockContainer V) (s : BitVec S.width) (leftward : Bool) : ShiftCall :=
  let leftward := turned S s leftward
  let n := S.saturated (S.unsignedAbs s)
  if maxSize M x ≤ n then .clear
  else if leftward then .shiftLeft n
  else .shiftRight n

/-- `shift_by`, of a set taken by value. -/
def shiftBy (s : BitVec S.width) (leftward : Bool) : Action V Unit := fun x =>
  (shiftCall M S x s leftward).run M mem x

/-- `shl(x, s)`. -/
def shl (s : BitVec S.width) : Action V Unit := shiftBy M mem S s true

/-- `shr(x, s)`. -/
def shr (s : BitVec S.width) : Action V Unit := shiftBy M mem S s false

/-- How far a shift moves the keys up. -/
def displacement (s : BitVec S.width) (leftward : Bool) : Int :=
  if leftward then S.value s else -S.value s

/-- What a call says of the displacement: it is the operator's, or as far as `max_size()`. -/
def ShiftCall.Moves (top : Nat) (far : Int) : ShiftCall → Prop
  | .clear => top ≤ far.natAbs
  | .shiftLeft n => far = n
  | .shiftRight n => far = -n

section Choice
variable {M} {mem} {S} {x : BitBlockContainer V}

/-- The direction turned is the displacement's. -/
theorem displacement_eq (s : BitVec S.width) (leftward : Bool) : displacement S s leftward =
    if turned S s leftward then ((S.value s).natAbs : Int) else -((S.value s).natAbs : Int) := by
  unfold displacement turned
  by_cases hneg : S.value s < 0
  · have habs : ((S.value s).natAbs : Int) = -S.value s := by omega
    have hsign : S.isSigned = true := by
      by_contra hu
      have := S.value_nonneg ((Bool.not_eq_true _).mp hu) s
      omega
    rw [habs, hsign, decide_eq_true hneg]
    cases leftward with
    | true => exact (Int.neg_neg _).symm
    | false => rfl
  · have habs : ((S.value s).natAbs : Int) = S.value s := by omega
    rw [habs, decide_eq_false hneg]
    cases S.isSigned <;> cases leftward <;> rfl

/-- **The choice**: the operators are called within their precondition and with the whole
    displacement, and what is emptied would be moved past `max_size()`. -/
theorem shiftCall_spec (hS : S.Exact) (htop : maxSize M x ≤ sizeMax)
    (s : BitVec S.width) (leftward : Bool) :
    (shiftCall M S x s leftward).Below (maxSize M x) ∧
      (shiftCall M S x s leftward).Moves (maxSize M x) (displacement S s leftward) := by
  have hfar := displacement_eq s leftward
  unfold shiftCall
  dsimp only
  rw [CountType.saturated_eq, hS s]
  split
  · refine ⟨trivial, ?_⟩
    show maxSize M x ≤ (displacement S s leftward).natAbs
    rw [hfar]
    split <;> omega
  · rename_i hlt
    -- below `max_size()` nothing was saturated
    rw [Nat.min_eq_left (by omega)] at hlt ⊢
    cases hl : turned S s leftward with
    | true =>
        rw [hl, if_pos rfl] at hfar
        exact ⟨Nat.lt_of_not_le hlt, hfar⟩
    | false =>
        rw [hl, if_neg (by decide)] at hfar
        exact ⟨Nat.lt_of_not_le hlt, hfar⟩

end Choice

/-! ## 3. The positions -/

section Positions
variable {M} {mem} {S} {x : BitBlockContainer V} {n : Nat}

theorem maxSize_le_top (M : KeyMapping Key) (x : BitBlockContainer V) (hV : V.storage ≠ .lent) :
    maxSize M x ≤ sizeMax := by
  rcases V.owned_of_not_lent hV with hs | hs
  · exact maxSize_le M hs
  · unfold maxSize
    rw [if_pos hs]
    exact V.extent_le

/-- The width a type fixes is its `max_size()`. -/
theorem maxSize_static (hs : V.hasStaticSize = true) : maxSize M x = x.size := by
  unfold maxSize
  rw [if_pos hs, BitBlockContainer.size_of_static hs]

/-- **`<<=` at any width**, within its precondition and over memory that refuses nothing. -/
theorem shiftLeft_ok (h : x.Inv) (hV : V.storage ≠ .lent)
    (hin : ∀ p, x.bit p = true → p < maxSize M x) (hn : n < maxSize M x)
    (hmem : ∀ k, ∃ r, mem.allocate k = .ok r) :
    ∃ d, SetAdaptor.shl M mem n x = .ok () d ∧ d.Inv ∧
      ∀ p, d.bit p = (decide (n ≤ p ∧ p < maxSize M x) && x.bit (p - n)) := by
  rcases V.owned_of_not_lent hV with hs | hs
  · obtain ⟨d, hd⟩ := shl_completes mem h hs hin hn (Or.inl hmem)
    obtain ⟨hinv, hbit, -⟩ := shl_ok h hs hn hd
    exact ⟨d, hd, hinv, hbit⟩
  · rw [maxSize_static hs] at hn ⊢
    refine ⟨x.shlAssign n, ?_, h.shlAssign hn, fun p => BitBlockContainer.bit_shlAssign h.shape hn⟩
    unfold SetAdaptor.shl
    rw [if_pos hs, if_pos hn]

/-- **`>>=` at any width**, within its precondition. -/
theorem shiftRight_ok (h : x.Inv) (hn : n < maxSize M x) :
    ∃ d, SetAdaptor.shr M n x = .ok () d ∧ d.Inv ∧ ∀ p, d.bit p = x.bit (p + n) := by
  have hcompletes : ∃ d, SetAdaptor.shr M n x = .ok () d := by
    unfold SetAdaptor.shr
    by_cases hs : V.hasStaticSize = true
    · rw [maxSize_static hs] at hn
      rw [if_pos hs, if_pos hn]
      exact ⟨_, rfl⟩
    · rw [if_neg hs, if_pos hn]
      split <;> exact ⟨_, rfl⟩
  obtain ⟨d, hd⟩ := hcompletes
  obtain ⟨hinv, -, hbit⟩ := shr_ok h hd
  exact ⟨d, hd, hinv, hbit⟩

/-- **A call that says of the displacement what it should moves every position by it**, up to
    `max_size()`. -/
theorem run_ok {call : ShiftCall} {far : Int} (h : x.Inv) (hV : V.storage ≠ .lent)
    (hin : ∀ p, x.bit p = true → p < maxSize M x) (hbelow : call.Below (maxSize M x))
    (hmoves : call.Moves (maxSize M x) far) (hmem : ∀ k, ∃ r, mem.allocate k = .ok r) :
    ∃ d, call.run M mem x = .ok () d ∧ d.Inv ∧ ∀ p, d.bit p = true ↔
      p < maxSize M x ∧ ∃ q, x.bit q = true ∧ (p : Int) = q + far := by
  cases call with
  | clear =>
      obtain ⟨-, hbit, hinv⟩ := BitBlockContainer.fill_spec h (v := false)
      have hfar : maxSize M x ≤ far.natAbs := hmoves
      refine ⟨_, rfl, hinv, fun p => ?_⟩
      rw [hbit, Bool.and_false]
      refine iff_of_false (by decide) ?_
      -- two positions below `max_size()` are not so far apart
      intro ⟨hp, q, hq, he⟩
      have := hin q hq
      omega
  | shiftLeft n =>
      obtain ⟨d, hd, hinv, hbit⟩ := shiftLeft_ok h hV hin hbelow hmem
      have hfar : far = n := hmoves
      refine ⟨d, hd, hinv, fun p => ?_⟩
      rw [hbit, Bool.and_eq_true, decide_eq_true_eq, hfar]
      constructor
      · intro ⟨⟨h1, h2⟩, h3⟩
        exact ⟨h2, p - n, h3, by omega⟩
      · intro ⟨h2, q, hq, he⟩
        obtain rfl : q = p - n := by omega
        exact ⟨⟨by omega, h2⟩, hq⟩
  | shiftRight n =>
      obtain ⟨d, hd, hinv, hbit⟩ := shiftRight_ok h hbelow
      have hfar : far = -n := hmoves
      refine ⟨d, hd, hinv, fun p => ?_⟩
      rw [hbit, hfar]
      constructor
      · intro hb
        have := hin _ hb
        exact ⟨by omega, p + n, hb, by omega⟩
      · intro ⟨_, q, hq, he⟩
        obtain rfl : q = p + n := by omega
        exact hq

/-- **`shift_by` moves every position by the count's value** or its opposite, as the direction is,
    and keeps what lands in `[0, max_size())`. -/
theorem shiftBy_ok (hS : S.Exact) (h : x.Inv) (hV : V.storage ≠ .lent)
    (hin : ∀ p, x.bit p = true → p < maxSize M x) (hmem : ∀ k, ∃ r, mem.allocate k = .ok r)
    (s : BitVec S.width) (leftward : Bool) :
    ∃ d, shiftBy M mem S s leftward x = .ok () d ∧ d.Inv ∧ ∀ p, d.bit p = true ↔
      p < maxSize M x ∧ ∃ q, x.bit q = true ∧ (p : Int) = q + displacement S s leftward := by
  obtain ⟨hbelow, hmoves⟩ := shiftCall_spec hS (maxSize_le_top M x hV) s leftward
  exact run_ok h hV hin hbelow hmoves hmem

end Positions

/-! ## 4. The keys -/

/-- Keys that are their own positions, in a universe left open or closed at its size. -/
structure Identity (M : KeyMapping (Fin (2 ^ 64))) : Prop where
  isKey_iff : ∀ k, M.isKey k = true ↔ ∀ n, M.size = some n → k.val < n
  toIndex_eq : ∀ k, M.isKey k = true → M.toIndex k = k.val

theorem identity_size_t : Identity (unsignedMapping 64) where
  isKey_iff k := by
    refine iff_of_true (unsignedMapping_isKey.mpr ?_) fun n hn => by cases hn
    unfold sizeMax
    omega
  toIndex_eq k hk := toSize_of_le (unsignedMapping_isKey.mp hk)

section Keys
variable {M : KeyMapping (Fin (2 ^ 64))} {mem : Memory} {S : CountType} {x : BitBlockContainer V}

/-- A position within the universe is in the set as a key. -/
theorem contains_identity (hM : Identity M) (h : x.Inv) {k : Fin (2 ^ 64)}
    (hk : x.bit k.val = true → ∀ n, M.size = some n → k.val < n) :
    contains M x k = x.bit k.val := by
  rw [contains_eq h]
  cases hkey : M.isKey k with
  | true => rw [hM.toIndex_eq k hkey, Bool.true_and]
  | false =>
      rw [Bool.false_and]
      symm
      by_contra hne
      rw [(hM.isKey_iff k).mpr (hk ((Bool.not_eq_false _).mp hne))] at hkey
      cases hkey

/-- `max_size()` is within the universe. -/
theorem maxSize_le_universe (hV : V.storage ≠ .lent) (hfill : FillsUniverse V M) {n : Nat}
    (hn : M.size = some n) : maxSize M x ≤ n := by
  rcases V.owned_of_not_lent hV with hs | hs
  · rw [maxSize_stored M hs]
    split
    · rename_i hc
      exact Nat.le_of_eq (hfill n hn (Or.inr hc))
    · rw [hn]
      exact Nat.min_le_left _ _
  · unfold maxSize
    rw [if_pos hs]
    exact Nat.le_of_eq (hfill n hn (Or.inl hs))

/-- The keys of an owning set are below its `max_size()`. -/
theorem lt_maxSize (h : x.Inv) (hV : V.storage ≠ .lent)
    (hblocks : V.hasStoredSize = true → V.hasStaticCapacity = false →
      x.mBlocks.elems.length ≤ V.maxBlocks)
    (hkeys : ∀ n, M.size = some n → ∀ p, x.bit p = true → p < n) {p : Nat}
    (hp : x.bit p = true) : p < maxSize M x := by
  have hlt := h.lt_size hp
  rcases V.owned_of_not_lent hV with hs | hs
  · rw [maxSize_stored M hs]
    split
    · rename_i hc
      exact Nat.lt_of_lt_of_le hlt (h.capacity hc)
    · rename_i hc
      have hle := size_le_storedMax h hs hc (hblocks hs (by simpa using hc))
      cases hsize : M.size with
      | none => exact Nat.lt_of_lt_of_le hlt hle
      | some n => exact Nat.lt_min.mpr ⟨hkeys n hsize p hp, Nat.lt_of_lt_of_le hlt hle⟩
  · rwa [maxSize_static hs]

/-- One direction, over the displacement. -/
theorem shiftBy_keys (hS : S.Exact) (hM : Identity M) (hfill : FillsUniverse V M) (h : x.Inv)
    (hV : V.storage ≠ .lent) (hin : ∀ p, x.bit p = true → p < maxSize M x)
    (hmem : ∀ k, ∃ r, mem.allocate k = .ok r) (s : BitVec S.width) (leftward : Bool) :
    ∃ d, shiftBy M mem S s leftward x = .ok () d ∧ d.Inv ∧
      (∀ p, d.bit p = true → p < maxSize M x) ∧
      ∀ k, contains M d k = true ↔ k.val < maxSize M x ∧
        ∃ q, contains M x q = true ∧ (k.val : Int) = q.val + displacement S s leftward := by
  obtain ⟨d, hd, hinv, hbit⟩ := shiftBy_ok hS h hV hin hmem s leftward
  have htop := maxSize_le_top M x hV
  have huniverse {p : Nat} (hp : p < maxSize M x) (n : Nat) (hn : M.size = some n) : p < n :=
    Nat.lt_of_lt_of_le hp (maxSize_le_universe hV hfill hn)
  have hbelow (p : Nat) (hp : d.bit p = true) : p < maxSize M x := ((hbit p).mp hp).1
  have hkey (q : Fin (2 ^ 64)) : contains M x q = x.bit q.val :=
    contains_identity hM h fun hb => huniverse (hin _ hb)
  refine ⟨d, hd, hinv, hbelow, fun k => ?_⟩
  rw [contains_identity hM hinv fun hb => huniverse (hbelow _ hb), hbit]
  constructor
  · intro ⟨hk, q, hq, he⟩
    have hlt := hin q hq
    have hfit : q < 2 ^ 64 := by
      unfold sizeMax at htop
      omega
    exact ⟨hk, ⟨q, hfit⟩, by rw [hkey]; exact hq, he⟩
  · intro ⟨hk, q, hq, he⟩
    rw [hkey] at hq
    exact ⟨hk, q.val, hq, he⟩

/-- **Shifts by any count.** For every owning set of keys that are their own positions, whatever its
    width, over memory that refuses nothing, and for every count of any integer type: the operators
    are called within their precondition, and `shl` leaves the keys `q + s`, `shr` the keys `q - s`,
    that lie in `[0, max_size())`. The blocks are within their own `max_size()`, and a mapping that
    names a size has every key of the set below it. -/
theorem shifts_by_any_count (hS : S.Exact) (hM : Identity M) (hfill : FillsUniverse V M)
    (h : x.Inv) (hV : V.storage ≠ .lent)
    (hblocks : V.hasStoredSize = true → V.hasStaticCapacity = false →
      x.mBlocks.elems.length ≤ V.maxBlocks)
    (hkeys : ∀ n, M.size = some n → ∀ p, x.bit p = true → p < n)
    (hmem : ∀ k, ∃ r, mem.allocate k = .ok r) (s : BitVec S.width) :
    (∀ leftward, (shiftCall M S x s leftward).Below (maxSize M x)) ∧
    (∃ d, shl M mem S s x = .ok () d ∧ d.Inv ∧ (∀ p, d.bit p = true → p < maxSize M x) ∧
      ∀ k, contains M d k = true ↔ k.val < maxSize M x ∧
        ∃ q, contains M x q = true ∧ (k.val : Int) = q.val + S.value s) ∧
    (∃ d, shr M mem S s x = .ok () d ∧ d.Inv ∧ (∀ p, d.bit p = true → p < maxSize M x) ∧
      ∀ k, contains M d k = true ↔ k.val < maxSize M x ∧
        ∃ q, contains M x q = true ∧ (k.val : Int) = q.val - S.value s) := by
  have hin (p : Nat) (hp : x.bit p = true) : p < maxSize M x := lt_maxSize h hV hblocks hkeys hp
  refine ⟨fun leftward => (shiftCall_spec hS (maxSize_le_top M x hV) s leftward).1, ?_, ?_⟩
  · exact shiftBy_keys hS hM hfill h hV hin hmem s true
  · exact shiftBy_keys hS hM hfill h hV hin hmem s false

end Keys

/-- A signed type of so many bits, its magnitude in the unsigned type as wide. -/
def signedCount (b : Nat) : CountType where
  isSigned := true
  width := b
  digits := b
  unsignedAbs s := s.abs

theorem signedCount_exact (b : Nat) : (signedCount b).Exact := by
  intro (s : BitVec b)
  show s.abs.toNat = s.toInt.natAbs
  have hlt := s.isLt
  rw [BitVec.toNat_abs, BitVec.toInt_eq_msb_cond]
  cases s.msb with
  | true =>
      rw [if_pos rfl, if_pos rfl]
      omega
  | false =>
      rw [if_neg (by decide), if_neg (by decide)]
      omega

/-- Nine and three under a capacity of twelve: moved up by minus four, and down by the most negative
    count of twice a `size_t`'s width. -/
theorem shifts_by_any_count_wide : ∃ x d e : BitBlockContainer SetAdaptor.cappedTwelve,
    contains (unsignedMapping 64) x 9 = true ∧
    shl (unsignedMapping 64) .ample (signedCount 128) (-4 : BitVec 128) x = .ok () d ∧
    contains (unsignedMapping 64) d 5 = true ∧
    shr (unsignedMapping 64) .ample (signedCount 128) (BitVec.intMin 128) x = .ok () e ∧
    ∀ k, contains (unsignedMapping 64) e k = false := by
  have h0 : Reachable SetAdaptor.cappedTwelve
      fun _ => BitBlockContainer.default SetAdaptor.cappedTwelve 0 := .start fun _ => 0
  have h1 := Reachable.step .ample 0 (.growingInsert 3) h0 (Or.inl rfl) rfl
  have h2 := Reachable.step .ample 0 (.growingInsert 9) h1 (Or.inl rfl) rfl
  have hx := h2.inv (Or.inl rfl) 0
  have hmem (k : Nat) : ∃ r, Memory.ample.allocate k = .ok r := ⟨k, rfl⟩
  have h := shifts_by_any_count (signedCount_exact 128) identity_size_t
    (fun n hn => by cases hn) hx (by decide) (fun _ hc => absurd hc (by decide))
    (fun n hn => by cases hn) hmem
  obtain ⟨-, ⟨d, hd, -, -, hdkeys⟩, -⟩ := h (-4 : BitVec 128)
  obtain ⟨-, -, ⟨e, he, -, -, hekeys⟩⟩ := h (BitVec.intMin 128)
  refine ⟨_, d, e, rfl, hd, (hdkeys 5).mpr ⟨?_, 9, rfl, ?_⟩, he, fun k => ?_⟩
  · decide
  · decide
  · by_contra hne
    obtain ⟨-, q, -, hq⟩ := (hekeys k).mp ((Bool.not_eq_false _).mp hne)
    have hleast : (signedCount 128).value (BitVec.intMin 128) = -(2 ^ 127) := by decide
    rw [hleast] at hq
    omega

end ShiftableSet

end XstdBits
