/-
  File: XstdBits/Set/Lookup.lean
  Subject: the lookups of a set, of keys and of values that are none.

  * a `Lookup` is a lookup as the source has it that asks its mapping step by step: `askFrom` has no
    answer at or past the mapping's size, `askTo` none where `to_index` asserts.
  * a key goes to one scan. A value that is no key is bisected, over every position below the width:
    `equivalentPositions` has an answer exactly where the bisection asks no position past the
    mapping's size (`equivalentPositions_iff`).
  * `boundAt_spec` reads a scan from a cut of the positions as the first key past the cut.
-/
import XstdBits.Lib.Partition
import XstdBits.Set.Keys

namespace XstdBits

namespace SetAdaptor
variable {w : Nat} {V : Vehicle w} {Key : Type} (M : KeyMapping Key) (desc : Bool)
  (c : BitBlockContainer V)

/-! ## 1. The lookups -/

/-- A call of `from_index`, which a mapping that names a size takes below it. -/
def askFrom (pos : Nat) : Option Key :=
  match M.size with
  | .some n => if pos < n then M.fromIndex pos else none
  | .none => M.fromIndex pos

theorem askFrom_ge {M : KeyMapping Key} {n q : Nat} (hn : M.size = some n) (hq : n ≤ q) : askFrom M q = none := by
  unfold askFrom
  rw [hn]
  exact if_neg (by omega)

/-- A call of `to_index`. -/
def askTo (x : Key) : Option Nat := if M.indexable x then some (M.toIndex x) else none

variable [LinearOrder Key]

/-- Whether the key at a position orders before `x`: descending, a key does where `x` compares
    before it. -/
def below (x : Key) (pos : Nat) : Option Bool :=
  (askFrom M pos).map fun k =>
    if desc then decide (keyCompare desc x k) else decide (keyCompare desc k x)

def notAbove (x : Key) (pos : Nat) : Option Bool :=
  (askFrom M pos).map fun k =>
    !(if desc then decide (keyCompare desc k x) else decide (keyCompare desc x k))

/-- `equivalent_positions`: the positions whose keys are equivalent to `x`, bisected twice. -/
def equivalentPositions (x : Key) : Option (Nat × Nat) :=
  match partitionPoint (below M desc x) 0 c.size with
  | .none => none
  | .some lo => (partitionPoint (notAbove M desc x) lo c.size).map fun hi => (lo, hi)

namespace Lookup

def contains (x : Key) : Option Bool :=
  if M.isKey x = false then some false
  else (askTo M x).map fun pos => decide (pos < c.size) && c.test pos

def count (x : Key) : Option Nat := (contains M c x).map Bool.toNat

def find (x : Key) : Option Nat :=
  match contains M c x with
  | .none => none
  | .some found => if found then askTo M x else some (endPos c)

/-- `bound_between`, of a value that is no key. -/
def boundBetween (x : Key) : Option Nat :=
  (equivalentPositions M desc c x).map fun positions => boundAt desc c positions.1

def lowerBound (x : Key) : Option Nat :=
  if M.isKey x = false then boundBetween M desc c x
  else
    (askTo M x).map fun pos =>
      if desc then c.totalFindPrev (if pos < c.size then pos + 1 else c.size)
      else if c.size ≤ pos then endPos c
      else c.inclusiveFindNext pos

def upperBound (x : Key) : Option Nat :=
  if M.isKey x = false then boundBetween M desc c x
  else
    (askTo M x).map fun pos =>
      if desc then c.totalFindPrev (min pos c.size)
      else if c.size ≤ pos then endPos c
      else c.exclusiveFindNext pos

def equalRange (x : Key) : Option (Nat × Nat) :=
  match lowerBound M desc c x with
  | .none => none
  | .some first => (upperBound M desc c x).map fun last => (first, last)

/-- `erase(x)`: how many were erased, and the set it leaves. -/
def erase (x : Key) : Option (Nat × BitBlockContainer V) :=
  if M.isKey x = false then some (0, c)
  else
    (askTo M x).map fun pos =>
      if c.size ≤ pos then (0, c) else ((c.erase pos).2.toNat, (c.erase pos).1)

end Lookup

/-! ## 2. The bisection -/

/-- How many of the mapping's first `n` keys order before `x`. -/
def keysBefore (x : Key) (n : Nat) : Nat :=
  countBits (fun p => (M.fromIndex p).any fun k => decide (k < x)) n

/-- **What the lookups of `x` may ask**: `x` is a key, or of a mapping that names a size either the
    width stays within it or the midpoint of `x`'s rank and the width does. -/
def AsksInside (x : Key) : Prop :=
  M.isKey x = true ∨ ∀ n, M.size = some n →
    c.size ≤ n ∨ (keysBefore M x n + c.size) / 2 < n

section Bisection
variable {M} {desc} {c} {U : Nat} {x : Key}

/-- A library mapping that names no size has a key at every position of a `size_t`, if it has a value
    that is no key at all. -/
theorem open_universe (hL : LibraryMapping M) (hM : M.Bijective U) (hx : M.isKey x = false)
    (hsize : M.size = none) : 2 ^ 64 ≤ U := by
  have hidx := hM.index_lt
  cases hL with
  | unsigned b =>
      have hb : 64 < b := by
        by_contra hle
        have hlt := x.isLt
        have hpow : 2 ^ b ≤ 2 ^ 64 := Nat.pow_le_pow_right (by decide) (by omega)
        have hkey : (unsignedMapping b).isKey x = true := by
          rw [unsignedMapping_isKey]
          unfold sizeMax
          omega
        rw [hkey] at hx
        cases hx
      have htop : sizeMax < 2 ^ b := by
        have : 2 ^ 64 ≤ 2 ^ b := Nat.pow_le_pow_right (by decide) (by omega)
        unfold sizeMax
        omega
      have hlast : (unsignedMapping b).isKey ⟨sizeMax, htop⟩ = true :=
        unsignedMapping_isKey.mpr (Nat.le_refl _)
      have hlt := hidx _ hlast
      have heq : (unsignedMapping b).toIndex ⟨sizeMax, htop⟩ = sizeMax := toSize_of_le (Nat.le_refl _)
      rw [heq] at hlt
      unfold sizeMax at hlt
      omega
  | range first n hn => cases hsize
  | find list => cases hsize
  | flag b n hn => cases hsize

/-- Where a position of the universe has its key, before `x` or not. -/
theorem askFrom_lt (hM : M.Bijective U) {q : Nat} (hq : q < U) :
    ∃ k, askFrom M q = some k ∧ M.isKey k = true ∧ M.toIndex k = q := by
  obtain ⟨k, h1, h2, h3⟩ := hM.to_from q hq
  refine ⟨k, ?_, h2, h3⟩
  unfold askFrom
  split
  · rename_i n hn
    rw [hM.size_eq n hn, if_pos hq, h1]
  · exact h1

/-- The keys before `x` are those at the positions below their number. -/
theorem lt_keysBefore (hM : M.Bijective U) {n q : Nat} (hn : n ≤ U) (hq : q < n) {k : Key}
    (hk : M.isKey k = true) (hkq : M.toIndex k = q) : k < x ↔ q < keysBefore M x n := by
  have hread : M.fromIndex q = some k := by
    rw [← hkq]
    exact hM.from_to k hk
  unfold keysBefore
  rw [← lt_countBits_iff (n := n) (fun a b hab hb hbx => ?_) hq, hread, Option.any_some,
    decide_eq_true_eq]
  obtain ⟨ka, ha1, ha2, ha3⟩ := hM.to_from a (by omega)
  obtain ⟨kb, hb1, hb2, hb3⟩ := hM.to_from b (by omega)
  rw [hb1, Option.any_some, decide_eq_true_eq] at hbx
  rw [ha1, Option.any_some, decide_eq_true_eq]
  refine lt_trans ?_ hbx
  rw [hM.mono ka kb ha2 hb2, ha3, hb3]
  exact hab

/-- Both predicates of the bisection are the cut at the number of keys before a value that is none. -/
theorem below_lt (desc : Bool) (hM : M.Bijective U) (hx : M.isKey x = false) {n q : Nat} (hn : n ≤ U)
    (hq : q < n) : below M desc x q = some (decide (q < keysBefore M x n)) ∧
      notAbove M desc x q = some (decide (q < keysBefore M x n)) := by
  obtain ⟨k, h1, h2, h3⟩ := askFrom_lt hM (q := q) (by omega)
  have hne : k ≠ x := by
    intro he
    rw [he, hx] at h2
    cases h2
  have hcut := lt_keysBefore (x := x) hM hn hq h2 h3
  have hnot : ¬ x < k ↔ k < x := by
    rw [not_lt]
    exact ⟨fun hle => lt_of_le_of_ne hle hne, le_of_lt⟩
  unfold below notAbove
  rw [h1, Option.map_some, Option.map_some]
  unfold keyCompare
  cases desc
  · simp only [Bool.false_eq_true, if_false, hcut, true_and]
    rw [← decide_not]
    simp only [hnot, hcut]
  · simp only [if_true, hcut, true_and]
    rw [← decide_not]
    simp only [hnot, hcut]

theorem keysBefore_le {n : Nat} : keysBefore M x n ≤ n := countBits_le

/-- **Where every position asked names a key the bisection ends at the number of keys before the
    value**, and that cuts the positions of the width. -/
theorem equivalentPositions_within (desc : Bool) (hM : M.Bijective U) (hx : M.isKey x = false)
    {n : Nat} (hn : n ≤ U) (hle : n ≤ c.size)
    (hask : ∀ q, q < c.size → q ≤ (keysBefore M x n + c.size) / 2 → q < n)
    (hkeys : ∀ k, M.isKey k = true → M.toIndex k < c.size → M.toIndex k < n) :
    ∃ r, r ≤ c.size ∧ equivalentPositions M desc c x = some (r, r) ∧
      ∀ k, M.isKey k = true → M.toIndex k < c.size → (k < x ↔ M.toIndex k < r) := by
  have hr : keysBefore M x n ≤ c.size := Nat.le_trans keysBefore_le hle
  refine ⟨keysBefore M x n, hr, ?_, fun k hk hlt => lt_keysBefore hM hn (hkeys k hk hlt) hk rfl⟩
  unfold equivalentPositions
  rw [partitionPoint_eq (r := keysBefore M x n) (Nat.zero_le _) hr
    fun q hq hmid => (below_lt desc hM hx hn (hask q hq hmid)).1]
  dsimp only
  rw [partitionPoint_eq (Nat.le_refl _) hr
    fun q hq hmid => (below_lt desc hM hx hn (hask q hq hmid)).2]
  rfl

/-- **Where the midpoint of the value's rank and the width is past the mapping's size, the second
    bisection asks it** and has no answer; nor has the first, if it asks as far. -/
theorem equivalentPositions_outside (desc : Bool) (hM : M.Bijective U) (hx : M.isKey x = false)
    {n : Nat} (hn : M.size = some n) (hgt : n < c.size)
    (hmid : n ≤ (keysBefore M x n + c.size) / 2) : equivalentPositions M desc c x = none := by
  have hU := hM.size_eq n hn
  have hr : keysBefore M x n ≤ n := keysBefore_le
  have hbelow (q : Nat) (b : Bool) (hb : below M desc x q = some b) :
      b = decide (q < keysBefore M x n) := by
    rcases Nat.lt_or_ge q n with hlt | hge
    · rw [(below_lt desc hM hx (Nat.le_of_eq hU) hlt).1] at hb
      exact (Option.some.inj hb).symm
    · unfold below at hb
      rw [askFrom_ge hn hge] at hb
      cases hb
  unfold equivalentPositions
  cases hlo : partitionPoint (below M desc x) 0 c.size with
  | none => rfl
  | some lo =>
      dsimp only
      rw [partitionPoint_sound hbelow (Nat.zero_le _) (by omega) hlo, partitionPoint_none (by omega)]
      · rfl
      · unfold notAbove
        rw [askFrom_ge hn hmid]
        rfl

/-- **The bisection answers exactly where it asks no position past the mapping's size**, and then
    with the number of keys before the value. -/
theorem equivalentPositions_iff (desc : Bool) (hL : LibraryMapping M) (hM : M.Bijective U)
    (hx : M.isKey x = false) (htop : c.size ≤ sizeMax) :
    (AsksInside M c x → ∃ r, r ≤ c.size ∧ equivalentPositions M desc c x = some (r, r) ∧
      ∀ k, M.isKey k = true → M.toIndex k < c.size → (k < x ↔ M.toIndex k < r)) ∧
    (¬ AsksInside M c x → equivalentPositions M desc c x = none) := by
  have hwithin (hle : c.size ≤ U) := equivalentPositions_within desc hM hx hle (Nat.le_refl c.size)
    (fun _ hq _ => hq) fun _ _ hk => hk
  cases hn : M.size with
  | none =>
      have hU := open_universe hL hM hx hn
      have hle : c.size ≤ U := by
        unfold sizeMax at htop
        omega
      refine ⟨fun _ => hwithin hle, fun hout => absurd (Or.inr fun n hn' => ?_) hout⟩
      rw [hn] at hn'
      cases hn'
  | some n =>
      have hU := hM.size_eq n hn
      have hinside : AsksInside M c x ↔
          c.size ≤ n ∨ (keysBefore M x n + c.size) / 2 < n := by
        unfold AsksInside
        rw [hx, hn]
        constructor
        · exact fun hin => (hin.resolve_left Bool.false_ne_true) n rfl
        · exact fun hin => Or.inr fun m hm => by rwa [← Option.some.inj hm]
      rw [hinside]
      rcases Nat.lt_or_ge n c.size with hgt | hle
      · -- the width is past the universe: all keys before `x` are below its end
        constructor
        · intro hin
          have hmid := hin.resolve_left (by omega)
          refine equivalentPositions_within desc hM hx (Nat.le_of_eq hU) (Nat.le_of_lt hgt)
            (fun q _ hq => by omega) fun k hk _ => ?_
          have := hM.index_lt k hk
          omega
        · intro hout
          exact equivalentPositions_outside desc hM hx hn hgt (by omega)
      · exact ⟨fun _ => hwithin (by omega), fun hout => absurd (Or.inl hle) hout⟩

end Bisection

/-! ## 3. A scan from a cut -/

section Scan
variable {M} {desc} {c} {U : Nat} {x : Key} {s : KeySet Key desc}

/-- **A scan from a cut of the positions stands at the first key past it.** -/
theorem boundAt_spec (hM : M.Bijective U) (h : Represents M desc c s) {r : Nat} (hr : r ≤ c.size)
    {p : Key → Bool}
    (hp : ∀ k ∈ s, p k = if desc then decide (M.toIndex k < r) else decide (r ≤ M.toIndex k)) :
    boundAt desc c r = posOf M c (s.keys.find? p) := by
  have hclear (q : Nat) (k : Key) (hk : k ∈ s) (hq : M.toIndex k = q) (hb : c.bit q = false) :
      False := by
    rw [(h.bit q).mpr ⟨k, hk, hq⟩] at hb
    cases hb
  unfold boundAt
  cases desc
  · rw [if_neg (by decide), BitBlockContainer.inclusiveFindNext_eq h.inv hr]
    simp only [Bool.false_eq_true, if_false] at hp
    rcases nextSet_spec c.bit r c.size with ⟨h1, -, h3, h4⟩ | ⟨h1, h2⟩
    · obtain ⟨m, hm, hmq⟩ := (h.bit _).mp h3
      rw [OrderedKeys.find_eq_some hm]
      · exact hmq.symm
      · rw [hp m hm, hmq]
        exact decide_eq_true h1
      · intro k hk hkm
        rw [hp k hk, decide_eq_false_iff_not]
        intro hle
        rw [compare_iff _ hM (h.isKey k hk) (h.isKey m hm), if_neg (by decide)] at hkm
        exact hclear _ k hk rfl (h4 _ hle (by omega))
    · rw [OrderedKeys.find_eq_none]
      · exact h1
      · intro k hk
        rw [hp k hk, decide_eq_false_iff_not]
        intro hle
        exact hclear _ k hk rfl (h2 _ hle (h.index_lt hk))
  · rw [if_pos rfl, BitBlockContainer.totalFindPrev_eq h.inv hr]
    simp only [if_true] at hp
    rcases prevSet_spec c.bit r c.size with ⟨h1, h2, h3⟩ | ⟨h1, h2⟩
    · obtain ⟨m, hm, hmq⟩ := (h.bit _).mp h2
      rw [OrderedKeys.find_eq_some hm]
      · exact hmq.symm
      · rw [hp m hm, hmq]
        exact decide_eq_true h1
      · intro k hk hkm
        rw [hp k hk, decide_eq_false_iff_not]
        intro hlt
        rw [compare_iff _ hM (h.isKey k hk) (h.isKey m hm), if_pos rfl] at hkm
        exact hclear _ k hk rfl (h3 _ (by omega) hlt)
    · rw [OrderedKeys.find_eq_none]
      · exact h1
      · intro k hk
        rw [hp k hk, decide_eq_false_iff_not]
        intro hlt
        exact hclear _ k hk rfl (h2 _ hlt)

/-- A bound of a key is the scan from its position, or from the one past it. -/
theorem bound_of_key (desc : Bool) (h : c.Inv) (pos : Nat) :
    ((if desc then c.totalFindPrev (if pos < c.size then pos + 1 else c.size)
      else if c.size ≤ pos then endPos c else c.inclusiveFindNext pos) =
      boundAt desc c (min (if desc then pos + 1 else pos) c.size)) ∧
    ((if desc then c.totalFindPrev (min pos c.size)
      else if c.size ≤ pos then endPos c else c.exclusiveFindNext pos) =
      boundAt desc c (min (if desc then pos else pos + 1) c.size)) := by
  have hend : c.inclusiveFindNext c.size = endPos c := by
    rw [BitBlockContainer.inclusiveFindNext_eq h (Nat.le_refl _)]
    exact nextSet_none fun j h1 h2 => by omega
  unfold boundAt
  cases desc
  · simp only [Bool.false_eq_true, if_false]
    by_cases hp : c.size ≤ pos
    · rw [if_pos hp, if_pos hp, Nat.min_eq_right hp, Nat.min_eq_right (by omega)]
      exact ⟨hend.symm, hend.symm⟩
    · rw [if_neg hp, if_neg hp, Nat.min_eq_left (by omega), Nat.min_eq_left (by omega)]
      refine ⟨rfl, ?_⟩
      rw [BitBlockContainer.exclusiveFindNext_eq h (by omega),
        BitBlockContainer.inclusiveFindNext_eq h (by omega)]
  · simp only [if_true, and_true]
    by_cases hp : pos < c.size
    · rw [if_pos hp, Nat.min_eq_left (by omega)]
    · rw [if_neg hp, Nat.min_eq_right (by omega)]

/-- **The bounds of a key.** -/
theorem bounds_of_key (hM : M.Bijective U) (h : Represents M desc c s) (hx : M.isKey x = true) :
    boundAt desc c (min (if desc then M.toIndex x + 1 else M.toIndex x) c.size) =
      posOf M c (s.lowerBound x) ∧
    boundAt desc c (min (if desc then M.toIndex x else M.toIndex x + 1) c.size) =
      posOf M c (s.next x) := by
  have hcmp {k : Key} (hk : k ∈ s) := compare_iff desc hM (h.isKey k hk) hx
  have hcmp' {k : Key} (hk : k ∈ s) := compare_iff desc hM hx (h.isKey k hk)
  refine ⟨boundAt_spec hM h (Nat.min_le_right _ _) fun k hk => ?_,
    boundAt_spec hM h (Nat.min_le_right _ _) fun k hk => ?_⟩
  · have hlt := h.index_lt hk
    have hc := hcmp hk
    rw [← decide_not]
    cases desc
    · simp only [Bool.false_eq_true, if_false] at hc ⊢
      rw [decide_eq_decide, hc]
      omega
    · simp only [if_true] at hc ⊢
      rw [decide_eq_decide, hc]
      omega
  · have hlt := h.index_lt hk
    have hc := hcmp' hk
    cases desc
    · simp only [Bool.false_eq_true, if_false] at hc ⊢
      rw [decide_eq_decide, hc]
      omega
    · simp only [if_true] at hc ⊢
      rw [decide_eq_decide, hc]
      omega

/-- **The bounds of a value that is no key** are one, between its neighbours. -/
theorem bounds_of_cut (hM : M.Bijective U) (h : Represents M desc c s) (hx : M.isKey x = false)
    {r : Nat} (hr : r ≤ c.size)
    (hcut : ∀ k, M.isKey k = true → M.toIndex k < c.size → (k < x ↔ M.toIndex k < r)) :
    boundAt desc c r = posOf M c (s.lowerBound x) ∧
      boundAt desc c r = posOf M c (s.next x) := by
  have hside {k : Key} (hk : k ∈ s) : (k < x ↔ M.toIndex k < r) ∧ (x < k ↔ r ≤ M.toIndex k) := by
    have hk' := hcut k (h.isKey k hk) (h.index_lt hk)
    have hne : k ≠ x := by
      intro he
      have := h.isKey k hk
      rw [he, hx] at this
      cases this
    refine ⟨hk', ?_⟩
    rw [← Nat.not_lt, ← hk', not_lt]
    exact ⟨le_of_lt, fun hle => lt_of_le_of_ne hle hne.symm⟩
  refine ⟨boundAt_spec hM h hr fun k hk => ?_, boundAt_spec hM h hr fun k hk => ?_⟩
  · obtain ⟨h1, h2⟩ := hside hk
    rw [← decide_not]
    unfold keyCompare
    cases desc
    · simp only [Bool.false_eq_true, if_false]
      rw [decide_eq_decide, h1]
      omega
    · simp only [if_true]
      rw [decide_eq_decide, h2]
      omega
  · obtain ⟨h1, h2⟩ := hside hk
    unfold keyCompare
    cases desc
    · simp only [Bool.false_eq_true, if_false]
      rw [decide_eq_decide, h2]
    · simp only [if_true]
      rw [decide_eq_decide, h1]

end Scan

/-! ## 4. The lookups of every value -/

section Lookups
variable {M} {desc} {c} {U : Nat} {s : KeySet Key desc}

/-- The width of an owner is counted by a `std::size_t`. -/
theorem size_le_sizeMax (hv : V.hasStoredSize = true ∨ V.hasStaticSize = true) (h : c.Inv) :
    c.size ≤ sizeMax := by
  by_cases hs : V.hasStaticSize = true
  · unfold BitBlockContainer.size
    rw [if_pos hs]
    exact V.extent_le
  · have hb := h.bound (hv.resolve_right hs)
    rw [h.shape.numBlocks] at hb
    have := Nat.mul_le_mul_right w hb
    exact Nat.le_trans h.shape.size_le (Nat.le_trans this V.maxWidth_le)

theorem lookup_contains (hL : LibraryMapping M) (hM : M.Bijective U) (h : Represents M desc c s)
    (x : Key) : Lookup.contains M c x = some (decide (x ∈ s.keys)) := by
  have hmem : x ∈ s.keys ↔ SetAdaptor.contains M c x = true := mem_iff_contains hM h
  have hnone : SetAdaptor.contains M c x = decide (x ∈ s.keys) := by
    rw [Bool.eq_iff_iff, decide_eq_true_eq]
    exact hmem.symm
  rw [← hnone]
  unfold Lookup.contains SetAdaptor.contains
  cases hx : M.isKey x with
  | false => rfl
  | true =>
      unfold askTo
      rw [(hL.of_isKey hx).1]
      rfl

theorem lookup_erase (hL : LibraryMapping M) (hM : M.Bijective U) (h : Represents M desc c s)
    (x : Key) : ∃ d, Lookup.erase M c x = some (if x ∈ s.keys then 1 else 0, d) ∧
      Represents M desc d (s.erase x) := by
  have habsent (hk : x ∉ s.keys) : s.erase x = s := by
    refine OrderedKeys.ext_mem fun k => OrderedKeys.mem_erase.trans ?_
    exact ⟨fun hm => hm.1, fun hm => ⟨hm, fun he => hk (he ▸ hm)⟩⟩
  unfold Lookup.erase
  cases hx : M.isKey x with
  | false =>
      have hk : x ∉ s.keys := fun hm => by
        rw [h.isKey x hm] at hx
        cases hx
      rw [if_pos rfl, if_neg hk, habsent hk]
      exact ⟨c, rfl, h⟩
  | true =>
      unfold askTo
      rw [if_neg (by decide), (hL.of_isKey hx).1, if_pos rfl, Option.map_some]
      by_cases hge : c.size ≤ M.toIndex x
      · have hk : x ∉ s.keys := fun hm => by
          have := h.index_lt hm
          omega
        rw [if_pos hge, if_neg hk, habsent hk]
        exact ⟨c, rfl, h⟩
      · rw [Nat.not_le] at hge
        have hcount : (c.erase (M.toIndex x)).2.toNat = if x ∈ s.keys then 1 else 0 := by
          rw [BitBlockContainer.erase_snd h.inv.shape hge]
          by_cases hk : x ∈ s.keys
          · rw [if_pos hk, (h.mem_iff hM hx).mp hk]
            rfl
          · have hb : c.bit (M.toIndex x) = false := by
              by_contra hb
              exact hk ((h.mem_iff hM hx).mpr (Bool.not_eq_false _ ▸ hb))
            rw [if_neg hk, hb]
            rfl
        rw [if_neg (by omega), hcount]
        exact ⟨_, rfl, SetOp.represents_erase h hM (h.inv.erase hge) hx fun p =>
          BitBlockContainer.bit_erase h.inv.shape hge⟩

theorem lookup_find (hL : LibraryMapping M) (hM : M.Bijective U) (h : Represents M desc c s)
    (x : Key) :
    Lookup.find M c x = some (posOf M c (if x ∈ s.keys then some x else none)) := by
  unfold Lookup.find
  rw [lookup_contains hL hM h]
  dsimp only
  by_cases hx : x ∈ s.keys
  · rw [decide_eq_true hx, if_pos rfl, if_pos hx]
    unfold askTo
    rw [(hL.of_isKey (h.isKey x hx)).1]
    rfl
  · rw [decide_eq_false hx, if_neg (by decide), if_neg hx]
    rfl

/-- **The bounds of a value are those of the ordered set exactly where the bisection stays inside.** -/
theorem lookup_bounds (hL : LibraryMapping M) (hM : M.Bijective U) (h : Represents M desc c s)
    (htop : c.size ≤ sizeMax) (x : Key) :
    (Lookup.lowerBound M desc c x = some (posOf M c (s.lowerBound x)) ∧
      Lookup.upperBound M desc c x = some (posOf M c (s.next x)) ∧
      Lookup.equalRange M desc c x =
        some (posOf M c (s.lowerBound x), posOf M c (s.next x))) ↔ AsksInside M c x := by
  have hpair {a b : Nat} (h1 : Lookup.lowerBound M desc c x = some a)
      (h2 : Lookup.upperBound M desc c x = some b) :
      Lookup.equalRange M desc c x = some (a, b) := by
    unfold Lookup.equalRange
    rw [h1, h2]
    rfl
  cases hx : M.isKey x with
  | true =>
      refine iff_of_true ?_ (Or.inl hx)
      obtain ⟨e1, e2⟩ := bound_of_key desc h.inv (M.toIndex x)
      obtain ⟨b1, b2⟩ := bounds_of_key hM h hx
      have h1 : Lookup.lowerBound M desc c x = some (posOf M c (s.lowerBound x)) := by
        unfold Lookup.lowerBound askTo
        rw [hx, if_neg (by decide), (hL.of_isKey hx).1, if_pos rfl, Option.map_some, e1, b1]
      have h2 : Lookup.upperBound M desc c x = some (posOf M c (s.next x)) := by
        unfold Lookup.upperBound askTo
        rw [hx, if_neg (by decide), (hL.of_isKey hx).1, if_pos rfl, Option.map_some, e2, b2]
      exact ⟨h1, h2, hpair h1 h2⟩
  | false =>
      obtain ⟨hin, hout⟩ := equivalentPositions_iff desc hL hM hx htop
      have hlow : Lookup.lowerBound M desc c x = Lookup.boundBetween M desc c x := by
        unfold Lookup.lowerBound
        rw [if_pos hx]
      have hup : Lookup.upperBound M desc c x = Lookup.boundBetween M desc c x := by
        unfold Lookup.upperBound
        rw [if_pos hx]
      constructor
      · intro hb
        by_contra hno
        have hnone : Lookup.boundBetween M desc c x = none := by
          unfold Lookup.boundBetween
          rw [hout hno]
          rfl
        rw [hlow, hnone] at hb
        cases hb.1
      · intro hask
        obtain ⟨r, hr, he, hcut⟩ := hin hask
        obtain ⟨b1, b2⟩ := bounds_of_cut hM h hx hr hcut
        have hb : Lookup.boundBetween M desc c x = some (boundAt desc c r) := by
          unfold Lookup.boundBetween
          rw [he]
          rfl
        have h1 := hlow.trans (hb.trans (congrArg some b1))
        have h2 := hup.trans (hb.trans (congrArg some b2))
        exact ⟨h1, h2, hpair h1 h2⟩

/-- **Lookups are exact**: of a set whose positions lie in its mapping's universe and of every value,
    `contains`, `count`, `find` and `erase` answer what the ordered set of its keys does, and so do
    the bounds exactly where the bisection asks no position past the mapping's size. -/
theorem lookups_exact (hv : V.storage ≠ .lent) (hL : LibraryMapping M) (hM : M.Bijective U)
    (desc : Bool) (h : Within U c) (x : Key) : ∃ s : KeySet Key desc,
    iterated M desc c = some s.keys ∧
    Lookup.contains M c x = some (decide (x ∈ s.keys)) ∧
    Lookup.count M c x = some (if x ∈ s.keys then 1 else 0) ∧
    Lookup.find M c x = some (posOf M c (if x ∈ s.keys then some x else none)) ∧
    (∃ d, Lookup.erase M c x = some (if x ∈ s.keys then 1 else 0, d) ∧ d.Inv ∧
      iterated M desc d = some (s.erase x).keys) ∧
    ((Lookup.lowerBound M desc c x = some (posOf M c (s.lowerBound x)) ∧
      Lookup.upperBound M desc c x = some (posOf M c (s.next x)) ∧
      Lookup.equalRange M desc c x =
        some (posOf M c (s.lowerBound x), posOf M c (s.next x))) ↔ AsksInside M c x) := by
  obtain ⟨s, hs⟩ := exists_represents desc hM h.inv h.lt
  have hcontains := lookup_contains hL hM hs x
  obtain ⟨d, hd, hrep⟩ := lookup_erase hL hM hs x
  refine ⟨s, (hs.iterated hM).1, hcontains, ?_, lookup_find hL hM hs x,
    ⟨d, hd, hrep.inv, (hrep.iterated hM).1⟩,
    lookup_bounds hL hM hs (size_le_sizeMax (V.owned_of_not_lent hv) h.inv) x⟩
  unfold Lookup.count
  rw [hcontains]
  by_cases hx : x ∈ s.keys
  · simp [hx]
  · simp [hx]

end Lookups

/-! ## 5. A list of three keys -/

/-- The keys ten, twenty and thirty. -/
def threeKeys : KeyList false 8 where
  keys := [10, 20, 30]
  ascending := by decide

def threeMapping : KeyMapping (KeyWord false 8) := bitFindMapping threeKeys

theorem threeMapping_bijective : threeMapping.Bijective 3 :=
  bitFindMapping_bijective threeKeys (by decide)

theorem threeMapping_library : LibraryMapping threeMapping :=
  show @LibraryMapping (BitVec 8) (bitFindMapping threeKeys) from .find threeKeys

/-- A byte as a value of the key type. -/
def keyByte (n : Nat) : KeyWord false 8 := BitVec.ofNat 8 n

/-- The set of ten and thirty, asked for fifteen. -/
theorem lookups_exact_fifteen : ∃ c : BitBlockContainer (byteVector true), c.size = 3 ∧
    Lookup.contains threeMapping c (keyByte 15) = some false ∧
    Lookup.lowerBound threeMapping false c (keyByte 15) = some 2 := by
  have h0 : KeyRun (byteVector true) threeMapping false true
      (fun c o => o.Keeps threeMapping 3 c) _ := .start (.empty 0)
  have h1 := h0.step .ample (.op (.insert (keyByte 10))) (fun _ _ => rfl) trivial (Or.inl rfl)
  have h2 := h1.step .ample (.op (.insert (keyByte 30))) (fun _ _ => rfl) trivial (Or.inl rfl)
  have hin := h2.within (by decide) threeMapping_bijective fun n hn hv => by
    rcases hv with hv | hv <;> cases hv
  obtain ⟨s, hs, hc, -, -, -, hb⟩ := lookups_exact (by decide) threeMapping_library
    threeMapping_bijective false hin (keyByte 15)
  have hkeys : s.keys = [keyByte 10, keyByte 30] := (Option.some.inj hs).symm
  refine ⟨_, rfl, hc.trans (congrArg some (by rw [hkeys]; rfl)), ?_⟩
  refine (hb.mpr (Or.inr fun n hn => Or.inl ?_)).1.trans (congrArg some ?_)
  · cases hn
    exact Nat.le_of_ble_eq_true rfl
  · unfold OrderedKeys.lowerBound
    rw [hkeys]
    rfl

/-- **A bound asked past the list**: one byte adopted by a growing set, of which its three lowest
    bits name the three keys. The bisection for fifteen asks the mapping for the key at position
    four. -/
theorem lookup_past_list : ∃ c : BitBlockContainer (byteVector true),
    KeyRun (byteVector true) threeMapping false true (fun _ _ => True) c ∧ Within 3 c ∧
    iterated threeMapping false c = some [keyByte 10, keyByte 20, keyByte 30] ∧
    threeMapping.size = some 3 ∧ askFrom threeMapping 4 = none ∧
    Lookup.lowerBound threeMapping false c (keyByte 15) = none := by
  have hn : ∀ p, bitAt [(7 : BitVec 8)] p = true → NamesKey threeMapping p := by
    intro p hp
    rw [namesKey_iff threeMapping_bijective]
    by_contra hge
    have hz : bitAt [(7 : BitVec 8)] p = false := by
      rcases Nat.lt_or_ge p 8 with hlt | hge8
      · have hhigh : ∀ q, q < 8 → 3 ≤ q → bitAt [(7 : BitVec 8)] q = false := by decide
        exact hhigh p hlt (Nat.le_of_not_lt hge)
      · exact bitAt_of_le (by decide) hge8
    rw [hz] at hp
    cases hp
  have hstart : KeyStart (byteVector true) threeMapping (BitBlockContainer.adopt (byteVector true)
      { elems := [7], reserved := 1, alloc := 0 }) :=
    .adopt _ ⟨fun _ => Nat.le_of_ble_eq_true rfl, fun hc => absurd hc (by decide),
      fun hs => absurd hs (by decide)⟩ hn
  exact ⟨_, .start hstart, hstart.within (by decide) threeMapping_bijective, rfl, rfl, rfl, rfl⟩

end SetAdaptor

end XstdBits
