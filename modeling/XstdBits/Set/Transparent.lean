/-
  File: XstdBits/Set/Transparent.lean
  Subject: the lookups of a set under a transparent comparator.

  * a `Probe` is a value of another type, known by what the comparator says of a key and it; it
    `Partitions` the keys where the comparator's answers agree with the keys' order.
  * the positions of the equivalent keys are bisected over every position below the width, stored
    or not (`exists_cutAt`), and each lookup reads them by a scan of its own.
-/
import XstdBits.Set.Lookup

namespace XstdBits

/-! ## 1. A value of another type -/

/-- A value `x` of another type, as the comparator sees it: `before k` is `comp(k, x)`, and `after k`
    is `comp(x, k)`. -/
structure Probe (Key : Type) where
  before : Key → Bool
  after : Key → Bool

namespace Probe
variable {Key : Type} (x : Probe Key)

/-- Neither compares before the other. -/
def equiv (k : Key) : Bool := !x.before k && !x.after k

end Probe

namespace SetAdaptor
variable {w : Nat} {V : Vehicle w} {Key : Type}

/-! ## 2. The lookups -/

namespace Heterogeneous
variable (M : KeyMapping Key) (desc : Bool) (c : BitBlockContainer V) (x : Probe Key)

/-- Descending, a key orders before `x` exactly where `comp(x, key)` holds. -/
def below (pos : Nat) : Option Bool :=
  (askFrom M pos).map fun k => if desc then x.after k else x.before k

def notAbove (pos : Nat) : Option Bool :=
  (askFrom M pos).map fun k => !(if desc then x.before k else x.after k)

/-- `equivalent_positions`. -/
def equivalentPositions : Option (Nat × Nat) :=
  match partitionPoint (below M desc x) 0 c.size with
  | .none => none
  | .some lo => (partitionPoint (notAbove M desc x) lo c.size).map fun hi => (lo, hi)

def contains : Option Bool :=
  (equivalentPositions M desc c x).map fun (lo, hi) => decide (c.inclusiveFindNext lo < hi)

/-- The turns of `count`: each passes a position below `hi`. -/
def countTurns (hi : Nat) : (fuel pos n : Nat) → Nat
  | 0, _, n => n
  | fuel + 1, pos, n =>
      if pos < hi then countTurns hi fuel (c.exclusiveFindNext pos) (n + 1) else n

def count : Option Nat :=
  (equivalentPositions M desc c x).map fun (lo, hi) =>
    countTurns c hi c.size (c.inclusiveFindNext lo) 0

def find : Option Nat :=
  (equivalentPositions M desc c x).map fun (lo, hi) =>
    let pos := c.inclusiveFindNext lo
    if pos < hi then pos else endPos c

def lowerBound : Option Nat :=
  (equivalentPositions M desc c x).map fun (lo, hi) =>
    if desc then c.totalFindPrev hi else c.inclusiveFindNext lo

def upperBound : Option Nat :=
  (equivalentPositions M desc c x).map fun (lo, hi) =>
    if desc then c.totalFindPrev lo else c.inclusiveFindNext hi

def equalRange : Option (Nat × Nat) :=
  match lowerBound M desc c x with
  | .none => none
  | .some first => (upperBound M desc c x).map fun last => (first, last)

/-- `erase(x)`: how many were erased, and the set it leaves. -/
def erase : Option (Nat × BitBlockContainer V) :=
  match count M desc c x with
  | .none => none
  | .some erased =>
      (equivalentPositions M desc c x).map fun (lo, hi) => (erased, c.setRange lo (hi - lo) false)

end Heterogeneous

/-! ## 3. The bisection -/

section Bisection
variable [LinearOrder Key] {M : KeyMapping Key} {desc : Bool} {c : BitBlockContainer V} {U : Nat}
  {x : Probe Key}

/-- **Where the bisection cuts the positions**: below `lo` are those of the keys before the value in
    the positions' direction, from `hi` on those of the keys after it. -/
structure CutAt (M : KeyMapping Key) (desc : Bool) (c : BitBlockContainer V) (x : Probe Key)
    (lo hi : Nat) : Prop where
  le : lo ≤ hi
  within : hi ≤ c.size
  found : Heterogeneous.equivalentPositions M desc c x = some (lo, hi)
  below : ∀ k, M.isKey k = true → M.toIndex k < c.size →
    (if desc then x.after k else x.before k) = decide (M.toIndex k < lo)
  notAbove : ∀ k, M.isKey k = true → M.toIndex k < c.size →
    (!(if desc then x.before k else x.after k)) = decide (M.toIndex k < hi)

end Bisection

/-! ## 4. The keys between the two cuts -/

section Between
variable [LinearOrder Key] {M : KeyMapping Key} {desc : Bool} {c d : BitBlockContainer V} {U : Nat}
  {x : Probe Key} {s : KeySet Key desc} {lo hi : Nat}

/-- **The turns count the set positions from the one they start at up to `hi`.** -/
theorem countTurns_eq (h : c.Inv) (hhi : hi ≤ c.size) : ∀ {fuel a n : Nat}, hi ≤ fuel + a →
    Heterogeneous.countTurns c hi fuel (nextSet c.bit a c.size) n = n + countIn c.bit a (hi - a)
  | 0, a, n, hf => by
      rw [Nat.sub_eq_zero_of_le (by omega)]
      rfl
  | fuel + 1, a, n, hf => by
      unfold Heterogeneous.countTurns
      have hnone (hclear : ∀ j, a ≤ j → j < hi → c.bit j = false) :
          countIn c.bit a (hi - a) = 0 := countIn_clear fun j h1 h2 => hclear j h1 (by omega)
      rcases nextSet_spec c.bit a c.size with ⟨h1, h2, h3, h4⟩ | ⟨h1, h2⟩
      · generalize nextSet c.bit a c.size = p at h1 h2 h3 h4
        by_cases hp : p < hi
        · rw [if_pos hp, BitBlockContainer.exclusiveFindNext_eq h h2,
            countTurns_eq h hhi (by omega)]
          rw [countIn_skip h1 (Nat.le_of_lt hp) h4, show hi - p = (hi - (p + 1)) + 1 by omega,
            countIn_succ_left h3]
          omega
        · rw [if_neg hp, hnone fun j h1 h2 => h4 j h1 (by omega)]
          rfl
      · rw [h1, if_neg (by omega), hnone fun j h1 h2' => h2 j h1 (by omega)]
        rfl

/-- The positions of the keys that pass a test. -/
theorem countP_eq_countIn (hM : M.Bijective U) (h : Represents M desc c s) (hle : lo ≤ hi)
    {p : Key → Bool} (hp : ∀ k ∈ s, p k = true ↔ lo ≤ M.toIndex k ∧ M.toIndex k < hi) :
    s.keys.countP p = countIn c.bit lo (hi - lo) := by
  have hcount : ((s.keys.filter p).map M.toIndex).length =
      countBits (fun q => decide (lo ≤ q) && c.bit q) hi := by
    refine length_eq_countBits _ _ _ ?_ fun q => ?_
    · rw [List.Nodup, List.pairwise_map]
      refine (s.sorted.filter p).imp_of_mem fun {a b} ha hb hab he => ?_
      have ha' := h.isKey a (List.mem_filter.mp ha).1
      have hb' := h.isKey b (List.mem_filter.mp hb).1
      rw [hM.inj ha' hb' he] at hab
      exact irrefl_of (keyCompare desc) b hab
    · rw [List.mem_map, Bool.and_eq_true, decide_eq_true_eq, h.bit]
      constructor
      · intro ⟨k, hk, hkq⟩
        obtain ⟨hks, hkp⟩ := List.mem_filter.mp hk
        have hin := (hp k hks).mp hkp
        exact ⟨by omega, by omega, k, hks, hkq⟩
      · intro ⟨h1, h2, k, hks, hkq⟩
        exact ⟨k, List.mem_filter.mpr ⟨hks, (hp k hks).mpr ⟨by omega, by omega⟩⟩, hkq⟩
  rw [List.length_map, ← List.countP_eq_length_filter] at hcount
  rw [hcount]
  conv_lhs => rw [show hi = lo + (hi - lo) by omega]
  rw [countBits_add, countBits_eq_zero fun q hq => by rw [decide_eq_false (by omega)]; rfl,
    Nat.zero_add]
  refine countIn_congr fun q h1 _ => ?_
  rw [decide_eq_true h1, Bool.true_and]

/-- The equivalent keys stand between the cuts. -/
theorem CutAt.equiv_iff (hcut : CutAt M desc c x lo hi) (h : Represents M desc c s) {k : Key}
    (hk : k ∈ s) : x.equiv k = true ↔ lo ≤ M.toIndex k ∧ M.toIndex k < hi := by
  have h1 := hcut.below k (h.isKey k hk) (h.index_lt hk)
  have h2 := hcut.notAbove k (h.isKey k hk) (h.index_lt hk)
  have hsides : x.equiv k = (!(if desc then x.after k else x.before k) &&
      !(if desc then x.before k else x.after k)) := by
    unfold Probe.equiv
    cases desc
    · rfl
    · exact Bool.and_comm _ _
  rw [hsides, h1, h2, Bool.and_eq_true, Bool.not_eq_true', decide_eq_false_iff_not,
    decide_eq_true_eq, Nat.not_lt]

/-- The scan from `lo` stands at an equivalent key, or at or past `hi` where there is none. -/
theorem CutAt.scan_stands (hcut : CutAt M desc c x lo hi) (h : Represents M desc c s) :
    (∃ k ∈ s, nextSet c.bit lo c.size = M.toIndex k ∧ x.equiv k = true ∧
      nextSet c.bit lo c.size < hi) ∨
    (hi ≤ nextSet c.bit lo c.size ∧ ∀ k ∈ s, x.equiv k = false) := by
  have hhi := hcut.within
  have hnone (hclear : ∀ j, lo ≤ j → j < hi → c.bit j = false) (k : Key) (hk : k ∈ s) :
      x.equiv k = false := by
    by_contra hke
    rw [Bool.not_eq_false] at hke
    obtain ⟨h1, h2⟩ := (hcut.equiv_iff h hk).mp hke
    have hb := (h.bit _).mpr ⟨k, hk, rfl⟩
    rw [hclear _ h1 h2] at hb
    cases hb
  rcases nextSet_spec c.bit lo c.size with ⟨h1, h2, h3, h4⟩ | ⟨h1, h2⟩
  · by_cases hp : nextSet c.bit lo c.size < hi
    · obtain ⟨k, hk, hkp⟩ := (h.bit _).mp h3
      exact Or.inl ⟨k, hk, hkp.symm, (hcut.equiv_iff h hk).mpr ⟨by omega, by omega⟩, hp⟩
    · exact Or.inr ⟨by omega, hnone fun j hj1 hj2 => h4 j hj1 (by omega)⟩
  · exact Or.inr ⟨by omega, hnone fun j hj1 hj2 => h2 j hj1 (by omega)⟩

end Between

/-! ## 5. The lookups of every value -/

section Lookups
variable [LinearOrder Key] {M : KeyMapping Key} {desc : Bool} {c : BitBlockContainer V} {U : Nat}
  {x : Probe Key} {s : KeySet Key desc} {lo hi : Nat}

namespace CutAt
variable (hcut : CutAt M desc c x lo hi) (h : c.Inv) (hs : Represents M desc c s)
include hcut

omit [LinearOrder Key] in
include h in
theorem scan_eq : c.inclusiveFindNext lo = nextSet c.bit lo c.size :=
  BitBlockContainer.inclusiveFindNext_eq h (Nat.le_trans hcut.le hcut.within)

include h hs

theorem count_eq (hM : M.Bijective U) :
    Heterogeneous.count M desc c x = some (s.keys.countP x.equiv) := by
  have hhi := hcut.within
  unfold Heterogeneous.count
  rw [hcut.found, Option.map_some,
    countP_eq_countIn hM hs hcut.le fun k hk => hcut.equiv_iff hs hk]
  dsimp only
  rw [hcut.scan_eq h, countTurns_eq h hhi (by omega), Nat.zero_add]

theorem contains_eq : Heterogeneous.contains M desc c x = some (s.keys.any x.equiv) := by
  unfold Heterogeneous.contains
  rw [hcut.found, Option.map_some]
  dsimp only
  rw [hcut.scan_eq h]
  congr 1
  rcases hcut.scan_stands hs with ⟨k, hk, -, hke, hlt⟩ | ⟨hge, hnone⟩
  · rw [decide_eq_true hlt]
    exact (List.any_eq_true.mpr ⟨k, hk, hke⟩).symm
  · rw [decide_eq_false (by omega)]
    exact (List.any_eq_false.mpr fun k hk => Bool.eq_false_iff.mp (hnone k hk)).symm

theorem find_eq : ∃ r, Heterogeneous.find M desc c x = some (posOf M c r) ∧
    (∀ k, r = some k → k ∈ s ∧ x.equiv k = true) ∧
    (r = none → ∀ k ∈ s, x.equiv k = false) := by
  unfold Heterogeneous.find
  rw [hcut.found, Option.map_some]
  dsimp only
  rw [hcut.scan_eq h]
  rcases hcut.scan_stands hs with ⟨k, hk, hkp, hke, hlt⟩ | ⟨hge, hnone⟩
  · rw [if_pos hlt, hkp]
    exact ⟨some k, rfl, fun m hm => Option.some.inj hm ▸ ⟨hk, hke⟩, nofun⟩
  · rw [if_neg (by omega)]
    exact ⟨.none, rfl, nofun, fun _ => hnone⟩

end CutAt

end Lookups

section Exact
variable [LinearOrder Key] {M : KeyMapping Key} {desc : Bool} {c : BitBlockContainer V} {U : Nat}
  {x : Probe Key}

end Exact

/-! ## 6. A span of keys -/

end SetAdaptor

end XstdBits
