/-
  File: XstdBits/Set/Erasure.lean
  Subject: the erasure of a range of a set, and what its assertion reads.

  * `Walks`: the iterators `++` passes on the way from one to another; `walks_up` and `walks_down`
    say which positions they are.
  * the assertion compares keys, so it reads the key where each end stands (`assertionReads`), and
    `end()` stands at the width, which need not be a position of the universe.
-/
import XstdBits.Set.Walk
import XstdBits.Set.Refinement

namespace XstdBits

namespace SetAdaptor
variable {w : Nat} {V : Vehicle w} {Key : Type} {M : KeyMapping Key} {desc : Bool} {U : Nat}
  {c d : BitBlockContainer V} {first last n : Nat} {ps : List Nat}

/-! ## 1. From one iterator to another -/

/-- **`last` is reached from `first`** by as many `++` as there are positions passed. -/
inductive Walks (desc : Bool) (c : BitBlockContainer V) : Nat → List Nat → Nat → Prop where
  | here (n : Nat) : Walks desc c n [] n
  | next {n last : Nat} {ps : List Nat} (hn : c.bit n = true)
      (h : Walks desc c (nextPosition desc c n) ps last) : Walks desc c n (n :: ps) last

/-- What an ascending walk passes. -/
theorem walks_up (h : c.Inv) (hw : Walks false c first ps last) : first ≤ last ∧
    ∀ p, p ∈ ps ↔ c.bit p = true ∧ first ≤ p ∧ p < last := by
  induction hw with
  | here n =>
      exact ⟨Nat.le_refl n, fun p => iff_of_false List.not_mem_nil fun hp => by omega⟩
  | @next n last ps hn hw ih =>
      have hlt := h.lt_size hn
      have hstep : nextPosition false c n = nextSet c.bit (n + 1) c.size :=
        nextPosition_eq false h hlt
      rw [hstep] at ih
      obtain ⟨hle, hmem⟩ := ih
      have hpast : n + 1 ≤ nextSet c.bit (n + 1) c.size := le_nextSet hlt
      refine ⟨by omega, fun p => ?_⟩
      rw [List.mem_cons, hmem]
      constructor
      · intro hp
        rcases hp with rfl | ⟨h1, h2, h3⟩
        · exact ⟨hn, Nat.le_refl p, by omega⟩
        · exact ⟨h1, by omega, h3⟩
      · intro ⟨h1, h2, h3⟩
        by_cases hpn : p = n
        · exact Or.inl hpn
        · refine Or.inr ⟨h1, ?_, h3⟩
          by_contra hlow
          rw [nextSet_clear (a := n + 1) (by omega) (Nat.lt_of_not_le hlow)] at h1
          cases h1

/-- What a descending walk passes: the end is below every position, though its number is the
    width. -/
theorem walks_down (h : c.Inv) (hw : Walks true c first ps last) : (ps = [] ∧ first = last) ∨
    (c.bit first = true ∧ (last = c.size ∨ last < first) ∧
      ∀ p, p ∈ ps ↔ c.bit p = true ∧ p ≤ first ∧ (last = c.size ∨ last < p)) := by
  induction hw with
  | here n => exact Or.inl ⟨rfl, rfl⟩
  | @next n last ps hn hw ih =>
      have hlt := h.lt_size hn
      have hstep : nextPosition true c n = prevSet c.bit n c.size := nextPosition_eq true h hlt
      rw [hstep] at ih
      have hclear : (prevSet c.bit n c.size = c.size ∨ prevSet c.bit n c.size < n) ∧
          ∀ j, j < n → (prevSet c.bit n c.size = c.size ∨ prevSet c.bit n c.size < j) →
            c.bit j = false := by
        rcases prevSet_spec c.bit n c.size with ⟨h1, -, h3⟩ | ⟨h1, h2⟩
        · exact ⟨Or.inr h1, fun j hj hlow => h3 j (by omega) hj⟩
        · exact ⟨Or.inl h1, fun j hj _ => h2 j hj⟩
      generalize prevSet c.bit n c.size = m at ih hclear
      obtain ⟨hm, hclear⟩ := hclear
      rcases ih with ⟨rfl, rfl⟩ | ⟨hb, hlast, hmem⟩
      · refine Or.inr ⟨hn, hm, fun p => ?_⟩
        rw [List.mem_singleton]
        constructor
        · intro hp
          rw [hp]
          exact ⟨hn, Nat.le_refl n, hm⟩
        · intro ⟨h1, h2, h3⟩
          by_contra hpn
          rw [hclear p (by omega) h3] at h1
          cases h1
      · have hmlt : m < n := by
          have := h.lt_size hb
          omega
        refine Or.inr ⟨hn, by omega, fun p => ?_⟩
        rw [List.mem_cons, hmem]
        constructor
        · intro hp
          rcases hp with rfl | ⟨h1, h2, h3⟩
          · exact ⟨hn, Nat.le_refl p, by omega⟩
          · exact ⟨h1, by omega, h3⟩
        · intro ⟨h1, h2, h3⟩
          by_cases hpn : p = n
          · exact Or.inl hpn
          · refine Or.inr ⟨h1, ?_, h3⟩
            by_contra hlow
            rw [hclear p (by omega) (by omega)] at h1
            cases h1

/-! ## 2. The erasure of a range -/

/-- Where the assertion of a range erasure reads a key. -/
def assertionReads (desc : Bool) (c : BitBlockContainer V) (first last : Nat) : List Nat :=
  if desc then (if last = endPos c then [] else [last, first]) else [first, last]

/-- **The erasure of `[first, last)` is well defined and exact**: its assertion reads keys of the
    universe and holds, the positions passed leave, and `last` is returned. -/
structure RangeErased (M : KeyMapping Key) (desc : Bool) (U : Nat) (c : BitBlockContainer V)
    (first : Nat) (ps : List Nat) (last : Nat) : Prop where
  within : ∀ p, p ∈ assertionReads desc c first last → p < U
  asserted : rangeAssertion M desc c first last = true
  erased : ∃ d, eraseRange M desc true first last c = .ok last d ∧ d.Inv ∧ d.size = c.size ∧
    ∀ p, d.bit p = true ↔ c.bit p = true ∧ p ∉ ps

/-- The span between the ends is that of the positions passed. -/
theorem eraseSpan_spec (h : c.Inv) (hw : Walks desc c first ps last) (hle : last ≤ c.size) :
    (first ≠ last → (eraseSpan desc c first last).1 ≤ (eraseSpan desc c first last).2 ∧
      (eraseSpan desc c first last).2 ≤ c.size) ∧
    ∀ p, c.bit p = true → (p ∈ ps ↔ first ≠ last ∧ (eraseSpan desc c first last).1 ≤ p ∧
      p < (eraseSpan desc c first last).2) := by
  unfold eraseSpan
  cases desc
  · obtain ⟨hfl, hmem⟩ := walks_up h hw
    refine ⟨fun _ => ⟨hfl, hle⟩, fun p hp => ?_⟩
    rw [hmem]
    show c.bit p = true ∧ first ≤ p ∧ p < last ↔ first ≠ last ∧ first ≤ p ∧ p < last
    exact ⟨fun hp' => ⟨by omega, hp'.2⟩, fun hp' => ⟨hp, hp'.2⟩⟩
  · rw [if_pos rfl, if_pos rfl]
    unfold endPos
    rcases walks_down h hw with ⟨rfl, rfl⟩ | ⟨hb, hlast, hmem⟩
    · exact ⟨fun hne => absurd rfl hne,
        fun p _ => iff_of_false List.not_mem_nil fun hp => hp.1 rfl⟩
    · have hlt := h.lt_size hb
      refine ⟨fun _ => ?_, fun p hp => ?_⟩
      · split <;> omega
      · rw [hmem]
        constructor
        · intro ⟨h1, h2, h3⟩
          refine ⟨by omega, ?_, by omega⟩
          split <;> omega
        · intro ⟨h1, h2, h3⟩
          refine ⟨hp, by omega, ?_⟩
          split at h2 <;> omega

/-- Keys of the universe compare as their positions. -/
theorem ranked_of_lt [LT Key] (hM : M.Bijective U) {lo hi : Nat} (hle : lo ≤ hi) (hhi : hi < U) :
    (match M.fromIndex lo, M.fromIndex hi with
      | .some a, .some b => decide (M.toIndex a ≤ M.toIndex b)
      | _, _ => false) = true := by
  obtain ⟨a, ha, -, hai⟩ := hM.to_from lo (by omega)
  obtain ⟨b, hb, -, hbi⟩ := hM.to_from hi hhi
  rw [ha, hb]
  show decide (M.toIndex a ≤ M.toIndex b) = true
  rw [hai, hbi]
  exact decide_eq_true hle

/-- How the ends of a walk stand to each other. -/
theorem walks_ends (h : c.Inv) (hw : Walks desc c first ps last) :
    if desc then last = endPos c ∨ last ≤ first else first ≤ last := by
  cases desc
  · exact (walks_up h hw).1
  · rcases walks_down h hw with ⟨-, rfl⟩ | ⟨-, hlast, -⟩
    · exact Or.inr (Nat.le_refl first)
    · exact hlast.imp id Nat.le_of_lt

/-- The assertion reads keys of the universe alone where the end it reads last is one. -/
theorem assertionReads_within (h : c.Inv) (hw : Walks desc c first ps last) :
    (∀ p, p ∈ assertionReads desc c first last → p < U) ↔
      if desc then last = endPos c ∨ first < U else last < U := by
  have hends := walks_ends h hw
  unfold assertionReads
  cases desc
  · have hends : first ≤ last := hends
    show (∀ p, p ∈ [first, last] → p < U) ↔ last < U
    simp only [List.forall_mem_cons, List.not_mem_nil, false_implies, implies_true, and_true]
    omega
  · show (∀ p, p ∈ (if last = endPos c then [] else [last, first]) → p < U) ↔
      last = endPos c ∨ first < U
    by_cases hend : last = endPos c
    · rw [if_pos hend]
      exact iff_of_true (fun p hp => absurd hp List.not_mem_nil) (Or.inl hend)
    · have hle := hends.resolve_left hend
      rw [if_neg hend]
      simp only [List.forall_mem_cons, List.not_mem_nil, false_implies, implies_true, and_true]
      omega

/-- **Between keys of the universe the assertion holds.** -/
theorem rangeAssertion_of_within [LT Key] (hM : M.Bijective U) (h : c.Inv)
    (hw : Walks desc c first ps last)
    (hreads : ∀ p, p ∈ assertionReads desc c first last → p < U) :
    rangeAssertion M desc c first last = true := by
  have hends := walks_ends h hw
  have hcond := (assertionReads_within h hw).mp hreads
  unfold rangeAssertion
  cases desc
  · exact ranked_of_lt hM hends hcond
  · show (last == endPos c || _) = true
    by_cases hend : last = endPos c
    · rw [beq_iff_eq.mpr hend, Bool.true_or]
    · rw [Bool.or_eq_true]
      exact Or.inr (ranked_of_lt hM (hends.resolve_left hend) (hcond.resolve_left hend))

/-- **Where the assertion holds, the positions passed leave** and `last` is returned. -/
theorem eraseRange_of_asserted [LT Key] (h : c.Inv) (hl : Stands c last)
    (hw : Walks desc c first ps last) (hasserted : rangeAssertion M desc c first last = true) :
    ∃ d, eraseRange M desc true first last c = .ok last d ∧ d.Inv ∧ d.size = c.size ∧
      ∀ p, d.bit p = true ↔ c.bit p = true ∧ p ∉ ps := by
  obtain ⟨hspan, hpassed⟩ := eraseSpan_spec h hw (hl.le h)
  have hrun : ∃ d, eraseRange M desc true first last c = .ok last d := by
    unfold eraseRange
    rw [if_neg fun hc => by rw [hasserted] at hc; cases hc.2]
    split
    · exact ⟨_, rfl⟩
    · exact ⟨_, rfl⟩
  obtain ⟨d, hd⟩ := hrun
  obtain ⟨hdinv, hsw, -, hbit⟩ := eraseRange_ok h hspan hd
  refine ⟨d, hd, hdinv, hsw.size, fun p => ?_⟩
  rw [hbit]
  split
  · rename_i hin
    exact iff_of_false Bool.false_ne_true fun hp => hp.2 ((hpassed p hp.1).mpr hin)
  · rename_i hout
    exact ⟨fun hp => ⟨hp, fun hps => hout ((hpassed p hp).mp hps)⟩, fun hp => hp.1⟩

/-- **When a range erasure is well defined**: in ascending order where `last`, which may be the
    width, is a position of the universe; in descending order where `last` is the end or `first` is
    a position of the universe. -/
theorem eraseRange_exact_iff [LT Key] (hM : M.Bijective U) (h : c.Inv) (hl : Stands c last)
    (hw : Walks desc c first ps last) : RangeErased M desc U c first ps last ↔
      if desc then last = endPos c ∨ first < U else last < U := by
  rw [← assertionReads_within h hw]
  constructor
  · exact fun he => he.within
  · intro hreads
    have hasserted := rangeAssertion_of_within hM h hw hreads
    exact ⟨hreads, hasserted, eraseRange_of_asserted h hl hw hasserted⟩

/-- Of the keys 0, 3, 5 and 10 the two from three up to ten, in ascending order. -/
theorem eraseRange_exact_two :
    RangeErased (unsignedMapping 8) false (2 ^ 8) (fourOfTwelve true) 3 [3, 5] 10 ∧
    ∃ d, eraseRange (unsignedMapping 8) false true 3 10 (fourOfTwelve true) = .ok 10 d ∧
      (List.range 12).filter d.bit = [0, 10] := by
  have hwalks : Walks false (fourOfTwelve true) 3 [3, 5] 10 := .next rfl (.next rfl (.here _))
  have herased := (eraseRange_exact_iff (unsignedMapping_bijective 8) (fourOfTwelve_inv true)
    (Or.inl rfl) hwalks).mpr (show 10 < 2 ^ 8 by decide)
  obtain ⟨d, hd, -, -, hbit⟩ := herased.erased
  refine ⟨herased, d, hd, ?_⟩
  have heq : (List.range 12).filter d.bit = (List.range 12).filter fun p =>
      decide ((fourOfTwelve true).bit p = true ∧ p ∉ [3, 5]) := List.filter_congr fun p _ => by
    rw [Bool.eq_iff_iff, hbit, decide_eq_true_eq]
  rw [heq]
  decide

/-- **The assertion reads past a full universe**: of the fixed set of bytes that holds one, in
    ascending order, it takes the width for the key zero, and does not hold of `begin()` and
    `end()`. -/
theorem erase_to_end_reads : ∃ S : Bank fixedBytes, Reachable fixedBytes S ∧
    Walks false (S 0) 1 [1] (endPos (S 0)) ∧
    rangeAssertion (unsignedMapping 8) false (S 0) 1 (endPos (S 0)) = false ∧
    ¬ RangeErased (unsignedMapping 8) false (2 ^ 8) (S 0) 1 [1] (endPos (S 0)) := by
  have hS : Reachable fixedBytes fun _ => BitBlockContainer.default fixedBytes 0 := .start fun _ => 0
  have h1 := Reachable.step .ample 0 (.growingInsert 1) hS (Or.inr (Nat.le_of_ble_eq_true rfl)) rfl
  refine ⟨_, h1, .next rfl (.here _), rfl, fun he => ?_⟩
  have h := he.asserted
  cases h

end SetAdaptor

end XstdBits
