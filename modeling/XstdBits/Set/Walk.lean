/-
  File: XstdBits/Set/Walk.lean
  Subject: the scans of the storage, and the walk of a set's iterators over them.

  * a set whose positions all name keys holds an ordered set of keys (`exists_represents`), which
    is what its walk reads and its lookups find (`reads_keys`).
  * `++` and `--` undo each other (`prev_next`, `next_prev`).
  * every scan is put beside the linear search it stands for.
-/
import XstdBits.Set.Iterator
import XstdBits.Set.Refinement

namespace XstdBits

namespace SetAdaptor
variable {w : Nat} {V : Vehicle w} {Key : Type} {M : KeyMapping Key} {desc : Bool} {U : Nat}
  {c : BitBlockContainer V} {n : Nat}

/-! ## 1. The keys of a set -/

/-- Positions of the universe are the ranks of keys. -/
theorem exists_keys [LT Key] (hM : M.Bijective U) :
    ∀ {ps : List Nat}, (∀ p ∈ ps, p < U) →
      ∃ ks : List Key, ks.map M.toIndex = ps ∧ ∀ k ∈ ks, M.isKey k = true
  | [], _ => ⟨[], rfl, fun k hk => absurd hk List.not_mem_nil⟩
  | p :: ps, hp => by
      obtain ⟨k, -, hk, hkp⟩ := hM.to_from p (hp p List.mem_cons_self)
      obtain ⟨ks, h1, h2⟩ := exists_keys hM fun q hq => hp q (List.mem_cons_of_mem _ hq)
      refine ⟨k :: ks, by rw [List.map_cons, h1, hkp], fun m hm => ?_⟩
      rcases List.mem_cons.mp hm with rfl | hm
      · exact hk
      · exact h2 m hm

section Keys
variable [LinearOrder Key]

/-- **A set whose positions lie in the universe holds an ordered set of keys.** -/
theorem exists_represents (desc : Bool) (hM : M.Bijective U) (h : c.Inv)
    (hU : ∀ p, c.bit p = true → p < U) : ∃ s : KeySet Key desc, Represents M desc c s := by
  obtain ⟨hmem, hsorted⟩ := positions_spec desc h
  obtain ⟨ks, hks, hkey⟩ := exists_keys hM fun p hp => hU p ((hmem p).mp hp)
  have hpair : ks.Pairwise (keyCompare desc) := by
    rw [← hks, List.pairwise_map] at hsorted
    exact hsorted.imp_of_mem fun ha hb hab =>
      (compare_iff desc hM (hkey _ ha) (hkey _ hb)).mpr hab
  refine ⟨⟨ks, hpair⟩, h, hkey, fun p => ?_⟩
  rw [← hmem, ← hks, List.mem_map]
  rfl

theorem mem_iff_contains {s : KeySet Key desc} (hM : M.Bijective U)
    (hs : Represents M desc c s) {k : Key} : k ∈ s ↔ contains M c k = true := by
  rw [contains_eq hs.inv, Bool.and_eq_true]
  constructor
  · intro hk
    exact ⟨hs.isKey k hk, (hs.mem_iff hM (hs.isKey k hk)).mp hk⟩
  · intro hk
    exact (hs.mem_iff hM hk.1).mpr hk.2

/-- **The walk reads each key once, in order**, and the keys it reads are the ones contained. -/
theorem reads_keys (desc : Bool) (hM : M.Bijective U) (h : c.Inv)
    (hU : ∀ p, c.bit p = true → p < U) : ∃ ks : List Key, iterated M desc c = some ks ∧
      ks.Pairwise (keyCompare desc) ∧ ∀ k, k ∈ ks ↔ contains M c k = true := by
  obtain ⟨s, hs⟩ := exists_represents desc hM h hU
  exact ⟨s.keys, (hs.iterated hM).1, s.sorted, fun k => mem_iff_contains hM hs⟩

end Keys

/-! ## 2. One step and back -/

/-- **`--` undoes `++`** at an element. -/
theorem prev_next (desc : Bool) (h : c.Inv) (hb : c.bit n = true) :
    prevPosition desc c (nextPosition desc c n) = n := by
  have hn := h.lt_size hb
  rw [nextPosition_eq desc h hn]
  unfold prevPosition
  cases desc
  · rw [if_pos (show (!false) = true from rfl), if_neg (show ¬ false = true by decide)]
    rcases nextSet_spec c.bit (n + 1) c.size with ⟨h1, h2, -, h4⟩ | ⟨h1, h2⟩
    · rw [BitBlockContainer.exclusiveFindPrev_eq h (by omega) ⟨n, h1, hb⟩]
      exact prevSet_eq h1 hb h4
    · rw [h1, BitBlockContainer.exclusiveFindPrev_eq h (Nat.le_refl _) ⟨n, hn, hb⟩]
      exact prevSet_eq hn hb h2
  · rw [if_pos rfl, if_neg (by decide)]
    rcases prevSet_spec c.bit n c.size with ⟨h1, -, h3⟩ | ⟨h1, h2⟩
    · rw [if_neg (by omega), BitBlockContainer.exclusiveFindNext_eq h (by omega)]
      exact nextSet_eq h1 hn hb h3
    · rw [h1, if_pos rfl, BitBlockContainer.findFirst_eq h]
      exact nextSet_eq (Nat.zero_le n) hn hb fun j _ hj => h2 j hj

/-- **`++` undoes `--`** at every iterator past the first. -/
theorem next_prev (desc : Bool) (h : c.Inv) (hn : Stands c n) (hne : n ≠ beginPos desc c) :
    nextPosition desc c (prevPosition desc c n) = n := by
  have hle := hn.le h
  unfold prevPosition
  cases desc
  · obtain ⟨p, hp, hbp⟩ := exists_before h hn hne
    rw [if_pos (by decide), BitBlockContainer.exclusiveFindPrev_eq h hle ⟨p, hp, hbp⟩]
    rcases prevSet_spec c.bit n c.size with ⟨h1, -, h3⟩ | ⟨-, h2⟩
    · rw [nextPosition_eq false h (by omega), if_neg (by decide)]
      rcases hn with hb | he
      · exact nextSet_eq h1 (h.lt_size hb) hb h3
      · unfold endPos at he
        rw [nextSet_none fun j hj1 hj2 => h3 j hj1 (by omega)]
        exact he.symm
    · rw [h2 p hp] at hbp
      cases hbp
  · rw [beginPos_eq h, if_pos rfl] at hne
    rw [if_neg (by decide)]
    rcases hn with hb | he
    · have hlt := h.lt_size hb
      rw [if_neg (by omega), BitBlockContainer.exclusiveFindNext_eq h hlt]
      rcases nextSet_spec c.bit (n + 1) c.size with ⟨h1, h2, -, h4⟩ | ⟨-, h2⟩
      · rw [nextPosition_eq true h h2, if_pos rfl]
        exact prevSet_eq h1 hb h4
      · exact absurd (prevSet_eq hlt hb h2).symm hne
    · unfold endPos at he
      subst he
      rw [if_pos rfl, BitBlockContainer.findFirst_eq h]
      rcases nextSet_spec c.bit 0 c.size with ⟨-, h2, -, h4⟩ | ⟨-, h2⟩
      · rw [nextPosition_eq true h h2, if_pos rfl]
        exact prevSet_none fun j hj => h4 j (Nat.zero_le j) hj
      · exact absurd (prevSet_none fun j hj => h2 j (Nat.zero_le j) hj).symm hne

/-! ## 3. The scans and the walk -/

/-- **Every scan answers what the linear search does**, `++` and `--` of the set's iterators undo
    each other, and the walk from `begin()` to `end()` reads each key once, in order. -/
theorem scans_exact [LinearOrder Key] (hM : M.Bijective U) (h : c.Inv) :
    FirstSet c.bit 0 c.size c.findFirst ∧
    (∀ n, n ≤ c.size → FirstSet c.bit n c.size (c.inclusiveFindNext n)) ∧
    (∀ n, n < c.size → FirstSet c.bit (n + 1) c.size (c.exclusiveFindNext n)) ∧
    (∀ n, n ≤ c.size → LastSet c.bit n c.size (c.totalFindPrev n)) ∧
    (∀ n, n ≤ c.size → (∃ p, p < n ∧ c.bit p = true) →
      LastSet c.bit n c.size (c.exclusiveFindPrev n)) ∧
    (c.any = true →
      FirstSet c.bit 0 c.size c.findFront ∧ c.findFront < c.size ∧
      LastSet c.bit c.size c.size c.findBack ∧ c.findBack < c.size ∧
      (∀ p, c.dropFront.bit p = if p = c.findFront then false else c.bit p) ∧
      (∀ p, c.dropBack.bit p = if p = c.findBack then false else c.bit p)) ∧
    ∀ desc : Bool,
      (∀ n, c.bit n = true → prevPosition desc c (nextPosition desc c n) = n) ∧
      (∀ n, Stands c n → n ≠ beginPos desc c →
        nextPosition desc c (prevPosition desc c n) = n) ∧
      (∀ p, p ∈ positions desc c ↔ c.bit p = true) ∧
      (positions desc c).Pairwise (fun p q => if desc = true then q < p else p < q) ∧
      ((∀ p, c.bit p = true → p < U) → ∃ ks : List Key, iterated M desc c = some ks ∧
        ks.Pairwise (keyCompare desc) ∧ ∀ k, k ∈ ks ↔ contains M c k = true) := by
  refine ⟨?_, fun n hn => ?_, fun n hn => ?_, fun n hn => ?_, fun n hn hp => ?_, fun ha => ?_,
    fun desc => ⟨fun n => prev_next desc h, fun n => next_prev desc h, ?_⟩⟩
  · rw [BitBlockContainer.findFirst_eq h]
    exact nextSet_spec _ _ _
  · rw [BitBlockContainer.inclusiveFindNext_eq h hn]
    exact nextSet_spec _ _ _
  · rw [BitBlockContainer.exclusiveFindNext_eq h hn]
    exact nextSet_spec _ _ _
  · rw [BitBlockContainer.totalFindPrev_eq h hn]
    exact prevSet_spec _ _ _
  · rw [BitBlockContainer.exclusiveFindPrev_eq h hn hp]
    exact prevSet_spec _ _ _
  · have hany := (BitBlockContainer.any_iff h).mp ha
    refine ⟨?_, (BitBlockContainer.findFront_spec h hany).1, ?_,
      (BitBlockContainer.findBack_spec h hany).1, fun p => BitBlockContainer.bit_dropFront h hany,
      fun p => BitBlockContainer.bit_dropBack h hany⟩
    · rw [BitBlockContainer.findFront_eq h hany]
      exact nextSet_spec _ _ _
    · rw [BitBlockContainer.findBack_eq h hany]
      exact prevSet_spec _ _ _
  · obtain ⟨h1, h2⟩ := positions_spec desc h
    exact ⟨h1, h2, reads_keys desc hM h⟩

/-- The set of nine and three, walked downwards. -/
theorem scans_exact_nine : ∃ c : BitBlockContainer (byteVector true), c.size = 10 ∧
    FirstSet c.bit 0 c.size c.findFirst ∧
    prevPosition true c (nextPosition true c 9) = 9 := by
  have h0 : Reachable (byteVector true) fun _ => BitBlockContainer.default (byteVector true) 0 :=
    .start fun _ => 0
  have h1 := Reachable.step .ample 0 (.growingInsert 3) h0 (Or.inl rfl) rfl
  have h2 := Reachable.step .ample 0 (.growingInsert 9) h1 (Or.inl rfl) rfl
  have hs := scans_exact (unsignedMapping_bijective 8) (h2.inv (Or.inl rfl) 0)
  exact ⟨_, rfl, hs.1, (hs.2.2.2.2.2.2 true).1 9 rfl⟩

end SetAdaptor

end XstdBits
