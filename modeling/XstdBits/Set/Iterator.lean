/-
  File: XstdBits/Set/Iterator.lean
  Subject: the iterators of a set, and what an insertion leaves of them.

  * an iterator is a position of its set; `Obtained` lists the calls that hand one out, and
    `obtained_iff` says that it stands at an element or at the end, the width.
  * an insertion keeps the elements, and moves the end where it grows the width.
-/
import XstdBits.Container.Machine
import XstdBits.Set.Adaptor

namespace XstdBits

namespace SetAdaptor
variable {w : Nat} {V : Vehicle w} {Key : Type} (M : KeyMapping Key) (desc : Bool)
  (c : BitBlockContainer V)

/-! ## 1. What hands out an iterator -/

/-- `contains(x)`: `is_key` and the width are the guards, `test` the read. -/
def contains (key : Key) : Bool :=
  if M.isKey key = false then false
  else decide (M.toIndex key < c.size) && c.test (M.toIndex key)

def find (key : Key) : Nat := if contains M c key = true then M.toIndex key else endPos c

/-- `lower_bound(x)`, of a key. -/
def lowerBound (key : Key) : Nat :=
  let pos := M.toIndex key
  if desc then c.totalFindPrev (if pos < c.size then pos + 1 else c.size)
  else if c.size ≤ pos then endPos c
  else c.inclusiveFindNext pos

/-- `upper_bound(x)`, of a key. -/
def upperBound (key : Key) : Nat :=
  let pos := M.toIndex key
  if desc then c.totalFindPrev (min pos c.size)
  else if c.size ≤ pos then endPos c
  else c.exclusiveFindNext pos

/-- A bound bisected at a position: of a value that is no key, and of the heterogeneous lookups. -/
def boundAt (pos : Nat) : Nat := if desc then c.totalFindPrev pos else c.inclusiveFindNext pos

/-- `operator==` of two iterators: over a width of nought every iterator is the same one. -/
def iteratorEq (V : Vehicle w) (lhs rhs : Nat) : Bool :=
  if (V.hasStaticSize || V.hasStaticCapacity) && V.extent == 0 then true else lhs == rhs

/-- **The positions of the iterators obtained from a set.** -/
inductive Obtained : Nat → Prop where
  | first : Obtained (beginPos desc c)
  | last : Obtained (endPos c)
  | next {n : Nat} (hn : Obtained n) (hne : n ≠ endPos c) : Obtained (nextPosition desc c n)
  | prev {n : Nat} (hn : Obtained n) (hne : n ≠ beginPos desc c) : Obtained (prevPosition desc c n)
  | find (key : Key) : Obtained (find M c key)
  | lowerBound (key : Key) (hk : M.isKey key = true) : Obtained (lowerBound M desc c key)
  | upperBound (key : Key) (hk : M.isKey key = true) : Obtained (upperBound M desc c key)
  | boundAt (pos : Nat) (hp : pos ≤ c.size) : Obtained (boundAt desc c pos)

/-! ## 2. Where they stand -/

section Obtained
variable {M} {desc} {c} {d : BitBlockContainer V} {mem : Memory} {n x : Nat}

theorem contains_eq (h : c.Inv) (key : Key) :
    contains M c key = (M.isKey key && c.bit (M.toIndex key)) := by
  unfold contains
  cases hk : M.isKey key
  · rfl
  · by_cases hlt : M.toIndex key < c.size
    · rw [BitBlockContainer.test_eq h.shape hlt]
      simp [hlt]
    · rw [h.clear _ (by omega)]
      simp [hlt]

/-- An element's position, or the end. -/
def Stands (c : BitBlockContainer V) (n : Nat) : Prop := c.bit n = true ∨ n = endPos c

theorem stands_nextSet (a : Nat) : Stands c (nextSet c.bit a c.size) := by
  rcases nextSet_spec c.bit a c.size with ⟨-, -, h, -⟩ | ⟨h, -⟩
  · exact Or.inl h
  · exact Or.inr h

theorem stands_prevSet (n : Nat) : Stands c (prevSet c.bit n c.size) := by
  rcases prevSet_spec c.bit n c.size with ⟨-, h, -⟩ | ⟨h, -⟩
  · exact Or.inl h
  · exact Or.inr h

theorem Stands.le (h : c.Inv) (hn : Stands c n) : n ≤ c.size := by
  rcases hn with hb | he
  · exact Nat.le_of_lt (h.lt_size hb)
  · exact Nat.le_of_eq he

/-- An iterator past the first one has an element before it. -/
theorem exists_before (h : c.Inv) (hn : Stands c n) (hne : n ≠ beginPos false c) :
    ∃ p, p < n ∧ c.bit p = true := by
  rw [beginPos_eq h, if_neg (by decide)] at hne
  have hle := hn.le h
  rcases nextSet_spec c.bit 0 c.size with ⟨-, h2, h3, h4⟩ | ⟨h1, h2⟩
  · refine ⟨_, ?_, h3⟩
    by_contra hge
    rcases hn with hb | he
    · rw [h4 n (Nat.zero_le n) (by omega)] at hb
      cases hb
    · unfold endPos at he
      omega
  · rcases hn with hb | he
    · rw [h2 n (Nat.zero_le n) (h.lt_size hb)] at hb
      cases hb
    · exact absurd (he.trans h1.symm) hne

/-- **An iterator stands at an element or at the end.** -/
theorem obtained_iff (h : c.Inv) : Obtained M desc c n ↔ Stands c n := by
  constructor
  · intro hn
    induction hn with
    | first =>
        rw [beginPos_eq h]
        split
        · exact stands_prevSet _
        · exact stands_nextSet _
    | last => exact Or.inr rfl
    | @next n _ hne ih =>
        have hlt : n < c.size := Nat.lt_of_le_of_ne (ih.le h) hne
        rw [nextPosition_eq desc h hlt]
        split
        · exact stands_prevSet _
        · exact stands_nextSet _
    | @prev n _ hne ih =>
        unfold prevPosition
        cases desc
        · rw [if_pos (by decide),
            BitBlockContainer.exclusiveFindPrev_eq h (ih.le h) (exists_before h ih hne)]
          exact stands_prevSet _
        · rw [if_neg (by decide)]
          split
          · rw [BitBlockContainer.findFirst_eq h]
            exact stands_nextSet _
          · rename_i hsize
            have hlt : n < c.size := Nat.lt_of_le_of_ne (ih.le h) hsize
            rw [BitBlockContainer.exclusiveFindNext_eq h hlt]
            exact stands_nextSet _
    | find key =>
        unfold find
        split
        · rename_i hc
          rw [contains_eq h, Bool.and_eq_true] at hc
          exact Or.inl hc.2
        · exact Or.inr rfl
    | lowerBound key hk =>
        unfold lowerBound
        dsimp only
        split
        · rw [BitBlockContainer.totalFindPrev_eq h (by split <;> omega)]
          exact stands_prevSet _
        · split
          · exact Or.inr rfl
          · rw [BitBlockContainer.inclusiveFindNext_eq h (by omega)]
            exact stands_nextSet _
    | upperBound key hk =>
        unfold upperBound
        dsimp only
        split
        · rw [BitBlockContainer.totalFindPrev_eq h (Nat.min_le_right _ _)]
          exact stands_prevSet _
        · split
          · exact Or.inr rfl
          · rw [BitBlockContainer.exclusiveFindNext_eq h (by omega)]
            exact stands_nextSet _
    | boundAt pos hp =>
        unfold boundAt
        split
        · rw [BitBlockContainer.totalFindPrev_eq h hp]
          exact stands_prevSet _
        · rw [BitBlockContainer.inclusiveFindNext_eq h hp]
          exact stands_nextSet _
  · intro hn
    rcases hn with hb | rfl
    · -- the walk from `begin()` passes every element
      have hp := ((positions_spec desc h).1 n).mpr hb
      unfold positions at hp
      exact obtained_of_walk (c.size + 1) .first hp
    · exact .last
where
  obtained_of_walk : ∀ (fuel : Nat) {a : Nat}, Obtained M desc c a →
      n ∈ walk (nextPosition desc c) (endPos c) fuel a → Obtained M desc c n
    | 0, _, _, hp => absurd hp List.not_mem_nil
    | fuel + 1, a, ha, hp => by
        unfold walk at hp
        split at hp
        · exact absurd hp List.not_mem_nil
        · rename_i hne
          rcases List.mem_cons.mp hp with rfl | hp
          · exact ha
          · exact obtained_of_walk fuel (.next ha hne) hp

end Obtained

/-! ## 3. What an insertion leaves of them -/

section Stable
variable {M} {desc} {d : BitBlockContainer V} {mem : Memory} {n : Nat} {key : Key}

/-- **An insertion moves no iterator to another element, and the end only where it grows**: an
    iterator at an element denotes it still, and one at the end is the end still exactly where the
    inserted position is below the width. -/
theorem iterator_stable (hs : V.hasStoredSize = true) {S : Bank V} (hS : Reachable V S) (i : Nat)
    (hn : Obtained M desc (S i) n) {r : Nat × Bool}
    (hr : insert M mem key (S i) = .ok r d) :
    (n ≠ endPos (S i) → d.bit n = true ∧ iteratorEq V n (endPos d) = false) ∧
    (n = endPos (S i) →
      (iteratorEq V n (endPos d) = true ↔ d.size = (S i).size) ∧
      (d.size = (S i).size ↔ M.toIndex key < (S i).size)) := by
  have h := hS.inv (Or.inl hs) i
  obtain ⟨hd, hsize, -, hbit⟩ := doInsert_ok h (Or.inl hs) hr
  -- a capacity of nought admits no position
  have heq (m : Nat) : iteratorEq V m (endPos d) = (m == endPos d) := by
    unfold iteratorEq
    rw [if_neg]
    rw [BitBlockContainer.stored_not_static hs, Bool.false_or, Bool.and_eq_true, beq_iff_eq]
    intro ⟨hc, h0⟩
    have := hd.capacity hc
    omega
  rw [heq]
  constructor
  · intro hne
    have hb := ((obtained_iff h).mp hn).resolve_right hne
    have hb' : d.bit n = true := by
      rw [hbit]
      split
      · rfl
      · exact hb
    refine ⟨hb', ?_⟩
    rw [beq_eq_false_iff_ne]
    intro he
    rw [he, hd.clear (endPos d) (Nat.le_refl _)] at hb'
    cases hb'
  · intro he
    subst he
    unfold endPos
    rw [beq_iff_eq]
    omega

end Stable

/-- The iterator at three of a set that takes nine. -/
theorem iterator_stable_grown : ∃ d : BitBlockContainer (byteVector true),
    d.size = 10 ∧ d.bit 3 = true ∧ iteratorEq (byteVector true) 3 (endPos d) = false := by
  have h0 : Reachable (byteVector true) fun _ => BitBlockContainer.default (byteVector true) 0 :=
    .start fun _ => 0
  have h1 := Reachable.step .ample 0 (.growingInsert 3) h0 (Or.inl rfl) rfl
  have hs := iterator_stable (M := unsignedMapping 8) (r := (9, true)) rfl h1 0
    (.find 3 : Obtained _ false _ _) (show insert _ .ample 9 _ = .ok _ _ from rfl)
  exact ⟨_, rfl, hs.1 (by decide)⟩

/-- **The end of a set that grows is no longer its end**: an empty set that takes nought leaves the
    iterator that was `end()` at the element nought. -/
theorem end_moves : ∃ (S : Bank (byteVector true)) (d : BitBlockContainer (byteVector true)),
    Reachable (byteVector true) S ∧
    insert (unsignedMapping 8) .ample 0 (S 0) = .ok (0, true) d ∧
    Obtained (unsignedMapping 8) false (S 0) (endPos (S 0)) ∧
    iteratorEq (byteVector true) (endPos (S 0)) (endPos d) = false ∧
    d.bit (endPos (S 0)) = true :=
  ⟨_, _, .start fun _ => 0, rfl, .last, rfl, rfl⟩

end SetAdaptor

end XstdBits
