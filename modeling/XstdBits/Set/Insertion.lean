/-
  File: XstdBits/Set/Insertion.lean
  Subject: an insertion takes the key it is given, or refuses it.

  A value is turned into a position before any check, and the check sees the position alone. Every
  value that `to_index` admits and that is no key ranks at or past the size of a closed universe, so
  that `guard_key` refuses it (`guardKey_lt`); the rest are at their own position.
-/
import XstdBits.Set.Iterator

namespace XstdBits

namespace SetAdaptor
variable {w : Nat} {V : Vehicle w} {Key : Type} {M : KeyMapping Key} {desc : Bool}
  {c d : BitBlockContainer V} {mem : Memory}

/-- A walk from `begin()` to `end()` reads the key. -/
def Iterates (M : KeyMapping Key) (desc : Bool) (c : BitBlockContainer V) (key : Key) : Prop :=
  ∃ p, p ∈ positions desc c ∧ M.fromIndex p = some key

/-- A mapping that names a size closes the universe, and a width the type fixes must be that
    size. -/
def AdmitsWidth (V : Vehicle w) (M : KeyMapping Key) : Prop :=
  ∀ n, M.size = some n → V.hasStaticSize = true → V.extent = n

/-- What `guard_key` admits lies within a closed universe. -/
theorem guardKey_lt (hw : AdmitsWidth V M) {x : Nat} (hg : guardKey M c x = .ok ()) {n : Nat}
    (hn : M.size = some n) : x < n := by
  by_cases hs : V.hasStaticSize = true
  · have hlt := guardKey_static hs hg
    unfold BitBlockContainer.size at hlt
    rw [if_pos hs, hw n hn hs] at hlt
    exact hlt
  · unfold guardKey at hg
    rw [if_neg hs, hn] at hg
    dsimp only at hg
    split at hg
    · cases hg
    · omega

theorem guardKey_of_doInsert {x : Nat} {r : Nat × Bool} (hr : doInsert M mem x c = .ok r d) :
    guardKey M c x = .ok () := by
  unfold doInsert at hr
  split at hr
  · cases hr
  · rename_i hg
    exact hg

/-- **Insertion is exact or refused**: of a library mapping and of a value its `to_index` admits, an
    insertion that returns has added that key and no other, and one that throws has changed
    nothing. -/
theorem insert_exact (mem : Memory) (desc : Bool) (hv : V.storage ≠ .lent) (hM : LibraryMapping M)
    (hw : AdmitsWidth V M) {S : Bank V} (hS : Reachable V S) (i : Nat) {x : Key} (hx : M.indexable x = true) :
    (∀ r d, insert M mem x (S i) = .ok r d →
      Iterates M desc d x ∧ contains M d x = true ∧
      ∀ k, k ≠ x → (Iterates M desc d k ↔ Iterates M desc (S i) k) ∧
        contains M d k = contains M (S i) k) ∧
    ∀ e d, insert M mem x (S i) = .error e d → d = S i := by
  have howned := V.owned_of_not_lent hv
  have h := hS.inv howned i
  refine ⟨fun r d hr => ?_, fun e d he => doInsert_strong e d he⟩
  obtain ⟨hd, -, -, hbit⟩ := doInsert_ok h howned hr
  have hkey : M.isKey x = true ∧ M.fromIndex (M.toIndex x) = some x := by
    rcases hM.exact hx with hk | ⟨n, hn, hle⟩
    · exact hk
    · have := guardKey_lt hw (guardKey_of_doInsert hr) hn
      omega
  have hmem (p : Nat) : p ∈ positions desc d ↔ p = M.toIndex x ∨ p ∈ positions desc (S i) := by
    rw [(positions_spec desc hd).1, (positions_spec desc h).1, hbit]
    by_cases hp : p = M.toIndex x
    · simp [hp]
    · simp [hp]
  refine ⟨⟨M.toIndex x, (hmem _).mpr (Or.inl rfl), hkey.2⟩, ?_, fun k hne => ⟨?_, ?_⟩⟩
  · rw [contains_eq hd, hbit, if_pos rfl, hkey.1]
    rfl
  · constructor
    · intro ⟨p, hp, hpk⟩
      rcases (hmem p).mp hp with rfl | hp
      · rw [hkey.2] at hpk
        exact absurd (Option.some.inj hpk).symm hne
      · exact ⟨p, hp, hpk⟩
    · intro ⟨p, hp, hpk⟩
      exact ⟨p, (hmem p).mpr (Or.inr hp), hpk⟩
  · rw [contains_eq hd, contains_eq h]
    cases hk : M.isKey k with
    | false => rfl
    | true =>
        have hpos : M.toIndex k ≠ M.toIndex x := by
          intro he
          have hback := hM.from_to hk
          rw [he, hkey.2] at hback
          exact hne (Option.some.inj hback).symm
        rw [hbit, if_neg hpos]

/-- Minus three, of the seven keys from minus eight, in a growing descending set. -/
theorem insert_exact_range : ∃ d : BitBlockContainer (byteVector true),
    Iterates (bitRangeMapping (BitVec.ofInt 8 (-8)) 7) true d (BitVec.ofInt 8 (-3)) := by
  have hS : Reachable (byteVector true) fun _ => BitBlockContainer.default (byteVector true) 0 :=
    .start fun _ => 0
  have hM : LibraryMapping (bitRangeMapping (BitVec.ofInt 8 (-8)) 7) := .range _ 7 (by decide)
  have hw : AdmitsWidth (byteVector true) (bitRangeMapping (BitVec.ofInt 8 (-8)) 7) := by
    intro _ _ hs
    cases hs
  have h := insert_exact .ample true (x := BitVec.ofInt 8 (-3)) (by decide) hM hw hS 0 rfl
  exact ⟨_, (h.1 (5, true) _ rfl).1⟩

/-- **A key wider than `size_t` is cut to one**: a set of 128-bit keys that takes `2 ^ 64 + 5` holds
    five. -/
theorem insert_wide_cut : ∃ (S : Bank (byteVector true)) (d : BitBlockContainer (byteVector true)),
    Reachable (byteVector true) S ∧
    insert (unsignedMapping 128) .ample ⟨2 ^ 64 + 5, by decide⟩ (S 0) = .ok (5, true) d ∧
    iterated (unsignedMapping 128) false (S 0) = some [] ∧
    iterated (unsignedMapping 128) false d = some [⟨5, by decide⟩] :=
  ⟨_, _, .start fun _ => 0, rfl, rfl, rfl⟩

/-- **A value of two flags is no argument** of `to_index`, which asserts one bit. Where the assertion
    is compiled out the lower flag alone goes in, and not the value. -/
theorem insert_flags_cut : ∃ (S : Bank (byteVector true)) (d : BitBlockContainer (byteVector true)),
    Reachable (byteVector true) S ∧
    (bitFlagMapping 8 8).indexable 0b11 = false ∧ (bitFlagMapping 8 8).isKey 0b11 = false ∧
    insert (bitFlagMapping 8 8) .ample 0b11 (S 0) = .ok (0, true) d ∧
    iterated (bitFlagMapping 8 8) false (S 0) = some [] ∧
    iterated (bitFlagMapping 8 8) false d = some [0b01] :=
  ⟨_, _, .start fun _ => 0, by decide, by decide, rfl, rfl, rfl⟩

end SetAdaptor

end XstdBits
