/-
  File: XstdBits/Opt/OrderedSet.lean
  Subject: the ordered set of integers that a sieve is written over, and the library's as one.

  * `OrderedSet` lists what `sieve.hpp` asks of its parameter `X`; `OrderedSet.Lawful` says what an
    ordered set answers, as far as its keys stay below a bound.
  * `librarySet` is the library's set of `std::size_t` over an owner, ascending; `lawful_librarySet`
    is that it is lawful up to the width its memory grants, or its type fixes.
  * `FixedSet` is the window of a segmented sieve: a set of fixed width and its complement.
-/
import XstdBits.Container.Reserve
import XstdBits.Set.Expression
import XstdBits.Set.Iota
import XstdBits.Set.Lookup

namespace XstdBits.Opt

/-! ## 1. What a sieve asks of a set -/

/-- **The operations of an ordered set of `std::size_t`** that the sieves call. -/
structure OrderedSet (σ : Type) where
  /-- `X()` -/
  empty : σ
  /-- `std::ranges::to<X>()` -/
  fromRange : List Nat → Except Exn σ
  copy : σ → Except Exn σ
  insert : Nat → σ → Except Exn σ
  erase : Nat → σ → σ
  contains : Nat → σ → Bool
  /-- what a range-for reads -/
  keys : σ → List Nat

/-- **An ordered set of keys below a bound**, in the states where `Good` holds. -/
structure OrderedSet.Lawful {σ : Type} (X : OrderedSet σ) (bound : Nat) (Good : σ → Prop) :
    Prop where
  empty : Good X.empty ∧ ∀ k, k ∉ X.keys X.empty
  fromRange : ∀ ks, (∀ k ∈ ks, k < bound) →
    ∃ s, X.fromRange ks = .ok s ∧ Good s ∧ ∀ k, k ∈ X.keys s ↔ k ∈ ks
  copy : ∀ s, Good s → ∃ t, X.copy s = .ok t ∧ Good t ∧ ∀ k, k ∈ X.keys t ↔ k ∈ X.keys s
  insert : ∀ s x, Good s → x < bound →
    ∃ t, X.insert x s = .ok t ∧ Good t ∧ ∀ k, k ∈ X.keys t ↔ k = x ∨ k ∈ X.keys s
  erase : ∀ s x, Good s → x < bound →
    Good (X.erase x s) ∧ ∀ k, k ∈ X.keys (X.erase x s) ↔ k ≠ x ∧ k ∈ X.keys s
  contains : ∀ s x, Good s → x < bound → (X.contains x s = true ↔ x ∈ X.keys s)
  sorted : ∀ s, Good s → (X.keys s).Pairwise (· < ·)

/-- **A set whose width the type fixes**, as a window uses it. -/
structure FixedSet (τ : Type) extends OrderedSet τ where
  /-- `Window().max_size()` -/
  width : Nat
  /-- `~Window()` -/
  full : τ

/-- A window that holds what is below its width, and all of it where it is full. -/
structure FixedSet.Lawful {τ : Type} (W : FixedSet τ) (Good : τ → Prop) : Prop where
  set : W.toOrderedSet.Lawful W.width Good
  full : Good W.full ∧ ∀ k, k ∈ W.keys W.full ↔ k < W.width

/-! ## 2. The library's set -/

section Library
variable {w : Nat} (V : Vehicle w) (mem : Memory)

open SetAdaptor (insertKeys eraseKey contains iterated leaves)
open SetExpr (leaves_ok)

/-- `bit_key_mapping<std::size_t>`'s key of a number. -/
def sizeKey (k : Nat) : Fin (2 ^ 64) := ⟨toSize k, Nat.mod_lt k (Nat.two_pow_pos 64)⟩

/-- **The library's set of `std::size_t`** over an owner, in ascending order. -/
def librarySet : OrderedSet (BitBlockContainer V) where
  empty := .default V 0
  -- the constructor resets the blocks and inserts key by key
  fromRange ks := leaves (insertKeys (unsignedMapping 64) mem (ks.map sizeKey))
    (BitBlockContainer.default V 0).resetAll
  copy c := BitBlockContainer.copyOf mem c c.mBlocks.alloc
  insert k := leaves (SetAdaptor.insert (unsignedMapping 64) mem (sizeKey k))
  -- nothing is thrown here
  erase k c := (leaves (eraseKey (unsignedMapping 64) (sizeKey k)) c).toOption.getD c
  contains k c := contains (unsignedMapping 64) c (sizeKey k)
  keys c := ((iterated (unsignedMapping 64) false c).getD []).map Fin.val

/-- The library's set of a width that its type fixes. -/
def libraryWindow : FixedSet (BitBlockContainer V) where
  toOrderedSet := librarySet V mem
  width := SetAdaptor.maxSize (unsignedMapping 64) (.default V 0)
  full := (BitBlockContainer.default V 0).flipAll

/-- **The keys a set of this storage can hold**: the memory grants the width, or the type has it. -/
structure Holds (bound : Nat) : Prop where
  owner : V.storage ≠ .lent
  room : V.hasStoredSize = true → BitBlockContainer.HasRoom V mem bound
  extent : V.hasStaticSize = true → bound ≤ V.extent

variable {V} {mem} {bound x : Nat} {c d : BitBlockContainer V}

/-- The states that a set reaches while its keys stay below the bound. -/
def InBound (bound : Nat) (c : BitBlockContainer V) : Prop :=
  c.Inv ∧ (V.hasStoredSize = true → c.size ≤ bound)

/-- A number that a `std::size_t` holds is its own position. -/
theorem toIndex_sizeKey (hx : x < 2 ^ 64) : (unsignedMapping 64).toIndex (sizeKey x) = x := by
  have hval : (sizeKey x).val = x := Nat.mod_eq_of_lt hx
  show toSize (sizeKey x).val = x
  rw [hval]
  exact toSize_of_le (by unfold sizeMax; omega)

theorem isKey_size (k : Fin (2 ^ 64)) : (unsignedMapping 64).isKey k = true :=
  unsignedMapping_isKey.mpr (by unfold sizeMax; omega)

theorem toIndex_size (k : Fin (2 ^ 64)) : (unsignedMapping 64).toIndex k = k.val :=
  toSize_of_le (by unfold sizeMax; omega)

/-- **What a range-for over the set reads**: the set positions, in order. -/
theorem keys_spec (hV : V.storage ≠ .lent) (h : c.Inv) :
    (∀ k, k ∈ (librarySet V mem).keys c ↔ c.bit k = true) ∧
      ((librarySet V mem).keys c).Pairwise (· < ·) := by
  have hM := unsignedMapping_bijective 64
  have htop := SetAdaptor.size_le_sizeMax (V.owned_of_not_lent hV) h
  unfold sizeMax at htop
  obtain ⟨s, hs⟩ := SetAdaptor.exists_represents false hM h fun p hp => by
    have := h.lt_size hp
    show p < 2 ^ 64
    omega
  have hkeys : (librarySet V mem).keys c = s.keys.map Fin.val := by
    show ((SetAdaptor.iterated _ _ _).getD []).map Fin.val = _
    rw [(hs.iterated hM).1]
    rfl
  rw [hkeys]
  refine ⟨fun k => ?_, ?_⟩
  · rw [List.mem_map, hs.bit k]
    refine exists_congr fun f => and_congr_right fun _ => ?_
    rw [toIndex_size]
  · rw [List.pairwise_map]
    exact s.sorted.imp fun hlt => hlt

/-- Below the bound there is always room to insert. -/
theorem doInsert_inBound (hV : Holds V mem bound) (h : InBound bound c) (hx : x < bound) :
    ∃ r d, SetAdaptor.doInsert (unsignedMapping 64) mem x c = .ok r d ∧ InBound bound d ∧
      ∀ p, d.bit p = if p = x then true else c.bit p := by
  have howned := V.owned_of_not_lent hV.owner
  have hwide (hs : V.hasStoredSize = true) : widthSum x 1 = x + 1 ∧ x + 1 ≤ V.maxWidth ∧
      BitBlockContainer.HasRoom V mem (x + 1) := by
    have hroom := (hV.room hs).mono (Nat.succ_le_of_lt hx)
    have hle : V.maxAddressableWidth ≤ V.maxWidth :=
      Nat.mul_le_mul_right w (Nat.div_le_div_right (by decide))
    have htop := Nat.le_trans (Nat.le_trans hroom.addressable hle) V.maxWidth_le
    refine ⟨?_, Nat.le_trans hroom.addressable hle, hroom⟩
    unfold widthSum
    rw [if_neg (by omega)]
  have hin : ∃ r d, SetAdaptor.doInsert (unsignedMapping 64) mem x c = .ok r d := by
    refine SetAdaptor.doInsert_completes_iff.mpr ⟨SetAdaptor.guardKey_iff.mpr ?_, fun hs _ => ?_⟩
    · split
      · rename_i hs
        exact Nat.lt_of_lt_of_le hx (hV.extent hs)
      · rename_i hs
        obtain ⟨hsum, hmax, -⟩ := hwide (howned.resolve_right hs)
        rw [hsum]
        exact ⟨nofun, hmax⟩
    · obtain ⟨hsum, -, hroom⟩ := hwide hs
      rw [hsum]
      exact ⟨hroom.capacity, hroom.makeRoom _⟩
  obtain ⟨r, d, hr⟩ := hin
  obtain ⟨h1, h2, -, h4⟩ := SetAdaptor.doInsert_ok h.1 howned hr
  refine ⟨r, d, hr, ⟨h1, fun hs => ?_⟩, h4⟩
  rw [h2]
  exact max_le (h.2 hs) hx

theorem insertKeys_inBound (hV : Holds V mem bound) (htop : bound ≤ 2 ^ 64) :
    ∀ {ks : List Nat} {c : BitBlockContainer V}, InBound bound c → (∀ k ∈ ks, k < bound) →
      ∃ d, SetAdaptor.insertKeys (unsignedMapping 64) mem (ks.map sizeKey) c = .ok () d ∧
        InBound bound d ∧ ∀ p, d.bit p = true ↔ c.bit p = true ∨ p ∈ ks
  | [], c, h, _ => ⟨c, rfl, h, fun p => by simp⟩
  | k :: ks, c, h, hks => by
      have hk := hks k List.mem_cons_self
      obtain ⟨r, d, hr, hd, hbit⟩ := doInsert_inBound hV h hk
      obtain ⟨e, he, hin, hmem⟩ := insertKeys_inBound hV htop hd fun j hj =>
        hks j (List.mem_cons_of_mem _ hj)
      refine ⟨e, ?_, hin, fun p => ?_⟩
      · rw [List.map_cons]
        unfold SetAdaptor.insertKeys
        rw [toIndex_sizeKey (by omega), hr]
        exact he
      · rw [hmem p, hbit p, List.mem_cons]
        by_cases hp : p = k
        · simp [hp]
        · simp [hp]

/-- A copy of a set below the bound is made. -/
theorem copyOf_inBound (hV : Holds V mem bound) (h : InBound bound c) :
    ∃ d, BitBlockContainer.copyOf mem c c.mBlocks.alloc = .ok d := by
  unfold BitBlockContainer.copyOf
  split
  · rename_i hs
    obtain ⟨b, hb⟩ := ((hV.room hs).mono (h.2 hs)).makeRoom (.empty c.mBlocks.alloc)
    unfold Blocks.copyOf
    rw [h.1.shape, hb]
    exact ⟨_, rfl⟩
  · exact ⟨c, rfl⟩

/-- An erased key is no longer there, and the rest is. -/
theorem eraseKey_inBound (h : InBound bound c) (hx : x < 2 ^ 64) :
    ∃ n d, SetAdaptor.eraseKey (unsignedMapping 64) (sizeKey x) c = .ok n d ∧ InBound bound d ∧
      ∀ p, d.bit p = if p = x then false else c.bit p := by
  unfold SetAdaptor.eraseKey
  rw [isKey_size, if_neg (by decide), toIndex_sizeKey hx]
  split
  · rename_i hle
    refine ⟨_, c, rfl, h, fun p => ?_⟩
    split
    · rename_i hp
      rw [hp]
      exact h.1.clear x hle
    · rfl
  · rename_i hlt
    have hlt := Nat.lt_of_not_le hlt
    refine ⟨_, _, rfl, ⟨h.1.erase hlt, fun hs => ?_⟩, fun p =>
      BitBlockContainer.bit_erase h.1.shape hlt⟩
    rw [BitBlockContainer.sameWidth_erase.size]
    exact h.2 hs

/-- **The library's set is an ordered set** of the keys below the bound its storage holds. -/
theorem lawful_librarySet (hV : Holds V mem bound) (htop : bound ≤ 2 ^ 64) :
    (librarySet V mem).Lawful bound (InBound bound) := by
  have howned := V.owned_of_not_lent hV.owner
  have hkeys {c : BitBlockContainer V} (h : InBound bound c) (k : Nat) :
      k ∈ (librarySet V mem).keys c ↔ c.bit k = true := (keys_spec hV.owner h.1).1 k
  have hdefault : InBound bound (BitBlockContainer.default V 0) := by
    refine ⟨(BitBlockContainer.default_spec howned 0).1, fun hs => ?_⟩
    unfold BitBlockContainer.size
    rw [BitBlockContainer.stored_not_static hs, if_neg (by decide), hs, if_pos rfl]
    split <;> exact Nat.zero_le _
  refine ⟨⟨hdefault, fun k hk => ?_⟩, fun ks hks => ?_, fun c h => ?_, fun c x h hx => ?_,
    fun c x h hx => ?_, fun c x h hx => ?_, fun c h => (keys_spec hV.owner h.1).2⟩
  · have hbit := (hkeys hdefault k).mp hk
    rw [(BitBlockContainer.default_spec howned 0).2] at hbit
    cases hbit
  · obtain ⟨hw, hclear, -⟩ := BitBlockContainer.resetAll_spec hdefault.1.shape
    have hreset : InBound bound (BitBlockContainer.default V 0).resetAll := by
      refine ⟨hdefault.1.resetAll, fun hs => ?_⟩
      rw [hw.size]
      exact hdefault.2 hs
    obtain ⟨d, hd, hin, hmem⟩ := insertKeys_inBound hV htop hreset hks
    refine ⟨d, leaves_ok hd, hin, fun k => ?_⟩
    rw [hkeys hin, hmem k, hclear]
    simp
  · obtain ⟨d, hd⟩ := copyOf_inBound hV h
    have hsame := BitBlockContainer.copyOf_sameValue hd
    have hin : InBound bound d := ⟨h.1.transferred hsame, fun hs => by
      rw [hsame.size]
      exact h.2 hs⟩
    refine ⟨d, hd, hin, fun k => ?_⟩
    rw [hkeys hin, hkeys h, hsame.bit]
  · obtain ⟨r, d, hr, hin, hbit⟩ := doInsert_inBound hV h hx
    refine ⟨d, leaves_ok (r := r) ?_, hin, fun k => ?_⟩
    · unfold SetAdaptor.insert
      rw [toIndex_sizeKey (by omega)]
      exact hr
    · rw [hkeys hin, hkeys h, hbit k]
      by_cases hk : k = x
      · simp [hk]
      · simp [hk]
  · obtain ⟨n, d, hr, hin, hbit⟩ := eraseKey_inBound h (show x < 2 ^ 64 by omega)
    have herase : (librarySet V mem).erase x c = d := by
      show (leaves _ c).toOption.getD c = d
      rw [leaves_ok hr]
      rfl
    rw [herase]
    refine ⟨hin, fun k => ?_⟩
    rw [hkeys hin, hkeys h, hbit k]
    by_cases hk : k = x
    · simp [hk]
    · simp [hk]
  · rw [hkeys h]
    show SetAdaptor.contains _ c (sizeKey x) = true ↔ _
    rw [SetAdaptor.contains_eq h.1, isKey_size, toIndex_sizeKey (by omega), Bool.true_and]

theorem libraryWindow_width (hV : V.hasStaticSize = true) :
    (libraryWindow V mem).width = V.extent := by
  unfold libraryWindow SetAdaptor.maxSize
  rw [if_pos hV]

/-- **The library's window** holds the numbers below the width its type fixes. -/
theorem lawful_libraryWindow (hV : V.hasStaticSize = true) :
    (libraryWindow V mem).Lawful (InBound V.extent) := by
  have hnot : V.hasStoredSize = true → False := fun hs => by
    rw [BitBlockContainer.stored_not_static hs] at hV
    cases hV
  have howner : V.storage ≠ .lent := fun hl => by
    unfold Vehicle.hasStaticSize at hV
    rw [hl] at hV
    cases hV
  have hwidth : (libraryWindow V mem).width = V.extent := libraryWindow_width hV
  have hextent := V.extent_le
  unfold sizeMax at hextent
  obtain ⟨hdefault, hclear⟩ := BitBlockContainer.default_spec (V := V) (Or.inr hV) 0
  obtain ⟨-, hflip, -⟩ := BitBlockContainer.flipAll_spec hdefault
  have hfull : InBound V.extent (BitBlockContainer.default V 0).flipAll :=
    ⟨hdefault.flipAll, fun hs => (hnot hs).elim⟩
  refine ⟨?_, hfull, fun k => ?_⟩
  · rw [hwidth]
    exact lawful_librarySet
      ⟨howner, fun hs => (hnot hs).elim, fun _ => Nat.le_refl _⟩ (by omega)
  · refine ((keys_spec howner hfull.1).1 k).trans ?_
    rw [hflip k, hclear, BitBlockContainer.size_of_static hV, hwidth]
    simp

end Library

end XstdBits.Opt
