/-
  File: XstdBits/Valarray/Owner.lean
  Subject: selected elements in a valarray of their own (`valarray_adaptor.hpp`).

  * a const valarray's subscript gathers into the owner `gathered_t` names: the valarray's own type,
    and a type of that capacity where its size is fixed (`Vehicle.gathered`).
  * a valarray constructed from a proxy gathers into itself, sized first to what the proxy selects.
  * either is refused where the owner has no room for as many elements (`RoomFor`), as for nine out
    of eight, whose positions repeat (`nine_of_eight`).
  * **`selections_exact_iff`** -- with that room, and outside the empty runs of `Proxy.lean`, all of
    it is what the element-by-element loop gives.
-/
import XstdBits.Container.Machine
import XstdBits.Container.Reserve
import XstdBits.Sequence.Adaptor
import XstdBits.Valarray.Proxy

namespace XstdBits

/-! ## 1. Owners -/

/-- A size taken at run time, under the capacity a fixed one makes. -/
def Storage.gathered (storage : Storage) : Storage :=
  match storage with
  | .fixed n => .capped n
  | storage => storage

/-- `gathered_t<Owner>`: the owner itself, and at a fixed size `bit_inplace_valarray<N>`. -/
def Vehicle.gathered {w : Nat} (V : Vehicle w) : Vehicle w where
  storage := V.storage.gathered
  bits_pos := V.bits_pos
  bits_int := V.bits_int
  holds_width := by
    have h := V.holds_width
    cases hst : V.storage <;> rw [hst] at h <;> exact h
  whole_blocks := by
    have h := V.whole_blocks
    cases hst : V.storage <;> rw [hst] at h <;> exact h

/-- It takes its size at run time. -/
theorem Vehicle.hasStoredSize_gathered {w : Nat} {V : Vehicle w} (hV : V.storage ≠ .lent) :
    V.gathered.hasStoredSize = true := by
  unfold hasStoredSize gathered Storage.gathered
  dsimp only
  cases hst : V.storage with
  | lent => exact absurd hst hV
  | _ => rfl

theorem Vehicle.hasStoredCount_gathered {w : Nat} {V : Vehicle w} (hu : V.hasStoredCount = false) :
    V.gathered.hasStoredCount = false := by
  unfold hasStoredCount at hu ⊢
  unfold gathered Storage.gathered
  dsimp only
  cases hst : V.storage with
  | growing t =>
      rw [hst] at hu
      exact hu
  | _ => rfl

/-- **Room for `n` elements**: their positions are counted, a static capacity holds them, and what
    grows instead is granted their blocks. -/
structure RoomFor {w : Nat} (V : Vehicle w) (mem : Memory) (n : Nat) : Prop where
  addressable : n ≤ V.maxAddressableWidth
  capacity : V.hasStaticCapacity = true → n ≤ V.extent
  granted : V.hasStaticCapacity = false → n ≠ 0 →
    ∃ k, Blocks.allocateFor V mem (blocksFor w n) = .ok k

/-- Every width that fits has room. -/
theorem BitBlockContainer.HasRoom.roomFor {w n : Nat} {V : Vehicle w} {mem : Memory}
    (h : HasRoom V mem n) : RoomFor V mem n where
  addressable := h.addressable
  capacity := fits_capacity h.capacity
  granted hc _ := h.grants _ (Nat.le_refl _) hc

/-- As many elements as a fixed size has, or room for them. -/
def Sized {w : Nat} (V : Vehicle w) (mem : Memory) (n : Nat) : Prop :=
  if V.hasStaticSize then n = V.extent else RoomFor V mem n

namespace Valarray

open BitBlockContainer

/-- **`r` is the valarray of the `n` elements `f i`**, every bit past them clear. -/
structure Holds {w : Nat} {V : Vehicle w} (r : BitBlockContainer V) (n : Nat) (f : Nat → Bool) :
    Prop where
  inv : r.Inv
  size : r.size = n
  bit : ∀ p, r.bit p = (decide (p < n) && f p)

section Construction
variable {w : Nat} {V : Vehicle w} (mem : Memory) (alloc n : Nat)

/-- `valarray(n)`. -/
def ofCount : Except Exn (BitBlockContainer V) := do
  let n ← checkAddressableWidth V n
  construct V mem n alloc

/-- `m_bits.reset()` and, where the size is taken at run time, `m_bits.resize(..)`; a fixed size is
    asserted by `fits`. -/
def cleared (fits : Nat → Bool) : Except Exn (BitBlockContainer V) :=
  let c := (default V alloc).resetAll
  if V.hasStaticSize then if fits c.size then .ok c else .error .abort
  else
    match SequenceAdaptor.resize mem n false c with
    | .ok _ d => .ok d
    | .error e _ => .error e

end Construction

section Made
variable {w : Nat} {V : Vehicle w} {mem : Memory} {alloc n : Nat} {r : BitBlockContainer V}
  {fits : Nat → Bool}

/-- Nothing but clear positions. -/
theorem holds_clear (hinv : r.Inv) (hsize : r.size = n) (hbit : ∀ p, r.bit p = false) :
    Holds r n fun _ => false where
  inv := hinv
  size := hsize
  bit p := by rw [hbit, Bool.and_false]

/-- Room for its blocks, of an owner that has none in reserve. -/
theorem makeRoom_iff_roomFor {b : Blocks w} (hb : b.reserved = 0)
    (haddressable : n ≤ V.maxAddressableWidth) :
    (overCapacity V n = false ∧ ∃ b', b.makeRoom V mem (blocksFor w n) = .ok b') ↔
      RoomFor V mem n := by
  have hzero : blocksFor w n ≤ 0 ↔ n = 0 := by
    rw [blocksFor_le_iff V.bits_pos, Nat.zero_mul, Nat.le_zero]
  unfold overCapacity
  rw [Blocks.makeRoom_iff, hb]
  cases hc : V.hasStaticCapacity with
  | true =>
      have hover : overCapacity V n = false → blocksFor w n ≤ V.maxBlocks := fun h =>
        blocks_fit h hc
      unfold overCapacity at hover
      rw [hc] at hover
      rw [Bool.true_and, decide_eq_false_iff_not, if_pos rfl, Nat.not_lt]
      rw [Bool.true_and, decide_eq_false_iff_not, Nat.not_lt] at hover
      exact ⟨fun h => ⟨haddressable, fun _ => h.1, fun hf => absurd hc (by rw [hf]; decide)⟩,
        fun h => ⟨h.capacity hc, hover (h.capacity hc)⟩⟩
  | false =>
      rw [Bool.false_and, if_neg (by decide), hzero]
      constructor
      · rintro ⟨-, h⟩
        refine ⟨haddressable, fun ht => absurd hc (by rw [ht]; decide), fun _ h0 => ?_⟩
        exact h.resolve_left fun hn => h0 hn.1
      · intro h
        refine ⟨rfl, ?_⟩
        by_cases h0 : n = 0
        · exact Or.inl ⟨h0, by rw [h0, blocksFor_zero]; exact Nat.zero_le _⟩
        · exact Or.inr (h.granted hc h0)

theorem ofCount_holds (hs : V.hasStoredSize = true) (h : ofCount mem alloc n = .ok r) :
    Holds r n fun _ => false := by
  unfold ofCount checkAddressableWidth at h
  split at h
  · cases h
  · obtain ⟨hinv, hsize, hbit⟩ := construct_ok hs h
    exact holds_clear hinv hsize hbit

/-- **When `valarray(n)` is made.** -/
theorem ofCount_iff (alloc : Nat) :
    (∃ r : BitBlockContainer V, ofCount mem alloc n = .ok r) ↔ RoomFor V mem n := by
  unfold ofCount checkAddressableWidth
  by_cases ha : V.maxAddressableWidth < n
  · rw [if_pos ha]
    refine iff_of_false ?_ fun h => absurd h.addressable (Nat.not_le.mpr ha)
    rintro ⟨r, hr⟩
    cases hr
  · rw [if_neg ha, ← makeRoom_iff_roomFor (b := Blocks.empty alloc) rfl (Nat.not_lt.mp ha)]
    show (∃ r, construct V mem n alloc = .ok r) ↔ _
    unfold construct Blocks.resize
    cases hover : overCapacity V n with
    | true =>
        refine iff_of_false ?_ fun h => Bool.false_ne_true h.1.symm
        rintro ⟨r, hr⟩
        cases hr
    | false =>
        rw [if_neg (by decide)]
        cases hb : (Blocks.empty alloc).makeRoom V mem (blocksFor w n) with
        | error e =>
            refine iff_of_false ?_ ?_
            · rintro ⟨r, hr⟩
              cases hr
            · rintro ⟨-, b, hr⟩
              cases hr
        | ok b => exact iff_of_true ⟨_, rfl⟩ ⟨rfl, b, rfl⟩

/-- A new container and every position of it reset. -/
theorem default_cleared (hV : V.storage ≠ .lent) (alloc : Nat) : Holds (default V alloc).resetAll
    (if V.hasStaticSize then V.extent else 0) fun _ => false := by
  have hv := V.owned_of_not_lent hV
  obtain ⟨hinv, -⟩ := default_spec hv alloc
  obtain ⟨hsame, hbit, -⟩ := resetAll_spec hinv.shape
  refine holds_clear hinv.resetAll (hsame.size.trans ?_) hbit
  split
  · rename_i hs
    exact size_of_static hs
  · rename_i hs
    rw [size_of_stored (hv.resolve_right hs)]
    split <;> rfl

theorem cleared_holds (hV : V.storage ≠ .lent) (h : cleared mem alloc n fits = .ok r) :
    Holds r (if V.hasStaticSize then V.extent else n) fun _ => false := by
  have hc := default_cleared hV alloc
  unfold cleared at h
  dsimp only at h
  split at h
  · rename_i hs
    rw [if_pos hs] at hc ⊢
    split at h
    · cases h
      exact hc
    · cases h
  · rename_i hs
    rw [if_neg hs] at hc ⊢
    have hstored := (V.owned_of_not_lent hV).resolve_right hs
    split at h
    · rename_i d hd
      cases h
      have hres := (SequenceAdaptor.resize_ends hc.inv hstored).ok hd
      refine holds_clear hres.inv hres.size fun p => ?_
      rw [hres.bit, hc.size, if_neg (Nat.not_lt_zero p), ite_self]
    · cases h

/-- **When an owner is cleared to a size.** -/
theorem cleared_iff (hV : V.storage ≠ .lent) (alloc : Nat) (fits : Nat → Bool) :
    (∃ r : BitBlockContainer V, cleared mem alloc n fits = .ok r) ↔
      if V.hasStaticSize then fits V.extent = true else RoomFor V mem n := by
  have hc := default_cleared hV alloc
  unfold cleared
  dsimp only
  split
  · rename_i hs
    rw [if_pos hs] at hc
    rw [hc.size]
    split
    · rename_i hf
      exact iff_of_true ⟨_, rfl⟩ hf
    · rename_i hf
      exact iff_of_false nofun hf
  · rename_i hs
    have hreserved : (default V alloc).resetAll.mBlocks.reserved = 0 := by
      rw [(resetAll_spec (default_spec (V.owned_of_not_lent hV) alloc).1.shape).1.reserved]
      exact if_neg hs
    unfold SequenceAdaptor.resize SequenceAdaptor.checkedWidth checkAddressableWidth
    by_cases ha : V.maxAddressableWidth < n
    · rw [if_pos ha]
      exact iff_of_false nofun fun h => absurd h.addressable (Nat.not_le.mpr ha)
    · rw [if_neg ha, ← makeRoom_iff_roomFor hreserved (Nat.not_lt.mp ha), ← resizeTo_iff (v := false)]
      show (∃ r, (match BitBlockContainer.resize mem n false (default V alloc).resetAll with
        | .ok _ d => Except.ok d
        | .error e _ => Except.error e) = .ok r) ↔
          ∃ d, BitBlockContainer.resize mem n false (default V alloc).resetAll = .ok () d
      cases BitBlockContainer.resize mem n false (default V alloc).resetAll with
      | error e c => exact iff_of_false nofun nofun
      | ok u d => exact iff_of_true ⟨d, rfl⟩ ⟨d, rfl⟩

end Made

/-- Blocks written whole, clear past the elements. -/
theorem Holds.withElems {w n : Nat} {V : Vehicle w} {c : BitBlockContainer V} {f g : Nat → Bool}
    (h : Holds c n f) (hu : V.hasStoredCount = false) {out : List (BitVec w)}
    (hlen : out.length = c.mBlocks.elems.length)
    (hbit : ∀ p, bitAt out p = (decide (p < n) && g p)) : Holds (c.withElems fun _ => out) n g := by
  have hsame : SameWidth c (c.withElems fun _ => out) := sameWidth_withElems hlen
  refine ⟨h.inv.write hsame (fun p hp => (hbit p).trans ?_) fun hc => ?_, hsame.size.trans h.size, hbit⟩
  · rw [h.size] at hp
    rw [decide_eq_false (by omega), Bool.false_and]
  · rw [hu] at hc
    cases hc

end Valarray

/-! ## 3. Elements gathered -/

/-- The element at the `i`-th position selected. -/
def Selection.element {w : Nat} (sel : Selection w) (v : BitValarray w) (i : Nat) : Bool :=
  ((sel.positions v).map (bitAt v.blocks)).getD i false

namespace BitValarray
variable {w : Nat}

section Operations
variable (I : Intrinsics w) (B : Vehicle w) (mem : Memory) (alloc : Nat) (sel : Selection w)
  (v : BitValarray w)

/-- Gathered into the blocks of `result`, which are clear. -/
def gatherInto {U : Vehicle w} (result : BitBlockContainer U) :
    Except Exn (BitBlockContainer U) := do
  let out ← orAbort (sel.gather I B v.blocks result.mBlocks.elems)
  return result.withElems fun _ => out

/-- The subscript of a const valarray, `U` being what `gathered_t` names of its owner. -/
def gather (U : Vehicle w) : Except Exn (BitBlockContainer U) :=
  if sel.admitted v then do
    let result ← Valarray.ofCount mem alloc (sel.size v)
    gatherInto I B sel v result
  else .error .abort

/-- `valarray(proxy)`, the proxy a subscript's; a fixed size is as many elements as it selects. -/
def ofProxy {U : Vehicle w} : Except Exn (BitBlockContainer U) :=
  if sel.admitted v then do
    let result ← Valarray.cleared mem alloc (sel.size v) fun n => sel.size v == n
    gatherInto I B sel v result
  else .error .abort

end Operations

section Exact
variable {I : Intrinsics w} {B : Vehicle w} {v : BitValarray w} {sel : Selection w} {f : Combine}
  (hI : I.Lawful) (hB : B.storage = .lent) (hform : sel.WellFormed v) (hin : sel.Within v)
include hI hB hform hin

/-- **Into a valarray of as many elements**, all of them false. -/
theorem gatherInto_exact (hpast : ¬ sel.PastEnd v) {U : Vehicle w} (hu : U.hasStoredCount = false)
    {result : BitBlockContainer U}
    (hres : Valarray.Holds result (sel.positions v).length fun _ => false) :
    ∃ r, gatherInto I B sel v result = .ok r ∧
      Valarray.Holds r (sel.positions v).length (sel.element v) := by
  have hlen : result.mBlocks.elems.length = blocksFor w (sel.positions v).length := by
    rw [hres.inv.shape, hres.size]
  obtain ⟨out, hout, hg⟩ := gather_exact hI hB hform hin hpast hlen fun p =>
    (hres.bit p).trans (Bool.and_false _)
  refine ⟨result.withElems fun _ => out, ?_, hres.withElems hu (hg.length.trans hlen.symm) fun q => ?_⟩
  · unfold gatherInto
    rw [hout]
    rfl
  · rw [hg.bits]
    show sel.element v q = _
    by_cases hq : q < (sel.positions v).length
    · rw [decide_eq_true hq, Bool.true_and]
    · rw [decide_eq_false hq, Bool.false_and]
      exact List.getD_eq_default _ _ (by rw [List.length_map]; omega)

omit hI hB hform hin in
theorem gatherInto_past (hpast : sel.PastEnd v) {U : Vehicle w} {result : BitBlockContainer U} :
    gatherInto I B sel v result = .error .abort := by
  unfold gatherInto
  rw [gather_past hpast]
  rfl

section Made
variable {U : Vehicle w} (hu : U.hasStoredCount = false) {make : Except Exn (BitBlockContainer U)}
  (hmake : ∀ result, make = .ok result →
    Valarray.Holds result (sel.positions v).length fun _ => false)
include hu hmake

/-- An owner made for the elements holds them once gathered into. -/
theorem gathers_holds {r : BitBlockContainer U} (h : make >>= gatherInto I B sel v = .ok r) :
    Valarray.Holds r (sel.positions v).length (sel.element v) := by
  cases make with
  | error e => cases h
  | ok result =>
      have h : gatherInto I B sel v result = .ok r := h
      have hpast : ¬ sel.PastEnd v := fun hpast => by
        rw [gatherInto_past hpast] at h
        cases h
      obtain ⟨r', hr', hholds⟩ := gatherInto_exact hI hB hform hin hpast hu (hmake result rfl)
      rw [h] at hr'
      cases hr'
      exact hholds

/-- It is gathered into wherever it is made. -/
theorem gathers_iff : (∃ r, make >>= gatherInto I B sel v = .ok r ∧
      Valarray.Holds r (sel.positions v).length (sel.element v)) ↔
    ¬ sel.PastEnd v ∧ ∃ result, make = .ok result := by
  cases make with
  | error e =>
      exact iff_of_false (fun h => nomatch h.choose_spec.1) fun h => nomatch h.2.choose_spec
  | ok result =>
      constructor
      · rintro ⟨r, hr, -⟩
        refine ⟨fun hpast => ?_, result, rfl⟩
        have hr : gatherInto I B sel v result = .ok r := hr
        rw [gatherInto_past hpast] at hr
        cases hr
      · exact fun h => gatherInto_exact hI hB hform hin h.1 hu (hmake result rfl)

end Made

variable {U : Vehicle w} (hu : U.hasStoredCount = false) {mem : Memory} {alloc : Nat}
include hu

section Const
variable (hs : U.hasStoredSize = true)
include hs

/-- What a const subscript returns holds the elements selected. -/
theorem gather_holds {r : BitBlockContainer U} (h : v.gather I B mem alloc sel U = .ok r) :
    Valarray.Holds r (sel.positions v).length (sel.element v) := by
  unfold gather at h
  rw [if_pos (Selection.admitted_of_within hform hin), Selection.size_eq hform hin B.bits_pos] at h
  exact gathers_holds hI hB hform hin hu (fun _ hr => Valarray.ofCount_holds hs hr) h

/-- **When a const subscript gathers**: the owner it gathers into has room for the elements. -/
theorem gather_iff (alloc : Nat) : (∃ r, v.gather I B mem alloc sel U = .ok r ∧
      Valarray.Holds r (sel.positions v).length (sel.element v)) ↔
    ¬ sel.PastEnd v ∧ RoomFor U mem (sel.positions v).length := by
  unfold gather
  rw [if_pos (Selection.admitted_of_within hform hin), Selection.size_eq hform hin B.bits_pos,
    ← Valarray.ofCount_iff alloc]
  exact gathers_iff hI hB hform hin hu fun _ hr => Valarray.ofCount_holds hs hr

end Const

section Proxies
variable (hU : U.storage ≠ .lent)
include hU

omit hI hB hform hin hu in
/-- Cleared to the elements' number, which a fixed size is asserted to be. -/
theorem cleared_for {n : Nat} (alloc : Nat) :
    ((∃ r : BitBlockContainer U, Valarray.cleared mem alloc n (fun m => n == m) = .ok r) ↔
      Sized U mem n) ∧
    ∀ r : BitBlockContainer U, Valarray.cleared mem alloc n (fun m => n == m) = .ok r →
      Valarray.Holds r n fun _ => false := by
  have hmade : (∃ r : BitBlockContainer U, Valarray.cleared mem alloc n (fun m => n == m) = .ok r) ↔
      if U.hasStaticSize then (n == U.extent) = true else RoomFor U mem n :=
    Valarray.cleared_iff hU alloc fun m => n == m
  rw [beq_iff_eq] at hmade
  refine ⟨hmade, fun r hr => ?_⟩
  have hres := Valarray.cleared_holds hU hr
  by_cases hs : U.hasStaticSize = true
  · have hn := hmade.mp ⟨r, hr⟩
    rw [if_pos hs] at hn hres
    rwa [← hn] at hres
  · rwa [if_neg hs] at hres

/-- What is constructed from a proxy holds the elements selected. -/
theorem ofProxy_holds {r : BitBlockContainer U} (h : v.ofProxy I B mem alloc sel = .ok r) :
    Valarray.Holds r (sel.positions v).length (sel.element v) := by
  unfold ofProxy at h
  rw [if_pos (Selection.admitted_of_within hform hin), Selection.size_eq hform hin B.bits_pos] at h
  exact gathers_holds hI hB hform hin hu (cleared_for hU alloc).2 h

/-- **When a valarray is constructed from a proxy.** -/
theorem ofProxy_iff (alloc : Nat) : (∃ r : BitBlockContainer U, v.ofProxy I B mem alloc sel = .ok r ∧
      Valarray.Holds r (sel.positions v).length (sel.element v)) ↔
    ¬ sel.PastEnd v ∧ Sized U mem (sel.positions v).length := by
  unfold ofProxy
  rw [if_pos (Selection.admitted_of_within hform hin), Selection.size_eq hform hin B.bits_pos,
    ← (cleared_for hU alloc).1]
  exact gathers_iff hI hB hform hin hu (cleared_for hU alloc).2

end Proxies

omit hu

/-- **When a selection reads and writes what its element-by-element loop does**: gathering unless it
    is an empty run past the last block or the owner gathered into has no room for the elements;
    writing through distinct positions unless it or the proxy it takes is such a run, or the vector
    that proxy's elements go through is refused; a scalar always. -/
theorem selections_exact_iff :
    (∀ (V : Vehicle w) (mem : Memory) (alloc : Nat), V.storage ≠ .lent →
      V.hasStoredCount = false →
      ((∃ r, v.gather I B mem alloc sel V.gathered = .ok r ∧
          Valarray.Holds r (sel.positions v).length (sel.element v)) ↔
        ¬ sel.PastEnd v ∧ RoomFor V.gathered mem (sel.positions v).length) ∧
      ((∃ r : BitBlockContainer V, v.ofProxy I B mem alloc sel = .ok r ∧
          Valarray.Holds r (sel.positions v).length (sel.element v)) ↔
        ¬ sel.PastEnd v ∧ Sized V mem (sel.positions v).length)) ∧
    ((sel.positions v).Nodup → ∀ f,
      (∀ (a : ArrayOperand w) (mem : Memory), a.Fits v sel →
        ((∃ out, v.scatter I B sel mem f a = .ok out ∧ v.Looped sel f (a.read v) out) ↔
          ¬ sel.PastEnd v ∧ ¬ a.PastEnd v ∧ a.Granted v mem)) ∧
      ∀ value, ∃ out, v.fill I B sel f value = some out ∧
        v.Looped sel f (fun _ _ => value) out) := by
  refine ⟨fun V mem alloc hV hu => ⟨?_, ofProxy_iff hI hB hform hin hu hV alloc⟩,
    fun hnodup f => ⟨fun a mem hfits => ?_, fun value => ?_⟩⟩
  · exact gather_iff hI hB hform hin (Vehicle.hasStoredCount_gathered hu)
      (Vehicle.hasStoredSize_gathered hV) alloc
  · constructor
    · rintro ⟨out, hout, -⟩
      have hpast := not_pastEnd_of_scatter hout
      exact ⟨hpast.1, hpast.2, granted_of_scatter hB hform hin hnodup hfits hout⟩
    · rintro ⟨hpast, hapast, hgranted⟩
      exact scatter_exact hI hB hform hin hpast hnodup hfits hapast hgranted
  · exact fill_exact hI hB hform hin hnodup value

end Exact

/-! ## 4. Eight elements -/

theorem eight_whole_blocks : Storage.wholeBlocks 8 (.fixed 8) = true := by decide

/-- A fixed size of eight over one byte. -/
def fixedByte : Vehicle 8 where
  storage := .fixed 8
  bits_pos := byte_pos
  bits_int := byte_int
  holds_width := rfl
  whole_blocks := eight_whole_blocks

/-- Three elements two apart, in an owner that asks for no memory, and the first three of the same
    valarray assigned to them. -/
theorem selections_exact_three :
    (∃ r, (ofByte 178).gather (bitwise 8) lentBytes .refusing 0 (.slice ⟨1, 3, 2⟩)
        fixedByte.gathered = .ok r ∧
      r.size = 3 ∧ (List.range 3).map r.bit = [true, false, true]) ∧
    ∃ out, (ofByte 178).scatter (bitwise 8) lentBytes (.slice ⟨1, 3, 2⟩) .ample .assign
      (.proxy (.slice ⟨0, 3, 1⟩) .own) = .ok out ∧ (List.range 8).map (bitAt out) =
        [false, false, false, true, true, false, false, true] := by
  have hin : (Selection.slice ⟨1, 3, 2⟩ : Selection 8).Within (ofByte 178) :=
    inBounds_iff.mp (by decide +kernel)
  obtain ⟨hgather, hwrite⟩ := selections_exact_iff (lawful_bitwise : (bitwise 8).Lawful)
    (show lentBytes.storage = .lent from rfl)
    (show (Selection.slice ⟨1, 3, 2⟩ : Selection 8).WellFormed (ofByte 178) from trivial) hin
  obtain ⟨r, hr, hholds⟩ := ((hgather fixedByte .refusing 0 (by decide) rfl).1).mpr
    ⟨fun hp => absurd hp.1 (by decide), by decide, fun _ => by decide, nofun⟩
  obtain ⟨out, hout, hlooped⟩ := ((hwrite (by decide +kernel) .assign).1
    (.proxy (.slice ⟨0, 3, 1⟩) .own) .ample
    ⟨trivial, inBounds_iff.mp (by decide +kernel), rfl⟩).mpr
      ⟨fun hp => absurd hp.1 (by decide), fun hp => absurd hp.1 (by decide), Or.inr ⟨_, rfl⟩⟩
  refine ⟨⟨r, hr, hholds.size, ?_⟩, out, hout, ?_⟩
  · rw [funext hholds.bit]
    decide +kernel
  · rw [hlooped.loop]
    decide +kernel

/-- **An empty slice from sixteen on is let through, and its span starts past the one block.** -/
theorem empty_run_past_end :
    (Selection.slice ⟨16, 0, 1⟩ : Selection 8).Within (ofByte 178) ∧
    (Selection.slice ⟨16, 0, 1⟩ : Selection 8).admitted (ofByte 178) = true ∧
    ∀ mem, ¬ ∃ r, (ofByte 178).gather (bitwise 8) lentBytes mem 0 (.slice ⟨16, 0, 1⟩)
      fixedByte.gathered = .ok r := by
  refine ⟨fun p hp => absurd hp List.not_mem_nil, rfl, fun mem ⟨r, hr⟩ => ?_⟩
  have hpast : (Selection.slice ⟨16, 0, 1⟩ : Selection 8).PastEnd (ofByte 178) :=
    ⟨rfl, rfl, by decide⟩
  obtain ⟨result, hmade⟩ : ∃ result : BitBlockContainer fixedByte.gathered,
      Valarray.ofCount mem 0 0 = .ok result :=
    (Valarray.ofCount_iff 0).mpr ⟨by decide, fun _ => by decide, nofun⟩
  have hr : (do
      let result ← Valarray.ofCount mem 0 0
      gatherInto (bitwise 8) lentBytes (.slice ⟨16, 0, 1⟩) (ofByte 178) result) =
        (.ok r : Except Exn (BitBlockContainer fixedByte.gathered)) := hr
  rw [hmade] at hr
  have hr : gatherInto (bitwise 8) lentBytes (.slice ⟨16, 0, 1⟩) (ofByte 178) result = .ok r := hr
  rw [gatherInto_past hpast] at hr
  cases hr

/-- **Nine elements of eight**, the first named nine times: more than the owner they are gathered
    into has capacity for. -/
theorem nine_of_eight :
    (Selection.indirect (List.replicate 9 0) : Selection 8).Within (ofByte 178) ∧
    ∀ mem, (ofByte 178).gather (bitwise 8) lentBytes mem 0 (.indirect (List.replicate 9 0))
      fixedByte.gathered = .error .badAlloc :=
  ⟨inBounds_iff.mp (by decide), fun _ => rfl⟩

end BitValarray

end XstdBits
