/-
  File: XstdBits/Set/Readings.lean
  Subject: one storage read as a set and as a sequence.

  * a call of the set reading that stays within the width completes over any storage, lent blocks
    included, and leaves the width (`SetOp.run_within`).
  * the list of bools and the set of their true places say the same (`Meaning.keySet`,
    `ofKeys`); a call of either reading is meant on the list the views share.
  * `Readings.Runs`: a program that calls both, over the storage and the views of it.
-/
import XstdBits.Sequence.Shared
import XstdBits.Set.Lookup
import XstdBits.Set.View

namespace XstdBits

/-! ## 1. A call of the set reading within the width -/

namespace SetOp
variable {w : Nat} {V : Vehicle w}

/-- The keys written have positions below `n`. -/
def Within (n : Nat) : SetOp V (Fin (2 ^ 64)) false → Prop
  | insert key => key.val < n
  | insertKeys keys => ∀ k ∈ keys, k.val < n
  | insertIota lo len _ => len ≠ 0 → lo + len ≤ n
  | orAssign _ keys => ∀ k ∈ keys, k.val < n
  | xorAssign _ keys => ∀ k ∈ keys, k.val < n
  | _ => True

section Within
variable {c d : BitBlockContainer V} {s : KeySet (Fin (2 ^ 64)) false} {x : Nat}

theorem ptrdiffMax_lt_maxWidth : ptrdiffMax < V.maxWidth := by
  have hint := V.bits_int
  have hmod := Nat.mod_lt sizeMax V.bits_pos
  have hdiv := Nat.div_add_mod' sizeMax w
  unfold Vehicle.maxWidth Vehicle.maxNumBlocks
  unfold sizeMax at hmod hdiv ⊢
  unfold ptrdiffMax
  omega

/-- A position below the width is inserted at, whatever the storage. -/
theorem doInsert_here (mem : Memory) (h : c.Inv) (htop : c.size ≤ ptrdiffMax) (hx : x < c.size) :
    SetAdaptor.doInsert viewKeys mem x c = .ok (x, (c.insert x).2) (c.insert x).1 := by
  by_cases hv : V.storage = .lent
  · have hwide := ptrdiffMax_lt_maxWidth (V := V)
    exact ViewOp.doInsert_lent hv (show x < V.maxWidth by omega)
  · exact SetAdaptor.doInsert_within h (V.owned_of_not_lent hv) hx fun n hn => by cases hn

theorem insertKeys_here (mem : Memory) :
    ∀ {keys : List (Fin (2 ^ 64))} {c : BitBlockContainer V}, c.Inv → c.size ≤ ptrdiffMax →
    (∀ k ∈ keys, k.val < c.size) →
    ∃ d, SetAdaptor.insertKeys viewKeys mem keys c = .ok () d ∧ d.size = c.size ∧ d.Inv ∧
      ∀ p, d.bit p = true ↔ c.bit p = true ∨ ∃ k ∈ keys, k.val = p
  | [], c, h, _, _ => ⟨c, rfl, rfl, h, fun p => by simp⟩
  | x :: keys, c, h, htop, hin => by
      have hx := hin x List.mem_cons_self
      have hsize := (BitBlockContainer.sameWidth_insert (c := c) (n := x.val)).size
      obtain ⟨d, h1, h2, h3, h4⟩ := insertKeys_here mem (h.insert hx)
        (by rwa [hsize]) fun k hk => by rw [hsize]; exact hin k (List.mem_cons_of_mem _ hk)
      refine ⟨d, ?_, h2.trans hsize, h3, fun p => ?_⟩
      · unfold SetAdaptor.insertKeys
        rw [ViewOp.toIndex_viewKeys, doInsert_here mem h htop hx]
        exact h1
      · rw [h4, BitBlockContainer.bit_insert h.shape hx]
        by_cases hp : p = x.val
        · simp [hp]
        · simp [hp, Ne.symm hp]

theorem insertIota_here (mem : Memory) (h : c.Inv) (htop : c.size ≤ ptrdiffMax) {lo len : Nat}
    (hin : len ≠ 0 → lo + len ≤ c.size) :
    ∃ d, SetAdaptor.insertIota viewKeys mem lo len c = .ok () d ∧ d.size = c.size ∧ d.Inv ∧
      ∀ p, d.bit p = true ↔ c.bit p = true ∨ lo ≤ p ∧ p < lo + len := by
  unfold SetAdaptor.insertIota
  by_cases hlen : len = 0
  · rw [if_pos hlen]
    refine ⟨c, rfl, rfl, h, fun p => ⟨Or.inl, fun hp => hp.resolve_right (by omega)⟩⟩
  · have hle := hin hlen
    have hlast : lo + (len - 1) < c.size := by omega
    have hsize := (BitBlockContainer.sameWidth_insert (c := c) (n := lo + (len - 1))).size
    have hi := h.insert hlast
    rw [if_neg hlen, SetAdaptor.widthSum_last (by unfold ptrdiffMax at htop; omega)]
    dsimp only
    rw [doInsert_here mem h htop hlast]
    have hfits : lo + len ≤ (c.insert (lo + (len - 1))).1.size := by rwa [hsize]
    refine ⟨_, rfl, ?_, hi.setRange hfits, fun p => ?_⟩
    · exact (BitBlockContainer.sameWidth_setRange hi.shape hfits).size.trans hsize
    · rw [BitBlockContainer.bit_setRange hi.shape hfits,
        BitBlockContainer.bit_insert h.shape hlast]
      by_cases hp : lo ≤ p ∧ p < lo + len
      · simp [hp]
      · rw [if_neg hp, if_neg (by omega)]
        exact ⟨Or.inl, fun h => h.resolve_right hp⟩

/-- A combination with an operand that holds nothing past the width. -/
theorem admitThen_here (mem : Memory) {other : Operand V} {op : BitVec w → BitVec w → BitVec w}
    {g : Bool → Bool → Bool} (hop : BitBlockContainer.ActsBitwise op g)
    (hg : g false false = false) (h : c.Inv) (ho : (other.get c).Inv)
    (hin : ∀ p, c.size ≤ p → (other.get c).bit p = false) :
    BitBlockContainer.admitThen mem other op c = .ok () (c.combine other op) ∧
      (c.combine other op).size = c.size ∧ (c.combine other op).Inv ∧
      ∀ p, (c.combine other op).bit p = g (c.bit p) ((other.get c).bit p) := by
  obtain ⟨h1, h2, h3⟩ := BitBlockContainer.combine_spec other h ho hop
    fun p hp => by rw [hin p hp, hg]
  refine ⟨?_, h1.size, h3, h2⟩
  unfold BitBlockContainer.admitThen
  rw [BitBlockContainer.growToAdmit_within ho hin]

/-- What an operand within the width holds. -/
theorem operand_within {other : Operand V} {keys : KeySet (Fin (2 ^ 64)) false}
    (ho : Represents viewKeys false (other.get c) keys) (hin : ∀ k ∈ keys, k.val < c.size) (p : Nat)
    (hp : c.size ≤ p) : (other.get c).bit p = false := by
  by_contra hb
  obtain ⟨k, hk, hkp⟩ := (ho.bit p).mp (Bool.not_eq_false _ ▸ hb)
  rw [ViewOp.toIndex_viewKeys] at hkp
  have := hin k hk
  omega

theorem eraseKey_here (key : Fin (2 ^ 64)) :
    ∃ n d, SetAdaptor.eraseKey viewKeys key c = .ok n d ∧ d.size = c.size := by
  unfold SetAdaptor.eraseKey
  split
  · exact ⟨_, _, rfl, rfl⟩
  · split
    · exact ⟨_, _, rfl, rfl⟩
    · exact ⟨_, _, rfl, BitBlockContainer.sameWidth_erase.size⟩

/-- The end of a width that `ptrdiff_t` counts is the rank of a key, so the assertion takes it. -/
theorem eraseRange_here (asserts : Bool) (h : Represents viewKeys false c s)
    (htop : c.size ≤ ptrdiffMax) {first last : Option (Fin (2 ^ 64))}
    (hrange : s.IsRange first last) :
    ∃ d, SetAdaptor.eraseRange viewKeys false asserts (posOf viewKeys c first)
      (posOf viewKeys c last) c = .ok (posOf viewKeys c last) d := by
  have hM := unsignedMapping_bijective 64
  have hadmitted :
      (eraseRange first last : SetOp V (Fin (2 ^ 64)) false).Admitted viewKeys true c := by
    cases last with
    | some b => trivial
    | none =>
        intro _ _
        have hend : c.size < 2 ^ 64 := by
          unfold ptrdiffMax at htop
          omega
        obtain ⟨k, h1, -, h3⟩ := hM.to_from c.size hend
        refine ⟨k, h1, fun a ha => ?_⟩
        rw [h3]
        exact Nat.le_of_lt (h.index_lt (hrange.1 a ha))
  unfold SetAdaptor.eraseRange
  rw [if_neg fun hc => by
    rw [(rangeAssertion_iff h hM hrange).mpr hadmitted] at hc
    cases hc.2]
  split <;> exact ⟨_, rfl⟩

theorem sameWidth_pops (h : c.Inv) (hany : ∃ p, p < c.size ∧ c.bit p = true) :
    BitBlockContainer.SameWidth c c.dropFront ∧ BitBlockContainer.SameWidth c c.dropBack := by
  obtain ⟨d, hd, hdropped⟩ := BitBlockContainer.dropFront_spec h hany
  obtain ⟨e, he, hdropped'⟩ := BitBlockContainer.dropBack_spec h hany
  rw [hd, he]
  exact ⟨hdropped.width.trans BitBlockContainer.sameWidth_countDown,
    hdropped'.width.trans BitBlockContainer.sameWidth_countDown⟩

/-- **A call that stays within the width completes over any storage**, lent blocks included: it
    leaves the width, the keys that the ordered set has after it, and returns what it returns. -/
theorem run_within (asserts : Bool) (mem : Memory) (h : Represents viewKeys false c s)
    (htop : c.size ≤ ptrdiffMax) {op : SetOp V (Fin (2 ^ 64)) false} (hp : op.Pre viewKeys s)
    (hin : op.Within c.size) :
    ∃ r d, op.run viewKeys asserts mem c = .ok r d ∧ d.size = c.size ∧
      Represents viewKeys false d (op.spec s).1 ∧
      r = (op.spec s).2.map (posOf viewKeys c) := by
  have hM := unsignedMapping_bijective 64
  have hkeys (k : Fin (2 ^ 64)) : viewKeys.isKey k = true :=
    unsignedMapping_isKey.mpr (Nat.le_sub_one_of_lt k.isLt)
  cases op with
  | insert key =>
      have hx : key.val < c.size := hin
      refine ⟨.inserted key.val (c.insert key.val).2, _, ?_,
        (BitBlockContainer.sameWidth_insert (c := c) (n := key.val)).size,
        represents_insert h (h.inv.insert hx) hp fun p => ?_, ?_⟩
      · show returned (SetAdaptor.doInsert viewKeys mem (viewKeys.toIndex key)) _ c = _
        unfold returned
        rw [ViewOp.toIndex_viewKeys, doInsert_here mem h.inv htop hx]
      · rw [ViewOp.toIndex_viewKeys]
        exact BitBlockContainer.bit_insert h.inv.shape hx
      · have hnew : (!c.bit key.val) = decide (key ∉ s.keys) := by
          rw [Bool.eq_iff_iff, decide_eq_true_eq, Bool.not_eq_true', Bool.eq_false_iff,
            ← ViewOp.toIndex_viewKeys (x := key)]
          exact not_congr (h.mem_iff hM hp).symm
        show SetRet.inserted _ _ = SetRet.inserted (viewKeys.toIndex key) _
        rw [BitBlockContainer.insert_snd h.inv.shape hx, hnew, ViewOp.toIndex_viewKeys]
  | insertKeys keys =>
      obtain ⟨d, h1, h2, h3, h4⟩ := insertKeys_here mem h.inv htop hin
      refine ⟨.done, d, ?_, h2, represents_insertAll h h3 hp fun p => ?_, rfl⟩
      · show dropped _ c = _
        unfold dropped
        rw [h1]
      · simp only [ViewOp.toIndex_viewKeys]
        exact h4 p
  | insertIota lo len keys =>
      obtain ⟨d, h1, h2, h3, h4⟩ := insertIota_here mem h.inv htop hin
      refine ⟨.done, d, ?_, h2, represents_insertAll h h3 hp.1 fun p => ?_, rfl⟩
      · show dropped _ c = _
        unfold dropped
        rw [h1]
      · rw [h4, ← List.mem_map, hp.2, List.mem_range'_1]
  | eraseKey key =>
      obtain ⟨n, d, hr, hsize⟩ := eraseKey_here (c := c) key
      obtain ⟨h1, hn⟩ := eraseKey_represents hM h hr
      refine ⟨.count n, d, ?_, hsize, h1, congrArg SetRet.count hn⟩
      show returned (SetAdaptor.eraseKey viewKeys key) _ c = _
      unfold returned
      rw [hr]
  | eraseAt key =>
      have hkey := h.isKey key hp
      have hlt := h.index_lt hp
      refine ⟨.next (SetAdaptor.nextPosition false c (viewKeys.toIndex key)),
        c.assign (viewKeys.toIndex key) false, ?_, BitBlockContainer.sameWidth_assign.size,
        represents_erase h hM (h.inv.assign hlt) hkey fun p =>
          BitBlockContainer.bit_assign h.inv.shape hlt, congrArg SetRet.next (h.next hM hp)⟩
      show returned (SetAdaptor.eraseAt viewKeys false (viewKeys.toIndex key)) _ c = _
      unfold returned SetAdaptor.eraseAt
      rw [hM.from_to key hkey]
  | eraseRange first last =>
      obtain ⟨d, hr⟩ := eraseRange_here asserts h htop hp
      obtain ⟨h1, h2, -, h4⟩ := SetAdaptor.eraseRange_ok h.inv (eraseSpan_le h hM hp) hr
      refine ⟨.next (posOf viewKeys c last), d, ?_, h2.size,
        represents_keep _ h h1 (fun k => ?_) h4, rfl⟩
      · show returned (SetAdaptor.eraseRange viewKeys false asserts (posOf viewKeys c first)
          (posOf viewKeys c last)) _ c = _
        unfold returned
        rw [hr]
      · show k ∈ s.eraseRange first last ↔ _
        rw [OrderedKeys.mem_eraseRange, ← Bool.not_eq_true]
        exact and_congr_right fun hk => not_congr (between_iff h hM hp hk)
  | popFront =>
      exact ⟨.done, c.dropFront, rfl, (sameWidth_pops h.inv (exists_bit h hp)).1.size,
        represents_dropFront h hM hp, rfl⟩
  | popBack =>
      exact ⟨.done, c.dropBack, rfl, (sameWidth_pops h.inv (exists_bit h hp)).2.size,
        represents_dropBack h hM hp, rfl⟩
  | clear =>
      obtain ⟨h1, h2, h3⟩ := BitBlockContainer.fill_spec (v := false) h.inv
      refine ⟨.done, c.fill false, rfl, h1.size,
        represents_keep (fun _ => True) h h3 (fun k => ?_) fun p => ?_, rfl⟩
      · exact ⟨fun hk => absurd hk OrderedKeys.not_mem_empty, fun hk => absurd trivial hk.2⟩
      · rw [h2, Bool.and_false, if_pos trivial]
  | orAssign other keys =>
      have ho := operand_represents h hp
      obtain ⟨h1, h2, h3, h4⟩ := admitThen_here mem BitBlockContainer.actsBitwise_or rfl
        h.inv ho.inv (operand_within ho hin)
      refine ⟨.done, _, ?_, h2, represents_combine h ho hM h3 rfl (fun k => ?_) h4, rfl⟩
      · show dropped _ c = _
        unfold dropped SetAdaptor.orAssign BitBlockContainer.orAdmitted
        rw [h1]
      · show k ∈ s.union keys ↔ _
        rw [OrderedKeys.mem_union, Bool.or_eq_true, decide_eq_true_eq, decide_eq_true_eq]
        exact or_comm
  | andAssign other keys =>
      have ho := operand_represents h hp
      obtain ⟨h1, h2, h3⟩ := BitBlockContainer.combine_spec other h.inv ho.inv
        BitBlockContainer.actsBitwise_and fun _ _ => rfl
      refine ⟨.done, c.andAssign other, rfl, h1.size,
        represents_combine h ho hM h3 rfl (fun k => ?_) h2, rfl⟩
      show k ∈ s.inter keys ↔ _
      rw [OrderedKeys.mem_inter, Bool.and_eq_true, decide_eq_true_eq, decide_eq_true_eq]
      exact Iff.rfl
  | xorAssign other keys =>
      have ho := operand_represents h hp
      obtain ⟨h1, h2, h3, h4⟩ := admitThen_here mem BitBlockContainer.actsBitwise_xor rfl
        h.inv ho.inv (operand_within ho hin)
      refine ⟨.done, _, ?_, h2, represents_combine h ho hM h3 rfl (fun k => ?_) h4, rfl⟩
      · show dropped _ c = _
        unfold dropped SetAdaptor.xorAssign BitBlockContainer.xorAdmitted
        rw [h1]
      · show k ∈ s.symmDiff keys ↔ _
        rw [OrderedKeys.mem_symmDiff]
        by_cases h1 : k ∈ s.keys
        · by_cases h2 : k ∈ keys.keys <;> simp [← OrderedKeys.mem_keys, h1, h2]
        · by_cases h2 : k ∈ keys.keys <;> simp [← OrderedKeys.mem_keys, h1, h2]
  | subAssign other keys =>
      have ho := operand_represents h hp
      obtain ⟨h1, h2, h3⟩ := BitBlockContainer.combine_spec other h.inv ho.inv
        BitBlockContainer.actsBitwise_sub fun _ _ => rfl
      refine ⟨.done, c.subAssign other, rfl, h1.size,
        represents_combine (g := fun x y => x && !y) h ho hM h3 rfl (fun k => ?_) h2, rfl⟩
      show k ∈ s.diff keys ↔ _
      rw [OrderedKeys.mem_diff, Bool.and_eq_true, Bool.not_eq_true', decide_eq_true_eq,
        decide_eq_false_iff_not]
      exact Iff.rfl

end Within

end SetOp

/-! ## 2. The list and the set of its true places -/

namespace BitSpan

/-- The key of a place. -/
def keyAt (p : Nat) : Option (Fin (2 ^ 64)) := if h : p < 2 ^ 64 then some ⟨p, h⟩ else none

theorem keyAt_eq {p : Nat} {k : Fin (2 ^ 64)} : keyAt p = some k ↔ k.val = p := by
  unfold keyAt
  split
  · rw [Option.some.injEq, Fin.ext_iff]
    exact eq_comm
  · constructor
    · intro h
      cases h
    · intro h
      have := k.isLt
      omega

/-- What a set over the list holds: the places that are true. -/
def Meaning.keySet {n : Nat} (M : Meaning n) : KeySet (Fin (2 ^ 64)) false where
  keys := ((List.range n).filter M.get).filterMap keyAt
  sorted := by
    have hrange : ((List.range n).filter M.get).Pairwise (· < ·) :=
      List.Pairwise.filter _ List.pairwise_lt_range
    refine List.Pairwise.filterMap _ (fun p q hpq k hk l hl => ?_) hrange
    rw [keyAt_eq] at hk hl
    exact Fin.lt_def.mpr (by omega)

/-- The list of `n` bools that is true at the keys. -/
def ofKeys (n : Nat) (s : KeySet (Fin (2 ^ 64)) false) : List Bool :=
  (List.range n).map fun p => s.keys.any fun k => k.val == p

/-- Where an iterator at a key stands, the end at the length. -/
def placeOf (n : Nat) : Option (Fin (2 ^ 64)) → Nat
  | .some k => k.val
  | .none => n

section Keys
variable {w n : Nat} {V : Vehicle w} {c : BitBlockContainer V} {S : Shared V n}
  {s : KeySet (Fin (2 ^ 64)) false}

theorem mem_keySet {M : Meaning n} {k : Fin (2 ^ 64)} :
    k ∈ M.keySet ↔ k.val < n ∧ M.get k.val = true := by
  show k ∈ ((List.range n).filter M.get).filterMap keyAt ↔ _
  simp only [List.mem_filterMap, List.mem_filter, List.mem_range, keyAt_eq]
  constructor
  · rintro ⟨p, hp, rfl⟩
    exact hp
  · intro hk
    exact ⟨k.val, hk, rfl⟩

theorem Shared.get_meaning {i : Nat} (hi : i < n) : S.meaning.get i = S.bits.bit i :=
  getD_boolsOf (S.width.symm ▸ hi)

/-- **The storage read as a set holds the true places of the list.** -/
theorem Shared.represents (S : Shared V n) : Represents viewKeys false S.bits S.meaning.keySet := by
  have haddr := S.addressable
  unfold ptrdiffMax at haddr
  refine ⟨S.inv, fun k _ => unsignedMapping_isKey.mpr (Nat.le_sub_one_of_lt k.isLt), fun p => ?_⟩
  simp only [ViewOp.toIndex_viewKeys, mem_keySet]
  constructor
  · intro hp
    have hlt : p < n := S.width ▸ S.inv.lt_size hp
    exact ⟨⟨p, by omega⟩, ⟨hlt, (Shared.get_meaning hlt).trans hp⟩, rfl⟩
  · rintro ⟨k, ⟨hk, hget⟩, rfl⟩
    rwa [Shared.get_meaning hk] at hget

/-- **A storage that holds those keys is the list that is true at them.** -/
theorem boolsOf_represents (h : Represents viewKeys false c s) : boolsOf c = ofKeys c.size s := by
  refine List.map_congr_left fun p _ => ?_
  rw [Bool.eq_iff_iff, h.bit, List.any_eq_true]
  simp only [ViewOp.toIndex_viewKeys, beq_iff_eq]
  exact Iff.rfl

theorem posOf_viewKeys (x : Option (Fin (2 ^ 64))) : posOf viewKeys c x = placeOf c.size x := by
  cases x with
  | none => rfl
  | some k => exact ViewOp.toIndex_viewKeys

end Keys

end BitSpan

/-! ## 3. The lookups -/

namespace Readings
open BitSpan (Shared Meaning ofKeys placeOf)

/-- What a call answers, in either reading. -/
inductive Answer where
  | seq (a : BitSpan.Answer)
  | ret (r : SetRet Nat)
  | bool (value : Bool)
  | place (p : Nat)
  | number (n : Nat)
  | key (k : Fin (2 ^ 64))
  | keys (ks : List (Fin (2 ^ 64)))

/-- The calls of the set reading that only read. -/
inductive Query where
  | contains (x : Fin (2 ^ 64))
  | find (x : Fin (2 ^ 64))
  | lowerBound (x : Fin (2 ^ 64))
  | upperBound (x : Fin (2 ^ 64))
  | size
  | empty
  | front
  | back
  /-- a range-for over the set -/
  | walk

/-- An answer, or an assertion that fails. -/
def asked {α : Type} (x : Option α) (f : α → Answer) : Except Exn Answer :=
  match x with
  | .some a => .ok (f a)
  | .none => .error .abort

section Query
variable {w : Nat} {V : Vehicle w}

/-- `empty()` of a storage that keeps no count. -/
def isEmpty (c : BitBlockContainer V) : Bool := c.none

def Query.answer (c : BitBlockContainer V) : Query → Except Exn Answer
  | contains x => asked (SetAdaptor.Lookup.contains viewKeys c x) .bool
  | find x => asked (SetAdaptor.Lookup.find viewKeys c x) .place
  | lowerBound x => asked (SetAdaptor.Lookup.lowerBound viewKeys false c x) .place
  | upperBound x => asked (SetAdaptor.Lookup.upperBound viewKeys false c x) .place
  | size => .ok (.number (SetAdaptor.size c))
  | empty => .ok (.bool (isEmpty c))
  | front => if isEmpty c then .error .abort else asked (viewKeys.fromIndex c.findFront) .key
  | back => if isEmpty c then .error .abort else asked (viewKeys.fromIndex c.findBack) .key
  | walk => asked (SetAdaptor.iterated viewKeys false c) .keys

def Query.spec (n : Nat) (s : KeySet (Fin (2 ^ 64)) false) : Query → Except Exn Answer
  | contains x => .ok (.bool (decide (x ∈ s.keys)))
  | find x => .ok (.place (if x ∈ s.keys then x.val else n))
  | lowerBound x => .ok (.place (placeOf n (s.lowerBound x)))
  | upperBound x => .ok (.place (placeOf n (s.next x)))
  | size => .ok (.number s.size)
  | empty => .ok (.bool s.keys.isEmpty)
  | front => asked s.keys.head? .key
  | back => asked s.keys.getLast? .key
  | walk => .ok (.keys s.keys)

variable {c : BitBlockContainer V} {s : KeySet (Fin (2 ^ 64)) false}

theorem isEmpty_eq (h : Represents viewKeys false c s) : isEmpty c = s.keys.isEmpty := by
  rw [Bool.eq_iff_iff, List.isEmpty_iff, List.eq_nil_iff_forall_not_mem]
  refine (BitBlockContainer.none_iff h.inv.shape).trans ?_
  constructor
  · intro hnone k hk
    have hb := (h.bit (viewKeys.toIndex k)).mpr ⟨k, hk, rfl⟩
    rw [hnone] at hb
    cases hb
  · intro hno p
    by_contra hb
    obtain ⟨k, hk, -⟩ := (h.bit p).mp (Bool.not_eq_false _ ▸ hb)
    exact hno k hk

theorem fromIndex_key {p : Nat} {k : Fin (2 ^ 64)} (hk : viewKeys.toIndex k = p) :
    viewKeys.fromIndex p = some k := by
  rw [← hk]
  exact (unsignedMapping_bijective 64).from_to k
    (unsignedMapping_isKey.mpr (Nat.le_sub_one_of_lt k.isLt))

theorem exists_bit (h : Represents viewKeys false c s) (hempty : ¬ isEmpty c = true) :
    ∃ p, p < c.size ∧ c.bit p = true := by
  refine (BitBlockContainer.any_iff h.inv).mp ?_
  rw [Bool.not_eq_true] at hempty
  show (!isEmpty c) = true
  rw [hempty]
  rfl

theorem front_eq (h : Represents viewKeys false c s) :
    Query.front.answer c = asked s.keys.head? .key := by
  unfold Query.answer
  dsimp only
  split
  · rename_i hempty
    rw [isEmpty_eq h, List.isEmpty_iff] at hempty
    rw [hempty]
    rfl
  · rename_i hempty
    obtain ⟨-, hbit, hleast⟩ := BitBlockContainer.findFront_spec h.inv (exists_bit h hempty)
    obtain ⟨k, hk, hkp⟩ := (h.bit _).mp hbit
    rw [fromIndex_key hkp, OrderedKeys.head_eq hk fun l hl hlk => ?_]
    have hlt : l.val < k.val := hlk
    rw [ViewOp.toIndex_viewKeys] at hkp
    have hl := (h.bit l.val).mpr ⟨l, hl, ViewOp.toIndex_viewKeys⟩
    rw [hleast l.val (by omega)] at hl
    cases hl

theorem back_eq (h : Represents viewKeys false c s) :
    Query.back.answer c = asked s.keys.getLast? .key := by
  unfold Query.answer
  dsimp only
  split
  · rename_i hempty
    rw [isEmpty_eq h, List.isEmpty_iff] at hempty
    rw [hempty]
    rfl
  · rename_i hempty
    obtain ⟨-, hbit, hgreatest⟩ := BitBlockContainer.findBack_spec h.inv (exists_bit h hempty)
    obtain ⟨k, hk, hkp⟩ := (h.bit _).mp hbit
    rw [fromIndex_key hkp, OrderedKeys.last_eq hk fun l hl hkl => ?_]
    have hlt : k.val < l.val := hkl
    rw [ViewOp.toIndex_viewKeys] at hkp
    have hl := (h.bit l.val).mpr ⟨l, hl, ViewOp.toIndex_viewKeys⟩
    rw [hgreatest l.val (by omega)] at hl
    cases hl

/-- **The lookups answer what the set of the true places answers.** -/
theorem Query.answer_eq (h : Represents viewKeys false c s) (htop : c.size ≤ ptrdiffMax)
    (q : Query) : q.answer c = q.spec c.size s := by
  have hM : viewKeys.Bijective (2 ^ 64) := unsignedMapping_bijective 64
  have hL : LibraryMapping viewKeys := .unsigned 64
  have hbounds (x : Fin (2 ^ 64)) := (SetAdaptor.lookup_bounds hL hM h
    (Nat.le_trans htop (by decide)) x).mpr
    (Or.inl (unsignedMapping_isKey.mpr (Nat.le_sub_one_of_lt x.isLt)))
  have hplace (x : Option (Fin (2 ^ 64))) :
      asked (some (posOf viewKeys c x)) Answer.place = .ok (.place (placeOf c.size x)) :=
    congrArg (fun p => Except.ok (Answer.place p)) (BitSpan.posOf_viewKeys x)
  cases q with
  | contains x =>
      exact congrArg (fun o => asked o Answer.bool) (SetAdaptor.lookup_contains hL hM h x)
  | find x =>
      refine (congrArg (fun o => asked o Answer.place) (SetAdaptor.lookup_find hL hM h x)).trans ?_
      rw [hplace]
      unfold spec
      dsimp only
      split <;> rfl
  | lowerBound x => exact (congrArg (fun o => asked o Answer.place) (hbounds x).1).trans (hplace _)
  | upperBound x =>
      exact (congrArg (fun o => asked o Answer.place) (hbounds x).2.1).trans (hplace _)
  | size => exact congrArg (fun n => Except.ok (Answer.number n)) (h.size hM)
  | empty => exact congrArg (fun b => Except.ok (Answer.bool b)) (isEmpty_eq h)
  | front => exact front_eq h
  | back => exact back_eq h
  | walk => exact congrArg (fun o => asked o Answer.keys) (h.iterated hM).1

end Query

/-! ## 4. Programs over both readings -/

/-- One call: of the views of the sequence reading, or of the set reading. -/
inductive Call {w : Nat} (V : Vehicle w) where
  | seq (c : BitSpan.Call)
  | set (op : SetOp V (Fin (2 ^ 64)) false)
  | ask (q : Query)

/-- One call on the storage both read. A set operation is run with memory of any kind. -/
inductive Step {w n : Nat} {V : Vehicle w} (asserts : Bool) (S : Shared V n) :
    Call V → Except Exn (Shared V n × Answer) → Prop where
  | seq (c : BitSpan.Call) : Step asserts S (.seq c) ((c.run S).map fun r => (r.1, .seq r.2))
  | set (mem : Memory) (op : SetOp V (Fin (2 ^ 64)) false) {r : SetRet Nat} {T : Shared V n}
      (hrun : op.run viewKeys asserts mem S.bits = .ok r T.bits) (hviews : T.views = S.views)
      (hplaces : T.places = S.places) : Step asserts S (.set op) (.ok (T, .ret r))
  | thrown (mem : Memory) (op : SetOp V (Fin (2 ^ 64)) false) {e : Exn} {d : BitBlockContainer V}
      (hrun : op.run viewKeys asserts mem S.bits = .error e d) : Step asserts S (.set op) (.error e)
  | ask (q : Query) : Step asserts S (.ask q) ((q.answer S.bits).map fun a => (S, a))

/-- A program run to its end, or to the first assertion that fails: what it sees, and what it
    leaves. -/
inductive Runs {w n : Nat} {V : Vehicle w} (asserts : Bool) :
    Shared V n → List (Call V) → List (Except Exn Answer) → Shared V n → Prop where
  | done (S : Shared V n) : Runs asserts S [] [] S
  | next {S T U : Shared V n} {c : Call V} {cs : List (Call V)} {a : Answer}
      {log : List (Except Exn Answer)} (hc : Step asserts S c (.ok (T, a)))
      (hcs : Runs asserts T cs log U) : Runs asserts S (c :: cs) (.ok a :: log) U
  | thrown {S U : Shared V n} {c : Call V} {cs : List (Call V)} {e : Exn}
      {log : List (Except Exn Answer)} (hc : Step asserts S c (.error e)) (he : e ≠ .abort)
      (hcs : Runs asserts S cs log U) : Runs asserts S (c :: cs) (.error e :: log) U
  | aborted {S : Shared V n} {c : Call V} {cs : List (Call V)}
      (hc : Step asserts S c (.error .abort)) : Runs asserts S (c :: cs) [.error .abort] S

section Spec
variable {w n : Nat} {V : Vehicle w}

/-- One call on the list. -/
def Call.spec (M : Meaning n) : Call V → Except Exn (Meaning n × Answer)
  | seq c => (c.spec M).map fun r => (r.1, .seq r.2)
  | set op => .ok (M.put (ofKeys n (op.spec M.keySet).1),
      .ret ((op.spec M.keySet).2.map (placeOf n)))
  | ask q => (q.spec n M.keySet).map fun a => (M, a)

/-- A program on the list. -/
def execute : List (Call V) → Meaning n → List (Except Exn Answer) × Meaning n
  | [], M => ([], M)
  | c :: cs, M =>
      match c.spec M with
      | .ok (N, a) => ((.ok a) :: (execute cs N).1, (execute cs N).2)
      | .error e =>
          if e = .abort then ([.error e], M)
          else ((.error e) :: (execute cs M).1, (execute cs M).2)

/-- What the standard asks of a call; a set operation writes no key past the width. -/
def Call.Pre (M : Meaning n) : Call V → Prop
  | seq c => c.Pre M V.hasStaticSize
  | set op => op.Pre viewKeys M.keySet ∧ op.Within n
  | ask _ => True

/-- A program each of whose calls is one the standard allows where it is made. -/
def Allowed : List (Call V) → Meaning n → Prop
  | [], _ => True
  | c :: cs, M => c.Pre M ∧ (∀ N a, c.spec M = .ok (N, a) → Allowed cs N) ∧
      (∀ e, c.spec M = .error e → e ≠ .abort → Allowed cs M)

end Spec

/-! ## 5. What a program leaves -/

section Programs
variable {w n : Nat} {V : Vehicle w} {S T : Shared V n} {M N : Meaning n} {c : Call V}
  {cs : List (Call V)} {asserts : Bool} {log : List (Except Exn Answer)}

/-- What a call leaves and answers, on the list. -/
def meant (r : Shared V n × Answer) : Meaning n × Answer := (r.1.meaning, r.2)

/-- What a set operation leaves of the list. -/
theorem meaning_eq {t : KeySet (Fin (2 ^ 64)) false} (h : Represents viewKeys false T.bits t)
    (hviews : T.views = S.views) (hplaces : T.places = S.places) :
    T.meaning = S.meaning.put (ofKeys n t) := by
  unfold Shared.meaning Meaning.put
  rw [BitSpan.boolsOf_represents h, T.width, hviews, hplaces]

/-- **One call of either reading is what it means on the list**, and can be made. -/
theorem Call.step (asserts : Bool) (hp : c.Pre S.meaning) : (∃ r, Step asserts S c r) ∧
    ∀ r, Step asserts S c r → r.map meant = c.spec S.meaning := by
  have htop : S.bits.size ≤ ptrdiffMax := by
    rw [S.width]
    exact S.addressable
  cases c with
  | seq c =>
      refine ⟨⟨_, .seq c⟩, fun r hr => ?_⟩
      cases hr
      show _ = (c.spec S.meaning).map fun r => (r.1, Answer.seq r.2)
      rw [← BitSpan.Call.run_eq hp]
      cases c.run S with
      | error e => rfl
      | ok r => rfl
  | set op =>
      obtain ⟨hpre, hin⟩ := hp
      have hdone (mem : Memory) := SetOp.run_within asserts mem S.represents htop
        hpre (S.width.symm ▸ hin)
      refine ⟨?_, fun r hr => ?_⟩
      · obtain ⟨r, d, hrun, hsize, hrep, -⟩ := hdone .ample
        exact ⟨_, .set .ample op (T := { S with
          bits := d, inv := hrep.inv, width := hsize.trans S.width }) hrun rfl rfl⟩
      · cases hr with
        | set mem op hrun hviews hplaces =>
            obtain ⟨r, d, hrun', hsize, hrep, hret⟩ := hdone mem
            rw [hrun] at hrun'
            injection hrun' with hr hd
            subst hr hd
            have hpos : posOf viewKeys S.bits = placeOf n := funext fun x => by
              rw [BitSpan.posOf_viewKeys, S.width]
            refine congrArg Except.ok (Prod.ext (meaning_eq hrep hviews hplaces) ?_)
            exact congrArg Answer.ret (hret.trans (by rw [hpos]))
        | thrown mem op hrun =>
            obtain ⟨r, d, hrun', -⟩ := hdone mem
            rw [hrun] at hrun'
            cases hrun'
  | ask q =>
      refine ⟨⟨_, .ask q⟩, fun r hr => ?_⟩
      cases hr
      show _ = (q.spec n S.meaning.keySet).map fun a => (S.meaning, a)
      rw [Query.answer_eq S.represents htop q, S.width]
      cases q.spec n S.meaning.keySet with
      | error e => rfl
      | ok a => rfl

/-- **A program the standard allows can be run**, over either kind of storage. -/
theorem Runs.exists (asserts : Bool) : ∀ {cs : List (Call V)} {S : Shared V n},
    Allowed cs S.meaning → ∃ log T, Runs asserts S cs log T
  | [], S, _ => ⟨_, _, .done S⟩
  | c :: cs, S, h => by
      obtain ⟨hp, hok, herror⟩ := h
      obtain ⟨⟨r, hr⟩, hspec⟩ := Call.step asserts hp
      have hmeant := hspec r hr
      cases r with
      | ok r =>
          obtain ⟨log, T, hT⟩ := Runs.exists asserts (hok _ _ hmeant.symm)
          exact ⟨_, T, .next hr hT⟩
      | error e =>
          by_cases he : e = .abort
          · subst he
            exact ⟨_, S, .aborted hr⟩
          · obtain ⟨log, T, hT⟩ := Runs.exists asserts (herror e hmeant.symm he)
            exact ⟨_, T, .thrown hr he hT⟩

/-- **A run over the storage is the run over the list.** -/
theorem Runs.meaning (h : Runs asserts S cs log T) (hcs : Allowed cs S.meaning) :
    log = (execute cs S.meaning).1 ∧ T.meaning = (execute cs S.meaning).2 := by
  induction h with
  | done S => exact ⟨rfl, rfl⟩
  | next hc _ ih =>
      have hspec := (Call.step asserts hcs.1).2 _ hc
      obtain ⟨ih1, ih2⟩ := ih (hcs.2.1 _ _ hspec.symm)
      unfold execute
      rw [← hspec]
      exact ⟨congrArg (_ :: ·) ih1, ih2⟩
  | thrown hc he _ ih =>
      have hspec := (Call.step asserts hcs.1).2 _ hc
      obtain ⟨ih1, ih2⟩ := ih (hcs.2.2 _ hspec.symm he)
      unfold execute
      rw [← hspec]
      simp only [Except.map, if_neg he]
      exact ⟨congrArg (_ :: ·) ih1, ih2⟩
  | aborted hc =>
      have hspec := (Call.step asserts hcs.1).2 _ hc
      unfold execute
      rw [← hspec]
      exact ⟨rfl, rfl⟩

/-- **The set reading walks the true places of the list.** -/
theorem positions_eq (T : Shared V n) :
    SetAdaptor.positions false T.bits = (List.range n).filter T.meaning.get := by
  obtain ⟨hmem, hsorted⟩ := SetAdaptor.positions_spec false T.inv
  have hlt : (SetAdaptor.positions false T.bits).Pairwise (· < ·) :=
    hsorted.imp fun hpq => by rwa [if_neg (by decide)] at hpq
  refine List.Pairwise.eq_of_mem_iff hlt (List.Pairwise.filter _ List.pairwise_lt_range) fun p => ?_
  rw [hmem, List.mem_filter, List.mem_range]
  constructor
  · intro hp
    have hpn : p < n := T.width ▸ T.inv.lt_size hp
    exact ⟨hpn, (Shared.get_meaning hpn).trans hp⟩
  · intro ⟨hpn, hget⟩
    exact (Shared.get_meaning hpn).symm.trans hget

/-- **One storage, two readings**: a program that calls the set reading and the sequence reading of
    one storage in any order, each call one the standard allows and each key written below the
    width, can be run, and every run of it sees what it sees of one list of bools, whatever the
    memory; at its end the set walks the list's true places, and each view reads its part of it. -/
theorem readings_refine (asserts : Bool) (h : Allowed cs S.meaning) :
    (∃ log T, Runs asserts S cs log T) ∧
    ∀ log T, Runs asserts S cs log T →
      log = (execute cs S.meaning).1 ∧
      SetAdaptor.positions false T.bits = (List.range n).filter (execute cs S.meaning).2.get ∧
      ∀ k, (T.bools k).toList = (execute cs S.meaning).2.list k := by
  refine ⟨Runs.exists asserts h, fun log T hT => ?_⟩
  obtain ⟨hlog, hleft⟩ := hT.meaning h
  rw [← hleft]
  exact ⟨hlog, positions_eq T, fun k => T.toList_bools k⟩

theorem Allowed.made {a : Answer} (hp : c.Pre M) (hspec : c.spec M = .ok (N, a))
    (h : Allowed cs N) : Allowed (c :: cs) M := by
  refine ⟨hp, fun N' a' h' => ?_, fun e h' => ?_⟩
  · cases hspec.symm.trans h'
    exact h
  · cases hspec.symm.trans h'

end Programs

deriving instance DecidableEq for SetRet
deriving instance DecidableEq for Answer

/-- Two bytes lent, `{0, 2}`. -/
def pairLent : Shared ViewOp.byteSpan 16 where
  bits := ViewOp.spanOf [5, 0]
  inv := BitBlockContainer.lent_inv rfl
  width := rfl
  uncounted := rfl
  addressable := by decide
  views _ := .all 16
  places _ := 0

/-- A set insertion, the sequence turned round, a walk, a window sorted, and set erasures. -/
def alternating : List (Call ViewOp.byteSpan) :=
  [.set (.insert ⟨15, by decide⟩), .seq (.edit (.reverse 0) []), .ask .walk,
    .seq (.view 1 (.subspan 0 8 8)), .seq (.edit (.sort 1) []), .set (.eraseAt ⟨0, by decide⟩),
    .ask .walk, .seq (.ask (.count 0 true)), .ask (.lowerBound ⟨3, by decide⟩), .set .popBack,
    .seq (.ask (.read (.at 1 7)))]

theorem allowed_alternating : Allowed alternating pairLent.meaning := by
  refine .made ⟨rfl, show 15 < 16 by decide⟩ rfl (.made rfl rfl (.made trivial rfl
    (.made trivial rfl (.made trivial rfl (.made ⟨BitSpan.mem_keySet.mpr ?_, trivial⟩ rfl
    (.made trivial rfl (.made trivial rfl (.made trivial rfl
    (.made ⟨⟨14, BitSpan.mem_keySet.mpr ?_⟩, trivial⟩ rfl (.made trivial rfl trivial))))))))))
  · decide +kernel
  · decide +kernel

/-- Two lent bytes, written as a set, turned and sorted as a sequence, and read as both. -/
theorem readings_refine_alternating : ∃ T, Runs true pairLent alternating
    [.ok (.ret (.inserted 15 true)), .ok (.seq .done), .ok (.keys [0, 13, 15]),
      .ok (.seq .done), .ok (.seq .done), .ok (.ret (.next 14)), .ok (.keys [14, 15]),
      .ok (.seq (.number 2)), .ok (.place 14), .ok (.ret .done), .ok (.seq (.bool false))] T := by
  obtain ⟨⟨log, T, hT⟩, hall⟩ := readings_refine true allowed_alternating
  refine ⟨T, ?_⟩
  have hlog := (hall log T hT).1
  rw [hlog] at hT
  convert hT using 1
  decide +kernel

end Readings

end XstdBits
