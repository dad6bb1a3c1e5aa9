/-
  File: XstdBits/Set/Refinement.lean
  Subject: the set reading refines an ordered set of keys.

  * `Represents c s`: the set positions of `c` are the ranks of the keys of `s`; then the walk
    over `c` reads the keys of `s` in their order (`Represents.iterated`).
  * `SetOp` is one operation, `SetOp.run` on the container and `SetOp.spec` on the ordered keys,
    with an iterator on the one side a position and on the other a key or the end (`posOf`).
  * `SetOp.step` is the simulation of one step; an induction carries it over every run.
  * an ascending `erase(first, end())` asserts about the key at the width, which need not exist:
    `SetOp.Admitted` is what the assertion then takes.
-/
import XstdBits.Container.Transfer
import XstdBits.Set.Adaptor

namespace XstdBits

/-! ## 1. Two orders -/

/-- `key_compare`: `std::less`, or `std::greater`. -/
def keyCompare {Key : Type} [LT Key] (desc : Bool) (a b : Key) : Prop :=
  if desc = true then b < a else a < b

/-- What `std::set<Key, Compare>` holds. -/
abbrev KeySet (Key : Type) [LT Key] (desc : Bool) := OrderedKeys (@keyCompare Key _ desc)

section Compare
variable {Key : Type} [LinearOrder Key] {desc : Bool}

instance : DecidableRel (@keyCompare Key _ desc) := fun a b => by
  unfold keyCompare
  exact inferInstance

instance : IsStrictTotalOrder Key (keyCompare desc) where
  irrefl a := by
    unfold keyCompare
    split <;> exact lt_irrefl a
  trans a b c := by
    unfold keyCompare
    split
    · exact fun h1 h2 => lt_trans h2 h1
    · exact lt_trans
  trichotomous a b := by
    unfold keyCompare
    split
    · exact fun h1 h2 => le_antisymm (not_lt.mp h1) (not_lt.mp h2)
    · exact fun h1 h2 => le_antisymm (not_lt.mp h2) (not_lt.mp h1)

end Compare

/-- The position of an iterator: of its key, or the end. -/
def posOf {w : Nat} {V : Vehicle w} {Key : Type} (M : KeyMapping Key) (c : BitBlockContainer V) :
    Option Key → Nat
  | .some k => M.toIndex k
  | .none => c.size

theorem posOf_sameWidth {w : Nat} {V : Vehicle w} {Key : Type} {M : KeyMapping Key}
    {c d : BitBlockContainer V} (hw : BitBlockContainer.SameWidth c d) (x : Option Key) :
    posOf M d x = posOf M c x := by
  cases x with
  | none => exact hw.size
  | some k => rfl

/-! ## 2. The representation -/

section Represents
variable {w : Nat} {V : Vehicle w} {Key : Type} [LinearOrder Key] {M : KeyMapping Key}
  {desc : Bool} {U : Nat}

/-- **The set positions are the ranks of the keys.** -/
structure Represents (M : KeyMapping Key) (desc : Bool) (c : BitBlockContainer V)
    (s : KeySet Key desc) : Prop where
  inv : c.Inv
  isKey : ∀ k ∈ s, M.isKey k = true
  bit : ∀ p, c.bit p = true ↔ ∃ k ∈ s, M.toIndex k = p

variable {c d : BitBlockContainer V} {s t : KeySet Key desc}

theorem Represents.mem_iff (h : Represents M desc c s) (hM : M.Bijective U) {k : Key}
    (hk : M.isKey k = true) : k ∈ s ↔ c.bit (M.toIndex k) = true := by
  rw [h.bit]
  constructor
  · intro hm
    exact ⟨k, hm, rfl⟩
  · rintro ⟨m, hm, he⟩
    rw [← hM.inj (h.isKey m hm) hk he]
    exact hm

theorem Represents.index_lt (h : Represents M desc c s) {k : Key} (hk : k ∈ s) :
    M.toIndex k < c.size :=
  h.inv.lt_size ((h.bit _).mpr ⟨k, hk, rfl⟩)

/-- Keys in their order are positions in theirs. -/
theorem compare_iff (desc : Bool) (hM : M.Bijective U) {a b : Key} (ha : M.isKey a = true)
    (hb : M.isKey b = true) : keyCompare desc a b ↔
      (if desc = true then M.toIndex b < M.toIndex a else M.toIndex a < M.toIndex b) := by
  unfold keyCompare
  split
  · exact hM.mono b a hb ha
  · exact hM.mono a b ha hb

/-- Positions that all name keys are read as the keys they name. -/
theorem mapM_fromIndex (h : Represents M desc c s) (hM : M.Bijective U) :
    ∀ {ps : List Nat}, (∀ p ∈ ps, c.bit p = true) →
      ∃ ks, ps.mapM M.fromIndex = some ks ∧ ks.map M.toIndex = ps ∧ ∀ k ∈ ks, k ∈ s
  | [], _ => ⟨[], rfl, rfl, fun k hk => absurd hk List.not_mem_nil⟩
  | p :: ps, hp => by
      obtain ⟨k, hk, hkp⟩ := (h.bit p).mp (hp p List.mem_cons_self)
      obtain ⟨ks, h1, h2, h3⟩ := mapM_fromIndex h hM fun q hq => hp q (List.mem_cons_of_mem _ hq)
      refine ⟨k :: ks, ?_, by rw [List.map_cons, h2, hkp], fun m hm => ?_⟩
      · rw [List.mapM_cons, ← hkp, hM.from_to k (h.isKey k hk), h1]
        rfl
      · rcases List.mem_cons.mp hm with rfl | hm
        · exact hk
        · exact h3 m hm

/-- **The walk over the set reads the keys in their order.** -/
theorem Represents.iterated (h : Represents M desc c s) (hM : M.Bijective U) :
    SetAdaptor.iterated M desc c = some s.keys ∧
      (SetAdaptor.positions desc c).length = s.size := by
  obtain ⟨hmem, hsorted⟩ := SetAdaptor.positions_spec desc h.inv
  obtain ⟨ks, h1, h2, h3⟩ := mapM_fromIndex h hM fun p hp => (hmem p).mp hp
  have hks : ks = s.keys := by
    refine List.Pairwise.eq_of_mem_iff ?_ s.sorted fun k => ⟨h3 k, fun hk => ?_⟩
    · rw [← h2, List.pairwise_map] at hsorted
      exact hsorted.imp_of_mem fun ha hb hab =>
        (compare_iff _ hM (h.isKey _ (h3 _ ha)) (h.isKey _ (h3 _ hb))).mpr hab
    · have hp : M.toIndex k ∈ SetAdaptor.positions desc c := (hmem _).mpr ((h.bit _).mpr ⟨k, hk, rfl⟩)
      rw [← h2, List.mem_map] at hp
      obtain ⟨m, hm, he⟩ := hp
      rw [← hM.inj (h.isKey m (h3 m hm)) (h.isKey k hk) he]
      exact hm
  unfold SetAdaptor.iterated OrderedKeys.size
  rw [h1, ← hks, ← h2, List.length_map]
  exact ⟨rfl, rfl⟩

/-- A strictly ordered list of the set positions is as long as their count. -/
theorem length_eq_countBits : ∀ (n : Nat) (f : Nat → Bool) (ps : List Nat),
    ps.Nodup → (∀ p, p ∈ ps ↔ p < n ∧ f p = true) → ps.length = countBits f n := by
  intro n f ps hnd hmem
  have hperm : ps.Perm ((List.range n).filter f) := by
    refine (List.perm_ext_iff_of_nodup hnd (List.nodup_range.filter _)).mpr fun p => ?_
    rw [hmem, List.mem_filter, List.mem_range]
  rw [hperm.length_eq, length_filter_range]

/-- **`size()` is the number of keys.** -/
theorem Represents.size (h : Represents M desc c s) (hM : M.Bijective U) :
    SetAdaptor.size c = s.size := by
  obtain ⟨hmem, hsorted⟩ := SetAdaptor.positions_spec desc h.inv
  unfold SetAdaptor.size
  rw [BitBlockContainer.count_eq h.inv, ← (h.iterated hM).2]
  refine (length_eq_countBits _ _ _ ?_ fun p => ?_).symm
  · refine hsorted.imp fun {a b} hab he => ?_
    subst he
    split at hab <;> omega
  · rw [hmem]
    constructor
    · intro hb
      exact ⟨h.inv.lt_size hb, hb⟩
    · intro hb
      exact hb.2

/-! ## 3. Iterators -/

/-- **The step of an iterator lands on the key that comes next.** -/
theorem Represents.next (h : Represents M desc c s) (hM : M.Bijective U) {k : Key} (hk : k ∈ s) :
    SetAdaptor.nextPosition desc c (M.toIndex k) = posOf M c (s.next k) := by
  have hlt := h.index_lt hk
  have hkey := h.isKey k hk
  rw [SetAdaptor.nextPosition_eq desc h.inv hlt]
  cases desc
  · rw [if_neg (by decide)]
    rcases nextSet_spec c.bit (M.toIndex k + 1) c.size with ⟨h1, h2, h3, h4⟩ | ⟨h1, h2⟩
    · obtain ⟨m, hm, hmp⟩ := (h.bit _).mp h3
      have hnext : s.next k = some m := by
        refine OrderedKeys.next_eq_some hm ?_ fun x hx hkx hxm => ?_
        · rw [compare_iff _ hM hkey (h.isKey m hm), if_neg (by decide)]
          omega
        · rw [compare_iff _ hM hkey (h.isKey x hx), if_neg (by decide)] at hkx
          rw [compare_iff _ hM (h.isKey x hx) (h.isKey m hm), if_neg (by decide)] at hxm
          have := h4 (M.toIndex x) (by omega) (by omega)
          rw [(h.bit _).mpr ⟨x, hx, rfl⟩] at this
          cases this
      rw [hnext]
      exact hmp.symm
    · have hnext : s.next k = none := by
        refine OrderedKeys.next_eq_none fun x hx hkx => ?_
        rw [compare_iff _ hM hkey (h.isKey x hx), if_neg (by decide)] at hkx
        have := h2 (M.toIndex x) (by omega) (h.index_lt hx)
        rw [(h.bit _).mpr ⟨x, hx, rfl⟩] at this
        cases this
      rw [hnext]
      exact h1
  · rw [if_pos rfl]
    rcases prevSet_spec c.bit (M.toIndex k) c.size with ⟨h1, h2, h3⟩ | ⟨h1, h2⟩
    · obtain ⟨m, hm, hmp⟩ := (h.bit _).mp h2
      have hnext : s.next k = some m := by
        refine OrderedKeys.next_eq_some hm ?_ fun x hx hkx hxm => ?_
        · rw [compare_iff _ hM hkey (h.isKey m hm), if_pos rfl]
          omega
        · rw [compare_iff _ hM hkey (h.isKey x hx), if_pos rfl] at hkx
          rw [compare_iff _ hM (h.isKey x hx) (h.isKey m hm), if_pos rfl] at hxm
          have := h3 (M.toIndex x) (by omega) (by omega)
          rw [(h.bit _).mpr ⟨x, hx, rfl⟩] at this
          cases this
      rw [hnext]
      exact hmp.symm
    · have hnext : s.next k = none := by
        refine OrderedKeys.next_eq_none fun x hx hkx => ?_
        rw [compare_iff _ hM hkey (h.isKey x hx), if_pos rfl] at hkx
        have := h2 (M.toIndex x) (by omega)
        rw [(h.bit _).mpr ⟨x, hx, rfl⟩] at this
        cases this
      rw [hnext]
      exact h1

end Represents

/-! ## 4. The operations -/

/-- What an operation returns, an iterator being an `It`. -/
inductive SetRet (It : Type) where
  | done
  | inserted (position : It) (new : Bool)
  | count (n : Nat)
  | next (position : It)

def SetRet.map {It It' : Type} (f : It → It') : SetRet It → SetRet It'
  | .done => .done
  | .inserted position new => .inserted (f position) new
  | .count n => .count n
  | .next position => .next (f position)

/-- One operation. The operand of a compound operator comes with the keys it holds, an iterator as
    the key it stands at. -/
inductive SetOp {w : Nat} (V : Vehicle w) (Key : Type) [LT Key] (desc : Bool) where
  | insert (key : Key)
  /-- `insert(first, last)`, and the last tier of `insert_range` -/
  | insertKeys (keys : List Key)
  /-- the tier of `insert_range` for `len` consecutive keys from `lo` -/
  | insertIota (lo len : Nat) (keys : List Key)
  | eraseKey (key : Key)
  | eraseAt (key : Key)
  | eraseRange (first last : Option Key)
  | popFront | popBack | clear
  /-- `|=`, and the tier of `insert_range` for another set -/
  | orAssign (other : Operand V) (keys : KeySet Key desc)
  | andAssign (other : Operand V) (keys : KeySet Key desc)
  | xorAssign (other : Operand V) (keys : KeySet Key desc)
  | subAssign (other : Operand V) (keys : KeySet Key desc)

namespace SetOp
variable {w : Nat} {V : Vehicle w} {Key : Type} [LinearOrder Key] {desc : Bool}
  (M : KeyMapping Key)

/-- The operand holds those keys: the set itself, or another one of any width. -/
def OperandHolds (s : KeySet Key desc) (other : Operand V)
    (keys : KeySet Key desc) : Prop :=
  match other with
  | .self => keys = s
  | .of o => Represents M desc o keys

/-- What `std::set` asks of the call. -/
def Pre (s : KeySet Key desc) : SetOp V Key desc → Prop
  | insert key => M.isKey key = true
  | insertKeys keys => ∀ k ∈ keys, M.isKey k = true
  | insertIota lo len keys =>
      (∀ k ∈ keys, M.isKey k = true) ∧ keys.map M.toIndex = List.range' lo len
  | eraseAt key => key ∈ s
  | eraseRange first last => s.IsRange first last
  | popFront => ∃ k, k ∈ s
  | popBack => ∃ k, k ∈ s
  | orAssign other keys => OperandHolds M s other keys
  | andAssign other keys => OperandHolds M s other keys
  | xorAssign other keys => OperandHolds M s other keys
  | subAssign other keys => OperandHolds M s other keys
  | _ => True

/-- Where an ascending erasure up to the end may be called: with assertions, only where the position
    of the end names a key that does not rank below the first one. -/
def Admitted (asserts : Bool) (c : BitBlockContainer V) : SetOp V Key desc → Prop
  | eraseRange first .none => asserts = true → desc = false →
      ∃ k, M.fromIndex c.size = some k ∧ ∀ a, first = some a → M.toIndex a ≤ M.toIndex k
  | _ => True

/-- Whether the operation needs a position past the width. -/
def Grows (c : BitBlockContainer V) : SetOp V Key desc → Prop
  | insert key => c.size ≤ M.toIndex key
  | insertKeys keys => ∃ k ∈ keys, c.size ≤ M.toIndex k
  | insertIota lo len _ => len ≠ 0 ∧ c.size < lo + len
  | orAssign other _ => ∃ p, c.size ≤ p ∧ (other.get c).bit p = true
  | xorAssign other _ => ∃ p, c.size ≤ p ∧ (other.get c).bit p = true
  | _ => False

/-- An action whose value is dropped. -/
def dropped {α : Type} (a : Action V α) : Action V (SetRet Nat) := fun c =>
  match a c with
  | .ok _ d => .ok .done d
  | .error e d => .error e d

/-- An action whose value is returned. -/
def returned {α : Type} (a : Action V α) (f : α → SetRet Nat) : Action V (SetRet Nat) := fun c =>
  match a c with
  | .ok x d => .ok (f x) d
  | .error e d => .error e d

/-- The operation on the container. -/
def run (asserts : Bool) (mem : Memory) : SetOp V Key desc → Action V (SetRet Nat)
  | insert key => returned (SetAdaptor.insert M mem key) fun r => .inserted r.1 r.2
  | insertKeys keys => dropped (SetAdaptor.insertKeys M mem keys)
  | insertIota lo len _ => dropped (SetAdaptor.insertIota M mem lo len)
  | eraseKey key => returned (SetAdaptor.eraseKey M key) .count
  | eraseAt key => returned (SetAdaptor.eraseAt M desc (M.toIndex key)) .next
  | eraseRange first last => fun c =>
      returned (SetAdaptor.eraseRange M desc asserts (posOf M c first) (posOf M c last)) .next c
  | popFront => dropped (SetAdaptor.popFront desc)
  | popBack => dropped (SetAdaptor.popBack desc)
  | clear => dropped SetAdaptor.clear
  | orAssign other _ => dropped (SetAdaptor.orAssign mem other)
  | andAssign other _ => dropped (SetAdaptor.andAssign other)
  | xorAssign other _ => dropped (SetAdaptor.xorAssign mem other)
  | subAssign other _ => dropped (SetAdaptor.subAssign other)

/-- The operation on the ordered keys. -/
def spec (s : KeySet Key desc) :
    SetOp V Key desc → KeySet Key desc × SetRet (Option Key)
  | insert key => (s.insert key, .inserted (some key) (key ∉ s.keys))
  | insertKeys keys => (s.insertAll keys, .done)
  | insertIota _ _ keys => (s.insertAll keys, .done)
  | eraseKey key => (s.erase key, .count (if key ∈ s.keys then 1 else 0))
  | eraseAt key => (s.erase key, .next (s.next key))
  | eraseRange first last => (s.eraseRange first last, .next last)
  | popFront => (s.popFront, .done)
  | popBack => (s.popBack, .done)
  | clear => (.empty, .done)
  | orAssign _ keys => (s.union keys, .done)
  | andAssign _ keys => (s.inter keys, .done)
  | xorAssign _ keys => (s.symmDiff keys, .done)
  | subAssign _ keys => (s.diff keys, .done)

/-! ## 5. One step -/

section Step
variable {M} {U : Nat} {c d : BitBlockContainer V} {mem : Memory} {asserts : Bool}
  {s : KeySet Key desc}

theorem represents_insert (h : Represents M desc c s) (hd : d.Inv) {key : Key}
    (hkey : M.isKey key = true)
    (hbit : ∀ p, d.bit p = if p = M.toIndex key then true else c.bit p) :
    Represents M desc d (s.insert key) := by
  refine ⟨hd, fun k hk => ?_, fun p => ?_⟩
  · rcases OrderedKeys.mem_insert.mp hk with rfl | hk
    · exact hkey
    · exact h.isKey k hk
  · rw [hbit p]
    constructor
    · intro hp
      split at hp
      · rename_i hpk
        exact ⟨key, OrderedKeys.mem_insert.mpr (Or.inl rfl), hpk.symm⟩
      · obtain ⟨k, hk, hkp⟩ := (h.bit p).mp hp
        exact ⟨k, OrderedKeys.mem_insert.mpr (Or.inr hk), hkp⟩
    · rintro ⟨k, hk, rfl⟩
      rcases OrderedKeys.mem_insert.mp hk with rfl | hk
      · rw [if_pos rfl]
      · split
        · rfl
        · exact (h.bit _).mpr ⟨k, hk, rfl⟩

theorem represents_insertAll (h : Represents M desc c s) (hd : d.Inv) {keys : List Key}
    (hkeys : ∀ k ∈ keys, M.isKey k = true)
    (hbit : ∀ p, d.bit p = true ↔ c.bit p = true ∨ ∃ k ∈ keys, M.toIndex k = p) :
    Represents M desc d (s.insertAll keys) := by
  refine ⟨hd, fun k hk => ?_, fun p => ?_⟩
  · rcases OrderedKeys.mem_insertAll.mp hk with hk | hk
    · exact hkeys k hk
    · exact h.isKey k hk
  · rw [hbit p, h.bit p]
    constructor
    · intro hp
      rcases hp with ⟨k, hk, hkp⟩ | ⟨k, hk, hkp⟩
      · exact ⟨k, OrderedKeys.mem_insertAll.mpr (Or.inr hk), hkp⟩
      · exact ⟨k, OrderedKeys.mem_insertAll.mpr (Or.inl hk), hkp⟩
    · rintro ⟨k, hk, hkp⟩
      rcases OrderedKeys.mem_insertAll.mp hk with hk | hk
      · exact Or.inr ⟨k, hk, hkp⟩
      · exact Or.inl ⟨k, hk, hkp⟩

/-- Fewer keys, at fewer positions: what every erasure leaves. -/
theorem represents_keep (gone : Nat → Prop) [DecidablePred gone] (h : Represents M desc c s)
    (hd : d.Inv) {t : KeySet Key desc} (ht : ∀ k, k ∈ t ↔ k ∈ s ∧ ¬ gone (M.toIndex k))
    (hbit : ∀ p, d.bit p = if gone p then false else c.bit p) : Represents M desc d t := by
  refine ⟨hd, fun k hk => h.isKey k ((ht k).mp hk).1, fun p => ?_⟩
  rw [hbit p]
  constructor
  · intro hp
    split at hp
    · cases hp
    · rename_i hgone
      obtain ⟨k, hk, rfl⟩ := (h.bit p).mp hp
      exact ⟨k, (ht k).mpr ⟨hk, hgone⟩, rfl⟩
  · rintro ⟨k, hk, rfl⟩
    obtain ⟨h1, h2⟩ := (ht k).mp hk
    rw [if_neg h2]
    exact (h.bit _).mpr ⟨k, h1, rfl⟩

/-- What a combination of two sets bit by bit holds. -/
theorem represents_combine (h : Represents M desc c s) {o : BitBlockContainer V}
    {keys t : KeySet Key desc} (ho : Represents M desc o keys)
    (hM : M.Bijective U) (hd : d.Inv) {g : Bool → Bool → Bool} (hg : g false false = false)
    (ht : ∀ k, k ∈ t ↔ g (decide (k ∈ s.keys)) (decide (k ∈ keys.keys)) = true)
    (hbit : ∀ p, d.bit p = g (c.bit p) (o.bit p)) : Represents M desc d t := by
  have hkey (k : Key) (hk : k ∈ t) : M.isKey k = true := by
    have hg' := (ht k).mp hk
    by_cases hs : k ∈ s.keys
    · exact h.isKey k hs
    · by_cases hks : k ∈ keys.keys
      · exact ho.isKey k hks
      · rw [decide_eq_false hs, decide_eq_false hks, hg] at hg'
        cases hg'
  have hread (k : Key) (hk : M.isKey k = true) : d.bit (M.toIndex k) =
      g (decide (k ∈ s.keys)) (decide (k ∈ keys.keys)) := by
    rw [hbit]
    congr 1
    · rw [Bool.eq_iff_iff, decide_eq_true_eq]
      exact (h.mem_iff hM hk).symm
    · rw [Bool.eq_iff_iff, decide_eq_true_eq]
      exact (ho.mem_iff hM hk).symm
  refine ⟨hd, hkey, fun p => ⟨fun hp => ?_, ?_⟩⟩
  · -- a position set on either side is the rank of a key there
    have hsome : ∃ k, M.isKey k = true ∧ M.toIndex k = p := by
      by_cases hc : c.bit p = true
      · obtain ⟨k, hk, hkp⟩ := (h.bit p).mp hc
        exact ⟨k, h.isKey k hk, hkp⟩
      · by_cases hob : o.bit p = true
        · obtain ⟨k, hk, hkp⟩ := (ho.bit p).mp hob
          exact ⟨k, ho.isKey k hk, hkp⟩
        · rw [hbit, Bool.eq_false_iff.mpr hc, Bool.eq_false_iff.mpr hob, hg] at hp
          cases hp
    obtain ⟨k, hk, rfl⟩ := hsome
    rw [hread k hk] at hp
    exact ⟨k, (ht k).mpr hp, rfl⟩
  · intro ⟨k, hk, hkp⟩
    rw [← hkp, hread k (hkey k hk)]
    exact (ht k).mp hk

theorem operand_represents (h : Represents M desc c s) {other : Operand V}
    {keys : KeySet Key desc} (ho : OperandHolds M s other keys) :
    Represents M desc (other.get c) keys := by
  cases other with
  | self =>
      cases ho
      exact h
  | of o => exact ho

/-- **The span of a range erasure** holds the keys between its ends. -/
theorem between_iff (h : Represents M desc c s) (hM : M.Bijective U) {first last : Option Key}
    (hrange : s.IsRange first last) {k : Key} (hk : k ∈ s) :
    OrderedKeys.between (keyCompare desc) first last k = true ↔
      posOf M c first ≠ posOf M c last ∧
      (SetAdaptor.eraseSpan desc c (posOf M c first) (posOf M c last)).1 ≤ M.toIndex k ∧
      M.toIndex k < (SetAdaptor.eraseSpan desc c (posOf M c first) (posOf M c last)).2 := by
  have hlt := h.index_lt hk
  have hkey := h.isKey k hk
  obtain ⟨hf, hl, hr⟩ := hrange
  cases first with
  | none =>
      cases last with
      | none => simp [OrderedKeys.between]
      | some b => exact absurd hr id
  | some a =>
      have ha := hf a rfl
      have halt := h.index_lt ha
      have hcmpa := compare_iff desc hM hkey (h.isKey a ha)
      cases last with
      | none =>
          simp only [OrderedKeys.between, Bool.and_true, Bool.not_eq_true', decide_eq_false_iff_not,
            hcmpa, posOf, SetAdaptor.eraseSpan, SetAdaptor.endPos]
          cases desc
          · simp only [Bool.false_eq_true, if_false]
            omega
          · simp only [if_true]
            omega
      | some b =>
          have hb := hl b rfl
          have hblt := h.index_lt hb
          have hcmpb := compare_iff desc hM hkey (h.isKey b hb)
          simp only [OrderedKeys.between, Bool.and_eq_true, Bool.not_eq_true',
            decide_eq_false_iff_not, decide_eq_true_eq, hcmpa, hcmpb, posOf, SetAdaptor.eraseSpan,
            SetAdaptor.endPos]
          cases desc
          · simp only [Bool.false_eq_true, if_false]
            omega
          · have hend : M.toIndex b ≠ c.size := by omega
            simp only [if_true, hend, if_false]
            omega

/-- The span of a range erasure lies in the width. -/
theorem eraseSpan_le (h : Represents M desc c s) (hM : M.Bijective U) {first last : Option Key}
    (hrange : s.IsRange first last) (hne : posOf M c first ≠ posOf M c last) :
    (SetAdaptor.eraseSpan desc c (posOf M c first) (posOf M c last)).1 ≤
      (SetAdaptor.eraseSpan desc c (posOf M c first) (posOf M c last)).2 ∧
    (SetAdaptor.eraseSpan desc c (posOf M c first) (posOf M c last)).2 ≤ c.size := by
  obtain ⟨hf, hl, hr⟩ := hrange
  cases first with
  | none =>
      cases last with
      | none => exact absurd rfl hne
      | some b => exact absurd hr id
  | some a =>
      have ha := hf a rfl
      have halt := h.index_lt ha
      cases last with
      | none =>
          simp only [posOf, SetAdaptor.eraseSpan, SetAdaptor.endPos]
          cases desc
          · simp only [Bool.false_eq_true, if_false]
            omega
          · simp only [if_true]
            omega
      | some b =>
          have hb := hl b rfl
          have hblt := h.index_lt hb
          have hcmp := compare_iff desc hM (h.isKey b hb) (h.isKey a ha)
          have hnot : ¬ keyCompare desc b a := hr
          rw [hcmp] at hnot
          simp only [posOf, SetAdaptor.eraseSpan, SetAdaptor.endPos]
          cases desc
          · simp only [Bool.false_eq_true, if_false] at hnot ⊢
            omega
          · have hend : M.toIndex b ≠ c.size := by omega
            simp only [if_true, hend, if_false] at hnot ⊢
            omega

theorem dropped_ok {α : Type} {a : Action V α} {r : SetRet Nat}
    (hr : dropped a c = .ok r d) : ∃ x, a c = .ok x d ∧ r = .done := by
  unfold dropped at hr
  split at hr
  · rename_i x e ha
    cases hr
    exact ⟨x, ha, rfl⟩
  · cases hr

theorem returned_ok {α : Type} {a : Action V α} {f : α → SetRet Nat} {r : SetRet Nat}
    (hr : returned a f c = .ok r d) : ∃ x, a c = .ok x d ∧ r = f x := by
  unfold returned at hr
  split at hr
  · rename_i x e ha
    cases hr
    exact ⟨x, ha, rfl⟩
  · cases hr

/-- A key erased at its position. -/
theorem represents_erase (h : Represents M desc c s) (hM : M.Bijective U) (hd : d.Inv) {key : Key}
    (hkey : M.isKey key = true)
    (hbit : ∀ p, d.bit p = if p = M.toIndex key then false else c.bit p) :
    Represents M desc d (s.erase key) := by
  refine represents_keep (fun p => p = M.toIndex key) h hd (fun k => ?_) hbit
  rw [OrderedKeys.mem_erase]
  refine and_congr_right fun hk => not_congr ⟨fun he => by rw [he], fun he => ?_⟩
  exact hM.inj (h.isKey k hk) hkey he

theorem exists_bit (h : Represents M desc c s) (hne : ∃ k, k ∈ s) :
    ∃ p, p < c.size ∧ c.bit p = true := by
  obtain ⟨k, hk⟩ := hne
  exact ⟨M.toIndex k, h.index_lt hk, (h.bit _).mpr ⟨k, hk, rfl⟩⟩

/-- Dropping the lowest position erases the key at that end of the order. -/
theorem represents_dropFront (h : Represents M desc c s) (hM : M.Bijective U)
    (hne : ∃ k, k ∈ s) :
    Represents M desc c.dropFront (if desc = true then s.popBack else s.popFront) := by
  have hany := exists_bit h hne
  obtain ⟨-, h1, h2⟩ := BitBlockContainer.findFront_spec h.inv hany
  obtain ⟨x, hx, hxp⟩ := (h.bit _).mp h1
  have hmin (y : Key) (hy : y ∈ s) : ¬ M.toIndex y < M.toIndex x := by
    intro hlt
    have := h2 (M.toIndex y) (by omega)
    rw [(h.bit _).mpr ⟨y, hy, rfl⟩] at this
    cases this
  have herase := represents_erase h hM (h.inv.dropFront hany) (h.isKey x hx) fun p => by
    rw [BitBlockContainer.bit_dropFront h.inv hany, hxp]
  cases desc
  · rw [if_neg (by decide), OrderedKeys.popFront_eq_erase hx fun y hy => ?_]
    · exact herase
    · rw [compare_iff _ hM (h.isKey y hy) (h.isKey x hx), if_neg (by decide)]
      exact hmin y hy
  · rw [if_pos rfl, OrderedKeys.popBack_eq_erase hx fun y hy => ?_]
    · exact herase
    · rw [compare_iff _ hM (h.isKey x hx) (h.isKey y hy), if_pos rfl]
      exact hmin y hy

/-- Dropping the highest position erases the key at that end of the order. -/
theorem represents_dropBack (h : Represents M desc c s) (hM : M.Bijective U)
    (hne : ∃ k, k ∈ s) :
    Represents M desc c.dropBack (if desc = true then s.popFront else s.popBack) := by
  have hany := exists_bit h hne
  obtain ⟨-, h1, h2⟩ := BitBlockContainer.findBack_spec h.inv hany
  obtain ⟨x, hx, hxp⟩ := (h.bit _).mp h1
  have hmax (y : Key) (hy : y ∈ s) : ¬ M.toIndex x < M.toIndex y := by
    intro hlt
    have := h2 (M.toIndex y) (by omega)
    rw [(h.bit _).mpr ⟨y, hy, rfl⟩] at this
    cases this
  have herase := represents_erase h hM (h.inv.dropBack hany) (h.isKey x hx) fun p => by
    rw [BitBlockContainer.bit_dropBack h.inv hany, hxp]
  cases desc
  · rw [if_neg (by decide), OrderedKeys.popBack_eq_erase hx fun y hy => ?_]
    · exact herase
    · rw [compare_iff _ hM (h.isKey x hx) (h.isKey y hy), if_neg (by decide)]
      exact hmax y hy
  · rw [if_pos rfl, OrderedKeys.popFront_eq_erase hx fun y hy => ?_]
    · exact herase
    · rw [compare_iff _ hM (h.isKey y hy) (h.isKey x hx), if_pos rfl]
      exact hmax y hy

/-- Consecutive ranks of keys are positions of the universe. -/
theorem iota_le (hM : M.Bijective U) {lo len : Nat} {keys : List Key}
    (hkeys : ∀ k ∈ keys, M.isKey k = true) (hmap : keys.map M.toIndex = List.range' lo len)
    (hlen : len ≠ 0) : lo + len ≤ U := by
  have hlast : lo + len - 1 ∈ keys.map M.toIndex := by
    rw [hmap, List.mem_range'_1]
    omega
  obtain ⟨k, hk, hkp⟩ := List.mem_map.mp hlast
  have := hM.index_lt k (hkeys k hk)
  omega

/-- Consecutive ranks set at once are the keys inserted. -/
theorem insertIota_represents (howned : V.hasStoredSize = true ∨ V.hasStaticSize = true)
    (hM : M.Bijective U) (h : Represents M desc c s) {lo len : Nat} {keys : List Key}
    (hkeys : ∀ k ∈ keys, M.isKey k = true) (hmap : keys.map M.toIndex = List.range' lo len)
    (hr : SetAdaptor.insertIota M mem lo len c = .ok () d) :
    Represents M desc d (s.insertAll keys) := by
  have hmem (p : Nat) : (∃ k ∈ keys, M.toIndex k = p) ↔ lo ≤ p ∧ p < lo + len := by
    rw [← List.mem_map, hmap, List.mem_range'_1]
  have htop (hlen : len ≠ 0) : lo + len ≤ 2 ^ 64 :=
    Nat.le_trans (iota_le hM hkeys hmap hlen) hM.top
  obtain ⟨h1, -, h3⟩ := SetAdaptor.insertIota_ok h.inv howned hr htop
  refine represents_insertAll h h1 hkeys fun p => ?_
  rw [h3 p, hmem p]
  split
  · rename_i hin
    exact ⟨fun _ => Or.inr hin, fun _ => rfl⟩
  · rename_i hout
    exact ⟨Or.inl, fun hor => hor.resolve_right hout⟩

/-- A key erased leaves, and is counted where it was there; no other value is looked for. -/
theorem eraseKey_represents (hM : M.Bijective U) (h : Represents M desc c s) {key : Key} {n : Nat}
    (hr : SetAdaptor.eraseKey M key c = .ok n d) :
    Represents M desc d (s.erase key) ∧ n = if key ∈ s.keys then 1 else 0 := by
  unfold SetAdaptor.eraseKey at hr
  split at hr
  · rename_i hnokey
    cases hr
    have hk : key ∉ s := fun hm => by
      rw [h.isKey key hm] at hnokey
      cases hnokey
    exact ⟨(OrderedKeys.erase_of_not_mem hk).symm ▸ h, (if_neg hk).symm⟩
  · rename_i hkey
    rw [Bool.not_eq_false] at hkey
    split at hr
    · rename_i hge
      cases hr
      have hk : key ∉ s := fun hm => by
        have := h.index_lt hm
        omega
      exact ⟨(OrderedKeys.erase_of_not_mem hk).symm ▸ h, (if_neg hk).symm⟩
    · rename_i hlt
      have hlt : M.toIndex key < c.size := by omega
      cases hr
      refine ⟨represents_erase h hM (h.inv.erase hlt) hkey fun p =>
        BitBlockContainer.bit_erase h.inv.shape hlt, ?_⟩
      rw [BitBlockContainer.erase_snd h.inv.shape hlt]
      have hmem := h.mem_iff hM hkey
      by_cases hk : key ∈ s.keys
      · rw [hmem.mp hk, if_pos hk]
        rfl
      · rw [Bool.eq_false_iff.mpr fun hb => hk (hmem.mpr hb), if_neg hk]
        rfl

/-- **One step of the simulation**: a completed operation leaves the keys that the ordered set has
    after it, and returns what it returns. -/
theorem step (hv : V.storage ≠ .lent) (hM : M.Bijective U) (h : Represents M desc c s)
    {op : SetOp V Key desc} (hp : op.Pre M s) {r : SetRet Nat}
    (hr : op.run M asserts mem c = .ok r d) :
    Represents M desc d (op.spec s).1 ∧ r = (op.spec s).2.map (posOf M d) := by
  have howned := V.owned_of_not_lent hv
  cases op with
  | insert key =>
      obtain ⟨x, hx, rfl⟩ := returned_ok hr
      obtain ⟨h1, -, rfl, h3⟩ := SetAdaptor.doInsert_ok h.inv howned hx
      refine ⟨represents_insert h h1 hp h3, ?_⟩
      have hnew : (!c.bit (M.toIndex key)) = decide (key ∉ s.keys) := by
        rw [Bool.eq_iff_iff, decide_eq_true_eq, Bool.not_eq_true', Bool.eq_false_iff]
        exact not_congr (h.mem_iff hM hp).symm
      show SetRet.inserted _ _ = SetRet.inserted _ _
      rw [hnew]
      rfl
  | insertKeys keys =>
      obtain ⟨_, hx, rfl⟩ := dropped_ok hr
      obtain ⟨h1, -, h3⟩ := SetAdaptor.insertKeys_ok howned h.inv hx
      exact ⟨represents_insertAll h h1 hp h3, rfl⟩
  | insertIota lo len keys =>
      obtain ⟨_, hx, rfl⟩ := dropped_ok hr
      exact ⟨insertIota_represents howned hM h hp.1 hp.2 hx, rfl⟩
  | eraseKey key =>
      obtain ⟨x, hx, rfl⟩ := returned_ok hr
      obtain ⟨h1, rfl⟩ := eraseKey_represents hM h hx
      exact ⟨h1, rfl⟩
  | eraseAt key =>
      obtain ⟨x, hx, rfl⟩ := returned_ok hr
      have hkey := h.isKey key hp
      have hlt := h.index_lt hp
      unfold SetAdaptor.eraseAt at hx
      rw [hM.from_to key hkey] at hx
      cases hx
      refine ⟨represents_erase h hM (h.inv.assign hlt) hkey fun p =>
        BitBlockContainer.bit_assign h.inv.shape hlt, ?_⟩
      show SetRet.next _ = SetRet.next (posOf M _ (s.next key))
      rw [posOf_sameWidth BitBlockContainer.sameWidth_assign, h.next hM hp]
  | eraseRange first last =>
      obtain ⟨x, hx, rfl⟩ := returned_ok hr
      obtain ⟨h1, h2, rfl, h4⟩ := SetAdaptor.eraseRange_ok h.inv (eraseSpan_le h hM hp) hx
      refine ⟨represents_keep _ h h1 (fun k => ?_) h4, ?_⟩
      · show k ∈ s.eraseRange first last ↔ _
        rw [OrderedKeys.mem_eraseRange, ← Bool.not_eq_true]
        exact and_congr_right fun hk => not_congr (between_iff h hM hp hk)
      · show SetRet.next _ = SetRet.next _
        rw [posOf_sameWidth h2]
  | popFront =>
      obtain ⟨_, hx, rfl⟩ := dropped_ok (a := SetAdaptor.popFront desc) hr
      cases hx
      have h1 := represents_dropFront h hM hp
      have h2 := represents_dropBack h hM hp
      cases desc
      · exact ⟨h1, rfl⟩
      · exact ⟨h2, rfl⟩
  | popBack =>
      obtain ⟨_, hx, rfl⟩ := dropped_ok (a := SetAdaptor.popBack desc) hr
      cases hx
      have h1 := represents_dropFront h hM hp
      have h2 := represents_dropBack h hM hp
      cases desc
      · exact ⟨h2, rfl⟩
      · exact ⟨h1, rfl⟩
  | clear =>
      obtain ⟨_, hx, rfl⟩ := dropped_ok (a := SetAdaptor.clear) hr
      cases hx
      obtain ⟨-, h2, h3⟩ := BitBlockContainer.fill_spec (v := false) h.inv
      refine ⟨represents_keep (fun _ => True) h h3 (fun k => ?_) fun p => ?_, rfl⟩
      · exact ⟨fun hk => absurd hk OrderedKeys.not_mem_empty, fun hk => absurd trivial hk.2⟩
      · rw [h2, Bool.and_false, if_pos trivial]
  | orAssign other keys =>
      obtain ⟨_, hx, rfl⟩ := dropped_ok (a := SetAdaptor.orAssign mem other) hr
      have ho := operand_represents h hp
      obtain ⟨h1, -, h3⟩ :=
        BitBlockContainer.admitThen_ok h.inv ho.inv howned BitBlockContainer.actsBitwise_or rfl hx
      refine ⟨represents_combine h ho hM h1 rfl (fun k => ?_) h3, rfl⟩
      show k ∈ s.union keys ↔ _
      rw [OrderedKeys.mem_union, Bool.or_eq_true, decide_eq_true_eq, decide_eq_true_eq]
      exact or_comm
  | andAssign other keys =>
      obtain ⟨_, hx, rfl⟩ := dropped_ok (a := SetAdaptor.andAssign other) hr
      cases hx
      have ho := operand_represents h hp
      obtain ⟨-, h2, h3⟩ := BitBlockContainer.combine_spec other h.inv ho.inv
        BitBlockContainer.actsBitwise_and fun _ _ => rfl
      refine ⟨represents_combine h ho hM h3 rfl (fun k => ?_) h2, rfl⟩
      show k ∈ s.inter keys ↔ _
      rw [OrderedKeys.mem_inter, Bool.and_eq_true, decide_eq_true_eq, decide_eq_true_eq]
      exact Iff.rfl
  | xorAssign other keys =>
      obtain ⟨_, hx, rfl⟩ := dropped_ok (a := SetAdaptor.xorAssign mem other) hr
      have ho := operand_represents h hp
      obtain ⟨h1, -, h3⟩ :=
        BitBlockContainer.admitThen_ok h.inv ho.inv howned BitBlockContainer.actsBitwise_xor rfl hx
      refine ⟨represents_combine h ho hM h1 rfl (fun k => ?_) h3, rfl⟩
      show k ∈ s.symmDiff keys ↔ _
      rw [OrderedKeys.mem_symmDiff]
      by_cases h1 : k ∈ s.keys
      · by_cases h2 : k ∈ keys.keys <;> simp [← OrderedKeys.mem_keys, h1, h2]
      · by_cases h2 : k ∈ keys.keys <;> simp [← OrderedKeys.mem_keys, h1, h2]
  | subAssign other keys =>
      obtain ⟨_, hx, rfl⟩ := dropped_ok (a := SetAdaptor.subAssign other) hr
      cases hx
      have ho := operand_represents h hp
      obtain ⟨-, h2, h3⟩ := BitBlockContainer.combine_spec other h.inv ho.inv
        BitBlockContainer.actsBitwise_sub fun _ _ => rfl
      refine ⟨represents_combine (g := fun x y => x && !y) h ho hM h3 rfl (fun k => ?_) h2, rfl⟩
      show k ∈ s.diff keys ↔ _
      rw [OrderedKeys.mem_diff, Bool.and_eq_true, Bool.not_eq_true', decide_eq_true_eq,
        decide_eq_false_iff_not]
      exact Iff.rfl

theorem dropped_of {α : Type} {a : Action V α} (h : ∃ x d, a c = .ok x d) :
    ∃ r d, dropped a c = .ok r d := by
  obtain ⟨x, d, hx⟩ := h
  unfold dropped
  rw [hx]
  exact ⟨_, _, rfl⟩

theorem returned_of {α : Type} {a : Action V α} {f : α → SetRet Nat} (h : ∃ x d, a c = .ok x d) :
    ∃ r d, returned a f c = .ok r d := by
  obtain ⟨x, d, hx⟩ := h
  unfold returned
  rw [hx]
  exact ⟨_, _, rfl⟩

/-- **What the assertion of a range erasure takes.** -/
theorem rangeAssertion_iff (h : Represents M desc c s) (hM : M.Bijective U)
    {first last : Option Key} (hrange : s.IsRange first last) :
    SetAdaptor.rangeAssertion M desc c (posOf M c first) (posOf M c last) = true ↔
      (eraseRange first last : SetOp V Key desc).Admitted M true c := by
  obtain ⟨hf, hl, hr⟩ := hrange
  have hread {k : Key} (hk : k ∈ s) := hM.from_to k (h.isKey k hk)
  unfold SetAdaptor.rangeAssertion
  cases last with
  | none =>
      cases desc
      · simp only [Bool.false_eq_true, if_false, Admitted, forall_const, posOf]
        cases hend : M.fromIndex c.size with
        | none =>
            cases first with
            | none => simp [hend]
            | some a => simp [hread (hf a rfl)]
        | some k =>
            cases first with
            | none => simp [hend]
            | some a => simp [hread (hf a rfl)]
      · simp [Admitted, posOf, SetAdaptor.endPos]
  | some b =>
      cases first with
      | none => exact absurd hr id
      | some a =>
          have hnot : ¬ keyCompare desc b a := hr
          rw [compare_iff _ hM (h.isKey b (hl b rfl)) (h.isKey a (hf a rfl))] at hnot
          simp only [posOf, hread (hf a rfl), hread (hl b rfl), Admitted, iff_true]
          cases desc
          · rw [if_neg (by decide)] at hnot
            rw [if_neg (by decide), decide_eq_true_eq]
            omega
          · rw [if_pos rfl] at hnot
            rw [if_pos rfl, Bool.or_eq_true, decide_eq_true_eq]
            exact Or.inr (by omega)

/-- **A step that needs no growth completes exactly where it is admitted.** -/
theorem completes_iff (hv : V.storage ≠ .lent) (hM : M.Bijective U) (h : Represents M desc c s)
    {op : SetOp V Key desc} (hp : op.Pre M s) (hg : ¬ op.Grows M c) :
    (∃ r d, op.run M asserts mem c = .ok r d) ↔ op.Admitted M asserts c := by
  have howned := V.owned_of_not_lent hv
  have hsize {k : Key} (hk : M.isKey k = true) (n : Nat) (hn : M.size = some n) :
      M.toIndex k < n := by
    rw [hM.size_eq n hn]
    exact hM.index_lt k hk
  cases op with
  | insert key =>
      have hin : SetAdaptor.insert M mem key c = .ok _ _ :=
        SetAdaptor.doInsert_within h.inv howned (Nat.lt_of_not_le hg) (hsize hp)
      exact iff_of_true (returned_of ⟨_, _, hin⟩) trivial
  | insertKeys keys =>
      refine iff_of_true (dropped_of ⟨(), ?_⟩) trivial
      refine SetAdaptor.insertKeys_within howned h.inv fun k hk => ⟨?_, hsize (hp k hk)⟩
      exact Nat.lt_of_not_le fun hle => hg ⟨k, hk, hle⟩
  | insertIota lo len keys =>
      obtain ⟨hkeys, hmap⟩ := hp
      refine iff_of_true (dropped_of ⟨(), ?_⟩) trivial
      refine SetAdaptor.insertIota_within h.inv howned fun hlen => ?_
      have hU := iota_le hM hkeys hmap hlen
      refine ⟨Nat.le_of_not_lt fun hlt => hg ⟨hlen, hlt⟩, Nat.le_trans hU hM.top, fun n hn => ?_⟩
      rw [hM.size_eq n hn]
      exact hU
  | eraseKey key =>
      refine iff_of_true (returned_of ?_) trivial
      unfold SetAdaptor.eraseKey
      split
      · exact ⟨_, _, rfl⟩
      · split <;> exact ⟨_, _, rfl⟩
  | eraseAt key =>
      refine iff_of_true (returned_of ?_) trivial
      unfold SetAdaptor.eraseAt
      rw [hM.from_to key (h.isKey key hp)]
      exact ⟨_, _, rfl⟩
  | eraseRange first last =>
      have hassert := rangeAssertion_iff h hM hp
      have hoff (hoff : asserts = false) :
          (eraseRange first last : SetOp V Key desc).Admitted M asserts c := by
        subst hoff
        cases last with
        | none => exact fun hc => absurd hc (by decide)
        | some b => trivial
      constructor
      · intro ⟨r, d, hr⟩
        obtain ⟨x, hx, -⟩ := returned_ok hr
        cases ha : asserts with
        | false =>
            subst ha
            exact hoff rfl
        | true =>
            refine hassert.mp ?_
            subst ha
            unfold SetAdaptor.eraseRange at hx
            split at hx
            · cases hx
            · rename_i hnot
              simpa using hnot
      · intro hadm
        refine returned_of ?_
        unfold SetAdaptor.eraseRange
        rw [if_neg]
        · split <;> exact ⟨_, _, rfl⟩
        · intro ⟨ha, hfalse⟩
          subst ha
          rw [hassert.mpr hadm] at hfalse
          cases hfalse
  | popFront => exact iff_of_true (dropped_of (a := SetAdaptor.popFront desc) ⟨_, _, rfl⟩) trivial
  | popBack => exact iff_of_true (dropped_of (a := SetAdaptor.popBack desc) ⟨_, _, rfl⟩) trivial
  | clear => exact iff_of_true (dropped_of (a := SetAdaptor.clear) ⟨_, _, rfl⟩) trivial
  | andAssign other keys => exact iff_of_true (dropped_of (a := SetAdaptor.andAssign other) ⟨_, _, rfl⟩) trivial
  | subAssign other keys => exact iff_of_true (dropped_of (a := SetAdaptor.subAssign other) ⟨_, _, rfl⟩) trivial
  | orAssign other keys =>
      refine iff_of_true (dropped_of (a := SetAdaptor.orAssign mem other) ?_) trivial
      exact BitBlockContainer.admitThen_within (operand_represents h hp).inv fun p hle =>
        Bool.eq_false_iff.mpr fun hb => hg ⟨p, hle, hb⟩
  | xorAssign other keys =>
      refine iff_of_true (dropped_of (a := SetAdaptor.xorAssign mem other) ?_) trivial
      exact BitBlockContainer.admitThen_within (operand_represents h hp).inv fun p hle =>
        Bool.eq_false_iff.mpr fun hb => hg ⟨p, hle, hb⟩

end Step

end SetOp

/-! ## 6. Every run -/

section Run
variable {w : Nat} {V : Vehicle w} {Key : Type} [LinearOrder Key]

/-- A run of completed operations on a set and on its ordered keys, from the empty set on. -/
inductive SetRun (V : Vehicle w) (M : KeyMapping Key) (desc asserts : Bool) :
    BitBlockContainer V → KeySet Key desc → Prop where
  | start (alloc : Nat) : SetRun V M desc asserts (BitBlockContainer.default V alloc) .empty
  | step {c d : BitBlockContainer V} {s : KeySet Key desc}
      {r : SetRet Nat} (mem : Memory) (op : SetOp V Key desc) (hc : SetRun V M desc asserts c s)
      (hp : op.Pre M s) (hr : op.run M asserts mem c = .ok r d) :
      SetRun V M desc asserts d (op.spec s).1

variable {M : KeyMapping Key} {desc asserts : Bool} {U : Nat} {c : BitBlockContainer V}
  {s : KeySet Key desc}

/-- **The simulation over every run.** -/
theorem SetRun.represents (hv : V.storage ≠ .lent) (hM : M.Bijective U)
    (h : SetRun V M desc asserts c s) : Represents M desc c s := by
  induction h with
  | start alloc =>
      obtain ⟨h1, h2⟩ := BitBlockContainer.default_spec (V.owned_of_not_lent hv) alloc
      refine ⟨h1, fun k hk => absurd hk OrderedKeys.not_mem_empty, fun p => ?_⟩
      rw [h2]
      constructor
      · intro hb
        cases hb
      · intro ⟨k, hk, _⟩
        exact absurd hk OrderedKeys.not_mem_empty
  | step mem op _ hp hr ih => exact (SetOp.step hv hM ih hp hr).1

/-- **The set refines the ordered set of its keys**: after every run the set iterates those keys in
    their order and counts them, an operation that completes returns what the ordered set returns,
    and one that needs no growth completes exactly where it is admitted. -/
theorem set_refines (hv : V.storage ≠ .lent) (hM : M.Bijective U)
    (h : SetRun V M desc asserts c s) :
    SetAdaptor.iterated M desc c = some s.keys ∧ SetAdaptor.size c = s.size ∧
    ∀ (op : SetOp V Key desc) (mem : Memory), op.Pre M s →
      (∀ r d, op.run M asserts mem c = .ok r d → r = (op.spec s).2.map (posOf M d)) ∧
      (¬ op.Grows M c → ((∃ r d, op.run M asserts mem c = .ok r d) ↔ op.Admitted M asserts c)) := by
  have hrep := h.represents hv hM
  refine ⟨(hrep.iterated hM).1, hrep.size hM, fun op mem hp => ⟨fun r d hr => ?_, fun hg => ?_⟩⟩
  · exact (SetOp.step hv hM hrep hp hr).2
  · exact SetOp.completes_iff hv hM hrep hp hg

end Run

/-! ## 7. A fixed set of bytes -/

/-- `basic_bit_fixed_set<std::uint8_t, std::size_t, 256>`: as many positions as its keys. -/
def fixedBytes : Vehicle 64 where
  storage := .fixed 256
  bits_pos := word_pos
  bits_int := word_int
  holds_width := rfl
  whole_blocks := rfl

/-- A growing descending set of bytes that takes nine and three. -/
theorem set_refines_descending : ∃ c : BitBlockContainer (byteVector true),
    SetAdaptor.iterated (unsignedMapping 8) true c = some [9, 3] := by
  have h0 : SetRun (byteVector true) (unsignedMapping 8) true true _ .empty := .start 0
  have h1 := h0.step .ample (.insert 9) (show (unsignedMapping 8).isKey 9 = true by decide) rfl
  have h2 := h1.step .ample (.insert 3) (show (unsignedMapping 8).isKey 3 = true by decide) rfl
  exact ⟨_, (set_refines (by decide) (unsignedMapping_bijective 8) h2).1⟩

/-- **The end of a full universe is the rank of no key, and its key wraps**: with the assertion in,
    `erase(begin(), end())` of the fixed set of bytes that holds one does not return. -/
theorem erase_to_end_aborts : ∃ (c : BitBlockContainer fixedBytes) (s : KeySet (Fin (2 ^ 8)) false),
    SetRun fixedBytes (unsignedMapping 8) false true c s ∧ s.keys = [1] ∧
    (SetOp.eraseRange (some 1) none : SetOp fixedBytes (Fin (2 ^ 8)) false).Pre
      (unsignedMapping 8) s ∧
    ∀ mem, (SetOp.eraseRange (some 1) none : SetOp fixedBytes (Fin (2 ^ 8)) false).run
      (unsignedMapping 8) true mem c = .error .abort c := by
  have h0 : SetRun fixedBytes (unsignedMapping 8) false true _ .empty := .start 0
  have h1 := h0.step .ample (.insert 1) (show (unsignedMapping 8).isKey 1 = true by decide) rfl
  refine ⟨_, _, h1, rfl, ⟨fun a ha => ?_, fun b hb => ?_, trivial⟩, fun mem => rfl⟩
  · cases ha
    exact List.mem_singleton.mpr rfl
  · cases hb

end XstdBits
