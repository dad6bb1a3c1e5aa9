/-
  File: XstdBits/Set/View.lean
  Subject: a set read over blocks that are lent to it at run time.

  A lent span neither carries its width nor grows: `guard_key` holds a key against the widest
  container there can be, `growing_insert` falls through to `insert`, and `grow_to_admit` does
  nothing. What is left is that every key lies below the width, or is refused before anything is
  written.

  * `ViewOp.Faithful`: the call addresses the blocks of its span alone, and ends with the keys
    `std::set` would hold or throws and leaves the blocks as they were.
  * it is exactly where `ViewOp.Fits`.
-/
import XstdBits.Set.Adaptor

namespace XstdBits

open BitBlockContainer (lent_flags lent_size lent_inv)

/-- A view's key is its position. -/
abbrev viewKeys : KeyMapping (Fin (2 ^ 64)) := unsignedMapping 64

/-! ## 1. The calls -/

/-- One call on a view; a range of keys in one of the tiers that `insert_range` has. -/
inductive ViewOp {w : Nat} (V : Vehicle w) where
  | insert (x : Fin (2 ^ 64))
  | insertKeys (keys : List (Fin (2 ^ 64)))
  | insertIota (lo len : Nat) (htop : lo + len ≤ 2 ^ 64)
  | orAssign (other : Operand V)
  | xorAssign (other : Operand V)

namespace ViewOp
variable {w : Nat} {V : Vehicle w} (mem : Memory)

def run : ViewOp V → Action V Unit
  | insert x => SetAdaptor.insertKeys viewKeys mem [x]
  | insertKeys keys => SetAdaptor.insertKeys viewKeys mem keys
  | insertIota lo len _ => SetAdaptor.insertIota viewKeys mem lo len
  | orAssign other => SetAdaptor.orAssign mem other
  | xorAssign other => SetAdaptor.xorAssign mem other

/-- The keys `std::set` holds after the call. -/
def keysAfter (c : BitBlockContainer V) : ViewOp V → Nat → Prop
  | insert x => fun p => c.bit p = true ∨ x.val = p
  | insertKeys keys => fun p => c.bit p = true ∨ ∃ k ∈ keys, k.val = p
  | insertIota lo len _ => fun p => c.bit p = true ∨ lo ≤ p ∧ p < lo + len
  | orAssign other => fun p => c.bit p = true ∨ (other.get c).bit p = true
  | xorAssign other => fun p => c.bit p ≠ (other.get c).bit p

/-- The blocks that the insertions of `insertKeys` address, up to a refused one. -/
def addressedByKeys : List (Fin (2 ^ 64)) → BitBlockContainer V → List Nat
  | [], _ => []
  | x :: keys, c =>
      match SetAdaptor.doInsert viewKeys mem (viewKeys.toIndex x) c with
      | .error _ _ => []
      | .ok _ d => (BitBlockContainer.indexOffset V (viewKeys.toIndex x)).1 :: addressedByKeys keys d

/-- The block of the last key, and those of the span. -/
def addressedByIota (lo len : Nat) (c : BitBlockContainer V) : List Nat :=
  if len = 0 then []
  else
    match SetAdaptor.doInsert viewKeys mem (widthSum lo (len - 1)) c with
    | .error _ _ => []
    | .ok _ _ =>
        (BitBlockContainer.indexOffset V (lo + (len - 1))).1 ::
          List.range' (lo / w) ((lo + (len - 1)) / w + 1 - lo / w)

/-- The blocks that the call addresses. -/
def addressed (c : BitBlockContainer V) : ViewOp V → List Nat
  | insert x => addressedByKeys mem [x] c
  | insertKeys keys => addressedByKeys mem keys c
  | insertIota lo len _ => addressedByIota mem lo len c
  | orAssign _ => List.range c.numBlocks
  | xorAssign _ => List.range c.numBlocks

/-- **What a view promises of a call**: the span alone is addressed, and the call ends with the keys
    of `std::set`, or throws and leaves the blocks. -/
def Faithful (op : ViewOp V) (c : BitBlockContainer V) : Prop :=
  (∀ i ∈ op.addressed mem c, i < c.mBlocks.elems.length) ∧
  match op.run mem c with
  | .ok _ d => ∀ p, d.bit p = true ↔ op.keysAfter c p
  | .error _ d => d.mBlocks.elems = c.mBlocks.elems

/-- A key below the width, which a `size_t` counts. -/
def KeyFits (c : BitBlockContainer V) (x : Fin (2 ^ 64)) : Prop :=
  x.val < c.size ∧ x.val < V.maxWidth

/-- **The calls that a view answers as it promises.** -/
def Fits (c : BitBlockContainer V) : ViewOp V → Prop
  | insert x => x.val < c.size ∨ V.maxWidth ≤ x.val
  | insertKeys keys =>
      (∀ k ∈ keys, KeyFits c k) ∨
      ∃ before x after, keys = before ++ x :: after ∧ V.maxWidth ≤ x.val ∧
        ∀ k ∈ before, KeyFits c k ∧ c.bit k.val = true
  | insertIota lo len _ => len = 0 ∨ lo + len ≤ c.size ∨ V.maxWidth < lo + len
  | orAssign other => ∀ p, c.size ≤ p → (other.get c).bit p = false
  | xorAssign other => ∀ p, c.size ≤ p → (other.get c).bit p = false

/-! ## 2. A lent span -/

section Lent
variable {mem} {c d : BitBlockContainer V} {x : Fin (2 ^ 64)}

/-- A position lies below the width where its block lies in the span. -/
theorem index_lt_iff (hv : V.storage = .lent) {n : Nat} :
    (BitBlockContainer.indexOffset V n).1 < c.mBlocks.elems.length ↔ n < c.size := by
  have hu : V.unrolls 1 = false := by
    unfold Vehicle.unrolls
    rw [(lent_flags hv).1, Bool.false_and]
  unfold BitBlockContainer.indexOffset
  rw [hu, if_neg (by decide), lent_size hv]
  exact Nat.div_lt_iff_lt_mul V.bits_pos

theorem toIndex_viewKeys : viewKeys.toIndex x = x.val :=
  toSize_of_le (Nat.le_sub_one_of_lt x.isLt)

theorem maxWidth_lt_sizeMax (hv : V.storage = .lent) : V.maxWidth < sizeMax := by
  have htile : tilingBlock w = true := by
    have := V.holds_width
    rw [hv] at this
    exact this
  have hdvd : 8 ∣ V.maxWidth := Dvd.dvd.mul_left (dvd_of_tilingBlock htile) _
  have hle := V.maxWidth_le
  unfold sizeMax at hle ⊢
  omega

/-- All that `guard_key` refuses over a lent span is a position past the widest container. -/
theorem guardKey_lent (hv : V.storage = .lent) {n : Nat} :
    (n < V.maxWidth → SetAdaptor.guardKey viewKeys c n = .ok ()) ∧
    (V.maxWidth ≤ n → ∃ e, SetAdaptor.guardKey viewKeys c n = .error e) := by
  have htop := maxWidth_lt_sizeMax hv
  unfold SetAdaptor.guardKey BitBlockContainer.checkWidth widthSum
  rw [(lent_flags hv).1, if_neg (by decide)]
  constructor
  · intro hlt
    rw [if_neg (show ¬ sizeMax - n < 1 by omega), if_neg (by omega)]
    rfl
  · intro hge
    rw [if_pos (by split <;> omega)]
    exact ⟨_, rfl⟩

theorem doInsert_lent (hv : V.storage = .lent) {n : Nat} (hn : n < V.maxWidth) :
    SetAdaptor.doInsert viewKeys mem n c = .ok (n, (c.insert n).2) (c.insert n).1 := by
  unfold SetAdaptor.doInsert BitBlockContainer.growingInsert
  rw [(guardKey_lent hv).1 hn, (lent_flags hv).2.1]
  rfl

theorem doInsert_refused (mem : Memory) (c : BitBlockContainer V) (hv : V.storage = .lent) {n : Nat}
    (hn : V.maxWidth ≤ n) :
    ∃ e, SetAdaptor.doInsert viewKeys mem n c = .error e c := by
  obtain ⟨e, he⟩ := (guardKey_lent hv (c := c)).2 hn
  unfold SetAdaptor.doInsert
  rw [he]
  exact ⟨e, rfl⟩

end Lent

/-! ## 3. Key by key -/

section Keys
variable {mem} {c d : BitBlockContainer V} {x : Fin (2 ^ 64)} {keys : List (Fin (2 ^ 64))}

/-- The keys as far as the first one that does not fit. -/
theorem first_unfit (c : BitBlockContainer V) : ∀ keys : List (Fin (2 ^ 64)),
    (∀ k ∈ keys, KeyFits c k) ∨
    ∃ before x after, keys = before ++ x :: after ∧ (∀ k ∈ before, KeyFits c k) ∧ ¬ KeyFits c x
  | [] => Or.inl fun k hk => absurd hk List.not_mem_nil
  | x :: keys => by
      by_cases hx : KeyFits c x
      · rcases first_unfit c keys with h | ⟨before, y, after, h1, h2, h3⟩
        · refine Or.inl fun k hk => ?_
          rcases List.mem_cons.mp hk with rfl | hk
          · exact hx
          · exact h k hk
        · refine Or.inr ⟨x :: before, y, after, by rw [h1, List.cons_append], fun k hk => ?_, h3⟩
          rcases List.mem_cons.mp hk with rfl | hk
          · exact hx
          · exact h2 k hk
      · exact Or.inr ⟨[], x, keys, rfl, fun k hk => absurd hk List.not_mem_nil, hx⟩

/-- A key that a `size_t` counts is written, wherever its block is. -/
theorem insertKeys_cons (hv : V.storage = .lent) (hx : x.val < V.maxWidth) :
    SetAdaptor.insertKeys viewKeys mem (x :: keys) c =
        SetAdaptor.insertKeys viewKeys mem keys (c.insert x.val).1 ∧
      addressedByKeys mem (x :: keys) c =
        (BitBlockContainer.indexOffset V x.val).1 :: addressedByKeys mem keys (c.insert x.val).1 := by
  simp only [SetAdaptor.insertKeys, addressedByKeys, toIndex_viewKeys, doInsert_lent hv hx,
    and_self]

theorem insertKeys_refused (mem : Memory) (keys : List (Fin (2 ^ 64))) (c : BitBlockContainer V)
    (hv : V.storage = .lent) (hx : V.maxWidth ≤ x.val) :
    (∃ e, SetAdaptor.insertKeys viewKeys mem (x :: keys) c = .error e c) ∧
      addressedByKeys mem (x :: keys) c = [] := by
  obtain ⟨e, he⟩ := doInsert_refused mem c hv hx
  simp only [SetAdaptor.insertKeys, addressedByKeys, toIndex_viewKeys, he]
  exact ⟨⟨e, rfl⟩, trivial⟩

/-- **Keys that fit go in one after another**, within the span. -/
theorem insertKeys_before (mem : Memory) (hv : V.storage = .lent) (rest : List (Fin (2 ^ 64))) :
    ∀ (before : List (Fin (2 ^ 64))) (c : BitBlockContainer V), (∀ k ∈ before, KeyFits c k) →
    ∃ d, BitBlockContainer.SameWidth c d ∧
      (∀ p, d.bit p = true ↔ c.bit p = true ∨ ∃ k ∈ before, k.val = p) ∧
      SetAdaptor.insertKeys viewKeys mem (before ++ rest) c =
        SetAdaptor.insertKeys viewKeys mem rest d ∧
      ∀ i, i ∈ addressedByKeys mem (before ++ rest) c ↔
        i ∈ before.map (fun k => (BitBlockContainer.indexOffset V k.val).1) ∨
          i ∈ addressedByKeys mem rest d
  | [], c, _ => ⟨c, .refl, fun p => by simp, rfl, fun i => by simp⟩
  | x :: before, c, hfit => by
      obtain ⟨hx, hmax⟩ := hfit x List.mem_cons_self
      have hsw : BitBlockContainer.SameWidth c (c.insert x.val).1 :=
        BitBlockContainer.sameWidth_insert
      obtain ⟨d, h1, h2, h3, h4⟩ := insertKeys_before mem hv rest before (c.insert x.val).1
        fun k hk => by
          unfold KeyFits
          rw [hsw.size]
          exact hfit k (List.mem_cons_of_mem _ hk)
      refine ⟨d, hsw.trans h1, fun p => ?_, ?_, fun i => ?_⟩
      · rw [h2, BitBlockContainer.bit_insert (lent_inv hv).shape hx]
        by_cases hp : p = x.val
        · simp [hp]
        · simp [hp, Ne.symm hp]
      · exact (insertKeys_cons hv hmax).1.trans h3
      · rw [List.cons_append, (insertKeys_cons hv hmax).2, List.map_cons, List.mem_cons,
          List.mem_cons, h4, or_assoc]

/-- **Insertion key by key is faithful exactly where it fits.** -/
theorem insertKeys_faithful_iff (hv : V.storage = .lent) :
    (insertKeys keys : ViewOp V).Faithful mem c ↔ (insertKeys keys : ViewOp V).Fits c := by
  have hin (before : List (Fin (2 ^ 64))) (hfit : ∀ k ∈ before, KeyFits c k) (i : Nat)
      (hi : i ∈ before.map fun k => (BitBlockContainer.indexOffset V k.val).1) :
      i < c.mBlocks.elems.length := by
    obtain ⟨k, hk, rfl⟩ := List.mem_map.mp hi
    exact (index_lt_iff hv).mpr (hfit k hk).1
  constructor
  · intro ⟨hspan, hend⟩
    rcases first_unfit c keys with h | ⟨before, x, after, rfl, hfit, hx⟩
    · exact Or.inl h
    · obtain ⟨d, h1, h2, h3, h4⟩ := insertKeys_before mem hv (x :: after) before c hfit
      have hmax : V.maxWidth ≤ x.val := by
        -- otherwise the key is written past the span
        by_contra hlt
        have haddr : (BitBlockContainer.indexOffset V x.val).1 ∈
            addressedByKeys mem (before ++ x :: after) c := by
          rw [h4, (insertKeys_cons hv (Nat.lt_of_not_le hlt)).2]
          exact Or.inr List.mem_cons_self
        exact hx ⟨(index_lt_iff hv).mp (hspan _ haddr), Nat.lt_of_not_le hlt⟩
      refine Or.inr ⟨before, x, after, rfl, hmax, fun k hk => ⟨hfit k hk, ?_⟩⟩
      obtain ⟨e, he⟩ := (insertKeys_refused mem after d hv hmax).1
      have hrun : (insertKeys (before ++ x :: after) : ViewOp V).run mem c = .error e d := h3.trans he
      rw [hrun] at hend
      have hbit : d.bit k.val = c.bit k.val := by
        unfold BitBlockContainer.bit
        rw [hend]
      rw [← hbit]
      exact (h2 k.val).mpr (Or.inr ⟨k, hk, rfl⟩)
  · intro hfits
    rcases hfits with hfit | ⟨before, x, after, rfl, hmax, hheld⟩
    · obtain ⟨d, h1, h2, h3, h4⟩ := insertKeys_before mem hv [] keys c hfit
      rw [List.append_nil] at h3 h4
      refine ⟨fun i hi => ?_, ?_⟩
      · rcases (h4 i).mp hi with hi | hi
        · exact hin keys hfit i hi
        · exact absurd hi List.not_mem_nil
      · have hrun : (insertKeys keys : ViewOp V).run mem c = .ok () d := h3
        rw [hrun]
        exact h2
    · have hfit : ∀ k ∈ before, KeyFits c k := fun k hk => (hheld k hk).1
      obtain ⟨d, h1, h2, h3, h4⟩ := insertKeys_before mem hv (x :: after) before c hfit
      obtain ⟨⟨e, he⟩, hnone⟩ := insertKeys_refused mem after d hv hmax
      refine ⟨fun i hi => ?_, ?_⟩
      · rcases (h4 i).mp hi with hi | hi
        · exact hin before hfit i hi
        · rw [hnone] at hi
          exact absurd hi List.not_mem_nil
      · have hrun : (insertKeys (before ++ x :: after) : ViewOp V).run mem c = .error e d :=
          h3.trans he
        rw [hrun]
        refine bitAt_ext h1.length fun p _ => ?_
        show d.bit p = c.bit p
        rw [Bool.eq_iff_iff, h2]
        constructor
        · intro hp
          rcases hp with hp | ⟨k, hk, rfl⟩
          · exact hp
          · exact (hheld k hk).2
        · exact Or.inl

end Keys

/-! ## 4. The other calls -/

section Others
variable {c : BitBlockContainer V}

/-- **Consecutive keys**: the last one decides, before anything is written. -/
theorem insertIota_faithful_iff (mem : Memory) (hv : V.storage = .lent) {lo len : Nat}
    {htop : lo + len ≤ 2 ^ 64} : (insertIota lo len htop : ViewOp V).Faithful mem c ↔
      (insertIota lo len htop : ViewOp V).Fits c := by
  show (∀ i ∈ addressedByIota mem lo len c, i < c.mBlocks.elems.length) ∧
    (match SetAdaptor.insertIota viewKeys mem lo len c with
      | .ok _ d => ∀ p, d.bit p = true ↔ (c.bit p = true ∨ lo ≤ p ∧ p < lo + len)
      | .error _ d => d.mBlocks.elems = c.mBlocks.elems) ↔
    (len = 0 ∨ lo + len ≤ c.size ∨ V.maxWidth < lo + len)
  unfold SetAdaptor.insertIota addressedByIota
  by_cases hlen : len = 0
  · refine iff_of_true ?_ (Or.inl hlen)
    rw [if_pos hlen, if_pos hlen]
    exact ⟨fun i hi => absurd hi List.not_mem_nil, fun p =>
      ⟨Or.inl, fun hp => hp.resolve_right (by omega)⟩⟩
  · rw [if_neg hlen, if_neg hlen, SetAdaptor.widthSum_last htop]
    dsimp only
    by_cases hmax : V.maxWidth < lo + len
    · obtain ⟨e, he⟩ := doInsert_refused mem c hv (show V.maxWidth ≤ lo + (len - 1) by omega)
      refine iff_of_true ?_ (Or.inr (Or.inr hmax))
      rw [he]
      exact ⟨fun i hi => absurd hi List.not_mem_nil, rfl⟩
    · rw [doInsert_lent hv (by omega)]
      constructor
      · intro ⟨hspan, _⟩
        have hlast := (index_lt_iff hv).mp (hspan _ List.mem_cons_self)
        exact Or.inr (Or.inl (by omega))
      · intro hfits
        have hle : lo + len ≤ c.size := by omega
        have hlast : lo + (len - 1) < c.size := by omega
        have hsw : BitBlockContainer.SameWidth c (c.insert (lo + (len - 1))).1 :=
          BitBlockContainer.sameWidth_insert
        refine ⟨fun i hi => ?_, fun p => ?_⟩
        · rcases List.mem_cons.mp hi with rfl | hi
          · exact (index_lt_iff hv).mpr hlast
          · rw [List.mem_range'_1] at hi
            have hdiv : (lo + (len - 1)) / w < c.mBlocks.elems.length := by
              rw [Nat.div_lt_iff_lt_mul V.bits_pos, ← lent_size hv]
              exact hlast
            omega
        · have hshape := hsw.shape (lent_inv hv).shape
          rw [BitBlockContainer.bit_setRange hshape (by rw [hsw.size]; exact hle),
            BitBlockContainer.bit_insert (lent_inv hv).shape hlast]
          by_cases hp : lo ≤ p ∧ p < lo + len
          · simp [hp]
          · rw [if_neg hp, if_neg (by omega)]
            exact ⟨Or.inl, fun h => h.resolve_right hp⟩

/-- **Union and symmetric difference**: what the other holds past the width is dropped. -/
theorem combine_faithful_iff (hv : V.storage = .lent) {other : Operand V}
    {op : BitVec w → BitVec w → BitVec w} {g : Bool → Bool → Bool}
    (hop : BitBlockContainer.ActsBitwise op g) (hg : g false false = false)
    (hg' : g false true = true) :
    (∀ p, (c.combine other op).bit p = g (c.bit p) ((other.get c).bit p)) ↔
      ∀ p, c.size ≤ p → (other.get c).bit p = false := by
  have ho : (other.get c).Inv := lent_inv hv
  constructor
  · intro h p hp
    by_contra hb
    have hm := (BitBlockContainer.combine_maps other op (lent_inv hv).shape ho.shape).1
    have hd := (lent_inv hv (c := c.combine other op)).clear p (by rw [hm.width.size]; exact hp)
    rw [h, (lent_inv hv).clear p hp, Bool.not_eq_false _ |>.mp hb, hg'] at hd
    cases hd
  · intro h p
    exact (BitBlockContainer.combine_spec other (lent_inv hv) ho hop
      fun q hq => by rw [h q hq, hg]).2.1 p

theorem admitThen_lent (mem : Memory) (hv : V.storage = .lent) {other : Operand V}
    {op : BitVec w → BitVec w → BitVec w} :
    BitBlockContainer.admitThen mem other op c = .ok () (c.combine other op) := by
  unfold BitBlockContainer.admitThen BitBlockContainer.growToAdmit
  rw [(lent_flags hv).2.1, if_neg (by decide)]

theorem addressed_range (hv : V.storage = .lent) (i : Nat) (hi : i ∈ List.range c.numBlocks) :
    i < c.mBlocks.elems.length := by
  rw [← (lent_inv hv).shape.numBlocks]
  exact List.mem_range.mp hi

/-- One key is a range of one. -/
theorem insert_fits_iff {x : Fin (2 ^ 64)} :
    (insertKeys [x] : ViewOp V).Fits c ↔ (insert x : ViewOp V).Fits c := by
  show (∀ k ∈ [x], KeyFits c k) ∨ _ ↔ x.val < c.size ∨ V.maxWidth ≤ x.val
  constructor
  · intro h
    rcases h with h | ⟨before, y, after, he, hmax, -⟩
    · exact Or.inl (h x List.mem_cons_self).1
    · have hy : y ∈ [x] := by
        rw [he]
        exact List.mem_append_right _ List.mem_cons_self
      rw [← List.mem_singleton.mp hy]
      exact Or.inr hmax
  · intro h
    by_cases hmax : V.maxWidth ≤ x.val
    · exact Or.inr ⟨[], x, [], rfl, hmax, fun k hk => absurd hk List.not_mem_nil⟩
    · refine Or.inl fun k hk => ?_
      rw [List.mem_singleton.mp hk]
      exact ⟨h.resolve_right hmax, Nat.lt_of_not_le hmax⟩

/-- A combination bit by bit, as a call. -/
theorem combined_faithful_iff (mem : Memory) (hv : V.storage = .lent) {call : ViewOp V}
    {other : Operand V} {op : BitVec w → BitVec w → BitVec w} {g : Bool → Bool → Bool}
    (hop : BitBlockContainer.ActsBitwise op g) (hg : g false false = false)
    (hg' : g false true = true)
    (hrun : call.run mem c = BitBlockContainer.admitThen mem other op c)
    (haddr : call.addressed mem c = List.range c.numBlocks)
    (hkeys : ∀ p, call.keysAfter c p ↔ g (c.bit p) ((other.get c).bit p) = true) :
    call.Faithful mem c ↔ ∀ p, c.size ≤ p → (other.get c).bit p = false := by
  rw [← combine_faithful_iff hv hop hg hg']
  unfold Faithful
  rw [hrun, haddr, admitThen_lent mem hv]
  constructor
  · intro ⟨_, h⟩ p
    rw [Bool.eq_iff_iff]
    exact (h p).trans (hkeys p)
  · intro h
    refine ⟨addressed_range hv, fun p => ?_⟩
    rw [h p]
    exact (hkeys p).symm

/-- **A view answers a call as it promises exactly where the call fits.** -/
theorem faithful_iff (mem : Memory) (hv : V.storage = .lent) (c : BitBlockContainer V)
    (op : ViewOp V) : op.Faithful mem c ↔ op.Fits c := by
  cases op with
  | insert x =>
      have hsame : (insert x : ViewOp V).Faithful mem c ↔ (insertKeys [x] : ViewOp V).Faithful mem c := by
        simp only [Faithful, run, addressed, keysAfter, List.mem_singleton, exists_eq_left]
      exact hsame.trans ((insertKeys_faithful_iff hv).trans insert_fits_iff)
  | insertKeys keys => exact insertKeys_faithful_iff hv
  | insertIota lo len htop => exact insertIota_faithful_iff mem hv
  | orAssign other =>
      refine combined_faithful_iff mem hv BitBlockContainer.actsBitwise_or rfl rfl rfl rfl fun p => ?_
      rw [Bool.or_eq_true]
      exact Iff.rfl
  | xorAssign other =>
      refine combined_faithful_iff mem hv BitBlockContainer.actsBitwise_xor rfl rfl rfl rfl fun p => ?_
      rw [bne_iff_ne]
      exact Iff.rfl

end Others

/-! ## 5. Two bytes lent -/

/-- `bit_set_view` of a span of bytes. -/
def byteSpan : Vehicle 8 where
  storage := .lent
  bits_pos := byte_pos
  bits_int := byte_int
  holds_width := rfl
  whole_blocks := rfl

/-- A view of the two bytes. -/
def spanOf (elems : List (BitVec 8)) : BitBlockContainer byteSpan where
  mSize := 0
  mCount := 0
  mBlocks := { elems := elems, reserved := 0, alloc := 0 }

/-- Fifteen is a position of two bytes. -/
theorem faithful_iff_fifteen : (insert 15 : ViewOp byteSpan).Faithful .ample (spanOf [5, 0]) :=
  (faithful_iff .ample rfl (spanOf [5, 0]) (insert 15)).mpr (Or.inl (by decide))

/-- **A key past a lent span is neither kept nor refused**: sixteen is written past the two bytes,
    and a union with a longer span drops what it holds there, and both return. -/
theorem view_drops : ¬ (insert 16 : ViewOp byteSpan).Faithful .ample (spanOf [5, 0]) ∧
    (∃ d, (orAssign (.of (spanOf [0, 0, 1])) : ViewOp byteSpan).run .ample (spanOf [5, 0]) = .ok () d ∧
      d.bit 16 = false) :=
  ⟨fun h => absurd (h.1 2 (by decide)) (by decide), _, rfl, by decide⟩

end ViewOp

end XstdBits
