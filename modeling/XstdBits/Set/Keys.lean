/-
  File: XstdBits/Set/Keys.lean
  Subject: the positions of a set name keys, and what can put one there that does not.

  * `KeyOp` is one modifier: an insertion, an erasure or a set operator (`SetOp`), an operator with
    one enumerator, the complement, or a shift. A step may end in a throw.
  * `Within U c`: every set position of `c` is below the universe `U`, which is to say that it names
    a key (`within_iff`).
  * only `<<=` and `~` write a position that no key named. `KeyOp.Keeps` is what they must not do;
    `KeyOp.step_within` is the step and `KeyRun.within` carries it over every run.
  * where the mapping names a size no step does it (`KeyRun.closed`): a set of flags holds one-bit
    values over every run (`flags_one_bit`).
-/
import XstdBits.Set.Translate
import XstdBits.Set.Walk

namespace XstdBits

namespace SetAdaptor
variable {w : Nat} {V : Vehicle w} {Key : Type} (M : KeyMapping Key)

/-! ## 1. The operators with an enumerator, and the complement -/

/-- What `require_key` asks of a position in the universe. -/
def requireHeld (x : Nat) (c : BitBlockContainer V) : Except Exn Unit :=
  if V.hasStaticSize || V.hasStaticCapacity then
    if x < maxSize M c then .ok () else .error .abort
  else (BitBlockContainer.checkWidth V (widthSum x 1)).map fun _ => ()

/-- `require_key`: a value that is no key, or is past what the type holds, is an assertion. -/
def requireKey (x : Nat) (c : BitBlockContainer V) : Except Exn Unit :=
  match M.size with
  | .some n => if x < n then requireHeld M x c else .error .abort
  | .none => requireHeld M x c

/-- `operator&=` with one key: the mask of its position, or a test and a clear. -/
def andKey (key : Key) : Action V Unit := fun c =>
  let pos := M.toIndex key
  if V.hasStaticSize then
    if pos < c.size then
      .ok () (c.andAssign (.of ((BitBlockContainer.default V 0).resetAll.set pos)))
    else .error .abort c
  else if pos < maxSize M c then
    let kept := decide (pos < c.size) && c.test pos
    let cleared := c.fill false
    .ok () (if kept then cleared.assign pos true else cleared)
  else .error .abort c

/-- `operator|=` with one key. -/
def orKey (mem : Memory) (key : Key) : Action V Unit := fun c =>
  match requireKey M (M.toIndex key) c with
  | .error e => .error e c
  | .ok _ =>
      match BitBlockContainer.growingInsert mem (M.toIndex key) c with
      | .error e d => .error e d
      | .ok _ d => .ok () d

/-- `operator^=` with one key, the `complement` of it: the storage's flip inside the width. -/
def xorKey (mem : Memory) (key : Key) : Action V Unit := fun c =>
  let pos := M.toIndex key
  match requireKey M pos c with
  | .error e => .error e c
  | .ok _ =>
      if !V.hasStaticSize ∧ c.size ≤ pos then
        match BitBlockContainer.growingInsert mem pos c with
        | .error e d => .error e d
        | .ok _ d => .ok () d
      else if pos < c.size then .ok () (c.flip pos)
      else .error .abort c

/-- `operator-=` with one key. -/
def subKey (key : Key) : Action V Unit := fun c =>
  let pos := M.toIndex key
  if V.hasStaticSize then
    if pos < c.size then .ok () (c.erase pos).1 else .error .abort c
  else if pos < maxSize M c then
    .ok () (if pos < c.size then (c.erase pos).1 else c)
  else .error .abort c

/-- `operator~`, of a width the type fixes. -/
def complement : Action V Unit := fun c => .ok () c.flipAll

/-- `erase(x)` of one key after another. -/
def eraseKeys : List Key → Action V Unit
  | [] => fun c => .ok () c
  | key :: keys => fun c =>
      match eraseKey M key c with
      | .error e d => .error e d
      | .ok _ d => eraseKeys keys d

/-! ## 2. Positions and keys -/

/-- A position names a key, which ranks there. -/
def NamesKey (p : Nat) : Prop :=
  ∃ k, M.fromIndex p = some k ∧ M.isKey k = true ∧ M.toIndex k = p

/-- **Every set position is in the universe**, over a valid container. -/
structure Within (U : Nat) (c : BitBlockContainer V) : Prop where
  inv : c.Inv
  lt : ∀ p, c.bit p = true → p < U

/-- Where a mapping names a size, a width or a capacity the type fixes is that size. -/
def FillsUniverse (V : Vehicle w) (M : KeyMapping Key) : Prop :=
  ∀ n, M.size = some n → V.hasStaticSize = true ∨ V.hasStaticCapacity = true → V.extent = n

section Within
variable {M} {U : Nat} {c d : BitBlockContainer V} {mem : Memory} {n : Nat} {desc : Bool}

theorem namesKey_iff [LT Key] (hM : M.Bijective U) {p : Nat} : NamesKey M p ↔ p < U := by
  constructor
  · intro ⟨k, _, hk, hp⟩
    rw [← hp]
    exact hM.index_lt k hk
  · intro hp
    exact hM.to_from p hp

theorem within_iff [LT Key] (hM : M.Bijective U) (h : c.Inv) :
    Within U c ↔ ∀ p, c.bit p = true → NamesKey M p := by
  constructor
  · intro hc p hp
    exact (namesKey_iff hM).mpr (hc.lt p hp)
  · intro hc
    exact ⟨h, fun p hp => (namesKey_iff hM).mp (hc p hp)⟩

/-- Fewer positions are within the universe still. -/
theorem Within.sub (h : Within U c) (hd : d.Inv) (hbit : ∀ p, d.bit p = true → c.bit p = true) :
    Within U d :=
  ⟨hd, fun p hp => h.lt p (hbit p hp)⟩

/-- The positions of keys are within the universe. -/
theorem Within.add [LT Key] (hM : M.Bijective U) (h : Within U c) (hd : d.Inv)
    (hbit : ∀ p, d.bit p = true → c.bit p = true ∨ ∃ k, M.isKey k = true ∧ M.toIndex k = p) :
    Within U d := by
  refine ⟨hd, fun p hp => ?_⟩
  rcases hbit p hp with hb | ⟨k, hk, hkp⟩
  · exact h.lt p hb
  · rw [← hkp]
    exact hM.index_lt k hk

/-- `max_size()` of a mapping that names a size lies in its universe. -/
theorem maxSize_le_universe [LT Key] (hM : M.Bijective U) (hw : FillsUniverse V M)
    (hv : V.hasStoredSize = true ∨ V.hasStaticSize = true) (hn : M.size = some n) :
    maxSize M c ≤ U := by
  have hU := hM.size_eq n hn
  unfold maxSize
  split
  · rename_i hs
    rw [hw n hn (Or.inl hs), hU]
  · rename_i hs
    split
    · rename_i hc
      rw [hw n hn (Or.inr hc), hU]
    · rw [if_pos (hv.resolve_right hs), hn, hU]
      exact Nat.min_le_left _ _

theorem maxSize_static (hs : V.hasStaticSize = true) : maxSize M c = c.size := by
  unfold maxSize BitBlockContainer.size
  rw [if_pos hs, if_pos hs]

/-! ## 3. What the operators leave -/

theorem requireKey_lt (hv : V.hasStoredSize = true ∨ V.hasStaticSize = true)
    (hr : requireKey M n c = .ok ()) : V.hasStoredSize = true ∨ n < c.size := by
  refine hv.imp_right fun hs => ?_
  have hheld : requireHeld M n c = .ok () := by
    unfold requireKey at hr
    split at hr
    · split at hr
      · exact hr
      · cases hr
    · exact hr
  unfold requireHeld at hheld
  rw [hs, Bool.true_or, if_pos rfl, maxSize_static hs] at hheld
  by_contra hge
  rw [if_neg hge] at hheld
  cases hheld

theorem andKey_ok (h : c.Inv) {key : Key} (hr : andKey M key c = .ok () d) :
    d.Inv ∧ ∀ p, d.bit p = (decide (p = M.toIndex key) && c.bit p) := by
  unfold andKey at hr
  dsimp only at hr
  split at hr
  · rename_i hs
    split at hr
    · rename_i hlt
      cases hr
      have hz := BitBlockContainer.default_spec (V := V) (Or.inr hs) 0
      have hsize : (BitBlockContainer.default V 0).resetAll.size = c.size := by
        unfold BitBlockContainer.size
        rw [if_pos hs, if_pos hs]
      have hreset := BitBlockContainer.resetAll_spec hz.1.shape
      have hmask := hz.1.resetAll.set (n := M.toIndex key) (by rw [hsize]; exact hlt)
      obtain ⟨-, hbit, hinv⟩ := BitBlockContainer.combine_spec
        (.of ((BitBlockContainer.default V 0).resetAll.set (M.toIndex key))) h hmask
        BitBlockContainer.actsBitwise_and fun _ _ => rfl
      refine ⟨hinv, fun p => (hbit p).trans ?_⟩
      show (c.bit p && ((BitBlockContainer.default V 0).resetAll.set (M.toIndex key)).bit p) = _
      rw [BitBlockContainer.bit_set hz.1.resetAll.shape (by rw [hsize]; exact hlt), hreset.2.1]
      by_cases hp : p = M.toIndex key <;> simp [hp]
    · cases hr
  · split at hr
    · obtain ⟨hsw, hbit, hinv⟩ := BitBlockContainer.fill_spec h (v := false)
      cases hr
      by_cases hkept : (decide (M.toIndex key < c.size) && c.test (M.toIndex key)) = true
      · rw [if_pos hkept]
        rw [Bool.and_eq_true, decide_eq_true_eq] at hkept
        rw [BitBlockContainer.test_eq h.shape hkept.1] at hkept
        have hlt : M.toIndex key < (c.fill false).size := by
          rw [hsw.size]
          exact hkept.1
        refine ⟨hinv.assign hlt, fun p => ?_⟩
        rw [BitBlockContainer.bit_assign hinv.shape hlt, hbit]
        by_cases hp : p = M.toIndex key
        · simp [hp, hkept.2]
        · simp [hp]
      · rw [if_neg hkept]
        refine ⟨hinv, fun p => ?_⟩
        rw [hbit, Bool.and_false]
        symm
        by_contra hne
        rw [Bool.not_eq_false, Bool.and_eq_true, decide_eq_true_eq] at hne
        obtain ⟨rfl, hb⟩ := hne
        have hlt := h.lt_size hb
        rw [BitBlockContainer.test_eq h.shape hlt, hb, decide_eq_true hlt] at hkept
        exact hkept rfl
    · cases hr

theorem orKey_ok (h : c.Inv) (hv : V.hasStoredSize = true ∨ V.hasStaticSize = true) {key : Key}
    (hr : orKey M mem key c = .ok () d) :
    d.Inv ∧ ∀ p, d.bit p = if p = M.toIndex key then true else c.bit p := by
  unfold orKey at hr
  split at hr
  · cases hr
  · rename_i hreq
    split at hr
    · cases hr
    · rename_i hg
      cases hr
      obtain ⟨h1, -, -, h4⟩ := BitBlockContainer.growingInsert_ok h (requireKey_lt hv hreq) hg
      exact ⟨h1, h4⟩

theorem orKey_strong {key : Key} : Strong (orKey M mem key) c := by
  intro e t he
  unfold orKey at he
  split at he
  · cases he
    rfl
  · split at he
    · rename_i hg
      cases he
      exact BitBlockContainer.growingInsert_strong _ _ hg
    · cases he

theorem xorKey_ok (h : c.Inv) (hv : V.hasStoredSize = true ∨ V.hasStaticSize = true) {key : Key}
    (hr : xorKey M mem key c = .ok () d) :
    d.Inv ∧ ∀ p, d.bit p = if p = M.toIndex key then !c.bit p else c.bit p := by
  unfold xorKey at hr
  dsimp only at hr
  split at hr
  · cases hr
  · rename_i hreq
    split at hr
    · rename_i hgrow
      split at hr
      · cases hr
      · rename_i hg
        cases hr
        obtain ⟨h1, -, -, h4⟩ := BitBlockContainer.growingInsert_ok h (requireKey_lt hv hreq) hg
        refine ⟨h1, fun p => ?_⟩
        rw [h4]
        split
        · rename_i hp
          rw [hp, h.clear _ hgrow.2]
          rfl
        · rfl
    · split at hr
      · rename_i hlt
        cases hr
        refine ⟨h.flip hlt, fun p => ?_⟩
        rw [BitBlockContainer.bit_flip h.shape hlt]
        split
        · rename_i hp
          rw [hp]
        · rfl
      · cases hr

theorem subKey_ok (h : c.Inv) {key : Key} (hr : subKey M key c = .ok () d) :
    d.Inv ∧ ∀ p, d.bit p = if p = M.toIndex key then false else c.bit p := by
  have hin (hlt : M.toIndex key < c.size) : (c.erase (M.toIndex key)).1.Inv ∧
      ∀ p, (c.erase (M.toIndex key)).1.bit p = if p = M.toIndex key then false else c.bit p :=
    ⟨h.erase hlt, fun p => BitBlockContainer.bit_erase h.shape hlt⟩
  unfold subKey at hr
  dsimp only at hr
  split at hr
  · split at hr
    · rename_i hlt
      cases hr
      exact hin hlt
    · cases hr
  · split at hr
    · cases hr
      by_cases hlt : M.toIndex key < c.size
      · rw [if_pos hlt]
        exact hin hlt
      · rw [if_neg hlt]
        refine ⟨h, fun p => ?_⟩
        split
        · rename_i hp
          rw [hp, h.clear _ (by omega)]
        · rfl
    · cases hr

/-- What a left shift leaves, of a fixed width too. -/
theorem shl_bit (h : c.Inv) (hv : V.hasStoredSize = true ∨ V.hasStaticSize = true)
    (hr : shl M mem n c = .ok () d) : d.Inv ∧ ∀ p,
      d.bit p = (decide (n ≤ p ∧ p < maxSize M c) && c.bit (p - n)) := by
  by_cases hs : V.hasStaticSize = true
  · unfold shl at hr
    rw [if_pos hs] at hr
    split at hr
    · rename_i hn
      cases hr
      refine ⟨h.shlAssign hn, fun p => ?_⟩
      rw [BitBlockContainer.bit_shlAssign h.shape hn, maxSize_static hs]
    · cases hr
  · have hstored := hv.resolve_right hs
    by_cases hz : V.hasZeroCapacity = true
    · -- a capacity of nought holds no position to move
      unfold shl at hr
      rw [if_neg hs, if_pos hz] at hr
      cases hr
      obtain ⟨hc, h0⟩ := BitBlockContainer.capacity_of_zero hz
      have hle := h.capacity hc
      have hnone (p : Nat) : c.bit p = false := h.clear p (by omega)
      refine ⟨h, fun p => ?_⟩
      rw [hnone, hnone, Bool.and_false]
    · have hn : n < maxSize M c := by
        by_contra hge
        unfold shl at hr
        rw [if_neg hs, if_neg hz, if_neg hge] at hr
        cases hr
      obtain ⟨h1, h2, -⟩ := shl_ok h hstored hn hr
      exact ⟨h1, h2⟩

/-- Erasing keys of a set one by one leaves the positions of the others. -/
theorem eraseKeys_ok :
    ∀ {keys : List Key} {c : BitBlockContainer V}, c.Inv → (∀ k ∈ keys, M.isKey k = true) →
      ∃ d, eraseKeys M keys c = .ok () d ∧ d.Inv ∧
        ∀ p, d.bit p = true ↔ c.bit p = true ∧ ∀ k ∈ keys, M.toIndex k ≠ p
  | [], c, h, _ => ⟨c, rfl, h, fun p => by simp⟩
  | key :: keys, c, h, hkeys => by
      have hone : ∃ r d, eraseKey M key c = .ok r d ∧ d.Inv ∧
          ∀ p, d.bit p = if p = M.toIndex key then false else c.bit p := by
        unfold eraseKey
        rw [hkeys key List.mem_cons_self, if_neg (by decide)]
        split
        · refine ⟨0, c, rfl, h, fun p => ?_⟩
          split
          · rename_i hp
            rw [hp, h.clear _ (by assumption)]
          · rfl
        · rename_i hlt
          rw [Nat.not_le] at hlt
          exact ⟨_, _, rfl, h.erase hlt, fun p => BitBlockContainer.bit_erase h.shape hlt⟩
      obtain ⟨r, e, he, hinv, hbit⟩ := hone
      obtain ⟨d, hd, hdinv, hdbit⟩ := eraseKeys_ok hinv fun k hk => hkeys k (List.mem_cons_of_mem _ hk)
      refine ⟨d, ?_, hdinv, fun p => ?_⟩
      · unfold eraseKeys
        rw [he]
        exact hd
      · rw [hdbit, hbit]
        simp only [List.mem_cons, forall_eq_or_imp]
        by_cases hp : p = M.toIndex key
        · simp [hp]
        · simp [hp, Ne.symm hp]

/-- **However an insertion of several keys ends**, it adds none but their positions. -/
theorem insertKeys_adds (hv : V.hasStoredSize = true ∨ V.hasStaticSize = true) {e : Exn} :
    ∀ {keys : List Key} {c : BitBlockContainer V}, c.Inv →
      insertKeys M mem keys c = .error e d →
      d.Inv ∧ ∀ p, d.bit p = true → c.bit p = true ∨ ∃ k ∈ keys, M.toIndex k = p
  | [], c, _, hr => by cases hr
  | key :: keys, c, h, hr => by
      unfold insertKeys at hr
      split at hr
      · rename_i hi
        cases hr
        rw [doInsert_strong _ _ hi]
        exact ⟨h, fun p hp => Or.inl hp⟩
      · rename_i r g hi
        obtain ⟨h1, -, -, h4⟩ := doInsert_ok h hv hi
        obtain ⟨k1, k2⟩ := insertKeys_adds hv h1 hr
        refine ⟨k1, fun p hp => ?_⟩
        rcases k2 p hp with hb | ⟨k, hk, hkp⟩
        · rw [h4] at hb
          split at hb
          · rename_i hpk
            exact Or.inr ⟨key, List.mem_cons_self, hpk.symm⟩
          · exact Or.inl hb
        · exact Or.inr ⟨k, List.mem_cons_of_mem _ hk, hkp⟩

end Within

end SetAdaptor

open SetAdaptor

/-! ## 4. The operations -/

/-- One modifier of an owning set. -/
inductive KeyOp {w : Nat} (V : Vehicle w) (Key : Type) [LT Key] (desc : Bool) where
  | op (op : SetOp V Key desc)
  | andKey (key : Key) | orKey (key : Key) | xorKey (key : Key) | subKey (key : Key)
  | complement
  | shl (n : Nat) | shr (n : Nat)

namespace KeyOp
variable {w : Nat} {V : Vehicle w} {Key : Type} [LinearOrder Key] {desc : Bool}
  (M : KeyMapping Key) {U : Nat} {c d : BitBlockContainer V} {mem : Memory} {asserts : Bool}

/-- What the call asks: of a set of keys what `std::set` does, of an enumerator that it is a key, of
    the complement a width that the type fixes. -/
def Pre (c : BitBlockContainer V) : KeyOp V Key desc → Prop
  | op o => ∀ s, Represents M desc c s → o.Pre M s
  | andKey key => M.isKey key = true
  | orKey key => M.isKey key = true
  | xorKey key => M.isKey key = true
  | subKey key => M.isKey key = true
  | complement => V.hasStaticSize = true
  | _ => True

/-- **What keeps the positions within an open universe**: no key is carried past its end to a
    position below `max_size()`, and no complement is of a width past it. -/
def Keeps (U : Nat) (c : BitBlockContainer V) : KeyOp V Key desc → Prop
  | shl n => M.size = none → ∀ p, c.bit p = true → p + n < maxSize M c → p + n < U
  | complement => M.size = none → c.size ≤ U
  | _ => True

def run (asserts : Bool) (mem : Memory) : KeyOp V Key desc → Action V Unit
  | op o => fun c =>
      match o.run M asserts mem c with
      | .error e d => .error e d
      | .ok _ d => .ok () d
  | andKey key => SetAdaptor.andKey M key
  | orKey key => SetAdaptor.orKey M mem key
  | xorKey key => SetAdaptor.xorKey M mem key
  | subKey key => SetAdaptor.subKey M key
  | complement => SetAdaptor.complement
  | shl n => SetAdaptor.shl M mem n
  | shr n => SetAdaptor.shr M n

variable {M}

/-! ## 5. One step -/

/-- **A completed set operation stays within the universe.** -/
theorem op_within (hv : V.storage ≠ .lent) (hM : M.Bijective U) (h : Within U c)
    {o : SetOp V Key desc} (hp : ∀ s, Represents M desc c s → o.Pre M s) {r : SetRet Nat}
    (hr : o.run M asserts mem c = .ok r d) : Within U d := by
  obtain ⟨s, hs⟩ := exists_represents desc hM h.inv h.lt
  have hd := (SetOp.step hv hM hs (hp s hs) hr).1
  refine ⟨hd.inv, fun p hb => ?_⟩
  obtain ⟨k, hk, hkp⟩ := (hd.bit p).mp hb
  rw [← hkp]
  exact hM.index_lt k (hd.isKey k hk)

theorem dropped_strong {α : Type} {a : Action V α} (ha : Strong a c) :
    Strong (SetOp.dropped a) c := by
  intro e t he
  unfold SetOp.dropped at he
  split at he
  · cases he
  · rename_i hx
    cases he
    exact ha _ _ hx

theorem returned_strong {α : Type} {a : Action V α} {f : α → SetRet Nat} (ha : Strong a c) :
    Strong (SetOp.returned a f) c := by
  intro e t he
  unfold SetOp.returned at he
  split at he
  · cases he
  · rename_i hx
    cases he
    exact ha _ _ hx

theorem strong_ok {α : Type} {a : Action V α} {x : α} (ha : a c = .ok x d) : Strong a c := by
  intro e t he
  rw [ha] at he
  cases he

/-- **A set operation that throws stays within the universe.** -/
theorem op_thrown (hv : V.storage ≠ .lent) (hM : M.Bijective U) (h : Within U c)
    {o : SetOp V Key desc} (hp : ∀ s, Represents M desc c s → o.Pre M s) {e : Exn}
    (hr : o.run M asserts mem c = .error e d) : Within U d := by
  have howned := V.owned_of_not_lent hv
  have hsame (hs : Strong (o.run M asserts mem) c) : Within U d := by
    rw [hs e d hr]
    exact h
  cases o with
  | insert key => exact hsame (returned_strong doInsert_strong)
  | insertKeys keys =>
      obtain ⟨s, hs⟩ := exists_represents desc hM h.inv h.lt
      have hkeys : ∀ k ∈ keys, M.isKey k = true := hp s hs
      unfold SetOp.run SetOp.dropped at hr
      dsimp only at hr
      split at hr
      · cases hr
      · rename_i hx
        cases hr
        obtain ⟨h1, h2⟩ := insertKeys_adds howned h.inv hx
        refine h.add hM h1 fun p hb => (h2 p hb).imp_right fun ⟨k, hk, hkp⟩ => ?_
        exact ⟨k, hkeys k hk, hkp⟩
  | insertIota lo len keys =>
      refine hsame (dropped_strong fun e t he => ?_)
      unfold insertIota at he
      dsimp only at he
      split at he
      · cases he
      · split at he
        · rename_i hi
          cases he
          exact doInsert_strong _ _ hi
        · cases he
  | eraseKey key =>
      refine hsame (returned_strong fun e t he => ?_)
      unfold eraseKey at he
      split at he
      · cases he
      · split at he <;> cases he
  | eraseAt key =>
      refine hsame (returned_strong fun e t he => ?_)
      unfold eraseAt at he
      split at he
      · cases he
        rfl
      · cases he
  | eraseRange first last =>
      refine hsame ?_
      intro e t he
      refine returned_strong (a := eraseRange M desc asserts (posOf M c first) (posOf M c last))
        (fun e t he => ?_) e t he
      unfold SetAdaptor.eraseRange at he
      split at he
      · cases he
        rfl
      · split at he <;> cases he
  | popFront => exact hsame (dropped_strong (a := popFront desc) (strong_ok rfl))
  | popBack => exact hsame (dropped_strong (a := popBack desc) (strong_ok rfl))
  | clear => exact hsame (dropped_strong (a := clear) (strong_ok rfl))
  | orAssign other keys =>
      exact hsame (dropped_strong (a := orAssign mem other) BitBlockContainer.admitThen_strong)
  | andAssign other keys => exact hsame (dropped_strong (a := andAssign other) (strong_ok rfl))
  | xorAssign other keys =>
      exact hsame (dropped_strong (a := xorAssign mem other) BitBlockContainer.admitThen_strong)
  | subAssign other keys => exact hsame (dropped_strong (a := subAssign other) (strong_ok rfl))

/-- **A step that throws stays within the universe.** -/
theorem thrown_within (hv : V.storage ≠ .lent) (hM : M.Bijective U) (h : Within U c)
    {o : KeyOp V Key desc} (hp : o.Pre M c) {e : Exn}
    (hr : o.run M asserts mem c = .error e d) : Within U d := by
  have hsame (hs : d = c) : Within U d := by
    rw [hs]
    exact h
  cases o with
  | op o =>
      simp only [run] at hr
      split at hr
      · rename_i he
        cases hr
        exact op_thrown hv hM h hp he
      · cases hr
  | andKey key =>
      simp only [run, SetAdaptor.andKey] at hr
      split at hr
      · split at hr
        · cases hr
        · cases hr
          exact h
      · split at hr
        · cases hr
        · cases hr
          exact h
  | orKey key => exact hsame (orKey_strong _ _ hr)
  | xorKey key =>
      simp only [run, SetAdaptor.xorKey] at hr
      split at hr
      · cases hr
        exact h
      · split at hr
        · split at hr
          · rename_i hg
            cases hr
            exact hsame (BitBlockContainer.growingInsert_strong _ _ hg)
          · cases hr
        · split at hr
          · cases hr
          · cases hr
            exact h
  | subKey key =>
      simp only [run, SetAdaptor.subKey] at hr
      split at hr
      · split at hr
        · cases hr
        · cases hr
          exact h
      · split at hr
        · cases hr
        · cases hr
          exact h
  | complement => cases hr
  | shl n =>
      refine hsame ?_
      simp only [run, SetAdaptor.shl] at hr
      split at hr
      · split at hr
        · cases hr
        · cases hr
          rfl
      · split at hr
        · cases hr
        · split at hr
          · split at hr
            · cases hr
            · split at hr
              · rename_i hz
                cases hr
                exact BitBlockContainer.resizeTo_strong _ _ hz
              · cases hr
          · cases hr
            rfl
  | shr n =>
      refine hsame ?_
      simp only [run, SetAdaptor.shr] at hr
      split at hr
      · split at hr
        · cases hr
        · cases hr
          rfl
      · split at hr
        · split at hr <;> cases hr
        · cases hr
          rfl

/-- **A completed step stays within the universe exactly where it keeps its positions there.** -/
theorem step_within (hv : V.storage ≠ .lent) (hM : M.Bijective U) (hw : FillsUniverse V M)
    (h : Within U c) {o : KeyOp V Key desc} (hp : o.Pre M c)
    (hr : o.run M asserts mem c = .ok () d) :
    d.Inv ∧ ((∀ p, d.bit p = true → p < U) ↔ o.Keeps M U c) := by
  have howned := V.owned_of_not_lent hv
  have hstays (hd : Within U d) (hk : o.Keeps M U c) :
      d.Inv ∧ ((∀ p, d.bit p = true → p < U) ↔ o.Keeps M U c) :=
    ⟨hd.inv, iff_of_true hd.lt hk⟩
  cases o with
  | op o =>
      simp only [run] at hr
      split at hr
      · cases hr
      · rename_i he
        cases hr
        exact hstays (op_within hv hM h hp he) trivial
  | andKey key =>
      obtain ⟨hd, hbit⟩ := andKey_ok h.inv hr
      refine hstays (h.sub hd fun p hb => ?_) trivial
      rw [hbit, Bool.and_eq_true] at hb
      exact hb.2
  | orKey key =>
      obtain ⟨hd, hbit⟩ := orKey_ok h.inv howned hr
      refine hstays (h.add hM hd fun p hb => ?_) trivial
      rw [hbit] at hb
      split at hb
      · rename_i hpk
        exact Or.inr ⟨key, hp, hpk.symm⟩
      · exact Or.inl hb
  | xorKey key =>
      obtain ⟨hd, hbit⟩ := xorKey_ok h.inv howned hr
      refine hstays (h.add hM hd fun p hb => ?_) trivial
      rw [hbit] at hb
      split at hb
      · rename_i hpk
        exact Or.inr ⟨key, hp, hpk.symm⟩
      · exact Or.inl hb
  | subKey key =>
      obtain ⟨hd, hbit⟩ := subKey_ok h.inv hr
      refine hstays (h.sub hd fun p hb => ?_) trivial
      rw [hbit] at hb
      split at hb
      · cases hb
      · exact hb
  | complement =>
      have hs : V.hasStaticSize = true := hp
      cases hr
      obtain ⟨-, hbit, -⟩ := BitBlockContainer.flipAll_spec h.inv
      have hkeeps : (complement : KeyOp V Key desc).Keeps M U c ↔ c.size ≤ U := by
        refine ⟨fun hk => ?_, fun hle _ => hle⟩
        cases hn : M.size with
        | none => exact hk hn
        | some n =>
            rw [← maxSize_static (M := M) hs]
            exact maxSize_le_universe hM hw howned hn
      refine ⟨h.inv.flipAll, ?_⟩
      rw [hkeeps]
      constructor
      · intro hin
        by_contra hlt
        -- the position past the universe was clear
        have hclear : c.bit U = false := by
          by_contra hb
          rw [Bool.not_eq_false] at hb
          exact Nat.lt_irrefl _ (h.lt U hb)
        have := hin U (by rw [hbit, hclear, decide_eq_true (by omega)]; rfl)
        omega
      · intro hle p hb
        rw [hbit, Bool.and_eq_true, decide_eq_true_eq] at hb
        omega
  | shl n =>
      obtain ⟨hd, hbit⟩ := shl_bit h.inv howned hr
      refine ⟨hd, fun hin _ p hb hlt => hin (p + n) ?_, fun hk p hb => ?_⟩
      · rw [hbit, decide_eq_true (by omega), Nat.add_sub_cancel, hb]
        rfl
      · rw [hbit, Bool.and_eq_true, decide_eq_true_eq] at hb
        cases hn : M.size with
        | none =>
            have := hk hn (p - n) hb.2 (by omega)
            omega
        | some m =>
            have := maxSize_le_universe (c := c) hM hw howned hn
            omega
  | shr n =>
      obtain ⟨hd, -, hbit⟩ := shr_ok h.inv hr
      refine hstays ⟨hd, fun p hb => ?_⟩ trivial
      rw [hbit] at hb
      have := h.lt _ hb
      omega

end KeyOp

/-! ## 6. Every run -/

section Run
variable {w : Nat} {V : Vehicle w} {Key : Type} [LinearOrder Key] {M : KeyMapping Key}
  {desc asserts : Bool} {U : Nat} {c d : BitBlockContainer V}

/-- Where a run starts: at the empty set, or at blocks whose bits all name keys. -/
inductive KeyStart (V : Vehicle w) (M : KeyMapping Key) : BitBlockContainer V → Prop where
  | empty (alloc : Nat) : KeyStart V M (BitBlockContainer.default V alloc)
  | adopt (blocks : Blocks w) (ha : BitBlockContainer.Adoptable V blocks.elems)
      (hn : ∀ p, bitAt blocks.elems p = true → NamesKey M p) :
      KeyStart V M (BitBlockContainer.adopt V blocks)
  | adoptUnder (mem : Memory) (blocks : Blocks w) (alloc : Nat) {c : BitBlockContainer V}
      (hs : V.hasStoredSize = true) (ha : BitBlockContainer.Adoptable V blocks.elems)
      (hn : ∀ p, bitAt blocks.elems p = true → NamesKey M p)
      (hr : BitBlockContainer.adoptUnder V mem blocks alloc = .ok c) : KeyStart V M c
  /-- the bits of other blocks, copied into a width the type fixes -/
  | assignSameBlocks (source : List (BitVec w)) (hs : V.hasStaticSize = true)
      (hn : ∀ p, bitAt source p = true → NamesKey M p) :
      KeyStart V M ((BitBlockContainer.default V 0).assignSameBlocks source)
  | assignBytes (asObjects : Bool) (bytes : List Byte) (hs : V.hasStaticSize = true)
      (hn : ∀ p, bitAt bytes p = true → NamesKey M p) :
      KeyStart V M ((BitBlockContainer.default V 0).assignBytes asObjects bytes)

/-- A run of modifiers, each with a memory of its own and ending in a return or a throw, whose steps
    all satisfy `P`. -/
inductive KeyRun (V : Vehicle w) (M : KeyMapping Key) (desc asserts : Bool)
    (P : BitBlockContainer V → KeyOp V Key desc → Prop) : BitBlockContainer V → Prop where
  | start {c : BitBlockContainer V} (hs : KeyStart V M c) : KeyRun V M desc asserts P c
  | step {c d : BitBlockContainer V} (mem : Memory) (o : KeyOp V Key desc)
      (hc : KeyRun V M desc asserts P c) (hp : o.Pre M c) (hP : P c o)
      (hr : o.run M asserts mem c = .ok () d ∨ ∃ e, o.run M asserts mem c = .error e d) :
      KeyRun V M desc asserts P d

theorem KeyStart.within (hv : V.storage ≠ .lent) (hM : M.Bijective U) (h : KeyStart V M c) :
    Within U c := by
  have howned := V.owned_of_not_lent hv
  have hnames {bits : Nat → Bool} (hn : ∀ p, bits p = true → NamesKey M p) (p : Nat)
      (hp : bits p = true) : p < U := (namesKey_iff hM).mp (hn p hp)
  cases h with
  | empty alloc =>
      obtain ⟨h1, h2⟩ := BitBlockContainer.default_spec howned alloc
      refine ⟨h1, fun p hp => ?_⟩
      rw [h2] at hp
      cases hp
  | adopt blocks ha hn =>
      obtain ⟨h1, -, h3⟩ := BitBlockContainer.adopt_spec ha
      exact ⟨h1, fun p hp => hnames hn p (by rwa [h3] at hp)⟩
  | adoptUnder mem blocks alloc hs ha hn hr =>
      obtain ⟨h1, -, h3⟩ := BitBlockContainer.adoptUnder_ok hs ha hr
      exact ⟨h1, fun p hp => hnames hn p (by rwa [h3] at hp)⟩
  | assignSameBlocks source hs hn =>
      obtain ⟨h1, h3⟩ := BitBlockContainer.assignSameBlocks_spec
        (BitBlockContainer.default_spec howned 0).1 hs source
      refine ⟨h1, fun p hp => hnames hn p ?_⟩
      rw [h3, Bool.and_eq_true] at hp
      exact hp.2
  | assignBytes asObjects bytes hs hn =>
      obtain ⟨h1, h3⟩ := BitBlockContainer.assignBytes_spec asObjects
        (BitBlockContainer.default_spec howned 0).1 hs bytes
      refine ⟨h1, fun p hp => hnames hn p ?_⟩
      rw [h3, Bool.and_eq_true] at hp
      exact hp.2

/-- A run of steps that satisfy one condition is a run of steps that satisfy a weaker one. -/
theorem KeyRun.imp {P Q : BitBlockContainer V → KeyOp V Key desc → Prop}
    (h : KeyRun V M desc asserts P c) (hPQ : ∀ c o, P c o → Q c o) : KeyRun V M desc asserts Q c := by
  induction h with
  | start hs => exact .start hs
  | step mem o _ hp hP hr ih => exact ih.step mem o hp (hPQ _ o hP) hr

/-- **The positions stay within the universe over every run** whose steps keep them there. -/
theorem KeyRun.within (hv : V.storage ≠ .lent) (hM : M.Bijective U) (hw : FillsUniverse V M)
    (h : KeyRun V M desc asserts (fun c o => o.Keeps M U c) c) : Within U c := by
  induction h with
  | start hs => exact hs.within hv hM
  | step mem o _ hp hP hr ih =>
      rcases hr with hr | ⟨e, hr⟩
      · obtain ⟨hd, hin⟩ := KeyOp.step_within hv hM hw ih hp hr
        exact ⟨hd, hin.mpr hP⟩
      · exact KeyOp.thrown_within hv hM ih hp hr

/-- **Keys and positions agree over every run** whose left shifts carry no key past an open universe
    and whose complements are of no width past it: every position names the key that ranks there,
    the walk reads them strictly ordered and contained, and erasing each of them leaves the empty
    set. A completed step that did not keep to this leaves a position that names none. -/
theorem keys_agree (hv : V.storage ≠ .lent) (hM : M.Bijective U) (hw : FillsUniverse V M)
    (h : KeyRun V M desc asserts (fun c o => o.Keeps M U c) c) :
    (∀ p, c.bit p = true → NamesKey M p) ∧
    (∃ ks, iterated M desc c = some ks ∧ ks.Pairwise (keyCompare desc) ∧
      (∀ k ∈ ks, contains M c k = true) ∧
      ∃ d, eraseKeys M ks c = .ok () d ∧ iterated M desc d = some [] ∧ SetAdaptor.size d = 0) ∧
    ∀ (o : KeyOp V Key desc) (mem : Memory) (d : BitBlockContainer V), o.Pre M c →
      o.run M asserts mem c = .ok () d →
      ((∀ p, d.bit p = true → NamesKey M p) ↔ o.Keeps M U c) := by
  have hc := h.within hv hM hw
  refine ⟨(within_iff hM hc.inv).mp hc, ?_, fun o mem d hp hr => ?_⟩
  · obtain ⟨s, hs⟩ := exists_represents desc hM hc.inv hc.lt
    have hmem (k : Key) : k ∈ s.keys ↔ contains M c k = true := mem_iff_contains hM hs
    obtain ⟨d, hd, hinv, hbit⟩ := eraseKeys_ok hc.inv fun k hk => hs.isKey k hk
    -- every set position was the rank of a key that is gone
    have hnone (p : Nat) : d.bit p = false := by
      by_contra hb
      rw [Bool.not_eq_false, hbit, hs.bit] at hb
      obtain ⟨⟨k, hk, hkp⟩, hgone⟩ := hb
      exact hgone k hk hkp
    have hempty : Represents M desc d .empty := by
      refine ⟨hinv, fun k hk => absurd hk OrderedKeys.not_mem_empty, fun p => ?_⟩
      rw [hnone]
      exact iff_of_false (by decide) fun ⟨k, hk, _⟩ => OrderedKeys.not_mem_empty hk
    exact ⟨s.keys, (hs.iterated hM).1, s.sorted, fun k hk => (hmem k).mp hk, d, hd,
      (hempty.iterated hM).1, hempty.size hM⟩
  · rw [← (KeyOp.step_within hv hM hw hc hp hr).2]
    exact forall_congr' fun p => imp_congr_right fun _ => namesKey_iff hM

/-- **Over a closed universe every run stays within it**: neither a shift nor a complement is past
    the size its mapping names. -/
theorem KeyRun.closed (hv : V.storage ≠ .lent) (hM : M.Bijective U) (hw : FillsUniverse V M) {n : Nat}
    (hn : M.size = some n) (h : KeyRun V M desc asserts (fun _ _ => True) c) : Within U c := by
  refine KeyRun.within hv hM hw (h.imp fun c o _ => ?_)
  cases o with
  | shl _ => exact fun ho => absurd (hn.symm.trans ho) (by simp)
  | complement => exact fun ho => absurd (hn.symm.trans ho) (by simp)
  | _ => trivial

end Run

/-- **A set of flags holds one-bit values** over every run of its modifiers: each value its walk reads
    is one bit below the size, and each such bit set is read. -/
theorem flags_one_bit {w b n : Nat} {V : Vehicle w} {desc asserts : Bool} {c : BitBlockContainer V}
    (hv : V.storage ≠ .lent) (hn : n ≤ b) (hb : b ≤ 2 ^ 64)
    (hw : FillsUniverse V (bitFlagMapping b n))
    (h : @KeyRun w (KeyWord false b) _ V (bitFlagMapping b n) desc asserts (fun _ _ => True) c) :
    ∃ ks : List (BitVec b), iterated (bitFlagMapping b n) desc c = some ks ∧
      (∀ k ∈ ks, popcount k = 1 ∧ countrZero k < n) ∧
      ∀ p, p < n → (c.bit p = true ↔ shl unit p ∈ ks) := by
  have hM := bitFlagMapping_bijective hn hb
  have hc := h.closed hv hM hw rfl
  obtain ⟨s, hs⟩ := exists_represents desc hM hc.inv hc.lt
  refine ⟨s.keys, (hs.iterated hM).1, fun k hk => ?_, fun p hp => ?_⟩
  · have hkey := hs.isKey k hk
    simp only [bitFlagMapping, Bool.and_eq_true, beq_iff_eq, decide_eq_true_eq] at hkey
    exact hkey
  · obtain ⟨hone, hat⟩ := countrZero_unit_shl (b := b) (i := p) (by omega)
    have hkey : (bitFlagMapping b n).isKey (shl unit p) = true := by
      simp only [bitFlagMapping, hone, hat, beq_self_eq_true, Bool.true_and, decide_eq_true_eq]
      exact hp
    have hmem := hs.mem_iff hM hkey
    rw [show (bitFlagMapping b n).toIndex (shl unit p) = p from hat] at hmem
    exact hmem.symm

/-! ## 7. A growing set of bytes -/

theorem fillsUniverse_unsigned {w b : Nat} {V : Vehicle w} : FillsUniverse V (unsignedMapping b) := by
  intro n hn
  cases hn

theorem byte_isKey (k : Fin (2 ^ 8)) : (unsignedMapping 8).isKey k = true :=
  unsignedMapping_isKey.mpr (by have := k.isLt; unfold sizeMax; omega)

/-- The bytes nine and three of a growing descending set, moved up by four. -/
theorem keys_agree_moved : ∃ c : BitBlockContainer (byteVector true),
    iterated (unsignedMapping 8) true c = some [13, 7] ∧
    ∀ p, c.bit p = true → NamesKey (unsignedMapping 8) p := by
  have hU := unsignedMapping_bijective 8
  have h0 : KeyRun (byteVector true) (unsignedMapping 8) true true
      (fun c o => o.Keeps (unsignedMapping 8) (2 ^ min 8 64) c) _ := .start (.empty 0)
  have h1 := h0.step .ample (.op (.insert 9)) (fun _ _ => byte_isKey _) trivial (Or.inl rfl)
  have h2 := h1.step .ample (.op (.insert 3)) (fun _ _ => byte_isKey _) trivial (Or.inl rfl)
  have hin := (h2.within (by decide) hU fillsUniverse_unsigned).inv
  have h3 := h2.step .ample (.shl 4) trivial (fun _ p hb _ => ?_) (Or.inl rfl)
  · exact ⟨_, rfl, (keys_agree (by decide) hU fillsUniverse_unsigned h3).1⟩
  · have hlt : p < 10 := hin.lt_size hb
    have hpow : 2 ^ min 8 64 = 256 := by decide
    omega

/-- **A left shift past the keys**: a growing set of bytes that holds 255 and is moved up by one
    holds the position 256, which no byte names. The walk reads it as nought, which the set does not
    contain and whose erasure leaves it in place. -/
theorem shl_past_keys : ∃ c d : BitBlockContainer (byteVector true),
    KeyRun (byteVector true) (unsignedMapping 8) false true (fun _ _ => True) c ∧
    c.bit 256 = true ∧ ¬ NamesKey (unsignedMapping 8) 256 ∧
    iterated (unsignedMapping 8) false c = some [0] ∧ contains (unsignedMapping 8) c 0 = false ∧
    eraseKeys (unsignedMapping 8) [0] c = .ok () d ∧ SetAdaptor.size d = 1 := by
  have h0 : KeyRun (byteVector true) (unsignedMapping 8) false true (fun _ _ => True) _ :=
    .start (.empty 0)
  have h1 := h0.step .ample (.op (.insert 255)) (fun _ _ => byte_isKey _) trivial (Or.inl rfl)
  have h2 := h1.step .ample (.shl 1) trivial trivial (Or.inl rfl)
  refine ⟨_, _, h2, rfl, fun ⟨k, _, _, hk⟩ => ?_, rfl, rfl, rfl, rfl⟩
  have hlt := k.isLt
  have hle : toSize k.val = 256 := hk
  rw [toSize_of_le (by unfold sizeMax; omega)] at hle
  omega

end XstdBits
