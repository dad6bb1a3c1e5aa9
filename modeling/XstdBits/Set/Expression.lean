/-
  File: XstdBits/Set/Expression.lean
  Subject: expressions of the set operators, as the library computes them and as sets of positions.

  * each operator copies its left operand and applies the compound operator to the copy
    (`onCopy`); `SetExpr.eval` computes an expression of them over a bank of sets.
  * `SetExpr.denote` is the set of positions the expression denotes, below the ceiling of the type.
  * `eval_spec`: where every shift is by less than `max_size()`, the expression is computed and its
    value holds the positions it denotes. `computed_sets` says what follows of two expressions: the
    walk, `==`, inclusion and intersection of their values are those of what they denote.
-/
import XstdBits.Container.Compare
import XstdBits.Set.Keys
import XstdBits.Set.Predicates

namespace XstdBits

/-! ## 1. The operators -/

namespace SetAdaptor
variable {w : Nat} {V : Vehicle w} {Key : Type} (M : KeyMapping Key) (mem : Memory)
  (lhs rhs : BitBlockContainer V)

/-- The set a call leaves, or what it throws. -/
def leaves {α : Type} (a : Action V α) (c : BitBlockContainer V) :
    Except Exn (BitBlockContainer V) :=
  match a c with
  | .ok _ d => .ok d
  | .error e _ => .error e

/-- `auto nrv = lhs; …; return nrv;`. -/
def onCopy (compound : Action V Unit) (lhs : BitBlockContainer V) :
    Except Exn (BitBlockContainer V) := do
  let nrv ← BitBlockContainer.copyOf mem lhs lhs.mBlocks.alloc
  leaves compound nrv

/-- `operator&(lhs, rhs)`. -/
def bitAnd : Except Exn (BitBlockContainer V) := onCopy mem (andAssign (.of rhs)) lhs

/-- `operator|(lhs, rhs)`. -/
def bitOr : Except Exn (BitBlockContainer V) := onCopy mem (orAssign mem (.of rhs)) lhs

/-- `operator^(lhs, rhs)`. -/
def bitXor : Except Exn (BitBlockContainer V) := onCopy mem (xorAssign mem (.of rhs)) lhs

/-- `operator-(lhs, rhs)`. -/
def minus : Except Exn (BitBlockContainer V) := onCopy mem (subAssign (.of rhs)) lhs

/-- `operator<<(lhs, n)`. -/
def shiftLeft (n : Nat) : Except Exn (BitBlockContainer V) := onCopy mem (shl M mem n) lhs

/-- `operator>>(lhs, n)`. -/
def shiftRight (n : Nat) : Except Exn (BitBlockContainer V) := onCopy mem (shr M n) lhs

/-- `operator~(lhs)`, at a width that the type fixes. -/
def bitNot : Except Exn (BitBlockContainer V) := onCopy mem complement lhs

end SetAdaptor

/-! ## 2. Expressions -/

/-- An expression of the operators, over the sets of a bank. -/
inductive SetExpr where
  | var (i : Nat)
  | and (lhs rhs : SetExpr) | or (lhs rhs : SetExpr) | xor (lhs rhs : SetExpr)
  | sub (lhs rhs : SetExpr)
  | shl (lhs : SetExpr) (n : Nat) | shr (lhs : SetExpr) (n : Nat)
  | not (lhs : SetExpr)
  deriving DecidableEq, Repr

namespace SetExpr
open SetAdaptor

section Definitions
variable {w : Nat} {V : Vehicle w} {Key : Type} (M : KeyMapping Key) (mem : Memory)

/-- What the library computes. -/
def eval (S : Bank V) : SetExpr → Except Exn (BitBlockContainer V)
  | var i => .ok (S i)
  | and lhs rhs => do bitAnd mem (← eval S lhs) (← eval S rhs)
  | or lhs rhs => do bitOr mem (← eval S lhs) (← eval S rhs)
  | xor lhs rhs => do bitXor mem (← eval S lhs) (← eval S rhs)
  | sub lhs rhs => do minus mem (← eval S lhs) (← eval S rhs)
  | shl lhs n => do shiftLeft M mem (← eval S lhs) n
  | shr lhs n => do shiftRight M mem (← eval S lhs) n
  | not lhs => do bitNot mem (← eval S lhs)

/-- **The set of positions an expression denotes**, in a universe of `top` positions. -/
def denote (top : Nat) (S : Nat → Nat → Bool) : SetExpr → Nat → Bool
  | var i, p => S i p
  | and lhs rhs, p => denote top S lhs p && denote top S rhs p
  | or lhs rhs, p => denote top S lhs p || denote top S rhs p
  | xor lhs rhs, p => denote top S lhs p ^^ denote top S rhs p
  | sub lhs rhs, p => denote top S lhs p && !denote top S rhs p
  | shl lhs n, p => decide (n ≤ p ∧ p < top) && denote top S lhs (p - n)
  | shr lhs n, p => denote top S lhs (p + n)
  | not lhs, p => decide (p < top) && !denote top S lhs p

/-- What the operators assert, and what the complement requires of the type. -/
def Pre (V : Vehicle w) (top : Nat) : SetExpr → Prop
  | var _ => True
  | and lhs rhs => lhs.Pre V top ∧ rhs.Pre V top
  | or lhs rhs => lhs.Pre V top ∧ rhs.Pre V top
  | xor lhs rhs => lhs.Pre V top ∧ rhs.Pre V top
  | sub lhs rhs => lhs.Pre V top ∧ rhs.Pre V top
  | shl lhs n => lhs.Pre V top ∧ n < top
  | shr lhs n => lhs.Pre V top ∧ n < top
  | not lhs => lhs.Pre V top ∧ V.hasStaticSize = true

/-- `max_size()` of an owner, which no state of it changes. -/
def ceiling (V : Vehicle w) : Nat := maxSize M (BitBlockContainer.default V 0)

/-- The states of a set whose width is within `max_size()`. -/
def Sized (c : BitBlockContainer V) : Prop := c.Inv ∧ c.size ≤ ceiling M V

end Definitions

/-! ## 3. One operator -/

section Operators
variable {w : Nat} {V : Vehicle w} {Key : Type} {M : KeyMapping Key} {mem : Memory}
  {c d : BitBlockContainer V} {n : Nat}

theorem maxSize_eq (hV : V.storage ≠ .lent) (c : BitBlockContainer V) :
    maxSize M c = ceiling M V := by
  unfold ceiling
  rcases V.owned_of_not_lent hV with hs | hs
  · rw [maxSize_stored M hs, maxSize_stored M hs]
    by_cases hc : V.hasStaticCapacity = true
    · rw [if_pos hc, if_pos hc]
    · rw [storedMax_eq hs hc, storedMax_eq hs hc]
  · unfold maxSize
    rw [if_pos hs, if_pos hs]

/-- A width that the type fixes is its `max_size()`. -/
theorem static_ceiling (hs : V.hasStaticSize = true) : ceiling M V = c.size := by
  unfold ceiling maxSize
  rw [if_pos hs, BitBlockContainer.size_of_static hs]

theorem leaves_ok {α : Type} {a : Action V α} {r : α} (h : a c = .ok r d) :
    leaves a c = .ok d := by
  unfold leaves
  rw [h]

/-- **What one operator leaves**, given what the compound operator leaves of a set with the same
    value. -/
theorem onCopy_spec (hV : V.storage ≠ .lent) (hmem : ∀ k, ∃ r, mem.allocate k = .ok r)
    (hc : Sized M c) {compound : Action V Unit} {f : Nat → Bool}
    (hstep : ∀ x : BitBlockContainer V, Sized M x → (∀ p, x.bit p = c.bit p) →
      ∃ d, compound x = .ok () d ∧ Sized M d ∧ ∀ p, d.bit p = f p) :
    ∃ d, onCopy mem compound c = .ok d ∧ Sized M d ∧ ∀ p, d.bit p = f p := by
  have hcopy : ∃ x, BitBlockContainer.copyOf mem c c.mBlocks.alloc = .ok x := by
    unfold BitBlockContainer.copyOf
    split
    · rename_i hs
      have hle : c.size ≤ maxSize M c := by
        rw [maxSize_eq hV]
        exact hc.2
      obtain ⟨b, hb⟩ := BitBlockContainer.makeRoom_of_grants
        (b := (.empty c.mBlocks.alloc : Blocks w)) (BitBlockContainer.blocks_fit (fits_maxSize hs hle).1)
        (grants_maxSize hs hle hmem)
      unfold Blocks.copyOf
      rw [hc.1.shape, hb]
      exact ⟨_, rfl⟩
    · exact ⟨c, rfl⟩
  obtain ⟨x, hx⟩ := hcopy
  have hsame := BitBlockContainer.copyOf_sameValue hx
  obtain ⟨d, hd, hsized, hbit⟩ := hstep x
    ⟨hc.1.transferred hsame, by rw [hsame.size]; exact hc.2⟩ hsame.bit
  refine ⟨d, ?_, hsized, hbit⟩
  unfold onCopy
  rw [hx]
  exact leaves_ok hd

/-- A set grows to admit another no further than the other goes. -/
theorem growToAdmit_within (hV : V.storage ≠ .lent) (hmem : ∀ k, ∃ r, mem.allocate k = .ok r)
    (hc : Sized M c) (hd : Sized M d) :
    ∃ x, BitBlockContainer.growToAdmit mem (.of d) c = .ok () x ∧ x.size ≤ ceiling M V := by
  have hget : (Operand.of d).get c = d := rfl
  unfold BitBlockContainer.growToAdmit
  rw [hget]
  split
  · rename_i hs
    split
    · exact ⟨c, rfl, hc.2⟩
    · rename_i hany
      rw [Bool.not_eq_true, Bool.not_eq_false'] at hany
      have hset := (BitBlockContainer.largest_spec hd.1 hany).1
      have hlt := hd.1.lt_size hset
      dsimp only
      split
      · have hle : d.exclusiveFindPrev d.size + 1 ≤ maxSize M c := by
          rw [maxSize_eq hV]
          have := hd.2
          omega
        obtain ⟨x, hx⟩ := BitBlockContainer.resizeTo_of_grants (v := false) (c := c)
          (fits_maxSize hs hle).1 (grants_maxSize hs hle hmem)
        refine ⟨x, hx, ?_⟩
        rw [(BitBlockContainer.resizeTo_ok hc.1 hs hx).2.1, ← maxSize_eq hV c]
        exact hle
      · exact ⟨c, rfl, hc.2⟩
  · exact ⟨c, rfl, hc.2⟩

/-- **A union or a symmetric difference** of two sets within the ceiling is made within it. -/
theorem admitThen_sized (hV : V.storage ≠ .lent) (hmem : ∀ k, ∃ r, mem.allocate k = .ok r)
    (hc : Sized M c) (hd : Sized M d) {op : BitVec w → BitVec w → BitVec w}
    {g : Bool → Bool → Bool} (hop : BitBlockContainer.ActsBitwise op g) (hg : g false false = false) :
    ∃ x, BitBlockContainer.admitThen mem (.of d) op c = .ok () x ∧ Sized M x ∧
      ∀ p, x.bit p = g (c.bit p) (d.bit p) := by
  have hget : ((Operand.of d).get c).Inv := hd.1
  obtain ⟨e, he, hle⟩ := growToAdmit_within hV hmem hc hd
  have hrun : BitBlockContainer.admitThen mem (.of d) op c = .ok () (e.combine (.of d) op) := by
    unfold BitBlockContainer.admitThen
    rw [he]
  obtain ⟨hinv, -, hbit⟩ :=
    BitBlockContainer.admitThen_ok hc.1 hget (V.owned_of_not_lent hV) hop hg hrun
  refine ⟨_, hrun, ⟨hinv, ?_⟩, hbit⟩
  have hshape := (BitBlockContainer.growToAdmit_ok hc.1 hget he).1.shape
  rw [(BitBlockContainer.combine_maps (.of d) op hshape hd.1.shape).1.width.size]
  exact hle

/-- **A right shift** within its precondition is made. -/
theorem shr_completes (c : BitBlockContainer V) (hn : n < maxSize M c) :
    ∃ d, SetAdaptor.shr M n c = .ok () d := by
  unfold SetAdaptor.shr
  split
  · rename_i hs
    have hwidth : maxSize M c = c.size := by
      rw [BitBlockContainer.size_of_static hs]
      unfold maxSize
      rw [if_pos hs]
    rw [if_pos (by omega)]
    exact ⟨_, rfl⟩
  · split <;> exact ⟨_, rfl⟩

/-- **A left shift** within its precondition stays within the ceiling. -/
theorem shl_sized (hV : V.storage ≠ .lent) (hmem : ∀ k, ∃ r, mem.allocate k = .ok r)
    (hc : Sized M c) (hn : n < ceiling M V) : ∃ d, SetAdaptor.shl M mem n c = .ok () d ∧ Sized M d ∧
      ∀ p, d.bit p = (decide (n ≤ p ∧ p < ceiling M V) && c.bit (p - n)) := by
  have htop := maxSize_eq (M := M) hV c
  rcases V.owned_of_not_lent hV with hs | hs
  · have hn' : n < maxSize M c := by rw [htop]; exact hn
    have hin (p : Nat) (hb : c.bit p = true) : p < maxSize M c := by
      rw [htop]
      exact Nat.lt_of_lt_of_le (hc.1.lt_size hb) hc.2
    obtain ⟨d, hd⟩ := shl_completes mem hc.1 hs hin hn' (Or.inl hmem)
    obtain ⟨hinv, hbit, hsize⟩ := shl_ok hc.1 hs hn' hd
    refine ⟨d, hd, ⟨hinv, ?_⟩, by rw [← htop]; exact hbit⟩
    by_cases hlands : ∃ p, c.bit p = true ∧ p + n < maxSize M c
    · rw [hsize hlands, htop]
      exact Nat.min_le_right _ _
    · rw [shl_still hc.1 hs hin hn' hlands hd]
      exact hc.2
  · have hwidth : ceiling M V = c.size := static_ceiling hs
    have hn' : n < c.size := by rw [← hwidth]; exact hn
    refine ⟨c.shlAssign n, ?_, ⟨hc.1.shlAssign hn', ?_⟩, fun p => ?_⟩
    · unfold SetAdaptor.shl
      rw [if_pos hs, if_pos hn']
    · rw [(BitBlockContainer.sameWidth_shlAssign hc.1.shape hn').size]
      exact hc.2
    · rw [BitBlockContainer.bit_shlAssign hc.1.shape hn', hwidth]

end Operators

/-! ## 4. Every expression -/

section Evaluation
variable {w : Nat} {V : Vehicle w} {Key : Type} {M : KeyMapping Key} {mem : Memory} {S : Bank V}
  {e f : SetExpr}

/-- The operators with a second operand, which is read while the copy is written. -/
theorem eval_binary (hV : V.storage ≠ .lent) (hmem : ∀ k, ∃ r, mem.allocate k = .ok r)
    {x y : Except Exn (BitBlockContainer V)} {f g h : Nat → Bool}
    (hx : ∃ d, x = .ok d ∧ Sized M d ∧ ∀ p, d.bit p = f p)
    (hy : ∃ d, y = .ok d ∧ Sized M d ∧ ∀ p, d.bit p = g p)
    {compound : BitBlockContainer V → Action V Unit}
    (hstep : ∀ c d : BitBlockContainer V, Sized M c → Sized M d → (∀ p, c.bit p = f p) →
      (∀ p, d.bit p = g p) → ∃ e, compound d c = .ok () e ∧ Sized M e ∧ ∀ p, e.bit p = h p) :
    ∃ e, (do
      let lhs ← x
      let rhs ← y
      onCopy mem (compound rhs) lhs) = .ok e ∧ Sized M e ∧ ∀ p, e.bit p = h p := by
  obtain ⟨c, rfl, hc, hcbit⟩ := hx
  obtain ⟨d, rfl, hd, hdbit⟩ := hy
  exact onCopy_spec hV hmem hc fun a ha hbit =>
    hstep a d ha hd (fun p => (hbit p).trans (hcbit p)) hdbit

/-- The operators with one. -/
theorem eval_unary (hV : V.storage ≠ .lent) (hmem : ∀ k, ∃ r, mem.allocate k = .ok r)
    {x : Except Exn (BitBlockContainer V)} {f h : Nat → Bool}
    (hx : ∃ d, x = .ok d ∧ Sized M d ∧ ∀ p, d.bit p = f p) {compound : Action V Unit}
    (hstep : ∀ c : BitBlockContainer V, Sized M c → (∀ p, c.bit p = f p) →
      ∃ e, compound c = .ok () e ∧ Sized M e ∧ ∀ p, e.bit p = h p) :
    ∃ e, (do
      let lhs ← x
      onCopy mem compound lhs) = .ok e ∧ Sized M e ∧ ∀ p, e.bit p = h p := by
  obtain ⟨c, rfl, hc, hcbit⟩ := hx
  exact onCopy_spec hV hmem hc fun a ha hbit => hstep a ha fun p => (hbit p).trans (hcbit p)

/-- A combination that keeps the width. -/
theorem combine_sized {c d : BitBlockContainer V} (hc : Sized M c) (hd : Sized M d)
    {op : BitVec w → BitVec w → BitVec w} {g : Bool → Bool → Bool}
    (hop : BitBlockContainer.ActsBitwise op g) (hg : ∀ b, g false b = false) :
    Sized M (c.combine (.of d) op) ∧ ∀ p, (c.combine (.of d) op).bit p = g (c.bit p) (d.bit p) := by
  obtain ⟨hsw, hbit, hinv⟩ := BitBlockContainer.combine_spec (.of d) hc.1 hd.1 hop fun p _ => hg _
  exact ⟨⟨hinv, by rw [hsw.size]; exact hc.2⟩, hbit⟩

/-- **Every expression is computed**, and its value holds the positions it denotes. The induction is
    on the expression: each operator is one call on a copy. -/
theorem eval_spec (hV : V.storage ≠ .lent) (hmem : ∀ k, ∃ r, mem.allocate k = .ok r)
    (hS : ∀ i, Sized M (S i)) : ∀ {e : SetExpr}, e.Pre V (ceiling M V) →
      ∃ d, e.eval M mem S = .ok d ∧ Sized M d ∧
        ∀ p, d.bit p = e.denote (ceiling M V) (fun i => (S i).bit) p
  | var i, _ => ⟨S i, rfl, hS i, fun _ => rfl⟩
  | and lhs rhs, hp =>
      eval_binary hV hmem (eval_spec hV hmem hS hp.1) (eval_spec hV hmem hS hp.2)
        fun c d hc hd hcbit hdbit => by
          obtain ⟨hsized, hbit⟩ := combine_sized hc hd BitBlockContainer.actsBitwise_and fun _ => rfl
          exact ⟨_, rfl, hsized, fun p => (hbit p).trans (by rw [hcbit, hdbit]; rfl)⟩
  | or lhs rhs, hp =>
      eval_binary hV hmem (eval_spec hV hmem hS hp.1) (eval_spec hV hmem hS hp.2)
        fun c d hc hd hcbit hdbit => by
          obtain ⟨x, hx, hsized, hbit⟩ :=
            admitThen_sized hV hmem hc hd BitBlockContainer.actsBitwise_or rfl
          exact ⟨x, hx, hsized, fun p => by rw [hbit, hcbit, hdbit]; rfl⟩
  | xor lhs rhs, hp =>
      eval_binary hV hmem (eval_spec hV hmem hS hp.1) (eval_spec hV hmem hS hp.2)
        fun c d hc hd hcbit hdbit => by
          obtain ⟨x, hx, hsized, hbit⟩ :=
            admitThen_sized hV hmem hc hd BitBlockContainer.actsBitwise_xor rfl
          exact ⟨x, hx, hsized, fun p => by rw [hbit, hcbit, hdbit]; rfl⟩
  | sub lhs rhs, hp =>
      eval_binary hV hmem (eval_spec hV hmem hS hp.1) (eval_spec hV hmem hS hp.2)
        fun c d hc hd hcbit hdbit => by
          obtain ⟨hsized, hbit⟩ := combine_sized hc hd BitBlockContainer.actsBitwise_sub fun _ => rfl
          exact ⟨_, rfl, hsized, fun p => (hbit p).trans (by rw [hcbit, hdbit]; rfl)⟩
  | shl lhs n, hp =>
      eval_unary hV hmem (eval_spec hV hmem hS hp.1) fun c hc hcbit => by
        obtain ⟨d, hd, hsized, hbit⟩ := shl_sized hV hmem hc hp.2
        exact ⟨d, hd, hsized, fun p => by rw [hbit, hcbit]; rfl⟩
  | shr lhs n, hp =>
      eval_unary hV hmem (eval_spec hV hmem hS hp.1) fun c hc hcbit => by
        obtain ⟨d, hd⟩ := shr_completes c (show n < maxSize M c by rw [maxSize_eq hV]; exact hp.2)
        obtain ⟨hinv, hsize, hbit⟩ := shr_ok hc.1 hd
        exact ⟨d, hd, ⟨hinv, by rw [hsize]; exact hc.2⟩, fun p => by rw [hbit, hcbit]; rfl⟩
  | not lhs, hp =>
      eval_unary hV hmem (eval_spec hV hmem hS hp.1) fun c hc hcbit => by
        obtain ⟨hsw, hbit, -⟩ := BitBlockContainer.flipAll_spec hc.1
        refine ⟨c.flipAll, rfl, ⟨hc.1.flipAll, by rw [hsw.size]; exact hc.2⟩, fun p => ?_⟩
        rw [hbit, hcbit, ← static_ceiling (M := M) hp.2]
        rfl

/-- **Computed sets are the sets denoted.** Over any owner and any mapping, with memory that refuses
    nothing: two expressions whose shifts are by less than `max_size()` are computed, a key is
    contained where its position is denoted, the walk reads the positions denoted, each once and in
    order, and `==`, inclusion and intersection of the two values are those of what they denote. -/
theorem computed_sets (hV : V.storage ≠ .lent) (hmem : ∀ k, ∃ r, mem.allocate k = .ok r)
    (hS : ∀ i, Sized M (S i)) (desc : Bool) (he : e.Pre V (ceiling M V))
    (hf : f.Pre V (ceiling M V)) :
    ∃ x y, e.eval M mem S = .ok x ∧ f.eval M mem S = .ok y ∧
      (∀ k, contains M x k =
        (M.isKey k && e.denote (ceiling M V) (fun i => (S i).bit) (M.toIndex k))) ∧
      ((∀ p, p ∈ positions desc x ↔ e.denote (ceiling M V) (fun i => (S i).bit) p = true) ∧
        (positions desc x).Pairwise fun p q => if desc = true then q < p else p < q) ∧
      (setEqual x y = true ↔ ∀ p, e.denote (ceiling M V) (fun i => (S i).bit) p =
        f.denote (ceiling M V) (fun i => (S i).bit) p) ∧
      (x.bitIncludes y = true ↔ ∀ p, f.denote (ceiling M V) (fun i => (S i).bit) p = true →
        e.denote (ceiling M V) (fun i => (S i).bit) p = true) ∧
      (x.bitIntersects y = true ↔ ∃ p, e.denote (ceiling M V) (fun i => (S i).bit) p = true ∧
        f.denote (ceiling M V) (fun i => (S i).bit) p = true) := by
  obtain ⟨x, hx, hxs, hxbit⟩ := eval_spec hV hmem hS he
  obtain ⟨y, hy, hys, hybit⟩ := eval_spec hV hmem hS hf
  obtain ⟨hmem, hsorted⟩ := positions_spec desc hxs.1
  refine ⟨x, y, hx, hy, fun k => ?_, ⟨fun p => ?_, hsorted⟩, ?_, ?_, ?_⟩
  · rw [contains_eq hxs.1, hxbit]
  · rw [hmem, hxbit]
  · simp only [setEqual_iff hxs.1 hys.1, hxbit, hybit]
  · simp only [BitBlockContainer.bitIncludes_iff hxs.1 hys.1, hxbit, hybit]
  · simp only [BitBlockContainer.bitIntersects_iff hxs.1 hys.1, hxbit, hybit]

end Evaluation

/-- Sets of one byte each. -/
def singleBytes : Bank fixedBytes := fun i =>
  ((BitBlockContainer.default fixedBytes 0).insert (i % 256)).1

theorem sized_singleBytes (i : Nat) : Sized (unsignedMapping 8) (singleBytes i) := by
  have hlt : i % 256 < (BitBlockContainer.default fixedBytes 0).size :=
    Nat.mod_lt i (show 256 > 0 by decide)
  have hinv := (BitBlockContainer.default_spec (V := fixedBytes) (Or.inr rfl) 0).1.insert hlt
  exact ⟨hinv, Nat.le_of_eq (static_ceiling rfl).symm⟩

/-- The complement of a union, and the intersection of the complements, with a shift inside. -/
theorem computed_sets_complement : ∃ x y,
    (SetExpr.not (.or (.var 3) (.shl (.var 9) 4))).eval (unsignedMapping 8) .ample singleBytes =
      .ok x ∧
    (SetExpr.and (.not (.var 3)) (.not (.shl (.var 9) 4))).eval (unsignedMapping 8) .ample
      singleBytes = .ok y ∧
    setEqual x y = true := by
  obtain ⟨x, y, hx, hy, -, -, hequal, -⟩ := computed_sets (S := singleBytes)
    (V := fixedBytes) (M := unsignedMapping 8) (by decide)
    (show ∀ k, ∃ r, Memory.ample.allocate k = .ok r from fun k => ⟨k, rfl⟩) sized_singleBytes false
    (e := .not (.or (.var 3) (.shl (.var 9) 4)))
    (f := .and (.not (.var 3)) (.not (.shl (.var 9) 4)))
    ⟨⟨trivial, trivial, by decide⟩, rfl⟩ ⟨⟨trivial, rfl⟩, ⟨trivial, by decide⟩, rfl⟩
  refine ⟨x, y, hx, hy, hequal.mpr fun p => ?_⟩
  simp only [denote, Bool.not_or]
  cases decide (p < ceiling (unsignedMapping 8) fixedBytes)
  · rfl
  · rw [Bool.true_and, Bool.true_and, Bool.true_and]

end SetExpr

end XstdBits
