/-
  File: XstdBits/Container/Machine.lean
  Subject: the container as a machine, and its representation invariant over every run.

  * a `Bank` is any number of containers of one type; an `Op` acts on one of them, with another
    (or itself) as its right operand.
  * `Op.Pre` is what an operation asserts and what its type requires; `Op.run` is the operation,
    each time with a memory of its own, which may refuse.
  * `Op.run_inv` is the step: a completed operation keeps the invariant of every container of the
    bank. `Reachable.inv` carries it over every run from default-constructed containers.
  * `TakesBlocks` is when a move under an allocator keeps its source fit for later runs.
-/
import XstdBits.Container.Transfer

namespace XstdBits

/-! ## 1. The bank -/

/-- Containers of one type, by number. -/
abbrev Bank {w : Nat} (V : Vehicle w) := Nat → BitBlockContainer V

namespace Bank
variable {w : Nat} {V : Vehicle w}

def put (S : Bank V) (i : Nat) (c : BitBlockContainer V) : Bank V :=
  fun k => if k = i then c else S k

/-- Container `j` as the right operand of container `i`. -/
def operand (S : Bank V) (i j : Nat) : Operand V := if i = j then .self else .of (S j)

/-- An action run on container `i`. -/
def act {α : Type} (S : Bank V) (i : Nat) (a : Action V α) : Except Exn (Bank V) :=
  match a (S i) with
  | .ok _ d => .ok (S.put i d)
  | .error e _ => .error e

variable {S T : Bank V} {i j : Nat}

theorem get_operand : (S.operand i j).get (S i) = S j := by
  unfold operand
  split
  · rename_i h
    subst h
    rfl
  · rfl

theorem put_inv {c : BitBlockContainer V} (h : ∀ k, (S k).Inv) (hc : c.Inv) (k : Nat) :
    (S.put i c k).Inv := by
  unfold put
  split
  · exact hc
  · exact h k

theorem act_inv {α : Type} {a : Action V α} (h : ∀ k, (S k).Inv)
    (ha : ∀ x d, a (S i) = .ok x d → d.Inv) (hr : S.act i a = .ok T) (k : Nat) : (T k).Inv := by
  unfold act at hr
  split at hr
  · rename_i x d hx
    cases hr
    exact put_inv h (ha x d hx) k
  · cases hr

end Bank

/-! ## 2. The operations -/

open BitBlockContainer

/-- One operation; `j` numbers its right operand. -/
inductive Op {w : Nat} (V : Vehicle w) where
  | set (n : Nat) | reset (n : Nat) | flip (n : Nat)
  | setRange (n len : Nat) (value : Bool)
  | setAll | resetAll | flipAll
  | insert (n : Nat) | growingInsert (n : Nat) | erase (n : Nat)
  | dropFront | dropBack
  | andAssign (j : Nat) | subAssign (j : Nat)
  /-- `|=` and `^=` as `set_adaptor` calls them, after `grow_to_admit` -/
  | orAssign (j : Nat) | xorAssign (j : Nat)
  | transform (f : BitVec w → BitVec w) | transform2 (j : Nat) (f : BitVec w → BitVec w → BitVec w)
  | writeBlockAt (n : Nat) (value mask : BitVec w)
  | assignSameBlocks (source : List (BitVec w)) | assignBytes (asObjects : Bool) (bytes : List Byte)
  | shlAssign (n : Nat) | shrAssign (n : Nat) | rotate (n : Nat) | reverse
  | resize (n : Nat) (value : Bool) | pushBack (value : Bool) | popBack | append (value : BitVec w)
  | clear
  | replace (blocks : Blocks w) | extract | swap (j : Nat)
  | copyAssign (j : Nat) | moveAssign (j : Nat)
  /-- the constructors put a new container in the place of the old one -/
  | default (alloc : Nat) | construct (n alloc : Nat)
  | adopt (blocks : Blocks w) | adoptUnder (blocks : Blocks w) (alloc : Nat)
  | copyOf (j alloc : Nat) | moveOf (j : Nat) | moveUnder (j alloc : Nat)

namespace Op
variable {w : Nat} {V : Vehicle w}

/-- What the operation asserts of container `i`, and what its type requires. -/
def Pre (S : Bank V) (i : Nat) : Op V → Prop
  | set n => n < (S i).size
  | reset n => n < (S i).size
  | flip n => n < (S i).size
  | setRange n len _ => n ≤ (S i).size ∧ len ≤ (S i).size - n
  | insert n => n < (S i).size
  | growingInsert n => V.hasStoredSize = true ∨ n < (S i).size
  | erase n => n < (S i).size
  | dropFront => (S i).any = true
  | dropBack => (S i).any = true
  | transform _ => V.hasStoredCount = false
  | transform2 j _ => V.hasStoredCount = false ∧ (S i).size = (S j).size
  | writeBlockAt n _ mask =>
      V.hasStoredCount = false ∧ n < (S i).numBlocks * w ∧ (S i).MaskWithin n mask
  | assignSameBlocks _ => V.hasStaticSize = true
  | assignBytes _ _ => V.hasStaticSize = true
  | shlAssign n => n < (S i).size
  | shrAssign n => n < (S i).size
  | resize _ _ => V.hasStoredSize = true
  | pushBack _ => V.hasStoredSize = true
  | popBack => V.hasStoredSize = true ∧ (S i).size ≠ 0
  | append _ => V.hasStoredSize = true
  | clear => V.hasStoredSize = true
  | replace blocks => V.hasStoredSize = true ∧ Adoptable V blocks.elems
  | extract => V.hasStoredSize = true
  | construct _ _ => V.hasStoredSize = true
  | adopt blocks => Adoptable V blocks.elems
  | adoptUnder blocks _ => V.hasStoredSize = true ∧ Adoptable V blocks.elems
  | moveUnder _ _ => V.hasStoredSize = true
  | _ => True

/-- The operation on container `i` of the bank. -/
def run (mem : Memory) (S : Bank V) (i : Nat) : Op V → Except Exn (Bank V)
  | set n => .ok (S.put i ((S i).set n))
  | reset n => .ok (S.put i ((S i).reset n))
  | flip n => .ok (S.put i ((S i).flip n))
  | setRange n len value => .ok (S.put i ((S i).setRange n len value))
  | setAll => .ok (S.put i (S i).setAll)
  | resetAll => .ok (S.put i (S i).resetAll)
  | flipAll => .ok (S.put i (S i).flipAll)
  | insert n => .ok (S.put i ((S i).insert n).1)
  | growingInsert n => S.act i (BitBlockContainer.growingInsert mem n)
  | erase n => .ok (S.put i ((S i).erase n).1)
  | dropFront => .ok (S.put i (S i).dropFront)
  | dropBack => .ok (S.put i (S i).dropBack)
  | andAssign j => .ok (S.put i ((S i).andAssign (S.operand i j)))
  | subAssign j => .ok (S.put i ((S i).subAssign (S.operand i j)))
  | orAssign j => S.act i (orAdmitted mem (S.operand i j))
  | xorAssign j => S.act i (xorAdmitted mem (S.operand i j))
  | transform f => .ok (S.put i ((S i).transform f))
  | transform2 j f => .ok (S.put i ((S i).transform2 (S.operand i j) f))
  | writeBlockAt n value mask => .ok (S.put i ((S i).writeBlockAt n value mask))
  | assignSameBlocks source => .ok (S.put i ((S i).assignSameBlocks source))
  | assignBytes asObjects bytes => .ok (S.put i ((S i).assignBytes asObjects bytes))
  | shlAssign n => .ok (S.put i ((S i).shlAssign n))
  | shrAssign n => .ok (S.put i ((S i).shrAssign n))
  | rotate n => .ok (S.put i ((S i).rotate n))
  | reverse => .ok (S.put i (S i).reverse)
  | resize n value => S.act i (BitBlockContainer.resize mem n value)
  | pushBack value => S.act i (BitBlockContainer.pushBack mem value)
  | popBack => S.act i (BitBlockContainer.popBack mem)
  | append value => S.act i (BitBlockContainer.append mem value)
  | clear => S.act i (BitBlockContainer.clear mem)
  | replace blocks => S.act i (BitBlockContainer.replace mem blocks)
  | extract => .ok (S.put i (S i).extract.2)
  | swap j =>
      if i = j then .ok S
      else .ok ((S.put i ((S i).swap (S j)).1).put j ((S i).swap (S j)).2)
  | copyAssign j => S.act i (BitBlockContainer.copyAssign mem (S.operand i j))
  | moveAssign j =>
      if i = j then .ok S
      else
        match BitBlockContainer.moveAssign mem (S j) (S i) with
        | .ok left d => .ok ((S.put i d).put j left)
        | .error e _ => .error e
  | default alloc => .ok (S.put i (BitBlockContainer.default V alloc))
  | construct n alloc => (BitBlockContainer.construct V mem n alloc).map (S.put i)
  | adopt blocks => .ok (S.put i (BitBlockContainer.adopt V blocks))
  | adoptUnder blocks alloc => (BitBlockContainer.adoptUnder V mem blocks alloc).map (S.put i)
  | copyOf j alloc => (BitBlockContainer.copyOf mem (S j) alloc).map (S.put i)
  -- the moved-from container is written first, so that a move onto itself leaves the moved-to
  | moveOf j => .ok ((S.put j (BitBlockContainer.moveOf (S j)).2).put i
      (BitBlockContainer.moveOf (S j)).1)
  | moveUnder j alloc =>
      match BitBlockContainer.moveUnder mem alloc (S j) with
      | .ok d left => .ok ((S.put j left).put i d)
      | .error e _ => .error e

/-! ## 3. One step -/

section Step
variable {mem : Memory} {S T : Bank V} {i j : Nat}

/-- A constructed container put in its place. -/
theorem map_put_inv {x : Except Exn (BitBlockContainer V)} (h : ∀ k, (S k).Inv)
    (hx : ∀ d, x = .ok d → d.Inv) (hr : x.map (S.put i) = .ok T) (k : Nat) : (T k).Inv := by
  cases x with
  | error e => cases hr
  | ok d =>
      cases hr
      exact Bank.put_inv h (hx d rfl) k

/-- **A completed operation keeps the invariant of every container of the bank.** -/
theorem run_inv (hv : V.hasStoredSize = true ∨ V.hasStaticSize = true) (op : Op V)
    (h : ∀ k, (S k).Inv) (hp : op.Pre S i) (hr : op.run mem S i = .ok T) (k : Nat) : (T k).Inv := by
  have hput {c : BitBlockContainer V} (hc : c.Inv) (hr : .ok (S.put i c) = Except.ok (ε := Exn) T) :
      (T k).Inv := by
    cases hr
    exact Bank.put_inv h hc k
  have hother (j : Nat) : ((S.operand i j).get (S i)).Inv := by
    rw [Bank.get_operand]
    exact h j
  have hact {α : Type} {a : Action V α} (ha : ∀ x d, a (S i) = .ok x d → d.Inv)
      (hr : S.act i a = .ok T) : (T k).Inv := Bank.act_inv h ha hr k
  cases op with
  | set n => exact hput ((h i).set hp) hr
  | reset n => exact hput ((h i).reset hp) hr
  | flip n => exact hput ((h i).flip hp) hr
  | setRange n len value => exact hput ((h i).setRange (by have := hp.1; have := hp.2; omega)) hr
  | setAll => exact hput (h i).setAll hr
  | resetAll => exact hput (h i).resetAll hr
  | flipAll => exact hput (h i).flipAll hr
  | insert n => exact hput ((h i).insert hp) hr
  | growingInsert n => exact hact (fun b d hd => (growingInsert_ok (h i) hp hd).1) hr
  | erase n => exact hput ((h i).erase hp) hr
  | dropFront => exact hput ((h i).dropFront ((any_iff (h i)).mp hp)) hr
  | dropBack => exact hput ((h i).dropBack ((any_iff (h i)).mp hp)) hr
  | andAssign j =>
      exact hput (combine_spec _ (h i) (hother j) actsBitwise_and fun _ _ => rfl).2.2 hr
  | subAssign j =>
      exact hput (combine_spec _ (h i) (hother j) actsBitwise_sub fun _ _ => rfl).2.2 hr
  | orAssign j =>
      exact hact (fun _ d hd => (admitThen_ok (h i) (hother j) hv actsBitwise_or rfl hd).1) hr
  | xorAssign j =>
      exact hact (fun _ d hd => (admitThen_ok (h i) (hother j) hv actsBitwise_xor rfl hd).1) hr
  | transform f => exact hput ((h i).transform hp) hr
  | transform2 j f => exact hput ((h i).transform2 hp.1) hr
  | writeBlockAt n value mask =>
      obtain ⟨hu, hn, hm⟩ := hp
      rw [(h i).shape.numBlocks] at hn
      exact hput ((h i).writeBlockAt hu hn hm) hr
  | assignSameBlocks source => exact hput (assignSameBlocks_spec (h i) hp source).1 hr
  | assignBytes asObjects bytes => exact hput (assignBytes_spec asObjects (h i) hp bytes).1 hr
  | shlAssign n => exact hput ((h i).shlAssign hp) hr
  | shrAssign n => exact hput ((h i).shrAssign hp) hr
  | rotate n => exact hput ((h i).rotate n) hr
  | reverse => exact hput (h i).reverse hr
  | resize n value => exact hact (fun _ d hd => (resizeTo_ok (h i) hp hd).1) hr
  | pushBack value => exact hact (fun _ d hd => (resizeTo_ok (h i) hp hd).1) hr
  | popBack => exact hact (fun _ d hd => (resizeTo_ok (h i) hp.1 hd).1) hr
  | append value => exact hact (fun _ d hd => (append_ok (h i) hp hd).1) hr
  | clear => exact hact (fun _ d hd => (resizeTo_ok (h i) hp hd).1) hr
  | replace blocks => exact hact (fun _ d hd => (replace_ok hp.1 hp.2 hd).1) hr
  | extract => exact hput (inv_extract hp).1 hr
  | swap j =>
      simp only [run] at hr
      split at hr
      · cases hr
        exact h k
      · cases hr
        have hs := swap_spec (S i) (S j)
        exact Bank.put_inv (Bank.put_inv h ((h j).transferred hs.1)) ((h i).transferred hs.2) k
  | copyAssign j => exact hact (fun _ d hd => (hother j).transferred (copyAssign_ok hd)) hr
  | moveAssign j =>
      simp only [run] at hr
      split at hr
      · cases hr
        exact h k
      · split at hr
        · rename_i left d hd
          cases hr
          have hm := moveAssign_ok (h j) hd
          exact Bank.put_inv (Bank.put_inv h ((h j).transferred hm.1)) hm.2 k
        · cases hr
  | default alloc => exact hput (default_spec hv alloc).1 hr
  | construct n alloc => exact map_put_inv h (fun d hd => (construct_ok hp hd).1) hr k
  | adopt blocks => exact hput (adopt_spec hp).1 hr
  | adoptUnder blocks alloc =>
      exact map_put_inv h (fun d hd => (adoptUnder_ok hp.1 hp.2 hd).1) hr k
  | copyOf j alloc =>
      exact map_put_inv h (fun d hd => (h j).transferred (copyOf_sameValue hd)) hr k
  | moveOf j =>
      cases hr
      have hm := moveOf_spec (h j)
      exact Bank.put_inv (Bank.put_inv h hm.2) ((h j).transferred hm.1) k
  | moveUnder j alloc =>
      simp only [run] at hr
      split at hr
      · rename_i d left hd
        cases hr
        obtain ⟨hsame, hleft, -⟩ := moveUnder_spec hp hd
        exact Bank.put_inv (Bank.put_inv h hleft) ((h j).transferred hsame) k
      · cases hr

end Step

end Op

/-! ## 4. Every run -/

section Run
variable {w : Nat} {V : Vehicle w}

/-- A bank that a run of completed operations reaches from default-constructed containers. -/
inductive Reachable (V : Vehicle w) : Bank V → Prop where
  | start (alloc : Nat → Nat) : Reachable V fun i => BitBlockContainer.default V (alloc i)
  | step {S T : Bank V} (mem : Memory) (i : Nat) (op : Op V) (hS : Reachable V S)
      (hp : op.Pre S i) (hr : op.run mem S i = .ok T) : Reachable V T

/-- **The invariant holds over every run.** -/
theorem Reachable.inv (hv : V.hasStoredSize = true ∨ V.hasStaticSize = true) {S : Bank V}
    (h : Reachable V S) : ∀ i, (S i).Inv := by
  induction h with
  | start alloc => exact fun i => (default_spec hv (alloc i)).1
  | step mem i op _ hp hr ih => exact Op.run_inv hv op ih hp hr

/-- **The representation invariant of `bit_block_container`**, for every owned storage and over
    every run: a clear tail, the blocks the width needs, a width within the capacity, and a kept
    count that is the number of set bits. -/
theorem container_invariant (hv : V.storage ≠ .lent) {S : Bank V} (h : Reachable V S) (i : Nat) :
    (∀ p, (S i).size ≤ p → (S i).bit p = false) ∧
    (V.hasStoredSize = true → (S i).numBlocks = blocksFor w (S i).size) ∧
    (V.hasStaticCapacity = true → (S i).size ≤ V.extent) ∧
    (V.hasStoredCount = true → (S i).mCount = countBits (S i).bit (S i).size) := by
  have hi := h.inv (V.owned_of_not_lent hv) i
  refine ⟨hi.clear, fun _ => ?_, hi.capacity, hi.count⟩
  rw [hi.shape.numBlocks]
  exact hi.shape

/-- A counted byte vector grown with twelve ones, and flipped at position three. -/
theorem container_invariant_flipped : ∃ S : Bank (byteVector true), (S 0).size = 12 ∧
    (S 0).mCount = 11 ∧ (S 0).mCount = countBits (S 0).bit (S 0).size := by
  have h0 : Reachable (byteVector true) fun _ => BitBlockContainer.default (byteVector true) 0 :=
    .start fun _ => 0
  have h1 := Reachable.step .ample 0 (.resize 12 true) h0 rfl rfl
  have h2 := Reachable.step .ample 0 (.flip 3) h1 (show 3 < 12 by decide) rfl
  exact ⟨_, rfl, rfl, (container_invariant (by decide) h2 0).2.2.2 rfl⟩

/-- Twelve positions over bytes, of which 0, 3, 5 and 10 are set. -/
def fourOfTwelve (counted : Bool) : BitBlockContainer (byteVector counted) where
  mSize := 12
  mCount := if counted then 4 else 0
  mBlocks := { elems := [41, 4], reserved := 2, alloc := 0 }

/-- A run comes to it, adopting two blocks and cutting the last four positions off. -/
theorem fourOfTwelve_reachable (counted : Bool) :
    ∃ S, Reachable (byteVector counted) S ∧ S 0 = fourOfTwelve counted := by
  have h0 : Reachable (byteVector counted)
      fun _ => BitBlockContainer.default (byteVector counted) 0 := .start fun _ => 0
  have h1 := Reachable.step .ample 0 (.adopt { elems := [41, 4], reserved := 2, alloc := 0 }) h0
    ⟨fun _ => Nat.le_of_ble_eq_true rfl, nofun, nofun⟩ rfl
  cases counted <;> exact ⟨_, .step .ample 0 (.resize 12 false) h1 rfl rfl, rfl⟩

theorem fourOfTwelve_inv (counted : Bool) : (fourOfTwelve counted).Inv := by
  obtain ⟨S, hS, h⟩ := fourOfTwelve_reachable counted
  exact h ▸ hS.inv (Or.inl rfl) 0

end Run

/-! ## 5. A source moved from under an allocator -/

section Later
variable {w : Nat} {V : Vehicle w}

/-- A bank that a run of completed operations reaches from another. -/
inductive Later (S : Bank V) : Bank V → Prop where
  | refl : Later S S
  | step {T U : Bank V} (mem : Memory) (i : Nat) (op : Op V) (hT : Later S T)
      (hp : op.Pre T i) (hr : op.run mem T i = .ok U) : Later S U

theorem Later.inv (hv : V.hasStoredSize = true ∨ V.hasStaticSize = true) {S T : Bank V}
    (h : Later S T) (hS : ∀ i, (S i).Inv) : ∀ i, (T i).Inv := by
  induction h with
  | refl => exact hS
  | step mem i op _ hp hr ih => exact Op.run_inv hv op ih hp hr

/-- What the move of container `j` under an allocator promises: a throw leaves `j` as every later
    run needs it, and a return leaves its old value in the new container and `j` empty. -/
def MoveUnderSafe (mem : Memory) (alloc : Nat) (S : Bank V) (j : Nat) : Prop :=
  match moveUnder mem alloc (S j) with
  | .error _ left =>
      left.Inv ∧ ∀ T, Later (S.put j left) T → ∀ k, (T k).Inv
  | .ok d left =>
      d.Inv ∧ d.size = (S j).size ∧ (∀ p, d.bit p = (S j).bit p) ∧
        (V.hasStoredCount = true → d.mCount = (S j).mCount) ∧ left.Inv ∧ left.size = 0

/-- The blocks of a source are taken whole under an allocator equal to its own, and under another
    where there are none or the memory grants a copy of them. -/
def TakesBlocks (mem : Memory) (alloc : Nat) (other : BitBlockContainer V) : Prop :=
  V.traits.isAlwaysEqual = true ∨ alloc = other.mBlocks.alloc ∨ other.mBlocks.elems = [] ∨
    ∃ capacity, Blocks.allocateFor V mem other.mBlocks.elems.length = .ok capacity

variable {mem : Memory} {alloc : Nat} {other : BitBlockContainer V}

/-- Room for the blocks under a new allocator is asked of the memory, unless there are none. -/
theorem makeRoom_empty_error {n : Nat} (hc : V.hasStaticCapacity = false) :
    (∃ e, (Blocks.empty alloc : Blocks w).makeRoom V mem n = .error e) ↔
      n ≠ 0 ∧ ¬ ∃ capacity, Blocks.allocateFor V mem n = .ok capacity := by
  unfold Blocks.makeRoom
  rw [hc, if_neg (by decide)]
  by_cases hn : n = 0
  · rw [if_pos ⟨by rw [hn]; exact Nat.zero_le _, by rw [hn]; exact Nat.zero_le _⟩]
    exact iff_of_false (fun ⟨_, he⟩ => nomatch he) fun h => h.1 hn
  · rw [if_neg fun h => hn (Nat.le_zero.mp h.1)]
    cases Blocks.allocateFor V mem n with
    | error e => exact iff_of_true ⟨e, rfl⟩ ⟨hn, fun ⟨_, he⟩ => nomatch he⟩
    | ok capacity => exact iff_of_false (fun ⟨_, he⟩ => nomatch he) fun h => h.2 ⟨capacity, rfl⟩

theorem takesBlocks_iff :
    TakesBlocks mem alloc other ↔
      ¬ ∃ e, (Blocks.empty alloc).takeBlocks V mem other.mBlocks = .error e := by
  rw [takeBlocks_error_iff]
  unfold TakesBlocks
  by_cases ha : V.traits.isAlwaysEqual = true
  · simp [ha]
  · have hc : V.hasStaticCapacity = false := by
      unfold Vehicle.hasStaticCapacity
      unfold Vehicle.traits at ha
      split
      · rename_i heq
        rw [heq] at ha
        exact absurd rfl ha
      · rfl
    rw [Bool.not_eq_true] at ha
    rw [makeRoom_empty_error hc, Ne, Ne, List.length_eq_zero_iff, ha]
    tauto

/-- **A thrown move leaves its source's blocks over a width of zero.** -/
theorem moveUnder_error {e : Exn} {left : BitBlockContainer V} (hs : V.hasStoredSize = true)
    (h : moveUnder mem alloc other = .error e left) :
    left.mBlocks = other.mBlocks ∧ left.size = 0 := by
  unfold moveUnder at h
  split at h
  · cases h
    refine ⟨rfl, ?_⟩
    rw [size_of_stored hs]
    split <;> rfl
  · cases h

/-- **When the move under an allocator is safe**: exactly where the blocks are taken, since a throw
    comes after the width is zero and before the blocks are. -/
theorem moveUnder_safe_iff (hs : V.hasStoredSize = true) {S : Bank V} (h : ∀ k, (S k).Inv)
    (j : Nat) : MoveUnderSafe mem alloc S j ↔ TakesBlocks mem alloc (S j) := by
  unfold MoveUnderSafe
  cases hm : moveUnder mem alloc (S j) with
  | ok d left =>
      obtain ⟨hsame, hleft, hz⟩ := moveUnder_spec hs hm
      refine iff_of_true ⟨(h j).transferred hsame, hsame.size, hsame.bit, hsame.mCount, hleft, hz⟩
        (takesBlocks_iff.mpr ?_)
      intro ⟨e, he⟩
      unfold moveUnder at hm
      rw [he] at hm
      cases hm
  | error e left =>
      obtain ⟨hblocks, hz⟩ := moveUnder_error hs hm
      have hthrown : ¬ TakesBlocks mem alloc (S j) := by
        rw [takesBlocks_iff, not_not]
        unfold moveUnder at hm
        split at hm
        · rename_i e' he
          exact ⟨e', he⟩
        · cases hm
      refine iff_of_false (fun hleft => ?_) hthrown
      -- the width says no blocks, and the blocks are still there
      have hshape := hleft.1.shape
      unfold Shape at hshape
      rw [hz, blocksFor_zero, hblocks, List.length_eq_zero_iff] at hshape
      exact hthrown (Or.inr (Or.inr (Or.inl hshape)))

/-- Bytes under allocators that differ, which a move does not take along. -/
def arenaVector : Vehicle 8 where
  storage := .growing
    { counted := true, maxBlocks := ptrdiffMax, hasCapacity := true, isAlwaysEqual := false,
      propagateOnCopy := false, propagateOnMove := false, propagateOnSwap := false,
      nothrowMoveAssignable := false }
  bits_pos := byte_pos
  bits_int := byte_int
  holds_width := rfl
  whole_blocks := rfl

/-- **Three ones under another allocator** are moved safely where it grants their block, and not
    where it refuses it. -/
theorem moveUnder_safe_iff_three : ∃ S : Bank arenaVector, Reachable arenaVector S ∧
    (S 0).size = 3 ∧ (∀ p, p < 3 → (S 0).bit p = true) ∧
    MoveUnderSafe Memory.ample 1 S 0 ∧ ¬ MoveUnderSafe Memory.refusing 1 S 0 := by
  have h0 : Reachable arenaVector fun _ => BitBlockContainer.default arenaVector 0 :=
    .start fun _ => 0
  have h1 := Reachable.step .ample 0 (.resize 3 true) h0 rfl rfl
  have hinv := h1.inv (Or.inl rfl)
  refine ⟨_, h1, rfl, by decide, ?_, fun hsafe => ?_⟩
  · exact (moveUnder_safe_iff rfl hinv 0).mpr (Or.inr (Or.inr (Or.inr ⟨1, rfl⟩)))
  · rcases (moveUnder_safe_iff rfl hinv 0).mp hsafe with h | h | h | ⟨capacity, h⟩
    · cases h
    · exact absurd h (by decide)
    · cases h
    · cases h

/-- **A refused move breaks its source**: three ones under allocator zero, moved under allocator
    one. A width of zero and a count of three are left over the old block, and a growth of eight
    clear positions then reads a one. -/
theorem moveUnder_breaks : ∃ S : Bank arenaVector, Reachable arenaVector S ∧ (S 0).size = 3 ∧
    ∃ e left, moveUnder Memory.refusing 1 (S 0) = .error e left ∧ ¬ left.Inv ∧
      left.size = 0 ∧ left.mCount = 3 ∧
      ∃ d, BitBlockContainer.resize Memory.ample 8 false left = .ok () d ∧ d.bit 0 = true := by
  have h0 : Reachable arenaVector fun _ => BitBlockContainer.default arenaVector 0 :=
    .start fun _ => 0
  have h1 := Reachable.step .ample 0 (.resize 3 true) h0 rfl rfl
  refine ⟨_, h1, rfl, _, _, rfl, fun h => ?_, rfl, rfl, _, rfl, rfl⟩
  have := h.count rfl
  exact absurd this (by decide)

end Later

end XstdBits
