/-
  File: XstdBits/Sequence/Strong.lean
  Subject: the strong guarantee of growth, over the container and both its readings.

  * a `Growth` is an operation that may ask the memory for blocks, on one container of a bank with
    another (or itself) as its operand; a range argument may be a window of either.
  * the storage may refuse at any request, and reading a range may throw; `ReadsInPlace` is the one
    throw that is not undone, of a read after an append has made its room.
  * the guarantee is one lemma for each operation, of the modules that define them.
-/
import XstdBits.Set.Adaptor
import XstdBits.Sequence.Adaptor

namespace XstdBits

open BitBlockContainer

/-! ## 1. The operations that grow -/

/-- One operation that grows; `j` numbers its right operand. -/
inductive Growth {w : Nat} (V : Vehicle w) (Key : Type) where
  | resize (n : Nat) (value : Bool) | pushBack (value : Bool) | append (value : BitVec w)
  /-- `insert(key)` of the set reading -/
  | insert (M : KeyMapping Key) (key : Key)
  | orAssign (j : Nat) | xorAssign (j : Nat)
  | copyAssign (j : Nat) | moveAssign (j : Nat)
  | appendRange (rg : RangeArg V)
  | insertRange (position : Nat) (rg : RangeArg V)
  | insertPair (position : Nat) (rg : ValueRange)
  | insertCount (position n : Nat) (value : Bool)

namespace Growth
variable {w : Nat} {V : Vehicle w} {Key : Type}

/-- What the operation asks of its arguments, and of its type. -/
def Pre (S : Bank V) (i : Nat) : Growth V Key → Prop
  | copyAssign _ => InstallsWithoutThrowing V
  | appendRange rg => V.hasStoredCount = false ∧ (S.range i rg).Readable (S i)
  | insertRange position rg =>
      V.hasStoredCount = false ∧ position ≤ (S i).size ∧ (S.range i rg).Readable (S i)
  | insertPair position _ => V.hasStoredCount = false ∧ position ≤ (S i).size
  | insertCount position _ _ => V.hasStoredCount = false ∧ position ≤ (S i).size
  | _ => True

/-- The operation on container `i`, and the bank as it is left either way. -/
def run (mem : Memory) (i : Nat) : Growth V Key → EStateM Exn (Bank V) Unit
  | resize n value => Bank.attempt i fun _ => BitBlockContainer.resize mem n value
  | pushBack value => Bank.attempt i fun _ => BitBlockContainer.pushBack mem value
  | append value => Bank.attempt i fun _ => BitBlockContainer.append mem value
  | insert M key => Bank.attempt i (fun _ => SetAdaptor.insert M mem key) >>= fun _ => pure ()
  | orAssign j => Bank.attempt i fun S => orAdmitted mem (S.operand i j)
  | xorAssign j => Bank.attempt i fun S => xorAdmitted mem (S.operand i j)
  | copyAssign j => Bank.attempt i fun S => BitBlockContainer.copyAssign mem (S.operand i j)
  | moveAssign j => fun S =>
      if i = j then .ok () S
      else
        match BitBlockContainer.moveAssign mem (S j) (S i) with
        | .ok left d => .ok () ((S.put i d).put j left)
        | .error e d => .error e (S.put i d)
  | appendRange rg => Bank.attempt i fun S => SequenceAdaptor.appendRange mem (S.range i rg)
  | insertRange position rg =>
      Bank.attempt i (fun S => SequenceAdaptor.insertRange mem position (S.range i rg)) >>= fun _ =>
        pure ()
  | insertPair position rg =>
      Bank.attempt i (fun _ => SequenceAdaptor.insertPair mem position rg) >>= fun _ => pure ()
  | insertCount position n value =>
      Bank.attempt i (fun _ => SequenceAdaptor.insertCount mem position n value) >>= fun _ => pure ()

/-- The one throw that is not undone: of a read, once `append_range` has made room for a range that
    knows its size. -/
def ReadsInPlace (S : Bank V) (i : Nat) (e : Exn) : Growth V Key → Prop
  | appendRange rg => SequenceAdaptor.SourceRange.ReadsInPlace e (S.range i rg)
  | _ => False

/-! ## 2. The guarantee -/

section Strong
variable {mem : Memory} {S T : Bank V} {i : Nat} {e : Exn}

theorem put_intact {d : BitBlockContainer V} (h : Intact (S i) d) (k : Nat) :
    Intact (S k) (S.put i d k) := by
  unfold Bank.put
  split
  · rename_i hk
    subst hk
    exact h
  · exact .refl

/-- An action that leaves its container as it was leaves the bank as it was. -/
theorem attempt_intact {α : Type} {a : Bank V → Action V α} (h : Bank.attempt i a S = .error e T)
    (ha : ∀ d, a S (S i) = .error e d → Intact (S i) d) (k : Nat) : Intact (S k) (T k) := by
  unfold Bank.attempt at h
  split at h
  · cases h
  · rename_i e' d hd
    cases h
    exact put_intact (ha d hd) k

theorem attempt_error {α : Type} {a : Bank V → Action V α} {d : BitBlockContainer V}
    (h : a S (S i) = .error e d) : Bank.attempt i a S = .error e (S.put i d) := by
  unfold Bank.attempt
  rw [h]

/-- An attempt throws as it does where its result is dropped. -/
theorem dropped_error {α : Type} {a : EStateM Exn (Bank V) α} :
    (a >>= fun _ => pure ()) S = .error e T ↔ a S = .error e T := by
  change EStateM.bind a (fun _ => pure ()) S = _ ↔ _
  unfold EStateM.bind
  cases a S with
  | ok x t => exact iff_of_false nofun nofun
  | error e' t =>
      constructor
      · intro h
        cases h
        rfl
      · intro h
        cases h
        rfl

end Strong

/-- **The strong guarantee of growth.** Wherever the storage refuses to grow, and wherever a read
    throws that is not of an append in place, every container of the bank keeps its elements, its
    width and its count. Blocks within what is reserved for them are what no shrink throws on. -/
theorem strong_guarantee {mem : Memory} {S T : Bank V} {i : Nat} {e : Exn}
    (hs : V.hasStoredSize = true) (h : ∀ k, (S k).Inv) (hr : ∀ k, (S k).mBlocks.Roomy V)
    {op : Growth V Key} (hp : op.Pre S i) (he : op.run mem i S = .error e T)
    (hread : ¬ op.ReadsInPlace S i e) (k : Nat) : Intact (S k) (T k) := by
  cases op with
  | resize n value =>
      refine attempt_intact (a := fun _ => BitBlockContainer.resize mem n value) he ?_ k
      exact fun d hd => .of_eq (resizeTo_strong e d hd)
  | pushBack value =>
      refine attempt_intact (a := fun _ => BitBlockContainer.pushBack mem value) he ?_ k
      exact fun d hd => .of_eq (resizeTo_strong e d hd)
  | append value =>
      refine attempt_intact (a := fun _ => BitBlockContainer.append mem value) he ?_ k
      exact fun d hd => .of_eq (append_strong e d hd)
  | insert M key =>
      refine attempt_intact (dropped_error.mp he) (fun d hd => .of_eq ?_) k
      exact SetAdaptor.doInsert_strong e d hd
  | orAssign j =>
      refine attempt_intact (a := fun S => orAdmitted mem (S.operand i j)) he ?_ k
      exact fun d hd => .of_eq (admitThen_strong e d hd)
  | xorAssign j =>
      refine attempt_intact (a := fun S => xorAdmitted mem (S.operand i j)) he ?_ k
      exact fun d hd => .of_eq (admitThen_strong e d hd)
  | copyAssign j =>
      refine attempt_intact (a := fun S => BitBlockContainer.copyAssign mem (S.operand i j)) he ?_ k
      exact fun d hd => .of_eq (copyAssign_strong hp e d hd)
  | moveAssign j =>
      simp only [run] at he
      split at he
      · cases he
      · split at he
        · cases he
        · rename_i d hd
          cases he
          exact put_intact (.of_eq (moveAssign_strong _ d hd)) k
  | appendRange rg =>
      refine attempt_intact (a := fun S => SequenceAdaptor.appendRange mem (S.range i rg)) he ?_ k
      intro d hd
      exact ((SequenceAdaptor.appendRange_ends (h i) (hr i) hs hp.1 hp.2).error hd).1 hread
  | insertRange position rg =>
      refine attempt_intact (dropped_error.mp he) (fun d hd => ?_) k
      exact ((SequenceAdaptor.insertRange_ends (h i) hs hp.1 hp.2.1 hp.2.2).error hd).1
  | insertPair position rg =>
      refine attempt_intact (dropped_error.mp he) (fun d hd => .of_eq ?_) k
      exact ((SequenceAdaptor.insertPair_ends (h i) hs hp.1 hp.2).error hd).1
  | insertCount position n value =>
      refine attempt_intact (dropped_error.mp he) (fun d hd => .of_eq ?_) k
      exact ((SequenceAdaptor.insertCount_ends (h i) hs hp.1 hp.2).error hd).1

/-- Three values of known size, the second of which throws where it is read. -/
def brokenRange : ValueRange where
  sized := true
  forward := true
  distance := 3
  read := [false]
  throws := true
  read_le := Nat.le_of_ble_eq_true rfl
  complete := nofun

/-- Twelve bools, and empty sequences besides. -/
def twelveAmong : Bank (byteVector false) :=
  Bank.put (fun _ => BitBlockContainer.default (byteVector false) 0) 0 (fourOfTwelve false)

theorem twelveAmong_inv (k : Nat) : (twelveAmong k).Inv := by
  unfold twelveAmong Bank.put
  split
  · exact fourOfTwelve_inv false
  · exact (default_spec (Or.inl rfl) 0).1

theorem twelveAmong_roomy (k : Nat) : (twelveAmong k).mBlocks.Roomy (byteVector false) := by
  intro _
  unfold twelveAmong Bank.put
  split
  · exact Nat.le_refl 2
  · exact Nat.le_refl 0

set_option maxRecDepth 4000 in
/-- A range inserted into them at five, whose second value throws. -/
theorem strong_guarantee_read : ∃ T : Bank (byteVector false),
    (insertRange 5 (.values brokenRange) : Growth (byteVector false) Nat).run .ample 0 twelveAmong =
      .error .reading T ∧ ∀ k, Intact (twelveAmong k) (T k) := by
  have hp : (insertRange 5 (.values brokenRange) : Growth (byteVector false) Nat).Pre twelveAmong 0 :=
    ⟨rfl, Nat.le_of_ble_eq_true rfl, trivial⟩
  have hinsert : SequenceAdaptor.insertRange .ample 5 (.values brokenRange) (fourOfTwelve false) =
      .error .reading (fourOfTwelve false) := rfl
  have he := dropped_error.mpr (attempt_error (S := twelveAmong) (i := 0)
    (a := fun S => SequenceAdaptor.insertRange .ample 5 (S.range 0 (.values brokenRange))) hinsert)
  exact ⟨_, he, strong_guarantee rfl twelveAmong_inv twelveAmong_roomy hp he id⟩

end Growth

end XstdBits
