/-
  File: XstdBits/Valarray/Program.lean
  Subject: programs over a bank of valarrays, and what they mean of lists of bools
  (`valarray_adaptor.hpp`).

  * a `Subscript` names positions of a valarray; a mask is a valarray of the bank, and may be the
    one subscripted.
  * an `Expr` makes a valarray of its own; a `Stmt` changes one valarray of the bank, by assigning
    it an expression, writing through a subscript, or in place.
  * `Expr.value` and `Stmt.spec` are the meaning, list by list, as `std::valarray<bool>` has it;
    `Expr.eval` and `Stmt.run` are the code.
-/
import XstdBits.Valarray.Elementwise
import XstdBits.Valarray.Rotation

namespace XstdBits

namespace Valarray

open BitBlockContainer (copyOf moveAssign copyAssign)

/-! ## 1. The language -/

/-- What a subscript takes; a mask is valarray `k` of the bank. -/
inductive Subscript where
  | slice (s : Slice)
  | gslice (g : Gslice) (x : GsliceIndex) (built : gsliceIndex g = some x)
  | mask (k : Nat)
  | indirect (indices : List SizeT)

/-- An expression over the valarrays of the bank, by number. -/
inductive Expr where
  /-- `valarray(n)`, `valarray(value, n)`, and the bools of a list or of an array read -/
  | sized (n : Nat) | filled (value : Bool) (n : Nat) | listed (values : List Bool)
  /-- the constructor from a proxy, and the subscript of a const valarray -/
  | proxy (sub : Subscript) (j : Nat) | gathered (sub : Subscript) (j : Nat)
  | zip (op : Operator) (j k : Nat)
  | zipRight (op : Operator) (j : Nat) (value : Bool)
  | zipLeft (op : Operator) (value : Bool) (k : Nat)
  | logicalNot (j : Nat) | bitNot (j : Nat) | apply (func : Bool → Bool) (j : Nat)
  | shift (n : BitVec 32) (j : Nat) | cshift (n : BitVec 32) (j : Nat)
  | shl (j n : Nat) | shr (j n : Nat)

/-- What is assigned to a proxy: a valarray, or another proxy. -/
inductive Argument where
  | array (j : Nat)
  | proxy (sub : Subscript) (j : Nat)

/-- One statement about valarray `i`. -/
inductive Stmt where
  /-- `v = e`, its value moved in -/
  | assign (e : Expr)
  | assignValue (value : Bool) | copyAssign (j : Nat) | swap (j : Nat)
  | resize (n : Nat) (value : Bool)
  /-- `v[n] = value`, `v[sub] op= a` and `v[sub] op= value` -/
  | write (n : Nat) (value : Bool)
  | scatter (sub : Subscript) (f : Combine) (a : Argument)
  | fill (sub : Subscript) (f : Combine) (value : Bool)
  | andAssign (j : Nat) | orAssign (j : Nat) | xorAssign (j : Nat)
  | andAssignValue (value : Bool) | orAssignValue (value : Bool) | xorAssignValue (value : Bool)
  | shlAssign (n : Nat) | shrAssign (n : Nat)

/-! ## 2. What it means -/

/-- The lists the valarrays stand for. -/
abbrev Values := Nat → List Bool

/-- The element at a position, false where there is none. -/
abbrev elemAt (xs : List Bool) (p : Nat) : Bool := xs.getD p false

/-- `for (k...) xs[ps[k]] = f(xs[ps[k]], read(k))`, from the `k`-th on. -/
def written (f : Bool → Bool → Bool) (read : List Bool → Nat → Bool) :
    List Nat → Nat → List Bool → List Bool
  | [], _, xs => xs
  | p :: ps, k, xs => written f read ps (k + 1) (xs.set p (f (elemAt xs p) (read xs k)))

/-- Moved `n` places down, and up. -/
def lowered (n : Nat) (xs : List Bool) : List Bool := (xs ++ List.replicate n false).drop n

def raised (n : Nat) (xs : List Bool) : List Bool :=
  (List.replicate n false ++ xs).take xs.length

namespace Subscript

/-- The positions a subscript names, in its order. -/
def positions (L : Values) : Subscript → List Nat
  | slice s => s.positions.map BitVec.toNat
  | gslice g _ _ => g.positions.map BitVec.toNat
  | mask k => ascending (elemAt (L k)) (L k).length
  | indirect indices => indices.map BitVec.toNat

/-- The elements a subscript of valarray `j` reads. -/
def elements (L : Values) (sub : Subscript) (j : Nat) : List Bool :=
  (sub.positions L).map (elemAt (L j))

/-- Positions within valarray `j`, and a mask of its size, as the subscript asserts; and a gslice that
    does not wrap around, which it does not. -/
structure Within (L : Values) (sub : Subscript) (j : Nat) : Prop where
  below : ∀ p, p ∈ sub.positions L → p < (L j).length
  noWrap : ∀ g x built, sub = gslice g x built → g.NoWrap
  sameSize : ∀ k, sub = mask k → (L k).length = (L j).length

/-- An empty slice of stride one does not start past the last block, which nothing asserts. -/
def InReach (w : Nat) (L : Values) (sub : Subscript) (j : Nat) : Prop :=
  ∀ s, sub = slice s → s.size = 0 → s.stride = 1 →
    s.start.toNat / w ≤ blocksFor w (L j).length

end Subscript

namespace Expr
variable {w : Nat} (V : Vehicle w) (L : Values)

/-- The value of an expression; what a list does not name of a fixed size is false. -/
def value : Expr → List Bool
  | sized n => List.replicate n false
  | filled value n => List.replicate n value
  | listed values =>
      values ++ List.replicate ((if V.hasStaticSize then V.extent else 0) - values.length) false
  | proxy sub j => sub.elements L j
  | gathered sub j => sub.elements L j
  | zip op j k => List.zipWith op.onBools (L j) (L k)
  | zipRight op j value => (L j).map (op.onBools · value)
  | zipLeft op value k => (L k).map (op.onBools value)
  | logicalNot j => (L j).map not
  | bitNot j => (L j).map not
  | apply func j => (L j).map func
  | shift n j => if 0 ≤ n.toInt then lowered n.toInt.natAbs (L j) else raised n.toInt.natAbs (L j)
  | cshift n j => (L j).rotate (n.toInt % (L j).length).toNat
  | shl j n => raised n (L j)
  | shr j n => lowered n (L j)

/-- What the expression asserts and what its type allows, and of its subscript that it wraps around
    nowhere and is in reach. -/
def Pre : Expr → Prop
  | sized _ => V.hasStoredSize = true
  | filled _ _ => V.hasStoredSize = true
  | listed values => V.hasStaticSize = true → values.length ≤ V.extent
  | proxy sub j => sub.Within L j ∧ sub.InReach w L j ∧
      (V.hasStaticSize = true → (sub.positions L).length = V.extent)
  | gathered sub j => V.hasStoredSize = true ∧ sub.Within L j ∧ sub.InReach w L j
  | zip _ j k => (L j).length = (L k).length
  | _ => True

end Expr

namespace Argument
variable (w : Nat) (L : Values)

/-- Its elements, as the loop that writes valarray `i` finds them. -/
def read (i : Nat) : Argument → List Bool → Nat → Bool
  | array j => if i = j then elemAt else fun _ => elemAt (L j)
  | proxy sub j => fun _ => elemAt (sub.elements L j)

/-- As many elements as are written. -/
def Fits (n : Nat) : Argument → Prop
  | array j => (L j).length = n
  | proxy sub j => sub.Within L j ∧ sub.InReach w L j ∧ (sub.positions L).length = n

/-- The memory has room for the vector a proxy's elements are gathered into. -/
def Granted (mem : Memory) : Argument → Prop
  | array _ => True
  | proxy sub _ =>
      let n := blocksFor w (sub.positions L).length
      n = 0 ∨ ∃ k, mem.allocate n = .ok k

end Argument

namespace Stmt
variable {w : Nat} (V : Vehicle w) (L : Values) (i : Nat)

/-- List `i` after the statement. -/
def edited : Stmt → List Bool
  | assign e => e.value V L
  | assignValue value => List.replicate (L i).length value
  | copyAssign j => L j
  | swap j => L j
  | resize n value => List.replicate n value
  | write n value => (L i).set n value
  | scatter sub f a => written f.bit (a.read L i) (sub.positions L) 0 (L i)
  | fill sub f value => written f.bit (fun _ _ => value) (sub.positions L) 0 (L i)
  | andAssign j => List.zipWith and (L i) (L j)
  | orAssign j => List.zipWith or (L i) (L j)
  | xorAssign j => List.zipWith xor (L i) (L j)
  | andAssignValue value => (L i).map (· && value)
  | orAssignValue value => (L i).map (· || value)
  | xorAssignValue value => (L i).map (· ^^ value)
  | shlAssign n => raised n (L i)
  | shrAssign n => lowered n (L i)

/-- The lists after the statement. -/
def spec (st : Stmt) : Values :=
  match st with
  | swap j => Function.update (Function.update L i (L j)) j (L i)
  | st => Function.update L i (st.edited V L i)

/-- What the statement asserts, distinct positions of a write among it, and what its type allows; and
    of its subscripts that they wrap around nowhere and are in reach. -/
def Pre : Stmt → Prop
  | assign e => e.Pre V L
  | resize _ _ => V.hasStoredSize = true
  | write n _ => n < (L i).length
  | scatter sub _ a => sub.Within L i ∧ sub.InReach w L i ∧ (sub.positions L).Nodup ∧
      a.Fits w L (sub.positions L).length
  | fill sub _ _ => sub.Within L i ∧ (sub.positions L).Nodup
  | andAssign j => (L i).length = (L j).length
  | orAssign j => (L i).length = (L j).length
  | xorAssign j => (L i).length = (L j).length
  | _ => True

/-- The memory has room for what the statement makes, where it asks for any. -/
def Fits (mem : Memory) (st : Stmt) : Prop :=
  match st with
  | assign _ => V.hasStoredSize = true → BitBlockContainer.HasRoom V mem (st.edited V L i).length
  | copyAssign _ => V.hasStoredSize = true → BitBlockContainer.HasRoom V mem (st.edited V L i).length
  | resize n _ => BitBlockContainer.HasRoom V mem n
  | scatter _ _ a => a.Granted w L mem
  | _ => True

end Stmt

/-! ## 3. The code -/

section Code
variable {w : Nat} {V : Vehicle w} (I : Intrinsics w) (B : Vehicle w) (mem : Memory) (alloc : Nat)
  (S : Bank V) (h : ∀ k, (S k).Inv) (hV : V.storage ≠ .lent)

/-- Valarray `j` where valarray `i` is subscripted. -/
def arrayRef (i j : Nat) : ArrayRef w := if i = j then .own else .of (.ofContainer (S j) (h j) hV)

def Subscript.selection (i : Nat) : Subscript → Selection w
  | slice s => .slice s
  | gslice g x built => .gslice g x built
  | mask k => .mask (arrayRef S h hV i k)
  | indirect indices => .indirect indices

def Argument.operand (i : Nat) : Argument → ArrayOperand w
  | array j => .array (arrayRef S h hV i j)
  | proxy sub j => .proxy (sub.selection S h hV j) (arrayRef S h hV i j)

/-- `std::ranges::copy(values, elements().begin())`, an element at a time from position `n` on. -/
def copyInto (values : List Bool) (n : Nat) (result : BitBlockContainer V) : BitBlockContainer V :=
  (values.foldl (fun (s : Nat × BitBlockContainer V) value => (s.1 + 1, s.2.assign s.1 value))
    (n, result)).2

/-- `operator<<=(n)`. -/
def shlAssign (x : BitBlockContainer V) (n : Nat) : BitBlockContainer V :=
  if n < x.size then x.shlAssign n else x.fill false

/-- `operator>>=(n)`. -/
def shrAssign (x : BitBlockContainer V) (n : Nat) : BitBlockContainer V :=
  if n < x.size then x.shrAssign n else x.fill false

/-- `auto nrv = x`, changed in place and returned. -/
def onCopy (x : BitBlockContainer V) (step : BitBlockContainer V → BitBlockContainer V) :
    Except Exn (BitBlockContainer V) := do
  let nrv ← copyOf mem x x.mBlocks.alloc
  return step nrv

/-- The valarray an expression makes. -/
def Expr.eval : Expr → Except Exn (BitBlockContainer V)
  | sized n => ofCount mem alloc n
  | filled value n => do
      let c ← ofCount mem alloc n
      return c.fill value
  | listed values => do
      let c ← cleared mem alloc values.length fun n => decide (values.length ≤ n)
      return copyInto values 0 c
  | proxy sub j =>
      (BitValarray.ofContainer (S j) (h j) hV).ofProxy I B mem alloc (sub.selection S h hV j)
  -- at a run-time size the owner gathered into is the valarray's own type
  | gathered sub j =>
      (BitValarray.ofContainer (S j) (h j) hV).gather I B mem alloc (sub.selection S h hV j) V
  | zip op j k => Valarray.zip mem (S j) (S k) op.functor
  | zipRight op j value => Valarray.zipRight mem (S j) value op.functor
  | zipLeft op value k => Valarray.zipLeft mem value (S k) op.functor
  | logicalNot j => Valarray.logicalNot mem (S j)
  | bitNot j => Valarray.bitNot mem (S j)
  | apply func j => Valarray.apply mem (S j) func
  | shift n j => onCopy mem (S j) (Valarray.shift · n)
  | cshift n j => onCopy mem (S j) (Valarray.cshift · n)
  | shl j n => onCopy mem (S j) (Valarray.shlAssign · n)
  | shr j n => onCopy mem (S j) (Valarray.shrAssign · n)

/-- Blocks written through a proxy, which borrows those of valarray `i`. -/
def writtenBack (i : Nat) (out : Except Exn (List (BitVec w))) :
    EStateM.Result Exn (Bank V) Unit :=
  match out with
  | .error e => .error e S
  | .ok out => .ok () (S.put i ((S i).withElems fun _ => out))

/-- The statement on valarray `i`, and the bank as it is left either way. -/
def Stmt.run (i : Nat) : Stmt → EStateM.Result Exn (Bank V) Unit
  | assign e =>
      match e.eval I B mem alloc S h hV with
      | .error e => .error e S
      | .ok made => Bank.attempt i (fun _ => moveAssign mem made >>= fun _ => pure ()) S
  | assignValue value => .ok () (S.put i ((S i).fill value))
  | copyAssign j => Bank.attempt i (fun S => BitBlockContainer.copyAssign mem (S.operand i j)) S
  | swap j =>
      if i = j then .ok () S
      else .ok () ((S.put i ((S i).swap (S j)).1).put j ((S i).swap (S j)).2)
  | resize n value =>
      Bank.attempt i (fun _ => do
        SequenceAdaptor.resize mem n value
        modify (·.fill value)) S
  | write n value => .ok () (S.put i ((S i).assign n value))
  | scatter sub f a => writtenBack S i ((BitValarray.ofContainer (S i) (h i) hV).scatter I B
      (sub.selection S h hV i) mem f (a.operand S h hV i))
  | fill sub f value => writtenBack S i (orAbort ((BitValarray.ofContainer (S i) (h i) hV).fill I B
      (sub.selection S h hV i) f value))
  | andAssign j => .ok () (S.put i (Valarray.andAssign (S i) (S.operand i j)))
  | orAssign j => .ok () (S.put i (Valarray.orAssign (S i) (S.operand i j)))
  | xorAssign j => .ok () (S.put i (Valarray.xorAssign (S i) (S.operand i j)))
  | andAssignValue value => .ok () (S.put i (Valarray.andAssignValue (S i) value))
  | orAssignValue value => .ok () (S.put i (Valarray.orAssignValue (S i) value))
  | xorAssignValue value => .ok () (S.put i (Valarray.xorAssignValue (S i) value))
  | shlAssign n => .ok () (S.put i (Valarray.shlAssign (S i) n))
  | shrAssign n => .ok () (S.put i (Valarray.shrAssign (S i) n))

end Code

end Valarray

end XstdBits
