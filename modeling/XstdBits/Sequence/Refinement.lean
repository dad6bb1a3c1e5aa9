/-
  File: XstdBits/Sequence/Refinement.lean
  Subject: the growing sequence refines a list of bools, as `std::vector<bool>` has them.

  * `Holds` relates a sequence to the list it stands for, place by place.
  * a `SeqOp` is a modifier on one sequence of a bank; `spec` is what it does to the lists and where
    the iterator it returns points, and `width` the width it asks room for.
  * `SeqOp.step` is the simulation of one operation, whether it grows, moves a gap or rebuilds;
    `SeqRun.holds` carries it over every run.
-/
import XstdBits.Sequence.Adaptor

namespace XstdBits

open BitBlockContainer SequenceAdaptor

/-! ## 1. The list a sequence holds -/

namespace SequenceAdaptor
variable {w : Nat} {V : Vehicle w}

/-- The bools read back, one at a time. -/
def elements (c : BitBlockContainer V) : List Bool := (List.range c.size).map c.test

end SequenceAdaptor

/-- **The sequence holds the list**, and its blocks within what is reserved for them. -/
structure Holds {w : Nat} {V : Vehicle w} (c : BitBlockContainer V) (xs : List Bool) : Prop where
  inv : c.Inv
  roomy : c.mBlocks.Roomy V
  size : c.size = xs.length
  get : ∀ p, p < c.size → xs[p]? = some (c.bit p)

section Holds
variable {w : Nat} {V : Vehicle w} {c d : BitBlockContainer V} {xs ys : List Bool} {pos n : Nat}
  {g : Nat → Bool}

/-- **What is read back** is every position's bit. -/
theorem elements_get (h : c.Inv) : (elements c).length = c.size ∧
    ∀ p, p < c.size → (elements c)[p]? = some (c.bit p) := by
  unfold elements
  refine ⟨by rw [List.length_map, List.length_range], fun p hp => ?_⟩
  rw [List.getElem?_map, List.getElem?_range hp, Option.map_some, test_eq h.shape hp]

theorem Holds.elements (h : Holds c xs) : SequenceAdaptor.elements c = xs := by
  obtain ⟨hlen, hget⟩ := elements_get h.inv
  refine List.ext_getElem? fun p => ?_
  have hsize := h.size
  by_cases hp : p < c.size
  · rw [hget p hp, h.get p hp]
  · rw [List.getElem?_eq_none (by omega), List.getElem?_eq_none (by omega)]

/-- The values `g` gives are those of the list. -/
def Lists (g : Nat → Bool) (n : Nat) (ys : List Bool) : Prop :=
  ys.length = n ∧ ∀ i, i < n → ys[i]? = some (g i)

theorem lists_read {rg : ValueRange} (h : rg.throws = false) :
    Lists (fun i => rg.read.getD i false) rg.distance rg.read := by
  refine ⟨rg.complete h, fun i hi => ?_⟩
  have hlt : i < rg.read.length := by
    rw [rg.complete h]
    exact hi
  show _ = some (rg.read.getD i false)
  rw [List.getElem?_eq_getElem hlt, List.getD_eq_getElem _ _ hlt]

/-- A window of what a sequence holds. -/
theorem lists_window {first count : Nat} (hlen : xs.length = c.size)
    (hget : ∀ p, p < c.size → xs[p]? = some (c.bit p)) (hin : first + count ≤ c.size) :
    Lists (fun p => c.bit (first + p)) count ((xs.drop first).take count) := by
  refine ⟨by rw [List.length_take, List.length_drop]; omega, fun p hp => ?_⟩
  rw [List.getElem?_take, if_pos hp, List.getElem?_drop, hget _ (by omega)]

theorem lists_replicate {v : Bool} : Lists (fun _ => v) n (List.replicate n v) :=
  ⟨List.length_replicate, fun _ hi => List.getElem?_replicate_of_lt hi⟩

theorem Holds.given (hinv : d.Inv) (hr : d.mBlocks.Roomy V) (hsize : d.size = n)
    (hbit : ∀ p, p < n → d.bit p = g p) (hys : Lists g n ys) : Holds d ys where
  inv := hinv
  roomy := hr
  size := by rw [hsize, hys.1]
  get p hp := by
    rw [hsize] at hp
    rw [hys.2 p hp, hbit p hp]

theorem Holds.extended (h : Holds c xs) (hd : Extended c d n g) (hys : Lists g n ys) :
    Holds d (xs ++ ys) where
  inv := hd.inv
  roomy := hd.roomy
  size := by rw [hd.size, h.size, List.length_append, hys.1]
  get p hp := by
    have hsize := h.size
    rw [hd.size] at hp
    rw [List.getElem?_append, hd.bit p hp]
    by_cases hold : p < c.size
    · rw [if_pos (by omega), if_pos hold, h.get p hold]
    · rw [if_neg (by omega), if_neg hold, ← hsize, hys.2 _ (by omega)]

theorem Holds.filled (h : Holds c xs) (hd : Filled c d pos n n g) (hpos : pos ≤ xs.length)
    (hys : Lists g n ys) : Holds d (xs.take pos ++ ys ++ xs.drop pos) where
  inv := hd.gap.inv
  roomy := hd.gap.roomy
  size := by
    rw [hd.gap.size, h.size, List.length_append, List.length_append, List.length_take,
      List.length_drop, hys.1]
    omega
  get p hp := by
    have hsize := h.size
    have hlen := hys.1
    rw [hd.gap.size] at hp
    rw [List.getElem?_append, List.length_append, List.length_take, List.getElem?_append,
      List.length_take, List.getElem?_drop, List.getElem?_take]
    by_cases hhead : p < pos
    · rw [if_pos (by omega), if_pos (by omega), if_pos hhead, h.get p (by omega),
        hd.gap.head p hhead]
    · by_cases hnew : p < pos + n
      · rw [if_pos (by omega), if_neg (by omega), hys.2 _ (by omega), ← hd.new _ (by omega)]
        congr 2
        omega
      · rw [if_neg (by omega), h.get _ (by omega), ← hd.gap.tail _ (by omega) (by omega)]
        congr 2
        omega

theorem Holds.erased (h : Holds c xs) {last : Nat} (hd : Erased c d pos last) (hpos : pos ≤ last)
    (hlast : last ≤ xs.length) : Holds d (xs.take pos ++ xs.drop last) where
  inv := hd.inv
  roomy := hd.roomy
  size := by
    rw [hd.size, h.size, List.length_append, List.length_take, List.length_drop]
    omega
  get p hp := by
    have hsize := h.size
    rw [hd.size] at hp
    rw [List.getElem?_append, List.length_take, List.getElem?_drop, List.getElem?_take]
    by_cases hhead : p < pos
    · rw [if_pos (by omega), if_pos hhead, h.get p (by omega), hd.head p hhead]
    · rw [if_neg (by omega), h.get _ (by omega), ← hd.tail _ (by omega) (by omega)]
      congr 2
      omega

theorem Holds.resized (h : Holds c xs) {v : Bool} (hd : Resized c d n v) :
    Holds d (xs.take n ++ List.replicate (n - xs.length) v) where
  inv := hd.inv
  roomy := hd.roomy
  size := by
    rw [hd.size, List.length_append, List.length_take, List.length_replicate]
    omega
  get p hp := by
    have hsize := h.size
    rw [hd.size] at hp
    rw [List.getElem?_append, List.length_take, List.getElem?_take, hd.bit, if_pos hp, if_pos hp]
    by_cases hold : p < c.size
    · rw [if_pos (by omega), if_pos hold, h.get p hold]
    · rw [if_neg (by omega), if_neg hold, List.getElem?_replicate_of_lt (by omega)]

theorem Holds.transferred (h : Holds c xs) (hd : SameValue c d) (hr : d.mBlocks.Roomy V) :
    Holds d xs where
  inv := h.inv.transferred hd
  roomy := hr
  size := by rw [hd.size, h.size]
  get p hp := by
    rw [hd.size] at hp
    rw [h.get p hp, hd.bit]

end Holds

/-! ## 2. The operations -/

namespace RangeArg
variable {w : Nat} {V : Vehicle w}

/-- The list the range holds. -/
def contents (L : Nat → List Bool) : RangeArg V → List Bool
  | .window j first count => ((L j).drop first).take count
  | .foreign _ bits first count => ((SequenceAdaptor.elements bits).drop first).take count
  | .values rg => rg.read

/-- A window lies within its sequence, and reading throws nothing. -/
def Pre (L : Nat → List Bool) : RangeArg V → Prop
  | .window j first count => first + count ≤ (L j).length
  | .foreign _ bits first count => bits.Inv ∧ first + count ≤ bits.size
  | .values rg => rg.throws = false

end RangeArg

/-- One modifier of a sequence. -/
inductive SeqOp {w : Nat} (V : Vehicle w) where
  | pushBack (value : Bool) | popBack
  | resize (n : Nat) (value : Bool) | clear
  | assignCount (n : Nat) (value : Bool) | assignPair (rg : ValueRange) | assignRange (rg : RangeArg V)
  | insert (position : Nat) (value : Bool)
  | insertCount (position n : Nat) (value : Bool)
  /-- `insert(position, first, last)`: a pair that makes no range; another is a range -/
  | insertPair (position : Nat) (rg : ValueRange)
  | insertRange (position : Nat) (rg : RangeArg V)
  | appendRange (rg : RangeArg V)
  | erase (position : Nat) | eraseRange (first last : Nat)
  | swap (j : Nat)

namespace SeqOp
variable {w : Nat} {V : Vehicle w}

/-- What `[sequence.reqmts]` asks of the arguments. -/
def Pre (L : Nat → List Bool) (i : Nat) : SeqOp V → Prop
  | popBack => L i ≠ []
  | assignPair rg => rg.throws = false
  | assignRange rg => rg.Pre L ∧ ∀ first count, rg ≠ .window i first count
  | insert position _ => position ≤ (L i).length
  | insertCount position _ _ => position ≤ (L i).length
  | insertPair position rg => position ≤ (L i).length ∧ rg.throws = false
  | insertRange position rg => position ≤ (L i).length ∧ rg.Pre L
  | appendRange rg => rg.Pre L
  | erase position => position < (L i).length
  | eraseRange first last => first ≤ last ∧ last ≤ (L i).length
  | _ => True

/-- What is left of list `i`. -/
def edited (L : Nat → List Bool) (i : Nat) : SeqOp V → List Bool
  | pushBack value => L i ++ [value]
  | popBack => (L i).dropLast
  | resize n value => (L i).take n ++ List.replicate (n - (L i).length) value
  | clear => []
  | assignCount n value => List.replicate n value
  | assignPair rg => rg.read
  | assignRange rg => rg.contents L
  | insert position value => (L i).take position ++ [value] ++ (L i).drop position
  | insertCount position n value =>
      (L i).take position ++ List.replicate n value ++ (L i).drop position
  | insertPair position rg => (L i).take position ++ rg.read ++ (L i).drop position
  | insertRange position rg => (L i).take position ++ rg.contents L ++ (L i).drop position
  | appendRange rg => L i ++ rg.contents L
  | erase position => (L i).take position ++ (L i).drop (position + 1)
  | eraseRange first last => (L i).take first ++ (L i).drop last
  | swap j => L j

/-- Where the iterator an insertion or an erasure returns points. -/
def returned : SeqOp V → Option Nat
  | insert position _ => some position
  | insertCount position _ _ => some position
  | insertPair position _ => some position
  | insertRange position _ => some position
  | erase position => some position
  | eraseRange first _ => some first
  | _ => none

/-- The lists after the operation. -/
def spec (L : Nat → List Bool) (i : Nat) (op : SeqOp V) : Nat → List Bool :=
  match op with
  | swap j => Function.update (Function.update L i (L j)) j (L i)
  | op => Function.update L i (op.edited L i)

/-- The width an operation asks room for fits; an erasure asks for none. -/
def Fits (mem : Memory) (L : Nat → List Bool) (i : Nat) : SeqOp V → Prop
  | popBack => True
  | clear => True
  | erase _ => True
  | eraseRange _ _ => True
  | swap _ => True
  | op => HasRoom V mem (op.edited L i).length

def dropped (a : Action V Unit) : Action V (Option Nat) := a >>= fun _ => pure .none

def iterator (a : Action V Nat) : Action V (Option Nat) := a >>= fun p => pure (some p)

/-- The operation on sequence `i` of the bank. -/
def run (mem : Memory) (i : Nat) : SeqOp V → EStateM Exn (Bank V) (Option Nat)
  | pushBack value => Bank.attempt i fun _ => dropped (BitBlockContainer.pushBack mem value)
  | popBack => Bank.attempt i fun _ => dropped (BitBlockContainer.popBack mem)
  | resize n value => Bank.attempt i fun _ => dropped (SequenceAdaptor.resize mem n value)
  | clear => Bank.attempt i fun _ => dropped (BitBlockContainer.clear mem)
  | assignCount n value => Bank.attempt i fun _ => dropped (SequenceAdaptor.assignCount mem n value)
  | assignPair rg => Bank.attempt i fun _ => dropped (SequenceAdaptor.assignPair mem rg)
  | assignRange rg =>
      Bank.attempt i fun S => dropped (SequenceAdaptor.assignRange mem (S.range i rg))
  | insert position value =>
      Bank.attempt i fun _ => iterator (SequenceAdaptor.insertCount mem position 1 value)
  | insertCount position n value =>
      Bank.attempt i fun _ => iterator (SequenceAdaptor.insertCount mem position n value)
  | insertPair position rg =>
      Bank.attempt i fun _ => iterator (SequenceAdaptor.insertPair mem position rg)
  | insertRange position rg =>
      Bank.attempt i fun S => iterator (SequenceAdaptor.insertRange mem position (S.range i rg))
  | appendRange rg =>
      Bank.attempt i fun S => dropped (SequenceAdaptor.appendRange mem (S.range i rg))
  | erase position => Bank.attempt i fun _ => iterator (SequenceAdaptor.erase mem position)
  | eraseRange first last =>
      Bank.attempt i fun _ => iterator (SequenceAdaptor.eraseRange mem first last)
  | swap j => fun S =>
      if i = j then .ok none S
      else .ok none ((S.put i ((S i).swap (S j)).1).put j ((S i).swap (S j)).2)

/-! ## 3. One step -/

section Step
variable {mem : Memory} {S : Bank V} {L : Nat → List Bool} {i : Nat}

/-- **A range argument lists its contents.** -/
theorem range_lists (h : ∀ k, Holds (S k) (L k)) {arg : RangeArg V} (hp : arg.Pre L) :
    (S.range i arg).Readable (S i) ∧ (S.range i arg).throws = false ∧
      Lists (fun p => (S.range i arg).value (S i) p) (S.range i arg).count (arg.contents L) := by
  cases arg with
  | values rg => exact ⟨trivial, hp, lists_read hp⟩
  | foreign U bits first count =>
      obtain ⟨hlen, hget⟩ := elements_get hp.1
      exact ⟨hp, rfl, lists_window hlen hget hp.2⟩
  | window j first count =>
      have hsize := (h j).size
      have hin : first + count ≤ (S j).size := by
        rw [hsize]
        exact hp
      have hlists := lists_window hsize.symm (h j).get hin
      exact ⟨Bank.source_holds (h j).inv hin, rfl, hlists.1, fun p hpc =>
        (hlists.2 p hpc).trans (congrArg some Bank.bit_source.symm)⟩

theorem dropped_ends {a : Action V Unit} {c : BitBlockContainer V} {xs : List Bool} {F : Prop}
    (h : Ends a c (fun _ d => Holds d xs) fun _ _ => F) :
    Ends (dropped a) c (fun r d => Holds d xs ∧ r = .none) fun _ _ => F :=
  ends_bind h fun _ _ hd => ends_pure ⟨hd, rfl⟩

theorem iterator_ends {a : Action V Nat} {c : BitBlockContainer V} {xs : List Bool} {F : Prop}
    {pos : Nat} (h : Ends a c (fun p d => p = pos ∧ Holds d xs) fun _ _ => F) :
    Ends (iterator a) c (fun r d => Holds d xs ∧ r = some pos) fun _ _ => F := by
  refine ends_bind h ?_
  intro p d ⟨hp, hd⟩
  subst hp
  exact ends_pure ⟨hd, rfl⟩

theorem put_holds (h : ∀ k, Holds (S k) (L k)) {d : BitBlockContainer V} {xs : List Bool}
    (hd : Holds d xs) (k : Nat) : Holds (S.put i d k) (Function.update L i xs k) := by
  unfold Bank.put
  rw [Function.update_apply]
  split
  · exact hd
  · exact h k

/-- One sequence of the bank edited. -/
theorem attempt_ends {a : Bank V → Action V (Option Nat)} {xs : List Bool} {r : Option Nat}
    {F : Prop} (h : ∀ k, Holds (S k) (L k))
    (ha : Ends (a S) (S i) (fun q d => Holds d xs ∧ q = r) fun _ _ => F) :
    Ends (Bank.attempt i a) S
      (fun q T => (∀ k, Holds (T k) (Function.update L i xs k)) ∧ q = r) fun _ _ => F := by
  unfold Ends Bank.attempt at *
  cases hrun : a S (S i) with
  | ok q d =>
      rw [hrun] at ha
      exact ⟨put_holds h ha.1, ha.2⟩
  | error e d =>
      rw [hrun] at ha
      exact ha

/-- A swap never throws; with itself it does nothing. -/
theorem swap_ends (h : ∀ k, Holds (S k) (L k)) {j : Nat} {F : Prop} :
    Ends ((swap j : SeqOp V).run mem i) S
      (fun r T => (∀ k, Holds (T k) ((swap j : SeqOp V).spec L i k)) ∧ r = .none)
      fun _ _ => F := by
  unfold Ends run spec
  by_cases hij : i = j
  · subst hij
    dsimp only
    rw [if_pos rfl]
    refine ⟨fun k => ?_, rfl⟩
    rw [Function.update_eq_self, Function.update_eq_self]
    exact h k
  · dsimp only
    rw [if_neg hij]
    obtain ⟨h1, h2⟩ := swap_spec (S i) (S j)
    obtain ⟨hr1, hr2⟩ := swap_roomy (h i).roomy (h j).roomy
    exact ⟨put_holds (put_holds h ((h j).transferred h1 hr1)) ((h i).transferred h2 hr2), rfl⟩

theorem length_spliced {xs ys : List Bool} {pos : Nat} (hpos : pos ≤ xs.length) :
    (xs.take pos ++ ys ++ xs.drop pos).length = xs.length + ys.length := by
  rw [List.length_append, List.length_append, List.length_take, List.length_drop]
  omega

/-- **One step of the simulation**: a completed operation leaves what the list has after it and
    returns an iterator to the same place; it is refused only where its width does not fit. -/
theorem step (hs : V.hasStoredSize = true) (hu : V.hasStoredCount = false)
    (h : ∀ k, Holds (S k) (L k)) {op : SeqOp V} (hp : op.Pre L i) :
    Ends (op.run mem i) S (fun r T => (∀ k, Holds (T k) (op.spec L i k)) ∧ r = op.returned)
      fun _ _ => ¬ op.Fits mem L i := by
  have hi := h i
  have hsize := hi.size
  cases op with
  | pushBack value =>
      have hext : Extended (S i) (S i) 0 fun _ => value := .refl hi.inv hi.roomy
      refine attempt_ends h (dropped_ends ((hext.push_ends hs).mono
        (fun _ d hd => hi.extended hd lists_replicate) fun _ _ ht hfits => ht.2 ?_))
      rw [hsize]
      simpa [Fits, edited] using hfits
  | popBack =>
      have hlen : (S i).size - 1 ≤ (S i).size := Nat.sub_le _ _
      refine attempt_ends h (dropped_ends ((shrink_ends hi.inv hi.roomy hs hlen).mono
        (fun _ d hd => ?_) fun _ _ hf => hf.elim))
      have hd := hi.resized hd
      rw [hsize, Nat.sub_eq_zero_of_le (Nat.sub_le _ _), List.replicate_zero, List.append_nil] at hd
      have hleft : (popBack : SeqOp V).edited L i = (L i).take ((L i).length - 1) :=
        List.dropLast_eq_take
      rwa [hleft]
  | resize n value =>
      refine attempt_ends h (dropped_ends ((resize_ends hi.inv hs).mono
        (fun _ d hd => hi.resized hd) fun _ _ ht hfits => ht ?_))
      have hlen : ((L i).take n ++ List.replicate (n - (L i).length) value).length = n := by
        rw [List.length_append, List.length_take, List.length_replicate]
        omega
      exact hlen ▸ hfits
  | clear =>
      refine attempt_ends h (dropped_ends ((clear_ends hi.inv hi.roomy hs).mono
        (fun _ d hd => ?_) fun _ _ hf => hf))
      exact .given (g := fun _ => false) hd.1 hd.2.1 hd.2.2 nofun ⟨rfl, nofun⟩
  | assignCount n value =>
      refine attempt_ends h (dropped_ends ((assignCount_ends hi.inv hi.roomy hs).mono
        (fun _ d hd => ?_) fun _ _ ht hfits => ht ?_))
      · exact .given hd.1 hd.2.1 hd.2.2.1 hd.2.2.2 lists_replicate
      · simpa [Fits, edited] using hfits
  | assignPair rg =>
      have hlists := lists_read hp
      refine attempt_ends h (dropped_ends ((assignPair_ends hi.inv hi.roomy hs).mono
        (fun _ d hd => ?_) fun _ _ ht hfits => ht hp ?_))
      · exact .given hd.1 hd.2.1 hd.2.2.1 hd.2.2.2 hlists
      · exact hlists.1 ▸ hfits
  | assignRange rg =>
      obtain ⟨hread, hthrows, hlists⟩ := range_lists (i := i) h hp.1
      refine attempt_ends h (dropped_ends ((assignRange_ends hi.inv hi.roomy hs hu hread
        (Bank.range_elsewhere hp.2)).mono (fun _ d hd => ?_) fun _ _ ht hfits => ht hthrows ?_))
      · exact .given hd.1 hd.2.1 hd.2.2.1 hd.2.2.2 hlists
      · exact hlists.1 ▸ hfits
  | appendRange rg =>
      obtain ⟨hread, hthrows, hlists⟩ := range_lists (i := i) h hp
      refine attempt_ends h (dropped_ends ((appendRange_ends hi.inv hi.roomy hs hu hread).mono
        (fun _ d hd => hi.extended hd hlists) fun _ _ ht hfits => ht.2 hthrows ?_))
      rw [hsize, ← hlists.1, ← List.length_append]
      exact hfits
  | insert position value =>
      have hlists := lists_replicate (n := 1) (v := value)
      refine attempt_ends h (iterator_ends ((insertCount_ends hi.inv hs hu (hsize ▸ hp)).mono
        (fun _ d hd => ⟨hd.1, hi.filled hd.2 hp hlists⟩) fun _ _ ht hfits => ht.2 ?_))
      rw [hsize, ← hlists.1, ← length_spliced hp]
      exact hfits
  | insertCount position n value =>
      have hlists := lists_replicate (n := n) (v := value)
      refine attempt_ends h (iterator_ends ((insertCount_ends hi.inv hs hu (hsize ▸ hp)).mono
        (fun _ d hd => ⟨hd.1, hi.filled hd.2 hp hlists⟩) fun _ _ ht hfits => ht.2 ?_))
      rw [hsize, ← hlists.1, ← length_spliced hp]
      exact hfits
  | insertPair position rg =>
      have hlists := lists_read hp.2
      refine attempt_ends h (iterator_ends ((insertPair_ends hi.inv hs hu (hsize ▸ hp.1)).mono
        (fun _ d hd => ⟨hd.1, hi.filled hd.2 hp.1 hlists⟩) fun _ _ ht hfits => ht.2 hp.2 ?_))
      rw [hsize, ← hlists.1, ← length_spliced hp.1]
      exact hfits
  | insertRange position rg =>
      obtain ⟨hread, hthrows, hlists⟩ := range_lists (i := i) h hp.2
      refine attempt_ends h (iterator_ends ((insertRange_ends hi.inv hs hu (hsize ▸ hp.1) hread).mono
        (fun _ d hd => ⟨hd.1, hi.filled hd.2 hp.1 hlists⟩) fun _ _ ht hfits => ht.2 hthrows ?_))
      rw [hsize, ← hlists.1, ← length_spliced hp.1]
      exact hfits
  | erase position =>
      refine attempt_ends h (iterator_ends ((erase_ends hi.inv hi.roomy hs hu (hsize ▸ hp)).mono
        (fun _ d hd => ⟨hd.1, hi.erased hd.2 (Nat.le_succ _) hp⟩) fun _ _ hf => hf))
  | eraseRange first last =>
      refine attempt_ends h (iterator_ends ((eraseRange_ends hi.inv hi.roomy hs hu hp.1
        (hsize ▸ hp.2)).mono (fun _ d hd => ⟨hd.1, hi.erased hd.2 hp.1 hp.2⟩) fun _ _ hf => hf))
  | swap j => exact swap_ends h

end Step

end SeqOp

/-! ## 4. Runs -/

section Run
variable {w : Nat} {V : Vehicle w} {S : Bank V} {L : Nat → List Bool}

/-- A bank of empty sequences and what their lists have become. -/
inductive SeqRun (V : Vehicle w) : Bank V → (Nat → List Bool) → Prop where
  | start (alloc : Nat → Nat) : SeqRun V (fun i => BitBlockContainer.default V (alloc i)) fun _ => []
  | step {S T : Bank V} {L : Nat → List Bool} {op : SeqOp V} {mem : Memory} {i : Nat}
      {r : Option Nat} : SeqRun V S L → op.Pre L i → op.run mem i S = .ok r T →
      SeqRun V T (op.spec L i)

/-- **Every sequence holds its list** after any run. -/
theorem SeqRun.holds (hs : V.hasStoredSize = true) (hu : V.hasStoredCount = false)
    (h : SeqRun V S L) : ∀ k, Holds (S k) (L k) := by
  induction h with
  | start alloc =>
      intro k
      have hsize : (BitBlockContainer.default V (alloc k)).size = 0 := by
        rw [size_of_stored hs]
        split <;> rfl
      exact .given (g := fun _ => false) (default_spec (Or.inl hs) _).1 (default_roomy _) hsize nofun
        ⟨rfl, nofun⟩
  | step _ hp hrun ih => exact ((SeqOp.step hs hu ih hp).ok hrun).1

/-- **The growing sequence is the vector of bools.** After any run each sequence reads back its list;
    the next operation returns an iterator to the list's own place, and completes wherever the width
    it needs fits. -/
theorem sequence_refines (hs : V.hasStoredSize = true) (hu : V.hasStoredCount = false)
    (h : SeqRun V S L) :
    (∀ i, SequenceAdaptor.elements (S i) = L i) ∧
    ∀ (op : SeqOp V) (mem : Memory) (i : Nat), op.Pre L i →
      (∀ r T, op.run mem i S = .ok r T →
        r = op.returned ∧ ∀ k, SequenceAdaptor.elements (T k) = op.spec L i k) ∧
      (op.Fits mem L i → ∃ r T, op.run mem i S = .ok r T) := by
  have hholds := h.holds hs hu
  refine ⟨fun i => (hholds i).elements, fun op mem i hp => ?_⟩
  have hstep : Ends (op.run mem i) S _ _ := SeqOp.step hs hu hholds hp
  refine ⟨fun r T hrun => ?_, fun hfits => ?_⟩
  · obtain ⟨hT, hr⟩ := hstep.ok hrun
    exact ⟨hr, fun k => (hT k).elements⟩
  · exact hstep.completes fun _ _ ht => ht hfits

end Run

/-- Nine bools of known number. -/
def nineBools : ValueRange where
  sized := true
  forward := true
  distance := 9
  read := [true, false, false, true, false, true, true, false, true]
  throws := false
  read_le := Nat.le_refl 9
  complete _ := rfl

/-- Nine bools assigned to one of many sequences, and four of them inserted among them at five. -/
theorem sequence_refines_window : ∃ S T : Bank (byteVector false),
    (SeqOp.assignPair nineBools : SeqOp (byteVector false)).run .ample 0
      (fun _ => BitBlockContainer.default (byteVector false) 0) = .ok .none S ∧
    (SeqOp.insertRange 5 (.window 0 2 4) : SeqOp (byteVector false)).run .ample 0 S =
      .ok (some 5) T ∧
    SequenceAdaptor.elements (T 0) = [true, false, false, true, false] ++
      [false, true, false, true] ++ [true, true, false, true] := by
  have hstart : SeqRun (byteVector false) _ _ := .start fun _ => 0
  have hp : (SeqOp.assignPair nineBools : SeqOp (byteVector false)).Pre (fun _ => []) 0 := rfl
  obtain ⟨hassigned, hassigns⟩ :=
    (sequence_refines rfl rfl hstart).2 (.assignPair nineBools) .ample 0 hp
  obtain ⟨r, S, hS⟩ := hassigns (hasRoom_byteVector (n := 9) (by decide))
  obtain ⟨hr, -⟩ := hassigned r S hS
  subst hr
  obtain ⟨hreturned, hcompletes⟩ := (sequence_refines rfl rfl (hstart.step hp hS)).2
    (.insertRange 5 (.window 0 2 4)) .ample 0 ⟨Nat.le_of_ble_eq_true rfl, Nat.le_of_ble_eq_true rfl⟩
  obtain ⟨r, T, hT⟩ := hcompletes (hasRoom_byteVector (n := 13) (by decide))
  obtain ⟨hr, hread⟩ := hreturned r T hT
  subst hr
  exact ⟨S, T, hS, hT, hread 0⟩
end XstdBits
