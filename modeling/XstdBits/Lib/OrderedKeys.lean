/-
  File: XstdBits/Lib/OrderedKeys.lean
  Subject: a set of keys listed in the order of a comparator.

  `OrderedKeys lt` is a list of keys that carries its own order, so that a key is listed once and
  two of them with the same members are equal (`OrderedKeys.ext_mem`). The operations are those of
  an ordered associative container, each known by its members (`mem_insert`, `mem_erase`, …);
  `next` is the step of its iterator (`next_eq_some`, `next_eq_none`).

  The last section walks a string of bits upwards or downwards: the positions it visits are the
  set ones, in order (`walk_nextSet`, `walk_prevSet`).
-/
import XstdBits.Lib.Loop
import Mathlib.Data.List.Sort
import Mathlib.Order.Defs.Unbundled

namespace XstdBits

/-! ## 1. Keys in order -/

/-- Keys in the order of a comparator, each once. -/
structure OrderedKeys {α : Type} (lt : α → α → Prop) where
  keys : List α
  sorted : keys.Pairwise lt

namespace OrderedKeys
variable {α : Type} {lt : α → α → Prop}

instance : Membership α (OrderedKeys lt) := ⟨fun s k => k ∈ s.keys⟩

def empty : OrderedKeys lt := ⟨[], List.Pairwise.nil⟩

def size (s : OrderedKeys lt) : Nat := s.keys.length

theorem mem_keys {s : OrderedKeys lt} {k : α} : k ∈ s.keys ↔ k ∈ s := Iff.rfl

theorem not_mem_empty {k : α} : k ∉ (empty : OrderedKeys lt) := List.not_mem_nil

/-- The keys that satisfy a test. -/
def keep (s : OrderedKeys lt) (p : α → Bool) : OrderedKeys lt :=
  ⟨s.keys.filter p, s.sorted.filter _⟩

theorem mem_keep {s : OrderedKeys lt} {p : α → Bool} {k : α} :
    k ∈ s.keep p ↔ k ∈ s ∧ p k = true := List.mem_filter

section Erase
variable [DecidableEq α] {s t : OrderedKeys lt}

def erase (s : OrderedKeys lt) (x : α) : OrderedKeys lt := s.keep fun k => k ≠ x

theorem mem_erase {x k : α} : k ∈ s.erase x ↔ k ∈ s ∧ k ≠ x := by
  unfold erase
  rw [mem_keep]
  simp

def inter (s t : OrderedKeys lt) : OrderedKeys lt := s.keep fun k => k ∈ t.keys

def diff (s t : OrderedKeys lt) : OrderedKeys lt := s.keep fun k => k ∉ t.keys

theorem mem_inter {k : α} : k ∈ s.inter t ↔ k ∈ s ∧ k ∈ t := by
  unfold inter
  rw [mem_keep, decide_eq_true_eq, mem_keys]

theorem mem_diff {k : α} : k ∈ s.diff t ↔ k ∈ s ∧ k ∉ t := by
  unfold diff
  rw [mem_keep, decide_eq_true_eq, mem_keys]

end Erase

/-- Whether `last` is reached from `first`, both of them iterators of the set. -/
def IsRange (s : OrderedKeys lt) (first last : Option α) : Prop :=
  (∀ a, first = some a → a ∈ s) ∧ (∀ b, last = some b → b ∈ s) ∧
  match first, last with
  | .some a, .some b => ¬ lt b a
  | .none, .some _ => False
  | _, .none => True

def popFront (s : OrderedKeys lt) : OrderedKeys lt := ⟨s.keys.tail, s.sorted.tail⟩

def popBack (s : OrderedKeys lt) : OrderedKeys lt :=
  ⟨s.keys.dropLast, s.sorted.sublist (List.dropLast_sublist _)⟩

/-- The key with none before it is the first. -/
theorem head_eq {s : OrderedKeys lt} {x : α} (hx : x ∈ s) (hfirst : ∀ y ∈ s, ¬ lt y x) : s.keys.head? = some x := by
  obtain ⟨keys, sorted⟩ := s
  cases keys with
  | nil => exact absurd hx List.not_mem_nil
  | cons a rest =>
      rcases List.mem_cons.mp hx with rfl | h
      · rfl
      · exact absurd ((List.pairwise_cons.mp sorted).1 x h) (hfirst a List.mem_cons_self)

/-- The key with none after it is the last. -/
theorem last_eq {s : OrderedKeys lt} {x : α} (hx : x ∈ s) (hlast : ∀ y ∈ s, ¬ lt x y) : s.keys.getLast? = some x := by
  obtain ⟨keys, sorted⟩ := s
  have hne : keys ≠ [] := List.ne_nil_of_mem hx
  have hsplit := List.dropLast_append_getLast hne
  have hp : (keys.dropLast ++ [keys.getLast hne]).Pairwise lt := by rw [hsplit]; exact sorted
  have hmem : x ∈ keys.dropLast ++ [keys.getLast hne] := by rw [hsplit]; exact hx
  rw [List.getLast?_eq_some_getLast hne]
  rcases List.mem_append.mp hmem with h | h
  · exact absurd ((List.pairwise_append.mp hp).2.2 x h _ (List.mem_singleton.mpr rfl))
      (hlast _ (List.getLast_mem hne))
  · exact congrArg some (List.mem_singleton.mp h).symm

section Order
variable [IsStrictTotalOrder α lt] {s t : OrderedKeys lt}

/-- **Two with the same members are equal.** -/
theorem ext_mem (h : ∀ k, k ∈ s ↔ k ∈ t) : s = t := by
  have hk : s.keys = t.keys := List.Pairwise.eq_of_mem_iff s.sorted t.sorted h
  cases s
  cases t
  subst hk
  rfl

theorem erase_of_not_mem [DecidableEq α] {x : α} (hx : x ∉ s) : s.erase x = s :=
  ext_mem fun _ => mem_erase.trans ⟨fun hk => hk.1, fun hk => ⟨hk, fun he => hx (he ▸ hk)⟩⟩

/-- **The first key erased is the one with none before it.** -/
theorem mem_popFront {x : α} (hx : x ∈ s) (hfirst : ∀ y ∈ s, ¬ lt y x) {k : α} :
    k ∈ s.popFront ↔ k ∈ s ∧ k ≠ x := by
  obtain ⟨keys, sorted⟩ := s
  cases keys with
  | nil => exact absurd hx List.not_mem_nil
  | cons a rest =>
      obtain ⟨hlt, -⟩ := List.pairwise_cons.mp sorted
      have hax : a = x := by
        rcases List.mem_cons.mp hx with h | h
        · exact h.symm
        · exact absurd (hlt x h) (hfirst a List.mem_cons_self)
      subst hax
      show k ∈ rest ↔ k ∈ a :: rest ∧ k ≠ a
      constructor
      · intro h
        refine ⟨List.mem_cons_of_mem _ h, fun he => ?_⟩
        subst he
        exact irrefl_of lt k (hlt k h)
      · intro h
        rcases List.mem_cons.mp h.1 with he | he
        · exact absurd he h.2
        · exact he

/-- **The last key erased is the one with none after it.** -/
theorem mem_popBack {x : α} (hx : x ∈ s) (hlast : ∀ y ∈ s, ¬ lt x y) {k : α} :
    k ∈ s.popBack ↔ k ∈ s ∧ k ≠ x := by
  obtain ⟨keys, sorted⟩ := s
  have hne : keys ≠ [] := List.ne_nil_of_mem hx
  have hsplit := List.dropLast_append_getLast hne
  have hp : (keys.dropLast ++ [keys.getLast hne]).Pairwise lt := by rw [hsplit]; exact sorted
  have hlt : ∀ a ∈ keys.dropLast, lt a (keys.getLast hne) := fun a ha =>
    (List.pairwise_append.mp hp).2.2 a ha _ (List.mem_singleton.mpr rfl)
  have hmem (y : α) : y ∈ keys ↔ y ∈ keys.dropLast ∨ y = keys.getLast hne := by
    conv_lhs => rw [← hsplit]
    rw [List.mem_append, List.mem_singleton]
  have hlx : keys.getLast hne = x := by
    rcases (hmem x).mp hx with h | h
    · exact absurd (hlt x h) (hlast _ (List.getLast_mem hne))
    · exact h.symm
  show k ∈ keys.dropLast ↔ k ∈ keys ∧ k ≠ x
  rw [hmem k, hlx]
  constructor
  · intro h
    refine ⟨Or.inl h, fun he => ?_⟩
    subst he
    have := hlt k h
    rw [hlx] at this
    exact irrefl_of lt k this
  · intro h
    rcases h.1 with h1 | h1
    · exact h1
    · exact absurd h1 h.2

theorem popFront_eq_erase [DecidableEq α] {x : α} (hx : x ∈ s) (hfirst : ∀ y ∈ s, ¬ lt y x) :
    s.popFront = s.erase x :=
  ext_mem fun _ => (mem_popFront hx hfirst).trans mem_erase.symm

theorem popBack_eq_erase [DecidableEq α] {x : α} (hx : x ∈ s) (hlast : ∀ y ∈ s, ¬ lt x y) :
    s.popBack = s.erase x :=
  ext_mem fun _ => (mem_popBack hx hlast).trans mem_erase.symm

end Order

section Insert
variable [DecidableRel lt] [IsStrictTotalOrder α lt] {s t : OrderedKeys lt}

/-- What comes before the key, the key, and what comes after it. -/
def insert (s : OrderedKeys lt) (x : α) : OrderedKeys lt where
  keys := s.keys.filter (fun k => lt k x) ++ x :: s.keys.filter (fun k => lt x k)
  sorted := by
    rw [List.pairwise_append, List.pairwise_cons]
    refine ⟨s.sorted.filter _, ⟨fun k hk => ?_, s.sorted.filter _⟩, fun a ha b hb => ?_⟩
    · simpa using (List.mem_filter.mp hk).2
    · have ha' : lt a x := by simpa using (List.mem_filter.mp ha).2
      rcases List.mem_cons.mp hb with rfl | hb
      · exact ha'
      · have hb' : lt x b := by simpa using (List.mem_filter.mp hb).2
        exact trans_of lt ha' hb'

theorem mem_insert {x k : α} : k ∈ s.insert x ↔ k = x ∨ k ∈ s := by
  show k ∈ s.keys.filter _ ++ x :: s.keys.filter _ ↔ _
  rw [List.mem_append, List.mem_cons, List.mem_filter, List.mem_filter]
  simp only [decide_eq_true_eq]
  constructor
  · intro h
    rcases h with ⟨h, -⟩ | h | ⟨h, -⟩
    · exact Or.inr h
    · exact Or.inl h
    · exact Or.inr h
  · intro h
    rcases h with h | h
    · exact Or.inr (Or.inl h)
    · rcases trichotomous_of lt k x with hlt | heq | hgt
      · exact Or.inl ⟨h, hlt⟩
      · exact Or.inr (Or.inl heq)
      · exact Or.inr (Or.inr ⟨h, hgt⟩)

/-- The keys of a list, one after another. -/
def insertAll (s : OrderedKeys lt) (xs : List α) : OrderedKeys lt := xs.foldl insert s

theorem mem_insertAll : ∀ {xs : List α} {s : OrderedKeys lt} {k : α},
    k ∈ s.insertAll xs ↔ k ∈ xs ∨ k ∈ s
  | [], s, k => by simp [insertAll]
  | x :: xs, s, k => by
      have ih : k ∈ (s.insert x).insertAll xs ↔ k ∈ xs ∨ k ∈ s.insert x := mem_insertAll
      show k ∈ (s.insert x).insertAll xs ↔ _
      rw [ih, mem_insert, List.mem_cons]
      tauto

def union (s t : OrderedKeys lt) : OrderedKeys lt := s.insertAll t.keys

theorem mem_union {k : α} : k ∈ s.union t ↔ k ∈ t ∨ k ∈ s := mem_insertAll

def symmDiff [DecidableEq α] (s t : OrderedKeys lt) : OrderedKeys lt := (s.diff t).union (t.diff s)

theorem mem_symmDiff [DecidableEq α] {k : α} : k ∈ s.symmDiff t ↔ (k ∈ t ∧ k ∉ s) ∨ (k ∈ s ∧ k ∉ t) := by
  unfold symmDiff
  rw [mem_union, mem_diff, mem_diff]

end Insert

/-! ## 2. The iterator -/

section First
variable {s : OrderedKeys lt}

/-- **The first key that passes a test** is the one that passes with none passing before it. -/
theorem find_eq_some {p : α → Bool} {m : α} (hm : m ∈ s) (hp : p m = true)
    (hmin : ∀ x ∈ s, lt x m → p x = false) : s.keys.find? p = some m := by
  obtain ⟨keys, sorted⟩ := s
  induction keys with
  | nil => exact absurd hm List.not_mem_nil
  | cons a rest ih =>
      obtain ⟨hlt, hrest⟩ := List.pairwise_cons.mp sorted
      rw [List.find?_cons]
      rcases List.mem_cons.mp hm with rfl | hm'
      · rw [hp]
      · rw [hmin a List.mem_cons_self (hlt m hm')]
        exact ih hrest hm' fun x hx => hmin x (List.mem_cons_of_mem _ hx)

theorem find_eq_none {p : α → Bool} (h : ∀ x ∈ s, p x = false) : s.keys.find? p = none := by
  rw [List.find?_eq_none]
  intro x hx
  rw [h x hx]
  exact Bool.false_ne_true

end First

section Iterator
variable [DecidableRel lt] {s : OrderedKeys lt}

/-- Whether a key lies in `[first, last)`, an absent bound being the end. -/
def between (lt : α → α → Prop) [DecidableRel lt] (first last : Option α) (k : α) : Bool :=
  (match first with
    | .some a => !decide (lt k a)
    | .none => false) &&
  (match last with
    | .some b => decide (lt k b)
    | .none => true)

/-- The range `[first, last)` erased. -/
def eraseRange (s : OrderedKeys lt) (first last : Option α) : OrderedKeys lt :=
  s.keep fun k => !between lt first last k

theorem mem_eraseRange {first last : Option α} {k : α} :
    k ∈ s.eraseRange first last ↔ k ∈ s ∧ between lt first last k = false := by
  unfold eraseRange
  rw [mem_keep]
  simp

/-- The key after `k`, none at the end: also the upper bound of a `k` that is no key. -/
def next (s : OrderedKeys lt) (k : α) : Option α := s.keys.find? fun x => lt k x

/-- The first key that does not come before `k`. -/
def lowerBound (s : OrderedKeys lt) (k : α) : Option α := s.keys.find? fun x => !decide (lt x k)

/-- **The step lands on the key that comes next.** -/
theorem next_eq_some {k m : α} (hm : m ∈ s) (hkm : lt k m) (hmin : ∀ x ∈ s, lt k x → ¬ lt x m) :
    s.next k = some m :=
  find_eq_some hm (decide_eq_true hkm) fun x hx hxm =>
    decide_eq_false fun hkx => hmin x hx hkx hxm

theorem next_eq_none {k : α} (h : ∀ x ∈ s, ¬ lt k x) : s.next k = none :=
  find_eq_none fun x hx => decide_eq_false (h x hx)

variable [IsStrictTotalOrder α lt]

end Iterator

end OrderedKeys

/-! ## 3. A walk over the set positions -/

/-- The positions from `n` on, by a step function, as far as the end. -/
def walk (step : Nat → Nat) (stop : Nat) : (fuel n : Nat) → List Nat
  | 0, _ => []
  | fuel + 1, n => if n = stop then [] else n :: walk step stop fuel (step n)

section Walk
variable {f : Nat → Bool} {b : Nat} {step : Nat → Nat}

/-- **An upward walk visits the set positions of `[a, b)`, in ascending order.** -/
theorem walk_nextSet (hstep : ∀ n, n < b → step n = nextSet f (n + 1) b) :
    ∀ (fuel a : Nat), b < fuel + a →
    (∀ p, p ∈ walk step b fuel (nextSet f a b) ↔ a ≤ p ∧ p < b ∧ f p = true) ∧
    (walk step b fuel (nextSet f a b)).Pairwise (· < ·)
  | 0, a, hf => by
      refine ⟨fun p => ⟨fun h => absurd h List.not_mem_nil, fun h => by omega⟩, List.Pairwise.nil⟩
  | fuel + 1, a, hf => by
      unfold walk
      rcases nextSet_spec f a b with ⟨h1, h2, h3, h4⟩ | ⟨h1, h2⟩
      · rw [if_neg (by omega), hstep _ h2]
        obtain ⟨ih1, ih2⟩ := walk_nextSet hstep fuel (nextSet f a b + 1) (by omega)
        refine ⟨fun p => ?_, List.pairwise_cons.mpr ⟨fun p hp => ?_, ih2⟩⟩
        · rw [List.mem_cons, ih1]
          constructor
          · intro h
            rcases h with rfl | h
            · exact ⟨h1, h2, h3⟩
            · exact ⟨by omega, h.2⟩
          · intro h
            by_cases hp : p = nextSet f a b
            · exact Or.inl hp
            · refine Or.inr ⟨?_, h.2⟩
              by_contra hlt
              have := h4 p h.1 (by omega)
              rw [h.2.2] at this
              cases this
        · have := ((ih1 p).mp hp).1
          omega
      · rw [if_pos h1]
        refine ⟨fun p => ⟨fun h => absurd h List.not_mem_nil, fun h => ?_⟩, List.Pairwise.nil⟩
        have := h2 p h.1 h.2.1
        rw [h.2.2] at this
        cases this

/-- **A downward walk visits the set positions below `n`, in descending order.** -/
theorem walk_prevSet (hstep : ∀ n, n < b → step n = prevSet f n b) :
    ∀ (fuel n : Nat), n < fuel → n ≤ b →
    (∀ p, p ∈ walk step b fuel (prevSet f n b) ↔ p < n ∧ f p = true) ∧
    (walk step b fuel (prevSet f n b)).Pairwise (· > ·)
  | 0, n, hf, _ => by omega
  | fuel + 1, n, hf, hb => by
      unfold walk
      rcases prevSet_spec f n b with ⟨h1, h2, h3⟩ | ⟨h1, h2⟩
      · rw [if_neg (by omega), hstep _ (by omega)]
        obtain ⟨ih1, ih2⟩ := walk_prevSet hstep fuel (prevSet f n b) (by omega) (by omega)
        refine ⟨fun p => ?_, List.pairwise_cons.mpr ⟨fun p hp => ?_, ih2⟩⟩
        · rw [List.mem_cons, ih1]
          constructor
          · intro h
            rcases h with rfl | h
            · exact ⟨h1, h2⟩
            · exact ⟨by omega, h.2⟩
          · intro h
            by_cases hp : p = prevSet f n b
            · exact Or.inl hp
            · refine Or.inr ⟨?_, h.2⟩
              by_contra hlt
              have := h3 p (by omega) h.1
              rw [h.2] at this
              cases this
        · exact ((ih1 p).mp hp).1
      · rw [if_pos h1]
        refine ⟨fun p => ⟨fun h => absurd h List.not_mem_nil, fun h => ?_⟩, List.Pairwise.nil⟩
        have := h2 p h.1
        rw [h.2] at this
        cases this

end Walk

end XstdBits
