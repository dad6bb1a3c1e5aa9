/-
  File: XstdBits/Set/Adaptor.lean
  Subject: `set_adaptor`, the set reading over a container, as an owner or over lent blocks.

  * an iterator is a position, the end being the width; `beginPos`, `nextPosition` and
    `prevPosition` walk in the comparator's direction, and `iterated` is what the walk from
    `begin()` to `end()` reads.
  * `guardKey` is where a named write refuses a key; `doInsert`, `insertRange…`, `erase…`, the pops
    and the compound operators are written as the source has them, on top of the container's.
  * each has one lemma that says what it leaves of the bits (`doInsert_ok`, `eraseRange_ok`, …).
-/
import XstdBits.Container.Growth
import XstdBits.Set.Mapping

namespace XstdBits

namespace SetAdaptor
variable {w : Nat} {V : Vehicle w} {Key : Type} (M : KeyMapping Key) (desc : Bool)
  (c : BitBlockContainer V)

/-! ## 1. Iterators -/

/-- The position of `begin()`. -/
def beginPos : Nat := if desc then c.totalFindPrev c.size else c.findFirst

/-- The position of `end()`, in either direction. -/
def endPos : Nat := c.size

/-- The walk's step up, in the comparator's direction. -/
def nextPosition (n : Nat) : Nat := if desc then c.totalFindPrev n else c.exclusiveFindNext n

/-- Descending, the end is `size()` as well, so stepping back from it is a step up. -/
def prevPosition (n : Nat) : Nat :=
  if !desc then c.exclusiveFindPrev n
  else if n = c.size then c.findFirst
  else c.exclusiveFindNext n

/-- The positions from `begin()` to `end()`. -/
def positions : List Nat := walk (nextPosition desc c) (endPos c) (c.size + 1) (beginPos desc c)

/-- The keys a range-for over the set reads; nothing where a position names no key. -/
def iterated : Option (List Key) := (positions desc c).mapM M.fromIndex

/-- `size()`: the keys there are. -/
def size : Nat := c.count

/-! ## 2. Where a write refuses a key -/

/-- `max_size()`: the width or capacity the type fixes, the universe and the storage of an owner
    without one, and the lent blocks' own positions. -/
def maxSize : Nat :=
  if V.hasStaticSize then V.extent
  else if V.hasStaticCapacity then V.extent
  else if V.hasStoredSize then
    match M.size with
    | .some n => min n c.maxSize
    | .none => c.maxSize
  else c.size

/-- `guard_key`: past a closed universe at any width, and past what storage can hold. -/
def guardKey (x : Nat) : Except Exn Unit :=
  if V.hasStaticSize then
    if maxSize M c ≤ x then .error (.outOfRange x (maxSize M c)) else .ok ()
  else
    match M.size with
    | .some n =>
        -- a value that is no key ranks at or past the universe's size
        if n ≤ x then .error (.outOfRange x (maxSize M c))
        else (BitBlockContainer.checkWidth V (widthSum x 1)).map fun _ => ()
    | .none => (BitBlockContainer.checkWidth V (widthSum x 1)).map fun _ => ()

/-! ## 3. Modifiers -/

/-- `do_insert`: the position of the key, and whether it was new. -/
def doInsert (mem : Memory) (x : Nat) : Action V (Nat × Bool) := fun c =>
  match guardKey M c x with
  | .error e => .error e c
  | .ok _ =>
      match BitBlockContainer.growingInsert mem x c with
      | .error e d => .error e d
      | .ok inserted d => .ok (x, inserted) d

def insert (mem : Memory) (key : Key) : Action V (Nat × Bool) := doInsert M mem (M.toIndex key)

/-- `insert(first, last)`: key by key, those before a refused one staying in. -/
def insertKeys (mem : Memory) : List Key → Action V Unit
  | [] => fun c => .ok () c
  | key :: keys => fun c =>
      match doInsert M mem (M.toIndex key) c with
      | .error e d => .error e d
      | .ok _ d => insertKeys mem keys d

/-- `insert_range` of consecutive identity keys: the last position first, so that a growable storage
    is wide enough. -/
def insertIota (mem : Memory) (lo len : Nat) : Action V Unit := fun c =>
  if len = 0 then .ok () c
  else
    let hi := widthSum lo (len - 1)
    match doInsert M mem hi c with
    | .error e d => .error e d
    | .ok _ d => .ok () (d.setRange lo len true)

/-- `operator|=` and `insert_range` of another set over this storage. -/
def orAssign (mem : Memory) (other : Operand V) : Action V Unit :=
  BitBlockContainer.orAdmitted mem other

def xorAssign (mem : Memory) (other : Operand V) : Action V Unit :=
  BitBlockContainer.xorAdmitted mem other

def andAssign (other : Operand V) : Action V Unit := fun c => .ok () (c.andAssign other)

def subAssign (other : Operand V) : Action V Unit := fun c => .ok () (c.subAssign other)

/-- `erase(position)`: the successor first, then the position of the key read there. -/
def eraseAt (position : Nat) : Action V Nat := fun c =>
  match M.fromIndex position with
  | .none => .error .abort c
  | .some key => .ok (nextPosition desc c position) (c.assign (M.toIndex key) false)

/-- `erase(x)`: total, a value that is no key being nowhere stored. -/
def eraseKey (key : Key) : Action V Nat := fun c =>
  if M.isKey key = false then .ok 0 c
  else if c.size ≤ M.toIndex key then .ok 0 c
  else .ok (c.erase (M.toIndex key)).2.toNat (c.erase (M.toIndex key)).1

/-- What the range erasure asserts of its ends, a comparison of keys; an end that names no key is no
    argument of the mapping. -/
def rangeAssertion (first last : Nat) : Bool :=
  let ranked (lo hi : Nat) : Bool :=
    match M.fromIndex lo, M.fromIndex hi with
    | .some a, .some b => decide (M.toIndex a ≤ M.toIndex b)
    | _, _ => false
  if desc then last == endPos c || ranked last first else ranked first last

/-- The span between two iterators, which runs backwards in descending order. -/
def eraseSpan (first last : Nat) : Nat × Nat :=
  (if desc then (if last = endPos c then 0 else last + 1) else first,
    if desc then first + 1 else last)

/-- `erase(first, last)`: the span between the two clears a block at a time. -/
def eraseRange (asserts : Bool) (first last : Nat) : Action V Nat := fun c =>
  if asserts = true ∧ rangeAssertion M desc c first last = false then .error .abort c
  else if first ≠ last then
    let lo := (eraseSpan desc c first last).1
    let hi := (eraseSpan desc c first last).2
    .ok last (c.setRange lo (hi - lo) false)
  else .ok last c

def popFront : Action V Unit := fun c => .ok () (if desc then c.dropBack else c.dropFront)

def popBack : Action V Unit := fun c => .ok () (if desc then c.dropFront else c.dropBack)

def clear : Action V Unit := fun c => .ok () (c.fill false)

/-! ## 4. What they leave of the bits -/

section Specs
variable {M} {desc} {c} {d : BitBlockContainer V} {mem : Memory} {n p x : Nat}

theorem beginPos_eq (h : c.Inv) : beginPos desc c =
    if desc then prevSet c.bit c.size c.size else nextSet c.bit 0 c.size := by
  unfold beginPos
  rw [BitBlockContainer.totalFindPrev_eq h (Nat.le_refl _), BitBlockContainer.findFirst_eq h]

theorem nextPosition_eq (desc : Bool) (h : c.Inv) (hn : n < c.size) : nextPosition desc c n =
    if desc then prevSet c.bit n c.size else nextSet c.bit (n + 1) c.size := by
  unfold nextPosition
  rw [BitBlockContainer.totalFindPrev_eq h (by omega), BitBlockContainer.exclusiveFindNext_eq h hn]

/-- **The walk visits the set positions**, in the comparator's direction. -/
theorem positions_spec (desc : Bool) (h : c.Inv) :
    (∀ p, p ∈ positions desc c ↔ c.bit p = true) ∧
      (positions desc c).Pairwise (fun p q => if desc = true then q < p else p < q) := by
  have hbelow (p : Nat) (hb : c.bit p = true) : p < c.size := h.lt_size hb
  unfold positions endPos
  rw [beginPos_eq h]
  cases desc
  · have hw := walk_nextSet (f := c.bit) (b := c.size)
      (fun n hn => nextPosition_eq false h hn) (c.size + 1) 0 (by omega)
    refine ⟨fun p => (hw.1 p).trans ⟨fun hp => hp.2.2, fun hb => ⟨Nat.zero_le _, hbelow p hb, hb⟩⟩, ?_⟩
    simpa using hw.2
  · have hw := walk_prevSet (f := c.bit) (b := c.size)
      (fun n hn => nextPosition_eq true h hn) (c.size + 1) c.size (by omega) (Nat.le_refl _)
    refine ⟨fun p => (hw.1 p).trans ⟨fun hp => hp.2, fun hb => ⟨hbelow p hb, hb⟩⟩, ?_⟩
    simpa using hw.2

theorem guardKey_static (hs : V.hasStaticSize = true) (hg : guardKey M c x = .ok ()) :
    x < c.size := by
  unfold guardKey maxSize at hg
  rw [if_pos hs, if_pos hs] at hg
  unfold BitBlockContainer.size
  rw [if_pos hs]
  split at hg
  · cases hg
  · omega

/-- A position of an owner below the width, and below a closed universe, is admitted. -/
theorem guardKey_within (h : c.Inv) (hv : V.hasStoredSize = true ∨ V.hasStaticSize = true)
    (hx : x < c.size) (hn : ∀ n, M.size = .some n → x < n) : guardKey M c x = .ok () := by
  unfold guardKey maxSize
  by_cases hs : V.hasStaticSize = true
  · have hsize : c.size = V.extent := by
      unfold BitBlockContainer.size
      rw [if_pos hs]
    rw [if_pos hs, if_pos hs, if_neg (by omega)]
  · have hbound := h.bound (hv.resolve_right hs)
    rw [h.shape.numBlocks] at hbound
    have hwidth : c.size ≤ V.maxWidth :=
      Nat.le_trans h.shape.size_le (Nat.mul_le_mul_right w hbound)
    have hcheck : BitBlockContainer.checkWidth V (widthSum x 1) = .ok (widthSum x 1) := by
      have htop := V.maxWidth_le
      unfold BitBlockContainer.checkWidth widthSum
      rw [if_neg (show ¬ sizeMax - x < 1 by omega), if_neg (by omega)]
    rw [if_neg hs]
    split
    · rename_i n hsize
      have := hn n hsize
      rw [if_neg (by omega), hcheck]
      rfl
    · rw [hcheck]
      rfl

/-- A key at a position of an owner is inserted there. -/
theorem doInsert_within (h : c.Inv) (hv : V.hasStoredSize = true ∨ V.hasStaticSize = true)
    (hx : x < c.size) (hn : ∀ n, M.size = .some n → x < n) :
    doInsert M mem x c = .ok (x, (c.insert x).2) (c.insert x).1 := by
  unfold doInsert
  rw [guardKey_within h hv hx hn, BitBlockContainer.growingInsert_within hx]

/-- **What a completed insertion leaves of an owner**: the position, and what was set before. -/
theorem doInsert_ok (h : c.Inv) (hv : V.hasStoredSize = true ∨ V.hasStaticSize = true)
    {r : Nat × Bool} (hr : doInsert M mem x c = .ok r d) :
    d.Inv ∧ d.size = max c.size (x + 1) ∧ r = (x, !c.bit x) ∧
      ∀ p, d.bit p = if p = x then true else c.bit p := by
  unfold doInsert at hr
  split at hr
  · cases hr
  · rename_i hg
    have hx : V.hasStoredSize = true ∨ x < c.size := by
      rcases hv with hs | hs
      · exact Or.inl hs
      · exact Or.inr (guardKey_static hs hg)
    split at hr
    · cases hr
    · rename_i inserted e hi
      obtain ⟨h1, h2, h3, h4⟩ := BitBlockContainer.growingInsert_ok h hx hi
      cases hr
      exact ⟨h1, h2, by rw [h3], h4⟩

/-- **A refused insertion leaves everything as it was.** -/
theorem doInsert_strong : Strong (doInsert M mem x) c := by
  intro e t he
  unfold doInsert at he
  split at he
  · cases he
    rfl
  · split at he
    · rename_i hg
      cases he
      exact BitBlockContainer.growingInsert_strong e t hg
    · cases he

/-- **What a completed insertion of several keys leaves.** -/
theorem insertKeys_ok (hv : V.hasStoredSize = true ∨ V.hasStaticSize = true) :
    ∀ {keys : List Key} {c : BitBlockContainer V}, c.Inv → insertKeys M mem keys c = .ok () d →
      d.Inv ∧ c.size ≤ d.size ∧
        ∀ p, d.bit p = true ↔ c.bit p = true ∨ ∃ k ∈ keys, M.toIndex k = p
  | [], c, h, hr => by
      cases hr
      exact ⟨h, Nat.le_refl _, fun p => by simp⟩
  | key :: keys, c, h, hr => by
      unfold insertKeys at hr
      split at hr
      · cases hr
      · rename_i r e hi
        obtain ⟨h1, h2, -, h4⟩ := doInsert_ok h hv hi
        obtain ⟨k1, k2, k3⟩ := insertKeys_ok hv h1 hr
        refine ⟨k1, by omega, fun p => ?_⟩
        rw [k3 p, h4 p]
        constructor
        · intro hp
          rcases hp with hp | ⟨k, hk, hkp⟩
          · split at hp
            · rename_i hpx
              exact Or.inr ⟨key, List.mem_cons_self, hpx.symm⟩
            · exact Or.inl hp
          · exact Or.inr ⟨k, List.mem_cons_of_mem _ hk, hkp⟩
        · intro hp
          rcases hp with hp | ⟨k, hk, hkp⟩
          · left
            split
            · rfl
            · exact hp
          · rcases List.mem_cons.mp hk with rfl | hk
            · left
              rw [if_pos hkp.symm]
            · exact Or.inr ⟨k, hk, hkp⟩

/-- Keys at positions of an owner are all inserted. -/
theorem insertKeys_within (hv : V.hasStoredSize = true ∨ V.hasStaticSize = true) :
    ∀ {keys : List Key} {c : BitBlockContainer V}, c.Inv →
      (∀ k ∈ keys, M.toIndex k < c.size ∧ ∀ n, M.size = .some n → M.toIndex k < n) →
      ∃ d, insertKeys M mem keys c = .ok () d
  | [], c, _, _ => ⟨c, rfl⟩
  | key :: keys, c, h, hin => by
      obtain ⟨hx, hn⟩ := hin key List.mem_cons_self
      unfold insertKeys
      rw [doInsert_within h hv hx hn]
      refine insertKeys_within hv (h.insert hx) fun k hk => ?_
      rw [BitBlockContainer.sameWidth_insert.size]
      exact hin k (List.mem_cons_of_mem _ hk)

theorem widthSum_last {lo len : Nat} (htop : lo + len ≤ 2 ^ 64) :
    widthSum lo (len - 1) = lo + (len - 1) := by
  unfold widthSum sizeMax
  rw [if_neg (by omega)]

/-- Consecutive positions of an owner are all inserted. -/
theorem insertIota_within (h : c.Inv) (hv : V.hasStoredSize = true ∨ V.hasStaticSize = true)
    {lo len : Nat} (hin : len ≠ 0 → lo + len ≤ c.size ∧ lo + len ≤ 2 ^ 64 ∧
      ∀ n, M.size = .some n → lo + len ≤ n) : ∃ d, insertIota M mem lo len c = .ok () d := by
  unfold insertIota
  split
  · exact ⟨_, rfl⟩
  · rename_i hlen
    obtain ⟨h1, h2, h3⟩ := hin hlen
    dsimp only
    rw [widthSum_last h2,
      doInsert_within h hv (by omega) fun n hn => by have := h3 n hn; omega]
    exact ⟨_, rfl⟩

/-- **What a completed insertion of consecutive positions leaves.** -/
theorem insertIota_ok (h : c.Inv) (hv : V.hasStoredSize = true ∨ V.hasStaticSize = true)
    {lo len : Nat} (hr : insertIota M mem lo len c = .ok () d)
    (htop : len ≠ 0 → lo + len ≤ 2 ^ 64) :
    d.Inv ∧ c.size ≤ d.size ∧
      ∀ p, d.bit p = if lo ≤ p ∧ p < lo + len then true else c.bit p := by
  unfold insertIota at hr
  split at hr
  · rename_i hlen
    cases hr
    exact ⟨h, Nat.le_refl _, fun p => by rw [if_neg (by omega)]⟩
  · rename_i hlen
    dsimp only at hr
    rw [widthSum_last (htop hlen)] at hr
    split at hr
    · cases hr
    · rename_i r e hi
      obtain ⟨h1, h2, -, h4⟩ := doInsert_ok h hv hi
      cases hr
      have hin : lo + len ≤ e.size := by omega
      refine ⟨h1.setRange hin, ?_, fun p => ?_⟩
      · rw [(BitBlockContainer.sameWidth_setRange h1.shape hin).size]
        omega
      · rw [BitBlockContainer.bit_setRange h1.shape hin, h4 p]
        by_cases hp : lo ≤ p ∧ p < lo + len
        · rw [if_pos hp, if_pos hp]
        · rw [if_neg hp, if_neg hp, if_neg (by omega)]

/-- **What a completed range erasure leaves**: the span between the two cleared. -/
theorem eraseRange_ok (h : c.Inv) {asserts : Bool} {first last r : Nat}
    (hspan : first ≠ last → (eraseSpan desc c first last).1 ≤ (eraseSpan desc c first last).2 ∧
      (eraseSpan desc c first last).2 ≤ c.size)
    (hr : eraseRange M desc asserts first last c = .ok r d) :
    d.Inv ∧ BitBlockContainer.SameWidth c d ∧ r = last ∧
      ∀ p, d.bit p = if first ≠ last ∧ (eraseSpan desc c first last).1 ≤ p ∧
        p < (eraseSpan desc c first last).2 then false else c.bit p := by
  unfold eraseRange at hr
  split at hr
  · cases hr
  · split at hr
    · rename_i hne
      obtain ⟨h1, h2⟩ := hspan hne
      cases hr
      have hin : (eraseSpan desc c first last).1 +
          ((eraseSpan desc c first last).2 - (eraseSpan desc c first last).1) ≤ c.size := by omega
      refine ⟨h.setRange hin, BitBlockContainer.sameWidth_setRange h.shape hin, rfl, fun p => ?_⟩
      refine (BitBlockContainer.bit_setRange h.shape hin).trans ?_
      by_cases hp : (eraseSpan desc c first last).1 ≤ p ∧ p < (eraseSpan desc c first last).2
      · rw [if_pos (by omega), if_pos ⟨hne, hp⟩]
      · rw [if_neg (by omega), if_neg fun hc => hp hc.2]
    · rename_i hne
      cases hr
      exact ⟨h, BitBlockContainer.SameWidth.refl, rfl, fun p => by rw [if_neg fun hc => hne hc.1]⟩

end Specs

end SetAdaptor

end XstdBits
