/-
  File: XstdBits/Algorithm/ForEach.lean
  Subject: `bit_for_each` and `bit_find_if` over a set (`walk.hpp`, `walk_block.hpp`, `find_if.hpp`).

  * a block is walked by its set positions, from either end (`walkBlockUp`, `walkBlockDown`), and
    searched in the same order, up to the first answer.
  * the walks of a set take the blocks in order, downwards through an index that wraps; those of a
    sequence take a window in chunks, the last one cut.
  * each is a fold over what the iterators read: `walkKeys_eq` over the keys `++` or `--` comes to,
    `walkBools_eq` over the bools.
-/
import XstdBits.Reading.Compare
import XstdBits.Set.Advance

namespace XstdBits

/-! ## 1. One block -/

section Block
variable {w : Nat} {σ α : Type}

/-- Report the end, then clear it, as long as a position is set. -/
def walkBlock (last : BitVec w → Nat) (drop : BitVec w → BitVec w) (f : Nat → σ → σ) :
    (fuel : Nat) → BitVec w → σ → σ
  | 0, _, s => s
  | fuel + 1, block, s =>
      if block = zero then s
      else walkBlock last drop f fuel (drop block) (f (last block) s)

/-- The same, left at the first answer. -/
def findBlock (last : BitVec w → Nat) (drop : BitVec w → BitVec w) (turn : Nat → Option α) :
    (fuel : Nat) → BitVec w → Option α
  | 0, _ => none
  | fuel + 1, block =>
      if block = zero then none
      else
        match turn (last block) with
        | .some a => some a
        | .none => findBlock last drop turn fuel (drop block)

/-- `walk_block_up`: each set position, lowest first. -/
def walkBlockUp (block : BitVec w) (base : Nat) (f : Nat → σ → σ) : σ → σ :=
  walkBlock (fun block => base + countrZero block) dropLowest f w block

/-- `walk_block_down`: highest first. -/
def walkBlockDown (block : BitVec w) (base : Nat) (f : Nat → σ → σ) : σ → σ :=
  walkBlock (fun block => base + (w - 1) - countlZero block) dropHighest f w block

/-- The ascending loop of `find_key_if` over one block. -/
def findBlockUp (block : BitVec w) (base : Nat) (turn : Nat → Option α) : Option α :=
  findBlock (fun block => base + countrZero block) dropLowest turn w block

/-- The descending one. -/
def findBlockDown (block : BitVec w) (base : Nat) (turn : Nat → Option α) : Option α :=
  findBlock (fun block => base + (w - 1 - countlZero block)) dropHighest turn w block

/-- **The positions `last` and `drop` come to** are `keys` of the block. -/
structure Drops (last : BitVec w → Nat) (drop : BitVec w → BitVec w)
    (keys : BitVec w → List Nat) : Prop where
  done : keys zero = []
  step : ∀ b, b ≠ zero → keys b = last b :: keys (drop b)
  length : ∀ b, (keys b).length ≤ w

section Drops
variable {last : BitVec w → Nat} {drop : BitVec w → BitVec w} {keys : BitVec w → List Nat}

theorem Drops.walkBlock_eq (h : Drops last drop keys) {f : Nat → σ → σ} :
    ∀ (fuel : Nat) (b : BitVec w) (s : σ), (keys b).length ≤ fuel →
      walkBlock last drop f fuel b s = (keys b).foldl (fun s n => f n s) s
  | 0, b, s, hf => by
      rw [List.length_eq_zero_iff.mp (Nat.le_zero.mp hf)]
      rfl
  | fuel + 1, b, s, hf => by
      unfold walkBlock
      by_cases hb : b = zero
      · rw [if_pos hb, hb, h.done]
        rfl
      · rw [h.step b hb] at hf ⊢
        rw [if_neg hb, List.foldl_cons]
        exact h.walkBlock_eq fuel _ _ (Nat.le_of_succ_le_succ hf)

theorem Drops.findBlock_eq (h : Drops last drop keys) {turn : Nat → Option α} :
    ∀ (fuel : Nat) (b : BitVec w), (keys b).length ≤ fuel →
      findBlock last drop turn fuel b = (keys b).findSome? turn
  | 0, b, hf => by
      rw [List.length_eq_zero_iff.mp (Nat.le_zero.mp hf)]
      rfl
  | fuel + 1, b, hf => by
      unfold findBlock
      by_cases hb : b = zero
      · rw [if_pos hb, hb, h.done]
        rfl
      · rw [h.step b hb] at hf ⊢
        rw [if_neg hb, List.findSome?_cons, h.findBlock_eq fuel _ (Nat.le_of_succ_le_succ hf)]
        cases turn (last b) <;> rfl

end Drops

theorem ascending_zero : ascending (zero : BitVec w).getLsbD w = [] := by
  rw [ascending_congr fun q _ => getLsbD_zero']
  exact List.filter_false _

theorem length_ascending {g : Nat → Bool} {n : Nat} : (ascending g n).length ≤ n :=
  Nat.le_trans (List.length_filter_le _ _) (Nat.le_of_eq List.length_range)

/-- **`drop_lowest` leaves the rest of the ascending walk.** -/
theorem drops_lowest (base : Nat) : Drops (fun b : BitVec w => base + countrZero b) dropLowest
    fun b => (ascending b.getLsbD w).map (base + ·) where
  done := by rw [ascending_zero, List.map_nil]
  step b hb := by
    rw [ascending_step (countrZero_lt hb) (getLsbD_countrZero hb)
      (fun _ => getLsbD_of_lt_countrZero) fun _ hq => getLsbD_dropLowest hb hq, List.map_cons]
  length b := by
    rw [List.length_map]
    exact length_ascending

/-- **`drop_highest` leaves the rest of the descending walk.** -/
theorem drops_highest {base : Nat} {last : BitVec w → Nat}
    (hlast : ∀ b, b ≠ zero → last b = base + (w - 1 - countlZero b)) :
    Drops last dropHighest fun b => (descending b.getLsbD w).map (base + ·) where
  done := by rw [descending, ascending_zero, List.reverse_nil, List.map_nil]
  step b hb := by
    have hlt := countlZero_lt hb
    rw [hlast b hb, descending_step (by omega) (getLsbD_countlZero hb)
      (fun _ hq _ => getLsbD_of_countlZero_lt hq) fun _ hq => getLsbD_dropHighest hb hq,
      List.map_cons]
  length b := by
    rw [List.length_map, descending, List.length_reverse]
    exact length_ascending

variable {b : BitVec w} {base : Nat} {f : Nat → σ → σ} {turn : Nat → Option α} {s : σ}

theorem walkBlockUp_eq : walkBlockUp b base f s =
    ((ascending b.getLsbD w).map (base + ·)).foldl (fun s n => f n s) s :=
  (drops_lowest base).walkBlock_eq w b s ((drops_lowest base).length b)

theorem walkBlockDown_eq : walkBlockDown b base f s =
    ((descending b.getLsbD w).map (base + ·)).foldl (fun s n => f n s) s := by
  have h : Drops (fun b : BitVec w => base + (w - 1) - countlZero b) dropHighest _ :=
    drops_highest fun b hb => by
      have hlt := countlZero_lt hb
      show base + (w - 1) - countlZero b = base + (w - 1 - countlZero b)
      omega
  exact h.walkBlock_eq w b s (h.length b)

theorem findBlockUp_eq : findBlockUp b base turn =
    ((ascending b.getLsbD w).map (base + ·)).findSome? turn :=
  (drops_lowest base).findBlock_eq w b ((drops_lowest base).length b)

theorem findBlockDown_eq : findBlockDown b base turn =
    ((descending b.getLsbD w).map (base + ·)).findSome? turn := by
  have h : Drops (fun b : BitVec w => base + (w - 1 - countlZero b)) dropHighest _ :=
    drops_highest fun _ _ => rfl
  exact h.findBlock_eq w b (h.length b)

end Block

/-! ## 2. The keys of a set -/

namespace SetAdaptor
variable {w : Nat} {V : Vehicle w} {Key σ : Type} (M : KeyMapping Key) (desc : Bool)
  (c : BitBlockContainer V)

/-- `f` called with the key at a position, which has to name one. -/
def atKey (f : Key → σ → σ) (n : Nat) (s : Option σ) : Option σ :=
  s.bind fun s => (M.fromIndex n).map fun key => f key s

/-- `walk_keys_up`. -/
def walkKeysUp (f : Key → σ → σ) (s : σ) : Option σ :=
  (List.range c.numBlocks).foldl
    (fun s index => walkBlockUp (c.block index) (w * index) (atKey M f) s) (some s)

/-- `walk_keys_down`. -/
def walkKeysDown (f : Key → σ → σ) (s : σ) : Option σ :=
  (wrapDown (2 ^ 64) c.numBlocks).foldl
    (fun s index => walkBlockDown (c.block index) (w * index) (atKey M f) s) (some s)

/-- `walk<Reverse>` of a set. -/
def walkKeys (reverse : Bool) (f : Key → σ → σ) (s : σ) : Option σ :=
  if reverse != desc then walkKeysDown M c f s else walkKeysUp M c f s

/-- What the key at a position makes of the search: no key there ends it without an answer, the
    first accepted one with it. -/
def testKey (pred : Key → Bool) (n : Nat) : Option (Option Key) :=
  match M.fromIndex n with
  | .none => some none
  | .some key => if pred key = true then some (some key) else none

/-- `find_key_if`: the key found, if any. -/
def findKeyIf (pred : Key → Bool) : Option (Option Key) :=
  let found :=
    if desc then
      (wrapDown (2 ^ 64) c.numBlocks).findSome? fun index =>
        findBlockDown (c.block index) (w * index) (testKey M pred)
    else
      (List.range c.numBlocks).findSome? fun index =>
        findBlockUp (c.block index) (w * index) (testKey M pred)
  match found with
  | .none => some none
  | .some key => key.map some

/-- `bit_find_if` over a set: the iterator at the key found, else the end. -/
def bitFindIf (pred : Key → Bool) : Option Nat :=
  (findKeyIf M desc c pred).map fun key =>
    match key with
    | .some key => find M c key
    | .none => endPos c

/-! ## 3. Plain iteration over a set -/

/-- What a loop by `--` reads from one iterator down to another. -/
def walkBack (step : Nat → Nat) (stop : Nat) : (fuel n : Nat) → List Nat
  | 0, _ => []
  | fuel + 1, n => if n = stop then [] else step n :: walkBack step stop fuel (step n)

/-- The positions from `end()` back to `begin()`, as `std::views::reverse` comes to them. -/
def positionsBack : List Nat :=
  walkBack (prevPosition desc c) (beginPos desc c) (c.size + 1) (endPos c)

/-- The keys a range-for over the reversed set reads. -/
def iteratedBack : Option (List Key) := (positionsBack desc c).mapM M.fromIndex

/-- `std::find_if` from an iterator on. -/
def stdFindFrom (pred : Key → Bool) : (fuel n : Nat) → Option Nat
  | 0, _ => none
  | fuel + 1, n =>
      if n = endPos c then some n
      else
        match M.fromIndex n with
        | .none => none
        | .some key =>
            if pred key = true then some n else stdFindFrom pred fuel (nextPosition desc c n)

def stdFindIf (pred : Key → Bool) : Option Nat :=
  stdFindFrom M desc c pred (c.size + 1) (beginPos desc c)

section Plain
variable {desc} {c} {first last : Nat} {ps : List Nat}

theorem walks_ne (h : c.Inv) {p : Nat} (hw : Walks desc c first (p :: ps) last) : first ≠ last := by
  have hb : c.bit first = true := by
    cases hw with
    | next hn _ => exact hn
  have hlt := h.lt_size hb
  cases desc
  · cases hw with
    | next hn hw =>
        have := ((walks_up h (.next hn hw)).2 first).mp List.mem_cons_self
        omega
  · rcases walks_down h hw with ⟨hnil, -⟩ | ⟨-, hlast, -⟩
    · cases hnil
    · omega

/-- The last step of a walk. -/
theorem walks_concat : ∀ {ps : List Nat} {first q : Nat}, Walks desc c first (ps ++ [q]) last →
    Walks desc c first ps q ∧ c.bit q = true ∧ nextPosition desc c q = last
  | [], first, q, hw => by
      cases hw with
      | next hn hw =>
          cases hw with
          | here => exact ⟨.here _, hn, rfl⟩
  | p :: ps, first, q, hw => by
      cases hw with
      | next hn hw =>
          obtain ⟨h1, h2, h3⟩ := walks_concat hw
          exact ⟨.next hn h1, h2, h3⟩

/-- No walk to the end is longer than the width. -/
theorem length_walks (h : c.Inv) (hw : Walks desc c first ps (endPos c)) : ps.length ≤ c.size := by
  have hle (a b : Nat) : countIn c.bit a b ≤ b := countBits_le
  have hlen := walks_length h hw
  cases ps with
  | nil => exact Nat.zero_le _
  | cons p ps =>
      have hb : c.bit first = true := by
        cases hw with
        | next hn _ => exact hn
      have hlt := h.lt_size hb
      rw [hlen]
      split
      · rw [if_neg (Nat.ne_of_lt hlt)]
        exact Nat.le_trans (hle _ _) (by omega)
      · exact Nat.le_trans (hle _ _) (Nat.sub_le _ _)

/-- **`++` from an iterator to the end** reads the positions of the walk. -/
theorem walk_of_walks (h : c.Inv) : ∀ {ps : List Nat} {first fuel : Nat},
    Walks desc c first ps (endPos c) → ps.length < fuel →
      walk (nextPosition desc c) (endPos c) fuel first = ps
  | [], first, fuel + 1, hw, _ => by
      cases hw
      exact if_pos rfl
  | p :: ps, first, fuel + 1, hw, hf => by
      have hne := walks_ne h hw
      cases hw with
      | next hn hw =>
          unfold walk
          rw [if_neg hne, walk_of_walks h hw (Nat.lt_of_succ_lt_succ hf)]

/-- **`--` undoes the walk**, position by position. -/
theorem walkBack_of_walks (h : c.Inv) {fuel : Nat} (hw : Walks desc c first ps last)
    (hf : ps.length < fuel) :
    walkBack (prevPosition desc c) first fuel last = ps.reverse := by
  induction ps using List.reverseRecOn generalizing last fuel with
  | nil =>
      obtain ⟨fuel, rfl⟩ := Nat.exists_eq_succ_of_ne_zero (Nat.ne_of_gt hf)
      cases hw
      exact if_pos rfl
  | append_singleton ps q ih =>
      obtain ⟨fuel, rfl⟩ := Nat.exists_eq_succ_of_ne_zero (Nat.ne_of_gt (Nat.zero_lt_of_lt hf))
      have hne : first ≠ last := by
        cases ps with
        | nil => exact walks_ne h hw
        | cons p ps => exact walks_ne h hw
      obtain ⟨h1, h2, h3⟩ := walks_concat hw
      have hprev : prevPosition desc c last = q := h3 ▸ prev_next desc h h2
      rw [List.length_append, List.length_singleton] at hf
      unfold walkBack
      rw [if_neg (Ne.symm hne), hprev, ih h1 (by omega), List.reverse_append]
      rfl

/-- The positions from `begin()` to `end()` are those of one walk. -/
theorem walks_positions (desc : Bool) (h : c.Inv) :
    Walks desc c (beginPos desc c) (positions desc c) (endPos c) := by
  obtain ⟨ps, hw⟩ := walks_from_begin desc h (Or.inr rfl : Stands c (endPos c))
  have hps : positions desc c = ps := walk_of_walks h hw (Nat.lt_succ_of_le (length_walks h hw))
  rwa [hps]

theorem positionsBack_eq (desc : Bool) (h : c.Inv) :
    positionsBack desc c = (positions desc c).reverse := by
  have hw := walks_positions desc h
  exact walkBack_of_walks h hw (Nat.lt_succ_of_le (length_walks h hw))

/-- **The iterators come to the keys the storage lists**, in the direction of the order. -/
theorem positions_eq (desc : Bool) (h : c.Inv) :
    positions desc c = if desc then keysDown c else keysUp c := by
  obtain ⟨hmem, hsorted⟩ := positions_spec desc h
  have hup : (keysUp c).Pairwise (· < ·) := List.pairwise_lt_range.filter _
  have hkeys (p : Nat) : p ∈ keysUp c ↔ c.bit p = true :=
    mem_ascending.trans ⟨fun hp => hp.2, fun hb => ⟨h.lt_size hb, hb⟩⟩
  cases desc
  · have hsorted : (positions false c).Pairwise (· < ·) := by simpa using hsorted
    exact hsorted.eq_of_mem_iff hup fun p => (hmem p).trans (hkeys p).symm
  · have hsorted : (positions true c).Pairwise (· > ·) := by simpa using hsorted
    refine hsorted.eq_of_mem_iff (List.pairwise_reverse.mpr hup) fun p => ?_
    exact (hmem p).trans ((hkeys p).symm.trans List.mem_reverse.symm)

end Plain

/-! ## 4. The walks of a set -/

section Walks
variable {M} {desc} {c} {f : Key → σ → σ} {s : σ} {pred : Key → Bool}

/-- The keys upwards, a block at a time. -/
theorem keysUp_blocks (h : c.Inv) : keysUp c = (List.range c.numBlocks).flatMap
    fun k => (ascending (c.block k).getLsbD w).map (w * k + ·) := by
  have hsize : keysUp c = ascending c.bit (c.numBlocks * w) := by
    rw [h.shape.numBlocks]
    exact (ascending_of_clear h.clear h.shape.size_le).symm
  rw [hsize, ← selected_range, selected]
  refine congrArg (List.flatMap · _) (funext fun k => ?_)
  rw [ascending_congr fun j hj => BitBlockContainer.bit_pos hj, Nat.mul_comm]

theorem keysDown_blocks (h : c.Inv) : keysDown c = (List.range c.numBlocks).reverse.flatMap
    fun k => (descending (c.block k).getLsbD w).map (w * k + ·) := by
  have hdown : keysDown c = (keysUp c).reverse := rfl
  rw [hdown, keysUp_blocks h, List.reverse_flatMap]
  refine congrArg (List.flatMap · _) (funext fun k => ?_)
  exact List.map_reverse.symm

/-- Calls with the keys at positions are calls with the keys. -/
theorem foldl_atKey : ∀ (ps : List Nat) (s : σ),
    ps.foldl (fun s n => atKey M f n s) (some s) =
      (ps.mapM M.fromIndex).map fun keys => keys.foldl (fun s key => f key s) s
  | [], s => rfl
  | p :: ps, s => by
      have hnone : ∀ ps : List Nat, ps.foldl (fun s n => atKey M f n s) none = (none : Option σ) := by
        intro ps
        induction ps with
        | nil => rfl
        | cons p ps ih => exact ih
      rw [List.foldl_cons, List.mapM_cons]
      unfold atKey
      cases hp : M.fromIndex p with
      | none =>
          rw [Option.bind_some, Option.map_none]
          exact hnone ps
      | some key =>
          rw [Option.bind_some, Option.map_some]
          refine (foldl_atKey ps (f key s)).trans ?_
          cases ps.mapM M.fromIndex <;> rfl

/-- **The walk of a set calls `f` with the keys plain iteration reads**, in its order, or reversed,
    in that of the reversed set. -/
theorem walkKeys_eq (h : c.Inv) (hlent : V.storage = .lent → c.numBlocks ≤ V.maxNumBlocks)
    (reverse : Bool) : walkKeys M desc c reverse f s =
      (if reverse then iteratedBack M desc c else iterated M desc c).map
        fun keys => keys.foldl (fun s key => f key s) s := by
  have hup : walkKeysUp M c f s = ((keysUp c).mapM M.fromIndex).map
      fun keys => keys.foldl (fun s key => f key s) s := by
    rw [← foldl_atKey, keysUp_blocks h, List.foldl_flatMap]
    unfold walkKeysUp
    simp only [walkBlockUp_eq]
  have hdown : walkKeysDown M c f s = ((keysDown c).mapM M.fromIndex).map
      fun keys => keys.foldl (fun s key => f key s) s := by
    rw [← foldl_atKey, keysDown_blocks h, List.foldl_flatMap]
    unfold walkKeysDown
    rw [wrapDown_eq (h.numBlocks_lt hlent)]
    simp only [walkBlockDown_eq]
  have hback : (keysUp c).reverse = keysDown c := rfl
  have hforth : (keysDown c).reverse = keysUp c := List.reverse_reverse _
  unfold walkKeys iteratedBack iterated
  rw [positionsBack_eq desc h, positions_eq desc h]
  cases desc <;> cases reverse
  · exact hup
  · exact hdown.trans (by rw [if_pos rfl, if_neg (by decide), hback])
  · exact hdown
  · exact hup.trans (by rw [if_pos rfl, if_pos rfl, hforth])

/-- The search by blocks is one over the positions of the walk. -/
theorem findKeyIf_eq (h : c.Inv) (hlent : V.storage = .lent → c.numBlocks ≤ V.maxNumBlocks) :
    findKeyIf M desc c pred = match (positions desc c).findSome? (testKey M pred) with
      | .none => some none
      | .some key => key.map some := by
  have hblocks {g : Nat → List Nat} : ∀ l : List Nat, (l.flatMap g).findSome? (testKey M pred) =
      l.findSome? fun k => (g k).findSome? (testKey M pred) := by
    intro l
    induction l with
    | nil => rfl
    | cons k l ih =>
        rw [List.flatMap_cons, List.findSome?_append, List.findSome?_cons, ih]
        cases (g k).findSome? (testKey M pred) <;> rfl
  rw [positions_eq desc h]
  unfold findKeyIf
  cases desc
  · rw [if_neg (by decide), if_neg (by decide), keysUp_blocks h, hblocks]
    simp only [findBlockUp_eq]
  · rw [if_pos rfl, if_pos rfl, keysDown_blocks h, hblocks, wrapDown_eq (h.numBlocks_lt hlent)]
    simp only [findBlockDown_eq]

/-- What a search by keys stands for: the iterator at the key, or the end. -/
theorem stdFindFrom_eq [LT Key] {U : Nat} (pred : Key → Bool) (hM : M.Bijective U) (h : c.Inv)
    (hU : ∀ p, c.bit p = true → p < U) : ∀ {ps : List Nat} {n fuel : Nat},
    Walks desc c n ps (endPos c) → ps.length < fuel →
      (ps.findSome? (testKey M pred) = none ∧ stdFindFrom M desc c pred fuel n = some (endPos c)) ∨
      ∃ key, ps.findSome? (testKey M pred) = some (some key) ∧
        stdFindFrom M desc c pred fuel n = some (find M c key)
  | [], n, fuel + 1, hw, _ => by
      cases hw
      exact Or.inl ⟨rfl, if_pos rfl⟩
  | p :: ps, n, fuel + 1, hw, hf => by
      have hne := walks_ne h hw
      cases hw with
      | next hn hw =>
          obtain ⟨key, hfrom, hkey, hto⟩ := hM.to_from p (hU p hn)
          unfold stdFindFrom
          rw [if_neg hne, List.findSome?_cons]
          unfold testKey
          simp only [hfrom]
          by_cases hp : pred key = true
          · refine Or.inr ⟨key, by rw [if_pos hp], ?_⟩
            have hin : contains M c key = true := by rw [contains_eq h, hkey, hto, hn]; rfl
            rw [if_pos hp, find, if_pos hin, hto]
          · rw [if_neg hp, if_neg hp]
            exact stdFindFrom_eq pred hM h hU hw (Nat.lt_of_succ_lt_succ hf)

/-- **`bit_find_if` finds what `std::find_if` finds** over the set's iterators. -/
theorem bitFindIf_eq [LT Key] {U : Nat} (hM : M.Bijective U) (h : c.Inv)
    (hlent : V.storage = .lent → c.numBlocks ≤ V.maxNumBlocks)
    (hU : ∀ p, c.bit p = true → p < U) :
    ∃ n, bitFindIf M desc c pred = some n ∧ stdFindIf M desc c pred = some n := by
  have hw := walks_positions desc h
  have hcases := stdFindFrom_eq pred hM h hU hw (Nat.lt_succ_of_le (length_walks h hw))
  unfold bitFindIf
  rw [findKeyIf_eq h hlent]
  rcases hcases with ⟨hnone, hstd⟩ | ⟨key, hsome, hstd⟩
  · exact ⟨endPos c, by rw [hnone]; rfl, hstd⟩
  · exact ⟨find M c key, by rw [hsome]; rfl, hstd⟩

end Walks

end SetAdaptor

/-! ## 5. The bools of a sequence -/

namespace Bools
variable {w : Nat} {V : Vehicle w} {σ : Type}

/-- `walk_bools_up`. -/
def walkBoolsUp (c : BitBlockContainer V) (n len : Nat) (f : Bool → σ → σ) (s : σ) : σ :=
  forStep w 0 len (fun k s =>
    let block := c.blockAt (n + k)
    (List.range (min w (len - k))).foldl
      (fun s i => f (blockIntersects (shr block i) unit) s) s) s

/-- `walk_bools_down`. -/
def walkBoolsDown (c : BitBlockContainer V) (n len : Nat) (f : Bool → σ → σ) (s : σ) : σ :=
  let chunks := (len + w - 1) / w
  (wrapDown (2 ^ 64) chunks).foldl (fun s j =>
    let block := c.blockAt (n + j * w)
    let count := min w (len - j * w)
    (wrapDown (2 ^ 64) count).foldl
      (fun s i => f (blockIntersects (shr block i) unit) s) s) s

/-- `walk<Reverse>` of a sequence. -/
def walkBools (r : Bools V) (reverse : Bool) (f : Bool → σ → σ) (s : σ) : σ :=
  if reverse then walkBoolsDown r.bits r.firstPosition r.size f s
  else walkBoolsUp r.bits r.firstPosition r.size f s

section Walks
variable {c : BitBlockContainer V} {n len : Nat} {f : Bool → σ → σ} {s : σ} {r : Bools V}

/-- The bools of a chunk, as far as the window reaches. -/
theorem blockAt_bools (h : c.Inv) (hl : n + len ≤ c.size) {k : Nat} (hk : k < len) :
    (List.range (min w (len - k))).map (fun i => blockIntersects (shr (c.blockAt (n + k)) i) unit) =
      bools (fun i => c.bit (n + k + i)) (min w (len - k)) := by
  have hsize := h.shape.size_le
  refine List.map_congr_left fun i hi => ?_
  have hi := List.mem_range.mp hi
  rw [blockIntersects_shr_unit V.bits_pos,
    BitBlockContainer.getLsbD_blockAt h.shape (by omega) (by omega)]

theorem bools_add (g : Nat → Bool) (a b : Nat) :
    bools g (a + b) = bools g a ++ bools (fun i => g (a + i)) b := by
  unfold bools
  rw [List.range_add, List.map_append, List.map_map]
  rfl

/-- **Chunk by chunk upwards**, the walk calls `f` with the bools of the window. -/
theorem walkBoolsUp_eq (h : c.Inv) (hl : n + len ≤ c.size) : walkBoolsUp c n len f s =
    (windowOf c n len).foldl (fun s b => f b s) s := by
  obtain ⟨q, hq, hrun⟩ := forStep_inv (a := 0) (b := len) (s := s)
    (f := fun k s => (List.range (min w (len - k))).foldl
      (fun s i => f (blockIntersects (shr (c.blockAt (n + k)) i) unit) s) s)
    (fun k t => t = (bools (fun i => c.bit (n + i)) (min k len)).foldl (fun s b => f b s) s)
    V.bits_pos (by rw [Nat.zero_min]; rfl) fun k t hk ht => by
      have hsplit : min (k + w) len = k + min w (len - k) := by omega
      have hlow : min k len = k := by omega
      have hchunk := congrArg (fun l : List Bool => l.foldl (fun s b => f b s) t)
        (blockAt_bools h hl hk)
      rw [hsplit, bools_add, List.foldl_append, ← hlow, ← ht, hlow]
      simp only [List.foldl_map] at hchunk
      rw [hchunk]
      simp only [Nat.add_assoc]
  unfold walkBoolsUp windowOf
  rw [hrun, Nat.min_eq_right hq]

/-- A window in chunks. -/
theorem bools_chunks (g : Nat → Bool) (len : Nat) : ∀ chunks : Nat,
    (List.range chunks).flatMap (fun j => bools (fun i => g (j * w + i)) (min w (len - j * w))) =
      bools g (min (chunks * w) len)
  | 0 => by
      rw [Nat.zero_mul, Nat.zero_min]
      rfl
  | chunks + 1 => by
      have hsplit : min ((chunks + 1) * w) len =
          min (chunks * w) len + min w (len - chunks * w) := by
        rw [Nat.succ_mul]
        omega
      rw [List.range_succ, List.flatMap_append, bools_chunks g len chunks, hsplit, bools_add,
        List.flatMap_singleton]
      by_cases hin : chunks * w ≤ len
      · rw [Nat.min_eq_left hin]
      · rw [show min w (len - chunks * w) = 0 by omega]
        rfl

/-- **Chunk by chunk downwards**, with the last one cut, it calls `f` with them the other way. -/
theorem walkBoolsDown_eq (h : c.Inv) (hlent : V.storage = .lent → c.numBlocks ≤ V.maxNumBlocks)
    (hl : n + len ≤ c.size) : walkBoolsDown c n len f s =
      (windowOf c n len).reverse.foldl (fun s b => f b s) s := by
  have hw := V.bits_pos
  have hblocks : blocksFor w len < 2 ^ 64 := by
    have := blocksFor_mono hw (show len ≤ c.size by omega)
    have hnum := h.numBlocks_lt hlent
    rw [h.shape.numBlocks, show c.mBlocks.elems.length = blocksFor w c.size from h.shape] at hnum
    omega
  have hcount (j : Nat) : min w (len - j * w) < 2 ^ 64 := by
    have := V.bits_int
    omega
  have hwindow : windowOf c n len = (List.range (blocksFor w len)).flatMap
      fun j => bools (fun i => c.bit (n + (j * w + i))) (min w (len - j * w)) := by
    rw [bools_chunks (fun q => c.bit (n + q)) len, Nat.min_eq_right (le_blocksFor_mul hw)]
    rfl
  unfold walkBoolsDown
  dsimp only
  rw [chunks_eq hw, wrapDown_eq hblocks, hwindow, List.reverse_flatMap, List.foldl_flatMap]
  refine List.foldl_ext _ _ _ fun t j hj => ?_
  rw [List.mem_reverse, List.mem_range, lt_blocksFor_iff hw] at hj
  rw [wrapDown_eq (hcount j), ← List.foldl_map
    (f := fun i => blockIntersects (shr (c.blockAt (n + j * w)) i) unit) (g := fun s b => f b s),
    List.map_reverse, blockAt_bools h hl hj]
  simp only [Nat.add_assoc, Function.comp_apply]

/-- **The walk of a sequence calls `f` with its bools in order**, or against it. -/
theorem walkBools_eq (hlent : V.storage = .lent → r.bits.numBlocks ≤ V.maxNumBlocks)
    (reverse : Bool) : r.walkBools reverse f s =
      (if reverse then r.toList.reverse else r.toList).foldl (fun s b => f b s) s := by
  unfold walkBools
  rw [r.firstPosition_eq]
  cases reverse
  · exact walkBoolsUp_eq r.inv r.fits
  · exact walkBoolsDown_eq r.inv hlent r.fits

end Walks

end Bools

end XstdBits
