/-
  File: XstdBits/Container/Transfer.lean
  Subject: construction, copy, move, swap, and blocks given away or taken over.

  * `Blocks.moveAssign`, `assignBlocks`, `copyBlocks`, `moveBlocks`, `takeBlocks` decide by the
    allocators whether blocks are taken, copied in place or built anew; a copied or moved-to
    storage has the elements of its source whichever it was (`…_ok`).
  * `adopt` and `replace` take blocks over whole, every bit a position; `extract` gives them away
    and leaves a width of zero (`Inv.emptied`).
  * every result has its source's width, count and elements (`Inv.transferred`).
-/
import XstdBits.Container.Reserve
import XstdBits.Container.Layout

namespace XstdBits

/-! ## 1. The blocks -/

namespace Blocks
variable {w : Nat}

/-- `m_blocks = std::move(source)`: taken where the allocators allow, else moved one by one. -/
def moveAssign (V : Vehicle w) (mem : Memory) (b source : Blocks w) : Except Exn (Blocks w) :=
  if V.traits.isAlwaysEqual ∨ V.traits.propagateOnMove ∨ b.alloc = source.alloc then
    .ok { source with alloc := if V.traits.propagateOnMove then source.alloc else b.alloc }
  else
    match b.makeRoom V mem source.elems.length with
    | .error e => .error e
    | .ok b => .ok { b with elems := source.elems }

/-- `take_blocks`: into an unequal allocator the blocks are copied. -/
def takeBlocks (V : Vehicle w) (mem : Memory) (b source : Blocks w) : Except Exn (Blocks w) :=
  if !V.traits.isAlwaysEqual ∧ b.alloc ≠ source.alloc then
    match b.resize V mem source.elems.length zero with
    | .error e => .error e
    | .ok b => .ok { b with elems := source.elems }
  else b.moveAssign V mem source

/-- `assign_blocks`: copied in place where the capacity suffices, else built in full and then moved
    in, under the allocator held. -/
def assignBlocks (V : Vehicle w) (mem : Memory) (b source : Blocks w) : Except Exn (Blocks w) :=
  if V.traits.hasCapacity ∧ source.elems.length ≤ b.reserved then
    match b.resize V mem source.elems.length zero with
    | .error e => .error e
    | .ok b => .ok { b with elems := source.elems }
  else
    match copyOf V mem source b.alloc with
    | .error e => .error e
    | .ok copy => b.moveAssign V mem copy

/-- `move_blocks`: taken whole where the allocators allow, else copied under the one held. -/
def moveBlocks (V : Vehicle w) (mem : Memory) (b source : Blocks w) : Except Exn (Blocks w) :=
  if !V.traits.nothrowMoveAssignable ∧ b.alloc ≠ source.alloc then b.assignBlocks V mem source
  else b.moveAssign V mem source

/-- Both sides of a swap, which keeps the allocators where they do not propagate. -/
def swapped (V : Vehicle w) (x y : Blocks w) : Blocks w × Blocks w :=
  if V.traits.propagateOnSwap then (y, x)
  else ({ y with alloc := x.alloc }, { x with alloc := y.alloc })

variable {V : Vehicle w} {mem : Memory} {b b' source : Blocks w}

theorem moveAssign_ok (h : b.moveAssign V mem source = .ok b') : b'.elems = source.elems := by
  unfold moveAssign at h
  split at h
  · cases h
    rfl
  · split at h
    · cases h
    · cases h
      rfl

theorem takeBlocks_ok (h : b.takeBlocks V mem source = .ok b') : b'.elems = source.elems := by
  unfold takeBlocks at h
  split at h
  · split at h
    · cases h
    · cases h
      rfl
  · exact moveAssign_ok h

theorem assignBlocks_ok (hs : V.hasStoredSize = true)
    (h : b.assignBlocks V mem source = .ok b') : b'.elems = source.elems := by
  unfold assignBlocks at h
  split at h
  · split at h
    · cases h
    · cases h
      rfl
  · split at h
    · cases h
    · rename_i copy hc
      rw [moveAssign_ok h]
      exact (copyOf_ok hs hc).1

theorem moveBlocks_ok (hs : V.hasStoredSize = true)
    (h : b.moveBlocks V mem source = .ok b') : b'.elems = source.elems := by
  unfold moveBlocks at h
  split at h
  · exact assignBlocks_ok hs h
  · exact moveAssign_ok h

theorem moveAssign_roomy (hs : source.Roomy V) (h : b.moveAssign V mem source = .ok b') :
    b'.Roomy V := by
  unfold moveAssign at h
  split at h
  · cases h
    exact hs
  · split at h
    · cases h
    · rename_i b1 h1
      have hr := makeRoom_reserved h1
      cases h
      exact hr

theorem moveBlocks_roomy (hs : source.Roomy V) (h : b.moveBlocks V mem source = .ok b') :
    b'.Roomy V := by
  unfold moveBlocks at h
  split at h
  · unfold assignBlocks at h
    split at h
    · split at h
      · cases h
      · rename_i b1 h1
        have hr := (resize_reserved h1).2
        cases h
        exact hr
    · split at h
      · cases h
      · rename_i copy hc
        exact moveAssign_roomy (copyOf_roomy hc) h
  · exact moveAssign_roomy hs h

/-- A copy into blocks held completes where there is room for those of its source. -/
theorem assignBlocks_of_room
    (hroom : ∀ b : Blocks w, ∃ b', b.makeRoom V mem source.elems.length = .ok b') :
    ∃ b', b.assignBlocks V mem source = .ok b' := by
  unfold assignBlocks
  split
  · obtain ⟨b1, h1⟩ := hroom b
    unfold resize
    rw [h1]
    exact ⟨_, rfl⟩
  · obtain ⟨b1, h1⟩ := hroom (empty b.alloc)
    obtain ⟨b2, h2⟩ := hroom b
    unfold copyOf moveAssign
    rw [h1]
    dsimp only
    rw [h2]
    split <;> exact ⟨_, rfl⟩

/-- A move completes where there is room for the blocks of its source. -/
theorem moveBlocks_of_room
    (hroom : ∀ b : Blocks w, ∃ b', b.makeRoom V mem source.elems.length = .ok b') :
    ∃ b', b.moveBlocks V mem source = .ok b' := by
  have hmove (b copy : Blocks w) (hl : copy.elems.length = source.elems.length) :
      ∃ b', b.moveAssign V mem copy = .ok b' := by
    obtain ⟨b1, h1⟩ := hroom b
    unfold moveAssign
    split
    · exact ⟨_, rfl⟩
    · rw [hl, h1]
      exact ⟨_, rfl⟩
  unfold moveBlocks
  split
  · unfold assignBlocks
    split
    · obtain ⟨b1, h1⟩ := hroom b
      unfold resize
      rw [h1]
      exact ⟨_, rfl⟩
    · obtain ⟨b1, h1⟩ := hroom (empty b.alloc)
      unfold copyOf
      rw [h1]
      exact hmove b _ rfl
  · exact hmove b source rfl

end Blocks

namespace BitBlockContainer
variable {w : Nat} {V : Vehicle w} (c : BitBlockContainer V)

/-! ## 2. Construction -/

/-- `bit_block_container()`: zero blocks at a static width, none at a run-time one. -/
def default (V : Vehicle w) (alloc : Nat) : BitBlockContainer V :=
  { mSize := 0, mCount := 0,
    mBlocks := { elems := List.replicate V.staticNumBlocks zero, reserved := V.staticNumBlocks,
                 alloc := alloc } }

/-- `bit_block_container(n)`, and `(n, alloc)` under the allocator. -/
def construct (V : Vehicle w) (mem : Memory) (n alloc : Nat) : Except Exn (BitBlockContainer V) :=
  if overCapacity V n then .error .badAlloc
  else
    match (Blocks.empty alloc).resize V mem (blocksFor w n) zero with
    | .error e => .error e
    | .ok blocks => .ok { mSize := n, mCount := 0, mBlocks := blocks }

/-- `(from_blocks, blocks)`: the blocks move in whole, every bit a position. -/
def adopt (V : Vehicle w) (blocks : Blocks w) : BitBlockContainer V :=
  recount { mSize := if V.hasStoredSize then blocks.elems.length * w else 0, mCount := 0,
            mBlocks := blocks }

/-- `(from_blocks, blocks, alloc)`: moved into storage the allocator provides. -/
def adoptUnder (V : Vehicle w) (mem : Memory) (blocks : Blocks w) (alloc : Nat) :
    Except Exn (BitBlockContainer V) :=
  match (Blocks.empty alloc).takeBlocks V mem blocks with
  | .error e => .error e
  | .ok taken => .ok (recount { mSize := blocks.elems.length * w, mCount := 0, mBlocks := taken })

/-! ## 3. Copy and move -/

/-- The copy constructor, and `(other, alloc)`: at a static width the array's own copy. -/
def copyOf (mem : Memory) (other : BitBlockContainer V) (alloc : Nat) :
    Except Exn (BitBlockContainer V) :=
  if V.hasStoredSize then
    match Blocks.copyOf V mem other.mBlocks alloc with
    | .error e => .error e
    | .ok blocks =>
        .ok (storeCount { mSize := other.mSize, mCount := 0, mBlocks := blocks } other.storedCount)
  else .ok other

/-- What a move leaves behind: a width of zero with no blocks. -/
def movedFrom : BitBlockContainer V :=
  storeCount { c with mSize := 0, mBlocks := c.mBlocks.clear } 0

/-- The move constructor, and what it leaves of its source; an array moves as it copies. -/
def moveOf (other : BitBlockContainer V) : BitBlockContainer V × BitBlockContainer V :=
  if V.hasStoredSize ∧ ¬ V.hasZeroCapacity then
    (storeCount { mSize := other.mSize, mCount := 0, mBlocks := other.mBlocks } other.storedCount,
      other.movedFrom)
  else (other, other)

/-- The move constructor under an allocator, on its source: the width is taken first, and the count
    only once the blocks are. -/
def moveUnder (mem : Memory) (alloc : Nat) : Action V (BitBlockContainer V) := fun other =>
  match (Blocks.empty alloc).takeBlocks V mem other.mBlocks with
  | .error e => .error e { other with mSize := 0 }
  | .ok taken =>
      .ok (storeCount { mSize := other.mSize, mCount := 0, mBlocks := taken } other.storedCount)
        other.movedFrom

/-- `copy_blocks`: a propagating allocator that differs comes over with a copy built under it, else
    the one held stays. -/
def copyBlocks (mem : Memory) (source : Blocks w) : Action V Unit := fun c =>
  if V.traits.propagateOnCopy ∧ c.mBlocks.alloc ≠ source.alloc then
    if V.traits.propagateOnMove ∨ V.traits.propagateOnSwap then
      match Blocks.copyOf V mem source source.alloc with
      | .error e => .error e c
      | .ok blocks => .ok () { c with mBlocks := blocks }
    else
      match Blocks.copyOf V mem source source.alloc with
      -- nothing installs this allocator without a step that throws: the basic guarantee only
      | .error e => .error e (storeCount { c with mSize := 0, mBlocks := c.mBlocks.clear } 0)
      | .ok blocks => .ok () { c with mBlocks := blocks }
  else
    match c.mBlocks.assignBlocks V mem source with
    | .error e => .error e c
    | .ok blocks => .ok () { c with mBlocks := blocks }

/-- `operator=(const&)`: blocks that can allocate are copied before the width is assigned. -/
def copyAssign (mem : Memory) (other : Operand V) : Action V Unit := fun c =>
  if V.hasStoredSize ∧ ¬ V.hasStaticCapacity then
    match other with
    | .self => .ok () c
    | .of other =>
        match copyBlocks mem other.mBlocks c with
        | .error e d => .error e d
        | .ok _ d => .ok () (storeCount { d with mSize := other.mSize } other.storedCount)
  else .ok () (other.get c)

/-- `operator=(&&)` from another object, and what it leaves of it. -/
def moveAssign (mem : Memory) (other : BitBlockContainer V) :
    Action V (BitBlockContainer V) := fun c =>
  if V.hasStoredSize ∧ ¬ V.hasZeroCapacity then
    match c.mBlocks.moveBlocks V mem other.mBlocks with
    | .error e => .error e c
    | .ok blocks =>
        .ok other.movedFrom
          (storeCount { c with mSize := other.mSize, mBlocks := blocks } other.storedCount)
  else .ok other other

/-- `replace(blocks)`: the blocks come in whole, so there is no tail to clear. -/
def replace (mem : Memory) (blocks : Blocks w) : Action V Unit := fun c =>
  match c.mBlocks.moveAssign V mem blocks with
  | .error e => .error e c
  | .ok moved =>
      let d : BitBlockContainer V := { c with mBlocks := moved }
      .ok () (recount (d.storeSize (d.numBlocks * w)))

/-- `extract()`: the blocks go out whole, and the source is left at width zero. -/
def extract : Blocks w × BitBlockContainer V :=
  (c.mBlocks, storeCount (storeSize { c with mBlocks := c.mBlocks.clear } 0) 0)

/-- `swap(other)`: the width, the blocks and the count. -/
def swap (other : BitBlockContainer V) : BitBlockContainer V × BitBlockContainer V :=
  let blocks := Blocks.swapped V c.mBlocks other.mBlocks
  ({ mSize := other.mSize, mCount := other.mCount, mBlocks := blocks.1 },
    { mSize := c.mSize, mCount := c.mCount, mBlocks := blocks.2 })

/-! ## 4. What they leave -/

section Transfer
variable {c} {d other : BitBlockContainer V} {mem : Memory}

/-- **The same width, count and elements**: what a transfer leaves of its source. -/
structure SameValue (c d : BitBlockContainer V) : Prop where
  mSize : V.hasStoredSize = true → d.mSize = c.mSize
  mCount : V.hasStoredCount = true → d.mCount = c.mCount
  elems : d.mBlocks.elems = c.mBlocks.elems

theorem SameValue.refl : SameValue c c := ⟨fun _ => rfl, fun _ => rfl, rfl⟩

theorem SameValue.numBlocks (h : SameValue c d) : d.numBlocks = c.numBlocks := by
  unfold BitBlockContainer.numBlocks
  rw [h.elems]

theorem SameValue.size (h : SameValue c d) : d.size = c.size := by
  unfold BitBlockContainer.size
  rw [h.numBlocks]
  by_cases hs : V.hasStoredSize = true
  · rw [h.mSize hs]
  · rw [if_neg hs, if_neg hs]

theorem SameValue.bit (h : SameValue c d) (p : Nat) : d.bit p = c.bit p := by
  unfold BitBlockContainer.bit
  rw [h.elems]

theorem Inv.transferred (h : c.Inv) (hv : SameValue c d) : d.Inv := by
  refine ⟨?_, fun p hp => ?_, fun hc => ?_, fun hs => ?_, fun hc => ?_⟩
  · unfold Shape
    rw [hv.elems, hv.size]
    exact h.shape
  · rw [hv.bit]
    exact h.clear p (by rwa [hv.size] at hp)
  · rw [hv.size]
    exact h.capacity hc
  · rw [hv.numBlocks]
    exact h.bound hs
  · rw [hv.mCount hc, hv.size, h.count hc]
    exact countBits_congr fun p _ => (hv.bit p).symm

/-- **A stored width of zero over no blocks.** -/
theorem Inv.emptied (hs : V.hasStoredSize = true) (hsize : d.mSize = 0)
    (hel : d.mBlocks.elems = []) (hcount : V.hasStoredCount = true → d.mCount = 0) :
    d.Inv ∧ d.size = 0 := by
  have hz : d.size = 0 := by
    rw [size_of_stored hs, hsize]
    split <;> rfl
  have hb (p : Nat) : d.bit p = false := by
    unfold bit
    rw [hel]
    exact bitAt_nil
  refine ⟨⟨?_, fun p _ => hb p, fun _ => ?_, fun _ => ?_, fun hc => ?_⟩, hz⟩
  · unfold Shape
    rw [hel, hz, blocksFor_zero]
    rfl
  · omega
  · rw [numBlocks_of_stored hs, hel]
    exact Nat.zero_le _
  · rw [hcount hc, hz, countBits_zero]

theorem sameValue_storeCount {s : Nat} {b : Blocks w}
    (hsize : V.hasStoredSize = true → s = c.mSize) (hel : b.elems = c.mBlocks.elems)
    {k : Nat} : SameValue c (storeCount { mSize := s, mCount := k, mBlocks := b } c.storedCount) := by
  refine ⟨fun hs => ?_, fun hc => ?_, ?_⟩
  · rw [sameWidth_storeCount.mSize]
    exact hsize hs
  · rw [mCount_storeCount hc, storedCount_eq hc]
  · rw [mBlocks_storeCount]
    exact hel

theorem inv_movedFrom (hs : V.hasStoredSize = true) : c.movedFrom.Inv ∧ c.movedFrom.size = 0 := by
  unfold movedFrom
  refine Inv.emptied hs ?_ ?_ fun hc => mCount_storeCount hc
  · rw [sameWidth_storeCount.mSize]
  · rw [mBlocks_storeCount]
    rfl

theorem inv_extract (hs : V.hasStoredSize = true) : c.extract.2.Inv ∧ c.extract.2.size = 0 := by
  have hsize : c.extract.2.size = 0 := by
    unfold extract
    rw [sameWidth_storeCount.size]
    exact size_storeSize hs fun _ => rfl
  have hel : c.extract.2.mBlocks.elems = [] := by
    unfold extract
    rw [mBlocks_storeCount, mBlocks_storeSize]
    rfl
  have hb (p : Nat) : c.extract.2.bit p = false := by
    unfold bit
    rw [hel]
    exact bitAt_nil
  refine ⟨⟨?_, fun p _ => hb p, fun _ => by omega, fun _ => ?_, fun hc => ?_⟩, hsize⟩
  · unfold Shape
    rw [hel, hsize, blocksFor_zero]
    rfl
  · rw [numBlocks_of_stored hs, hel]
    exact Nat.zero_le _
  · rw [hsize, countBits_zero]
    unfold extract
    exact mCount_storeCount hc

theorem copyOf_sameValue {alloc : Nat} (h : copyOf mem other alloc = .ok d) :
    SameValue other d := by
  unfold copyOf at h
  split at h
  · rename_i hs
    split at h
    · cases h
    · rename_i blocks hb
      cases h
      exact sameValue_storeCount (fun _ => rfl) (Blocks.copyOf_ok hs hb).1
  · cases h
    exact SameValue.refl

theorem moveOf_spec (h : other.Inv) :
    SameValue other (moveOf other).1 ∧ (moveOf other).2.Inv := by
  unfold moveOf
  split
  · rename_i hs
    exact ⟨sameValue_storeCount (fun _ => rfl) rfl, (inv_movedFrom hs.1).1⟩
  · exact ⟨SameValue.refl, h⟩

theorem moveUnder_spec {alloc : Nat} {e : BitBlockContainer V} (hs : V.hasStoredSize = true)
    (h : moveUnder mem alloc other = .ok d e) : SameValue other d ∧ e.Inv ∧ e.size = 0 := by
  unfold moveUnder at h
  split at h
  · cases h
  · rename_i taken ht
    cases h
    exact ⟨sameValue_storeCount (fun _ => rfl) (Blocks.takeBlocks_ok ht), inv_movedFrom hs⟩

/-- The blocks are not taken under an unequal allocator that the memory refuses them under. -/
theorem takeBlocks_error_iff {alloc : Nat} {source : Blocks w} :
    (∃ e, (Blocks.empty alloc).takeBlocks V mem source = .error e) ↔
      V.traits.isAlwaysEqual = false ∧ alloc ≠ source.alloc ∧
        ∃ e, (Blocks.empty alloc : Blocks w).makeRoom V mem source.elems.length = .error e := by
  unfold Blocks.takeBlocks
  by_cases hc : (!V.traits.isAlwaysEqual) = true ∧ (Blocks.empty alloc : Blocks w).alloc ≠ source.alloc
  · rw [if_pos hc]
    unfold Blocks.resize
    cases hm : (Blocks.empty alloc : Blocks w).makeRoom V mem source.elems.length with
    | error e => exact iff_of_true ⟨e, rfl⟩ ⟨by simpa using hc.1, hc.2, e, rfl⟩
    | ok b =>
        refine iff_of_false ?_ ?_
        · intro ⟨_, he⟩
          cases he
        · intro ⟨_, _, _, he⟩
          cases he
  · rw [if_neg hc]
    refine iff_of_false ?_ fun ⟨h1, h2, _⟩ => hc ⟨by simpa using h1, h2⟩
    unfold Blocks.moveAssign
    rw [if_pos]
    · intro ⟨_, he⟩
      cases he
    · rw [Bool.not_eq_true', not_and_or, not_not, Bool.not_eq_false] at hc
      rcases hc with h | h
      · exact Or.inl h
      · exact Or.inr (Or.inr h)

theorem copyBlocks_ok {source : Blocks w} (hs : V.hasStoredSize = true)
    (h : copyBlocks mem source c = .ok () d) : d.mBlocks.elems = source.elems := by
  unfold copyBlocks at h
  split at h
  · split at h
    all_goals
      split at h
      · cases h
      · rename_i blocks hb
        cases h
        exact (Blocks.copyOf_ok hs hb).1
  · split at h
    · cases h
    · rename_i blocks hb
      cases h
      exact Blocks.assignBlocks_ok hs hb

/-- **A completed copy assignment leaves the source's value.** -/
theorem copyAssign_ok {o : Operand V} (h : copyAssign mem o c = .ok () d) :
    SameValue (o.get c) d := by
  unfold copyAssign at h
  split at h
  · rename_i hs
    split at h
    · cases h
      exact SameValue.refl
    · rename_i other
      split at h
      · cases h
      · rename_i g hg
        cases h
        exact sameValue_storeCount (fun _ => rfl) (copyBlocks_ok hs.1 hg)
  · cases h
    exact SameValue.refl

/-- **A completed move assignment leaves the source's value, and an empty source.** -/
theorem moveAssign_ok {e : BitBlockContainer V} (ho : other.Inv)
    (h : moveAssign mem other c = .ok e d) : SameValue other d ∧ e.Inv := by
  unfold moveAssign at h
  split at h
  · rename_i hs
    split at h
    · cases h
    · rename_i blocks hb
      cases h
      exact ⟨sameValue_storeCount (fun _ => rfl) (Blocks.moveBlocks_ok hs.1 hb),
        (inv_movedFrom hs.1).1⟩
  · cases h
    exact ⟨SameValue.refl, ho⟩

/-- A propagating allocator that differs is installed by a move or by a swap, neither of which
    throws. -/
def InstallsWithoutThrowing (V : Vehicle w) : Prop :=
  V.traits.propagateOnCopy = true →
    V.traits.propagateOnMove = true ∨ V.traits.propagateOnSwap = true

/-- **A refused copy assignment leaves everything as it was.** -/
theorem copyAssign_strong (hi : InstallsWithoutThrowing V) {o : Operand V} :
    Strong (copyAssign mem o) c := by
  intro e t he
  have hblocks {source : Blocks w} {g : BitBlockContainer V}
      (hg : copyBlocks mem source c = .error e g) : g = c := by
    unfold copyBlocks at hg
    split at hg
    · rename_i hp
      rw [if_pos (hi hp.1)] at hg
      split at hg
      · cases hg
        rfl
      · cases hg
    · split at hg
      · cases hg
        rfl
      · cases hg
  unfold copyAssign at he
  split at he
  · split at he
    · cases he
    · split at he
      · rename_i hg
        cases he
        exact hblocks hg
      · cases he
  · cases he

/-- **A refused move assignment leaves everything as it was.** -/
theorem moveAssign_strong : Strong (moveAssign mem other) c := by
  intro e t he
  unfold moveAssign at he
  split at he
  · split at he
    · cases he
      rfl
    · cases he
  · cases he

theorem moveAssign_roomy {e : BitBlockContainer V} (ho : other.mBlocks.Roomy V)
    (h : moveAssign mem other c = .ok e d) : d.mBlocks.Roomy V := by
  unfold moveAssign at h
  split at h
  · split at h
    · cases h
    · rename_i blocks hb
      have hr := Blocks.moveBlocks_roomy ho hb
      cases h
      rw [mBlocks_storeCount]
      exact hr
  · cases h
    exact ho

/-- **A move assignment completes where the width of its source fits.** -/
theorem HasRoom.moveAssign (h : HasRoom V mem other.size) (ho : other.Shape) :
    Completes (moveAssign mem other) c := by
  unfold Completes BitBlockContainer.moveAssign
  split
  · have hroom (b : Blocks w) : ∃ b', b.makeRoom V mem other.mBlocks.elems.length = .ok b' := by
      rw [ho]
      exact h.makeRoom b
    obtain ⟨b, hb⟩ := Blocks.moveBlocks_of_room (b := c.mBlocks) hroom
    rw [hb]
    exact ⟨_, _, rfl⟩
  · exact ⟨_, _, rfl⟩

/-- **A copy assignment completes where the width of its source fits.** -/
theorem HasRoom.copyAssign {o : Operand V} (h : HasRoom V mem (o.get c).size)
    (ho : (o.get c).Shape) : Completes (copyAssign mem o) c := by
  unfold Completes BitBlockContainer.copyAssign
  split
  · cases o with
    | self => exact ⟨_, _, rfl⟩
    | of other =>
        have hroom (b : Blocks w) :
            ∃ b', b.makeRoom V mem other.mBlocks.elems.length = .ok b' := by
          have ho : other.mBlocks.elems.length = blocksFor w other.size := ho
          rw [ho]
          exact h.makeRoom b
        have hcopy (alloc : Nat) : ∃ b, Blocks.copyOf V mem other.mBlocks alloc = .ok b := by
          obtain ⟨b1, h1⟩ := hroom (Blocks.empty alloc)
          unfold Blocks.copyOf
          rw [h1]
          exact ⟨_, rfl⟩
        obtain ⟨d, hd⟩ : ∃ d, copyBlocks mem other.mBlocks c = .ok () d := by
          obtain ⟨b1, h1⟩ := hcopy other.mBlocks.alloc
          obtain ⟨b2, h2⟩ := Blocks.assignBlocks_of_room (b := c.mBlocks) hroom
          unfold copyBlocks
          rw [h1, h2]
          split
          · split <;> exact ⟨_, rfl⟩
          · exact ⟨_, rfl⟩
        dsimp only
        rw [hd]
        exact ⟨_, _, rfl⟩
  · exact ⟨_, _, rfl⟩

theorem elems_swapped {x y : Blocks w} : (Blocks.swapped V x y).1.elems = y.elems ∧
    (Blocks.swapped V x y).2.elems = x.elems := by
  unfold Blocks.swapped
  split <;> exact ⟨rfl, rfl⟩

theorem swap_spec (c other : BitBlockContainer V) :
    SameValue other (c.swap other).1 ∧ SameValue c (c.swap other).2 := by
  obtain ⟨h1, h2⟩ := elems_swapped (V := V) (x := c.mBlocks) (y := other.mBlocks)
  exact ⟨⟨fun _ => rfl, fun _ => rfl, h1⟩, ⟨fun _ => rfl, fun _ => rfl, h2⟩⟩

theorem swap_roomy (hc : c.mBlocks.Roomy V) (ho : other.mBlocks.Roomy V) :
    (c.swap other).1.mBlocks.Roomy V ∧ (c.swap other).2.mBlocks.Roomy V := by
  unfold swap Blocks.swapped
  split <;> exact ⟨ho, hc⟩

theorem default_roomy (alloc : Nat) : (default V alloc).mBlocks.Roomy V :=
  fun _ => Nat.le_of_eq List.length_replicate

/-! ## 5. Blocks taken over -/

/-- What the adopting operations ask of the blocks: as many as the type can hold. -/
def Adoptable (V : Vehicle w) (blocks : List (BitVec w)) : Prop :=
  (V.hasStoredSize = true → blocks.length ≤ V.maxNumBlocks) ∧
  (V.hasStaticCapacity = true → blocks.length * w ≤ V.extent) ∧
  (V.hasStoredSize = false → V.hasStaticSize = true ∧ V.extent = blocks.length * w)

theorem capacity_of_zero (hz : V.hasZeroCapacity = true) :
    V.hasStaticCapacity = true ∧ V.extent = 0 := by
  unfold Vehicle.hasZeroCapacity at hz
  unfold Vehicle.hasStaticCapacity Vehicle.extent
  split at hz
  · rename_i heq
    simp only [heq]
    exact ⟨trivial, by simpa using hz⟩
  · cases hz

/-- Blocks in whole, every bit a position, recounted. -/
theorem adopted_spec (ha : Adoptable V c.mBlocks.elems)
    (hsize : V.hasStoredSize = true → c.size = c.mBlocks.elems.length * w) :
    c.recount.Inv ∧ c.recount.size = c.mBlocks.elems.length * w ∧
      ∀ p, c.recount.bit p = bitAt c.mBlocks.elems p := by
  have hw := V.bits_pos
  have hsz : c.size = c.mBlocks.elems.length * w := by
    by_cases hs : V.hasStoredSize = true
    · exact hsize hs
    · obtain ⟨h1, h2⟩ := ha.2.2 (by simpa using hs)
      unfold size
      rw [if_pos h1, h2]
  have hsw : SameWidth c c.recount := sameWidth_recount
  have hshape : c.Shape := by
    unfold Shape
    rw [hsz, blocksFor_mul_self hw]
  have hbit (p : Nat) : c.recount.bit p = c.bit p := bit_congr mBlocks_recount
  have hclear (p : Nat) (hp : c.size ≤ p) : c.bit p = false := bit_of_le (by omega)
  refine ⟨⟨hsw.shape hshape, fun p hp => ?_, fun hc => ?_, fun hs => ?_, fun hc => ?_⟩,
    by rw [hsw.size, hsz], hbit⟩
  · rw [hbit]
    exact hclear p (by rwa [hsw.size] at hp)
  · rw [hsw.size, hsz]
    exact ha.2.1 hc
  · rw [hsw.numBlocks, numBlocks_of_stored hs]
    exact ha.1 hs
  · rw [hsw.size, mCount_recount hshape hclear hc]
    exact countBits_congr fun p _ => (hbit p).symm

theorem size_adopted {s k : Nat} {b : Blocks w} (ha : Adoptable V b.elems)
    (hs : V.hasStoredSize = true) (he : s = b.elems.length * w) :
    size (V := V) { mSize := s, mCount := k, mBlocks := b } = b.elems.length * w := by
  rw [size_of_stored hs]
  split
  · rename_i hz
    obtain ⟨h1, h2⟩ := capacity_of_zero hz
    have := ha.2.1 h1
    omega
  · exact he

/-- **`from_blocks` holds exactly the blocks' positions.** -/
theorem adopt_spec {blocks : Blocks w} (ha : Adoptable V blocks.elems) :
    (adopt V blocks).Inv ∧ (adopt V blocks).size = blocks.elems.length * w ∧
      ∀ p, (adopt V blocks).bit p = bitAt blocks.elems p := by
  unfold adopt
  refine adopted_spec ha fun hs => ?_
  rw [if_pos hs]
  exact size_adopted ha hs rfl

theorem adoptUnder_ok {blocks : Blocks w} {alloc : Nat} (hs : V.hasStoredSize = true)
    (ha : Adoptable V blocks.elems) (h : adoptUnder V mem blocks alloc = .ok d) :
    d.Inv ∧ d.size = blocks.elems.length * w ∧ ∀ p, d.bit p = bitAt blocks.elems p := by
  unfold adoptUnder at h
  split at h
  · cases h
  · rename_i taken ht
    have he := Blocks.takeBlocks_ok ht
    cases h
    have := adopted_spec (c := { mSize := blocks.elems.length * w, mCount := 0, mBlocks := taken })
      (by rw [he]; exact ha) fun _ => by
        have ha' : Adoptable V taken.elems := by rwa [he]
        exact size_adopted ha' hs (by rw [he])
    simpa only [he] using this

/-- **A completed `replace` leaves exactly the blocks' positions.** -/
theorem replace_ok {blocks : Blocks w} (hs : V.hasStoredSize = true)
    (ha : Adoptable V blocks.elems) (h : replace mem blocks c = .ok () d) :
    d.Inv ∧ d.size = blocks.elems.length * w ∧ ∀ p, d.bit p = bitAt blocks.elems p := by
  unfold replace at h
  split at h
  · cases h
  · rename_i moved hm
    have he := Blocks.moveAssign_ok hm
    simp only [EStateM.Result.ok.injEq, true_and] at h
    rw [numBlocks_of_stored hs] at h
    simp only [he] at h
    have hel : (storeSize (V := V) { c with mBlocks := moved }
        (blocks.elems.length * w)).mBlocks.elems = blocks.elems := by
      rw [mBlocks_storeSize, he]
    have := adopted_spec
      (c := storeSize (V := V) { c with mBlocks := moved } (blocks.elems.length * w))
      (by rw [hel]; exact ha) fun _ => by
        rw [hel]
        refine size_storeSize hs fun hz => ?_
        obtain ⟨h1, h2⟩ := capacity_of_zero hz
        have := ha.2.1 h1
        omega
    rw [hel, h] at this
    exact this

/-! ## 6. New containers -/

theorem getD_zeros {n i : Nat} : (List.replicate n (zero : BitVec w)).getD i zero = zero := by
  rw [getD_replicate]
  split <;> rfl

theorem bitAt_zeros {n p : Nat} : bitAt (List.replicate n (zero : BitVec w)) p = false := by
  unfold bitAt
  rw [getD_zeros, BitVec.getLsbD_zero]

/-- **A default-constructed container**: nothing set, at width zero where the width is stored. -/
theorem default_spec (hv : V.hasStoredSize = true ∨ V.hasStaticSize = true) (alloc : Nat) :
    (default V alloc).Inv ∧ ∀ p, (default V alloc).bit p = false := by
  have hb (p : Nat) : (default V alloc).bit p = false := bitAt_zeros
  refine ⟨?_, hb⟩
  rcases hv with hs | hs
  · have hn : V.staticNumBlocks = 0 := by
      unfold Vehicle.staticNumBlocks
      rw [stored_not_static hs]
      rfl
    refine (Inv.emptied hs rfl ?_ fun _ => rfl).1
    unfold default
    rw [hn]
    rfl
  · have hsz : (default V alloc).size = V.extent := by
      unfold size
      rw [if_pos hs]
    have hns : V.hasStoredSize = false := by
      by_contra h
      rw [stored_not_static (by simpa using h)] at hs
      cases hs
    refine ⟨?_, fun p _ => hb p, fun hc => ?_, fun h => ?_, fun hc => ?_⟩
    · unfold Shape
      rw [hsz]
      unfold default Vehicle.staticNumBlocks
      rw [if_pos hs, List.length_replicate]
    · unfold Vehicle.hasStaticCapacity at hc
      unfold Vehicle.hasStaticSize at hs
      split at hc <;> simp_all
    · rw [hns] at h
      cases h
    · rw [not_counted_of_static hs] at hc
      cases hc

/-- **A completed `bit_block_container(n)`**: `n` clear positions. -/
theorem construct_ok {n alloc : Nat} (hs : V.hasStoredSize = true)
    (h : construct V mem n alloc = .ok d) :
    d.Inv ∧ d.size = n ∧ ∀ p, d.bit p = false := by
  unfold construct at h
  split at h
  · cases h
  · rename_i hover
    rw [Bool.not_eq_true] at hover
    split at h
    · cases h
    · rename_i blocks hb
      obtain ⟨he, -, hmax⟩ := Blocks.resize_ok hs hb
      cases h
      have hel : blocks.elems = List.replicate (blocksFor w n) zero := by
        rw [he]
        simp [Blocks.empty]
      have hz := zeroCapacity_of_fits hover
      have hsize : size (V := V) { mSize := n, mCount := 0, mBlocks := blocks } = n := by
        rw [size_of_stored hs]
        split
        · rename_i hc
          exact (hz hc).symm
        · rfl
      have hbit (p : Nat) : bit (V := V) { mSize := n, mCount := 0, mBlocks := blocks } p = false := by
        unfold bit
        rw [hel]
        exact bitAt_zeros
      refine ⟨⟨?_, fun p _ => hbit p, fun hc => ?_, fun _ => ?_, fun _ => ?_⟩, hsize, hbit⟩
      · unfold Shape
        rw [hsize, hel, List.length_replicate]
      · rw [hsize]
        exact fits_capacity hover hc
      · rw [numBlocks_of_stored hs, hel, List.length_replicate]
        exact hmax
      · exact (countBits_eq_zero fun p _ => hbit p).symm

/-- A granted construction within the capacity completes. -/
theorem construct_of_grants {n alloc : Nat} (hover : overCapacity V n = false)
    (hg : Grants V mem (blocksFor w n)) : ∃ d, construct V mem n alloc = .ok d := by
  obtain ⟨b, hb⟩ := makeRoom_of_grants (b := Blocks.empty alloc) (blocks_fit hover) hg
  unfold construct Blocks.resize
  rw [if_neg (by rw [hover]; decide), hb]
  exact ⟨_, rfl⟩

/-- A granted copy completes. -/
theorem copyOf_of_grants {alloc : Nat} (h : c.Inv)
    (hg : Grants V mem c.mBlocks.elems.length) : ∃ d, copyOf mem c alloc = .ok d := by
  unfold copyOf Blocks.copyOf
  split
  · obtain ⟨b, hb⟩ := makeRoom_of_grants (b := Blocks.empty alloc) (fun hc => by
      rw [h.shape]
      exact blocks_fit h.overCapacity_eq hc) hg
    rw [hb]
    exact ⟨_, rfl⟩
  · exact ⟨_, rfl⟩

end Transfer

/-! ## 7. A field of bits, at a static width -/

/-- Blocks that tile, or one block alone. -/
theorem Inv.tiles (h : c.Inv) : tilingBlock w = true ∨ c.mBlocks.elems.length ≤ 1 := by
  by_cases ht : tilingBlock w = true
  · exact Or.inl ht
  · -- a block that does not tile covers its width alone
    right
    have hh := V.holds_width
    have hle : c.size ≤ 1 * w := by
      rw [Nat.one_mul]
      unfold Storage.holdsWidth at hh
      split at hh
      · rename_i n heq
        have hn : n ≤ w := by simpa [ht] using hh
        unfold size Vehicle.hasStaticSize Vehicle.extent
        simp only [heq, if_true]
        exact hn
      · rename_i n heq
        have hn : n ≤ w := by simpa [ht] using hh
        have hc := h.capacity (by unfold Vehicle.hasStaticCapacity; rw [heq])
        unfold Vehicle.extent at hc
        rw [heq] at hc
        exact Nat.le_trans hc hn
      · exact absurd hh ht
      · exact absurd hh ht
    rw [h.shape]
    exact (blocksFor_le_iff V.bits_pos).mpr hle

/-- The containers hold whole bytes in every block, or one block alone. -/
theorem Inv.byteLayout (h : c.Inv) : ByteLayout c.mBlocks.elems :=
  h.tiles.imp_left dvd_of_tilingBlock

/-- `assign_bits` from blocks of the same type, of which there may be more. -/
def assignSameBlocks (source : List (BitVec w)) : BitBlockContainer V :=
  (c.withElems (mapUp V.staticNumBlocks zero fun i _ => source.getD i zero)).eraseUnused

/-- `assign_bytes`: zeroed, the bytes copied in, and the tail cleared. -/
def assignBytes (asObjects : Bool) (bytes : List Byte) : BitBlockContainer V :=
  (c.withElems fun elems =>
    copyBits asObjects bytes (fillRange 0 elems.length zero elems)).eraseUnused

/-- `to_bytes`: the first `e` bytes of the blocks. -/
def toBytes (asObjects : Bool) (e : Nat) : List Byte :=
  copyBits asObjects c.mBlocks.elems (List.replicate e 0)

section Field
variable {c}

/-- **`assign_bits` keeps the invariant and reads the source up to the width.** -/
theorem assignSameBlocks_spec (h : c.Inv) (hs : V.hasStaticSize = true)
    (source : List (BitVec w)) :
    (c.assignSameBlocks source).Inv ∧ ∀ p, (c.assignSameBlocks source).bit p =
      (decide (p < c.size) && bitAt source p) := by
  have hn : V.staticNumBlocks = c.mBlocks.elems.length := by
    rw [← h.shape.numBlocks, numBlocks_of_static hs]
  have hm : MapsBlocks (fun i _ => source.getD i zero) c
      (c.withElems (mapUp V.staticNumBlocks zero fun i _ => source.getD i zero)) := by
    rw [hn]
    exact mapsBlocks_all
  have hsz := h.shape.size_le
  refine ⟨h.erased hm.width (not_counted_of_static hs), fun p => ?_⟩
  unfold assignSameBlocks
  rw [bit_eraseUnused (hm.width.shape h.shape), hm.width.size, Bool.and_comm]
  by_cases hp : p < c.size
  · rw [hm.bit (g := fun p _ => bitAt source p) (fun i b j hj => (bitAt_pos hj).symm) (by omega)]
  · simp [hp]

/-- **`assign_bytes` keeps the invariant and reads the bytes up to the width.** -/
theorem assignBytes_spec (asObjects : Bool) (h : c.Inv) (hs : V.hasStaticSize = true)
    (bytes : List Byte) :
    (c.assignBytes asObjects bytes).Inv ∧ ∀ p, (c.assignBytes asObjects bytes).bit p =
      (decide (p < c.size) && bitAt bytes p) := by
  have hw := V.bits_pos
  have hsz := h.shape.size_le
  have hz (i : Nat) : (fillRange 0 c.mBlocks.elems.length zero c.mBlocks.elems).getD i zero =
      (zero : BitVec w) := by
    rw [getD_fillRange (Nat.le_refl _)]
    split
    · rfl
    · exact List.getD_eq_default _ _ (by omega)
  have hlen : (fillRange 0 c.mBlocks.elems.length zero c.mBlocks.elems).length =
      c.mBlocks.elems.length := length_fillRange (Nat.le_refl _)
  have hcopy := copyBits_spec asObjects (by decide) hw (byteLayout_bytes bytes)
    (byteLayout_congr h.byteLayout hlen) fun p _ => by
      unfold bitAt
      rw [hz, BitVec.getLsbD_zero]
  rw [hlen] at hcopy
  have hsw : SameWidth c (c.withElems fun elems =>
      copyBits asObjects bytes (fillRange 0 elems.length zero elems)) :=
    sameWidth_withElems hcopy.1
  refine ⟨h.erased hsw (not_counted_of_static hs), fun p => ?_⟩
  unfold assignBytes
  rw [bit_eraseUnused (hsw.shape h.shape), hsw.size, Bool.and_comm]
  by_cases hp : p < c.size
  · congr 1
    exact hcopy.2 p (by omega)
  · simp [hp]

/-- **`to_bytes` holds the first positions**, as many as its bytes have. -/
theorem toBytes_spec (asObjects : Bool) (h : c.Inv) (e : Nat) : (c.toBytes asObjects e).length = e ∧
    ∀ p, bitAt (c.toBytes asObjects e) p = (decide (p < e * 8) && c.bit p) := by
  have hd : ByteLayout (List.replicate e (0 : Byte)) := byteLayout_bytes _
  have hcopy := copyBits_spec asObjects V.bits_pos (by decide) h.byteLayout hd
    fun p _ => bitAt_zeros
  rw [List.length_replicate] at hcopy
  refine ⟨hcopy.1, fun p => ?_⟩
  unfold toBytes
  by_cases hp : p < e * 8
  · rw [hcopy.2 p hp]
    simp only [hp, decide_true, Bool.true_and]
    rfl
  · rw [bitAt_of_le (by decide) (by rw [hcopy.1]; omega)]
    simp [hp]

end Field

end BitBlockContainer

end XstdBits
