/-
  File: XstdBits/Sequence/Append.lean
  Subject: what `sequence_adaptor` appends, and how.

  * a range is a window of a sequence over blocks of the same type, the sequence's own storage
    among them, or a range of values, which may know its size and may throw where it is read.
  * `blit` appends a window a block at a time, `pack` collects values into blocks; both make room
    first where the size is known, and both trim the last block to what it holds.
  * the noted runs keep the state each call to the storage leaves (`forgets_blit`, `forgets_pack`):
    none is wider than the whole, and none grows once room is made (`appending_exact`).
  * `appendRange_ends` is the specification: what arrived (`Extended`), or what a throw left.
-/
import XstdBits.Container.Machine

namespace XstdBits

open BitBlockContainer

/-! ## 1. Ranges -/

/-- A range of values as it is read: whether its size is known beforehand, whether it is read more
    than once, how many values it has, and those read before a read throws. -/
structure ValueRange where
  sized : Bool
  forward : Bool
  distance : Nat
  read : List Bool
  throws : Bool
  read_le : read.length ≤ distance
  complete : throws = false → read.length = distance

/-- **Values read one after another**: what one value takes from `P m` to `P (m + 1)` reaches
    `P rg.distance`, or a read throws after those before it. -/
theorem ValueRange.read_ends {σ β : Type} (rg : ValueRange) {body : β → Bool → EStateM Exn σ β}
    {P : Nat → β → σ → Prop} {E : Exn → σ → Prop} {b : β} {s : σ}
    (step : ∀ m b s, m + 1 ≤ rg.distance → P m b s →
      Ends (body b (rg.read.getD m false)) s (P (m + 1)) E)
    (start : P 0 b s) (stop : rg.throws = true → ∀ b s, P rg.read.length b s → E .reading s) :
    Ends (rg.read.foldlM body b >>= fun b => if rg.throws then throw .reading else pure b) s
      (P rg.distance) E := by
  have hread := rg.read_le
  refine ends_bind (ends_foldlM (P := fun l => P l.length) ?_ _ [] _ s
    (show rg.read = [] ++ rg.read from rfl) start) ?_
  · intro l a r b s hx hs
    have hlen : l.length + 1 ≤ rg.distance := by
      rw [hx, List.length_append, List.length_cons] at hread
      omega
    have ha : rg.read.getD l.length false = a := by
      rw [hx]
      simp
    have hstep := step l.length b s hlen hs
    rw [ha] at hstep
    rwa [List.length_append]
  · intro b s hs
    split
    · rename_i hthrows
      exact ends_throw (stop hthrows b s hs)
    · rename_i hthrows
      rw [rg.complete (by simpa using hthrows)] at hs
      exact ends_pure hs

/-- The storage a window reads: the sequence's own, or another's over blocks of the same type. -/
inductive BitSource {w : Nat} (V : Vehicle w) where
  | own
  | of (U : Vehicle w) (bits : BitBlockContainer U)

namespace BitSource
variable {w : Nat} {V : Vehicle w}

/-- `src.block_at(pos)`, on the sequence as it stands. -/
def blockAt (src : BitSource V) (c : BitBlockContainer V) (pos : Nat) : BitVec w :=
  match src with
  | .own => c.blockAt pos
  | .of _ bits => bits.blockAt pos

def bit (src : BitSource V) (c : BitBlockContainer V) (p : Nat) : Bool :=
  match src with
  | .own => c.bit p
  | .of _ bits => bits.bit p

/-- A window lies within the storage it reads. -/
def Holds (src : BitSource V) (c : BitBlockContainer V) (first count : Nat) : Prop :=
  match src with
  | .own => first + count ≤ c.size
  | .of _ bits => bits.Inv ∧ first + count ≤ bits.size

end BitSource

/-- What `append_range` and `insert_range` take. -/
inductive SourceRange {w : Nat} (V : Vehicle w) where
  | window (src : BitSource V) (first count : Nat)
  | values (rg : ValueRange)

namespace SourceRange
variable {w : Nat} {V : Vehicle w}

def count : SourceRange V → Nat
  | .window _ _ count => count
  | .values rg => rg.distance

/-- Value `i` of the range, in front of the sequence as it was. -/
def value (c : BitBlockContainer V) (i : Nat) : SourceRange V → Bool
  | .window src first _ => src.bit c (first + i)
  | .values rg => rg.read.getD i false

/-- Reading the range throws. -/
def throws : SourceRange V → Bool
  | .window .. => false
  | .values rg => rg.throws

def Readable (c : BitBlockContainer V) : SourceRange V → Prop
  | .window src first count => src.Holds c first count
  | .values _ => True

end SourceRange

namespace SequenceAdaptor
variable {w : Nat} {V : Vehicle w}

/-! ## 2. Appending -/

/-- `for (auto&& e : rg)`, a value carried along. -/
def forEach {β : Type} (rg : ValueRange) (body : β → Bool → Action V β) (b : β) : Action V β :=
  rg.read.foldlM body b >>= fun b => if rg.throws then throw .reading else pure b

def checkedWidth (V : Vehicle w) (n : Nat) : Action V Nat := fun c =>
  match checkAddressableWidth V n with
  | .error e => .error e c
  | .ok n => .ok n c

/-- `refuse_any`: a capacity of nought takes no element. -/
def refuseAny (some : Bool) : Action V Unit := fun c =>
  if some then .error .badAlloc c else .ok () c

/-- `make_room`: the storage's own resize, and back. -/
def makeRoom (mem : Memory) (total : Nat) : Action V Unit := do
  let c ← get
  resize mem total false
  resize mem c.size false

/-- Room for `count` more, through the saturating sum. -/
def makeRoomFor (mem : Memory) (count : Nat) : Action V Unit := do
  let c ← get
  let total ← checkedWidth V (widthSum c.size count)
  makeRoom mem total

/-- The last block, grown by the `n` positions left and no further. -/
def appendPartial (mem : Memory) (block : BitVec w) (n : Nat) : Action V Unit :=
  if n = 0 then pure ()
  else do
    let c ← get
    resize mem (c.size + n) false
    modify fun d => d.writeBlockAt c.size block (partialBlockMask n)

/-- `blit`: the source's bits as blocks at its own alignment. -/
def blit (mem : Memory) (src : BitSource V) (first count : Nat) : Action V Unit :=
  if V.hasZeroCapacity then refuseAny (count != 0)
  else do
    makeRoomFor mem count
    let pos ← wholeSteps w first (first + count) fun pos => do
      let c ← get
      append mem (src.blockAt c pos)
    let c ← get
    appendPartial mem (src.blockAt c pos) (first + count - pos)

/-- What `blit` does once there is room. -/
def blitBlocks (mem : Memory) (src : BitSource V) (first count : Nat) : Action V Unit := do
  let pos ← wholeSteps w first (first + count) fun pos => do
    let c ← get
    append mem (src.blockAt c pos)
  let c ← get
  appendPartial mem (src.blockAt c pos) (first + count - pos)

/-- One bool into the block under way, which is appended once it is full. -/
def packBit (mem : Memory) (under : BitVec w × Nat) (e : Bool) : Action V (BitVec w × Nat) :=
  let block := if e then under.1 ||| shl unit under.2 else under.1
  if under.2 + 1 = w then append mem block >>= fun _ => pure (zero, 0)
  else pure (block, under.2 + 1)

/-- `pack`: the bools packed into blocks. -/
def pack (mem : Memory) (rg : ValueRange) : Action V Unit :=
  if V.hasZeroCapacity then refuseAny (rg.distance != 0)
  else
    (if rg.sized then makeRoomFor mem rg.distance else pure ()) >>= fun _ =>
      forEach rg (packBit mem) (zero, 0) >>= fun under => appendPartial mem under.1 under.2

/-- What `pack` does once there is room, or without it. -/
def packBlocks (mem : Memory) (rg : ValueRange) : Action V Unit :=
  forEach rg (packBit mem) (zero, 0) >>= fun under => appendPartial mem under.1 under.2

/-- With no size to check first, a failure part way is undone. -/
def appendValues (mem : Memory) (rg : ValueRange) : Action V Unit :=
  if rg.sized then pack mem rg
  else do
    let c ← get
    onThrow (pack mem rg) (resize mem c.size false)

/-- `append_range`. -/
def appendRange (mem : Memory) : SourceRange V → Action V Unit
  | .window src first count => blit mem src first count
  | .values rg => appendValues mem rg

/-! ## 3. The states passed -/

/-- An action that notes the state each call to the storage leaves. -/
abbrev Noted {w : Nat} (V : Vehicle w) (α : Type) : Type :=
  EStateM Exn (BitBlockContainer V × List (BitBlockContainer V)) α

def makeRoomNoted (mem : Memory) (total : Nat) : Noted V Unit := do
  let c ← seen
  noted (resize mem total false)
  noted (resize mem c.size false)

def makeRoomForNoted (mem : Memory) (count : Nat) : Noted V Unit := do
  let c ← seen
  let total ← noted (checkedWidth V (widthSum c.size count))
  makeRoomNoted mem total

def appendPartialNoted (mem : Memory) (block : BitVec w) (n : Nat) : Noted V Unit :=
  if n = 0 then pure ()
  else do
    let c ← seen
    noted (resize mem (c.size + n) false)
    noted (modify fun d => d.writeBlockAt c.size block (partialBlockMask n))

def blitBlocksNoted (mem : Memory) (src : BitSource V) (first count : Nat) : Noted V Unit := do
  let pos ← wholeSteps w first (first + count) fun pos => do
    let c ← seen
    noted (append mem (src.blockAt c pos))
  let c ← seen
  appendPartialNoted mem (src.blockAt c pos) (first + count - pos)

def blitNoted (mem : Memory) (src : BitSource V) (first count : Nat) : Noted V Unit :=
  if V.hasZeroCapacity then noted (refuseAny (count != 0))
  else makeRoomForNoted mem count >>= fun _ => blitBlocksNoted mem src first count

def forEachNoted {β : Type} (rg : ValueRange) (body : β → Bool → Action V β) (b : β) : Noted V β :=
  rg.read.foldlM (fun b x => noted (body b x)) b >>= fun b =>
    if rg.throws then throw .reading else pure b

def packBlocksNoted (mem : Memory) (rg : ValueRange) : Noted V Unit :=
  forEachNoted rg (packBit mem) (zero, 0) >>= fun under => appendPartialNoted mem under.1 under.2

def packNoted (mem : Memory) (rg : ValueRange) : Noted V Unit :=
  if V.hasZeroCapacity then noted (refuseAny (rg.distance != 0))
  else
    (if rg.sized then makeRoomForNoted mem rg.distance else pure ()) >>= fun _ =>
      packBlocksNoted mem rg

section Forgets
variable {mem : Memory} {src : BitSource V} {first count n : Nat} {block : BitVec w}
  {rg : ValueRange}

theorem forgets_makeRoomFor : Forgets (makeRoomForNoted mem count : Noted V Unit)
    (makeRoomFor mem count) :=
  forgets_bind forgets_seen fun _ => forgets_bind (forgets_noted _) fun _ =>
    forgets_bind forgets_seen fun _ => forgets_bind (forgets_noted _) fun _ => forgets_noted _

theorem forgets_appendPartial : Forgets (appendPartialNoted mem block n : Noted V Unit)
    (appendPartial mem block n) := by
  unfold appendPartialNoted appendPartial
  split
  · exact forgets_pure _
  · exact forgets_bind forgets_seen fun _ =>
      forgets_bind (forgets_noted _) fun _ => forgets_noted _

theorem forgets_blitBlocks :
    Forgets (blitBlocksNoted mem src first count) (blitBlocks mem src first count) :=
  forgets_bind (forgets_wholeSteps fun _ => forgets_bind forgets_seen fun _ => forgets_noted _)
    fun _ => forgets_bind forgets_seen fun _ => forgets_appendPartial

theorem forgets_blit : Forgets (blitNoted mem src first count) (blit mem src first count) := by
  unfold blitNoted blit
  split
  · exact forgets_noted _
  · exact forgets_bind forgets_makeRoomFor fun _ => forgets_blitBlocks

theorem forgets_packBlocks :
    Forgets (packBlocksNoted mem rg : Noted V Unit) (packBlocks mem rg) := by
  refine forgets_bind (forgets_bind (forgets_foldlM (fun _ _ => forgets_noted _) _ _) fun _ => ?_)
    fun _ => forgets_appendPartial
  split
  · exact forgets_throw _
  · exact forgets_pure _

theorem forgets_pack : Forgets (packNoted mem rg : Noted V Unit) (pack mem rg) := by
  unfold packNoted pack
  split
  · exact forgets_noted _
  · refine forgets_bind ?_ fun _ => forgets_packBlocks
    split
    · exact forgets_makeRoomFor
    · exact forgets_pure _

end Forgets

/-! ## 4. What arrived -/

/-- **The sequence with `k` bits more**, read from `g`. -/
structure Extended (c d : BitBlockContainer V) (k : Nat) (g : Nat → Bool) : Prop where
  inv : d.Inv
  roomy : d.mBlocks.Roomy V
  size : d.size = c.size + k
  bit : ∀ p, p < c.size + k → d.bit p = if p < c.size then c.bit p else g (p - c.size)

section Extended
variable {c d : BitBlockContainer V} {mem : Memory} {k n : Nat} {g : Nat → Bool}

theorem Extended.refl (h : c.Inv) (hr : c.mBlocks.Roomy V) : Extended c c 0 g where
  inv := h
  roomy := hr
  size := rfl
  bit _ hp := (if_pos hp).symm

theorem Extended.old (h : Extended c d k g) {p : Nat} (hp : p < c.size) : d.bit p = c.bit p := by
  rw [h.bit p (by omega), if_pos hp]

/-- Nothing arrived: the sequence is as it was. -/
theorem Extended.intact (h : Extended c d 0 g) (hc : c.Inv) : Intact c d :=
  hc.intact h.inv h.size fun _ hp => h.old hp

/-- **The way back**: what arrived is resized away again. -/
theorem Extended.undo_ends (h : Extended c d k g) (hc : c.Inv) (hs : V.hasStoredSize = true) :
    Ends (resize mem c.size false) d (fun _ t => t.Inv ∧ t.mBlocks.Roomy V ∧ Intact c t)
      fun _ _ => False := by
  refine (shrink_ends h.inv h.roomy hs (by rw [h.size]; omega)).mono ?_ fun _ _ ht => ht
  intro _ t ht
  refine ⟨ht.inv, ht.roomy, hc.intact ht.inv ht.size fun p hp => ?_⟩
  rw [ht.bit, if_pos hp, h.size, if_pos (by omega), h.old hp]

/-- **One block more**, out of the reserve where it is in hand. -/
theorem Extended.append_ends (h : Extended c d k g) (hs : V.hasStoredSize = true)
    {value : BitVec w} (hv : ∀ j, j < w → value.getLsbD j = g (k + j)) :
    Ends (append mem value) d
      (fun _ e => (Extended c e (k + w) g ∧ d.mBlocks.reserved ≤ e.mBlocks.reserved) ∧
        (Reserved d (d.size + w) → e.mBlocks.reserved = d.mBlocks.reserved))
      fun _ t => t = d ∧ ¬ Reserved d (d.size + w) ∧ ¬ HasRoom V mem (d.size + w) := by
  refine Ends.and_ok ?_ fun _ e he hroom => hroom.append_kept h.inv.shape he
  refine (BitBlockContainer.append_ends h.inv hs).mono ?_ fun _ _ ht => ht
  intro _ e he
  refine ⟨⟨he.inv, he.roomy, by rw [he.size, h.size, Nat.add_assoc], fun p hp => ?_⟩, he.reserved⟩
  rw [he.bit, h.size]
  by_cases hold : p < c.size + k
  · rw [if_pos hold, h.bit p hold]
  · rw [if_neg hold, if_neg (by omega), decide_eq_true (by omega), Bool.true_and, hv _ (by omega)]
    congr 1
    omega

/-- **The last block, trimmed to what it holds.** -/
theorem Extended.partial_ends (h : Extended c d k g) (hs : V.hasStoredSize = true)
    (hu : V.hasStoredCount = false) {block : BitVec w} (hn : n ≤ w)
    (hv : ∀ j, j < n → block.getLsbD j = g (k + j)) {I : BitBlockContainer V → Prop}
    {notes : List (BitBlockContainer V)} (hnotes : ∀ e ∈ notes, I e)
    (hI : ∀ e : BitBlockContainer V, e.size ≤ d.size + n →
      (Reserved d (d.size + n) → e.mBlocks.reserved = d.mBlocks.reserved) → I e) :
    Ends (appendPartialNoted mem block n) (d, notes)
      (fun _ t => Extended c t.1 (k + n) g ∧ ∀ e ∈ t.2, I e)
      fun _ t => (t.1 = d ∧ ¬ Reserved d (d.size + n) ∧ ¬ HasRoom V mem (d.size + n)) ∧
        ∀ e ∈ t.2, I e := by
  unfold appendPartialNoted
  split
  · rename_i hn0
    subst hn0
    exact ends_pure ⟨h, hnotes⟩
  · rename_i hn0
    refine ends_bind_seen ?_
    have hresize : Ends (resize mem (d.size + n) false) d
        (fun _ e => Resized d e (d.size + n) false ∧
          (Reserved d (d.size + n) → e.mBlocks.reserved = d.mBlocks.reserved))
        fun _ t => t = d ∧ ¬ Reserved d (d.size + n) ∧ ¬ HasRoom V mem (d.size + n) :=
      (resizeTo_ends h.inv hs).and_ok fun _ e he hroom => hroom.resizeTo_kept he
    refine ends_bind (ends_noted hresize hnotes
      (fun _ e he => hI e (Nat.le_of_eq he.1.size) he.2)
      fun _ t ht => hI t (by rw [ht.1]; omega) fun _ => by rw [ht.1]) ?_
    intro _ ⟨e, notes'⟩ ⟨⟨he, hkept⟩, hnotes'⟩
    have he : Resized d e (d.size + n) false := he
    have hsz := he.inv.shape.size_le
    have hsize : e.size = d.size + n := he.size
    have hds := h.size
    have hsw : SameWidth e (e.writeBlockAt d.size block (partialBlockMask n)) :=
      sameWidth_writeBlockAt
    refine (ends_noted (I := I) (E := fun _ _ => False)
      (ends_modify (R := fun _ t => t = e.writeBlockAt d.size block (partialBlockMask n)) rfl)
      hnotes' (fun _ t ht => ?_) fun _ _ hf => hf.elim).mono (fun _ t ht => ⟨?_, ht.2⟩)
      fun _ _ hf => hf.1.elim
    · subst ht
      exact hI _ (Nat.le_of_eq (hsw.size.trans hsize)) fun hroom => by
        rw [hsw.reserved, hkept hroom]
    · rw [ht.1]
      refine ⟨he.inv.writePartial hu (by omega) hn (by omega), hsw.roomy he.roomy,
        by rw [hsw.size, hsize, hds, Nat.add_assoc], fun p hp => ?_⟩
      rw [bit_writePartial he.inv.shape (by omega) hn (by omega)]
      by_cases hnew : c.size + k ≤ p
      · rw [if_pos (by omega), hv _ (by omega), if_neg (by omega)]
        congr 1
        omega
      · rw [if_neg (by omega), he.bit, if_pos (by omega), if_pos (by omega), h.bit p (by omega)]

end Extended

/-! ## 5. A window appended -/

section Room
variable {c : BitBlockContainer V} {mem : Memory} {a n : Nat} {g : Nat → Bool}

theorem refuseAny_ends (hz : V.hasZeroCapacity = true) :
    Ends (refuseAny (n != 0)) c (fun _ d => c = d ∧ n = 0)
      fun _ t => t = c ∧ ¬ HasRoom V mem (c.size + n) := by
  obtain ⟨hcap, hext⟩ := capacity_of_zero hz
  unfold refuseAny
  by_cases hn : n = 0
  · subst hn
    exact ⟨rfl, rfl⟩
  · rw [bne_iff_ne.mpr hn]
    refine ⟨rfl, fun hroom => ?_⟩
    have := fits_capacity hroom.capacity hcap
    omega

/-- A saturated sum is past every width a `difference_type` addresses. -/
theorem checkedWidth_ends : Ends (checkedWidth V (widthSum a n)) c
    (fun total d => c = d ∧ a + n = total) fun _ t => t = c ∧ ¬ HasRoom V mem (a + n) := by
  have htop : V.maxAddressableWidth ≤ ptrdiffMax := Nat.div_mul_le_self _ _
  unfold ptrdiffMax at htop
  unfold checkedWidth checkAddressableWidth widthSum sizeMax
  by_cases hsat : 2 ^ 64 - 1 - a < n
  · rw [if_pos hsat, if_pos (by omega)]
    refine ⟨rfl, fun hroom => ?_⟩
    have := hroom.addressable
    omega
  · rw [if_neg hsat]
    by_cases hover : V.maxAddressableWidth < a + n
    · rw [if_pos hover]
      refine ⟨rfl, fun hroom => ?_⟩
      have := hroom.addressable
      omega
    · rw [if_neg hover]
      exact ⟨rfl, rfl⟩

/-- **Room made is in hand**, and the sequence as it was. -/
theorem makeRoomFor_ends (h : c.Inv) (hs : V.hasStoredSize = true) {I : BitBlockContainer V → Prop}
    (hI : ∀ e : BitBlockContainer V, e.size ≤ c.size + n → I e) :
    Ends (makeRoomForNoted mem n) (c, [])
      (fun _ t => (Extended c t.1 0 g ∧ Reserved t.1 (c.size + n)) ∧ ∀ e ∈ t.2, I e)
      fun _ t => (t.1 = c ∧ ¬ HasRoom V mem (c.size + n)) ∧ ∀ e ∈ t.2, I e := by
  have hc : I c := hI c (Nat.le_add_right _ _)
  refine ends_bind_seen (ends_bind (ends_noted checkedWidth_ends
    (fun e he => absurd he List.not_mem_nil) (fun _ t ht => ht.1 ▸ hc) fun _ t ht => ht.1 ▸ hc) ?_)
  intro total ⟨d, notes⟩ ⟨⟨hd, htotal⟩, hnotes⟩
  obtain rfl : c = d := hd
  subst htotal
  have hresize : Ends (resize mem (c.size + n) false) c
      (fun _ d => Resized c d (c.size + n) false) fun _ t => t = c ∧ ¬ HasRoom V mem (c.size + n) :=
    (resizeTo_ends h hs).mono (fun _ _ hd => hd) fun _ _ ht => ⟨ht.1, ht.2.2⟩
  refine ends_bind_seen (ends_bind (ends_noted hresize hnotes
    (fun _ t ht => hI t (Nat.le_of_eq ht.size)) fun _ t ht => ht.1 ▸ hc) ?_)
  intro _ ⟨d, notes'⟩ ⟨hd, hnotes'⟩
  have hd : Resized c d (c.size + n) false := hd
  have hsize := hd.size
  have hshrink : Ends (resize mem c.size false) d (fun _ e => Resized d e c.size false)
      fun _ _ => False := shrink_ends hd.inv hd.roomy hs (by omega)
  refine (ends_noted hshrink hnotes' (fun _ e he => hI e (by rw [he.size]; omega))
    fun _ _ hf => hf.elim).mono (fun _ e he => ⟨⟨⟨he.1.inv, he.1.roomy, he.1.size, fun p hp => ?_⟩,
      ?_⟩, he.2⟩) fun _ _ hf => hf.1.elim
  · have hp : p < c.size := hp
    rw [he.1.bit, if_pos hp, if_pos (by omega), hd.bit, if_pos (by omega), if_pos hp, if_pos hp]
  · have hroom := hd.inv.reserved hd.roomy hs
    rw [hsize] at hroom
    exact hroom.kept he.1.reserved

end Room

section Blit
variable {c d : BitBlockContainer V} {mem : Memory} {first count : Nat} {src : BitSource V}

/-- **A block read off a window** holds the source's bits as they were. -/
theorem getLsbD_blockAt_source (h : src.Holds c first count) {k : Nat} {g : Nat → Bool}
    (hd : Extended c d k g) {pos j : Nat} (hj : j < w) (hin : pos + j < first + count) :
    (src.blockAt d pos).getLsbD j = src.bit c (pos + j) := by
  cases src with
  | own =>
      have h : first + count ≤ c.size := h
      have hsz := hd.inv.shape.size_le
      have hsize := hd.size
      show (d.blockAt pos).getLsbD j = c.bit (pos + j)
      rw [getLsbD_blockAt hd.inv.shape (by omega) hj, hd.old (by omega)]
  | of U bits =>
      have h : bits.Inv ∧ first + count ≤ bits.size := h
      have hsz := h.1.shape.size_le
      exact getLsbD_blockAt h.1.shape (by omega) hj

/-- **Once there is room the window is appended** out of what is in hand: no state passed on the way
    is wider than what is left in the end, nor reserves another number of blocks. -/
theorem blitBlocks_ends (hs : V.hasStoredSize = true) (hu : V.hasStoredCount = false)
    (hsrc : src.Holds c first count) (hd : Extended c d 0 fun i => src.bit c (first + i))
    (hroom : Reserved d (c.size + count)) {I : BitBlockContainer V → Prop}
    {notes : List (BitBlockContainer V)} (hnotes : ∀ e ∈ notes, I e)
    (hI : ∀ e : BitBlockContainer V, e.size ≤ c.size + count →
      e.mBlocks.reserved = d.mBlocks.reserved → I e) :
    Ends (blitBlocksNoted mem src first count) (d, notes)
      (fun _ t => (Extended c t.1 count fun i => src.bit c (first + i)) ∧ ∀ e ∈ t.2, I e)
      fun _ _ => False := by
  refine ends_bind (ends_wholeSteps V.bits_pos (Nat.le_add_right _ _)
    (P := fun pos t => (first ≤ pos ∧ t.1.mBlocks.reserved = d.mBlocks.reserved ∧
      Extended c t.1 (pos - first) fun i => src.bit c (first + i)) ∧ ∀ e ∈ t.2, I e) ?_ ?_) ?_
  · intro pos ⟨e, notes'⟩ hpos ⟨⟨hle, hres, he⟩, hnotes'⟩
    have he : Extended c e (pos - first) fun i => src.bit c (first + i) := he
    have hsize := he.size
    have hinHand : Reserved e (e.size + w) :=
      (hroom.kept (Nat.le_of_eq hres.symm)).mono (by omega)
    have hvalue (j : Nat) (hj : j < w) :
        (src.blockAt e pos).getLsbD j = src.bit c (first + (pos - first + j)) := by
      rw [getLsbD_blockAt_source hsrc he hj (by omega)]
      congr 1
      omega
    have happend : Ends (append mem (src.blockAt e pos)) e (fun _ t => first ≤ pos + w ∧
        t.mBlocks.reserved = d.mBlocks.reserved ∧
          Extended c t (pos + w - first) fun i => src.bit c (first + i)) fun _ _ => False := by
      refine (he.append_ends hs hvalue).mono (fun _ t ht => ⟨by omega, ?_, ?_⟩) fun _ _ ht =>
        ht.2.1 hinHand
      · exact (ht.2 hinHand).trans hres
      · rw [show pos + w - first = pos - first + w by omega]
        exact ht.1.1
    exact ends_bind_seen ((ends_noted happend hnotes'
      (fun _ t ht => hI t (by rw [ht.2.2.size]; omega) ht.2.1) fun _ _ hf => hf.elim).mono
      (fun _ _ ht => ht) fun _ _ hf => hf.1)
  · refine ⟨⟨Nat.le_refl _, rfl, ?_⟩, hnotes⟩
    rw [Nat.sub_self]
    exact hd
  · intro pos ⟨e, notes'⟩ ⟨⟨⟨hle, hres, he⟩, hnotes'⟩, hend, hleft⟩
    have he : Extended c e (pos - first) fun i => src.bit c (first + i) := he
    have hsize := he.size
    have hinHand : Reserved e (e.size + (first + count - pos)) :=
      (hroom.kept (Nat.le_of_eq hres.symm)).mono (by omega)
    have hvalue (j : Nat) (hj : j < first + count - pos) :
        (src.blockAt e pos).getLsbD j = src.bit c (first + (pos - first + j)) := by
      rw [getLsbD_blockAt_source hsrc he (by omega) (by omega)]
      congr 1
      omega
    refine ends_bind_seen ((he.partial_ends hs hu (Nat.le_of_lt hleft) hvalue hnotes'
      fun t ht hkept => hI t (by omega) ((hkept hinHand).trans hres)).mono (fun _ t ht => ?_)
      fun _ _ hf => hf.1.2.1 hinHand)
    rwa [show pos - first + (first + count - pos) = count by omega] at ht

/-- **A window appended**, or nothing and a width that did not fit; no state passed on the way is
    wider than the whole. -/
theorem blitNoted_ends (h : c.Inv) (hr : c.mBlocks.Roomy V) (hs : V.hasStoredSize = true)
    (hu : V.hasStoredCount = false) (hsrc : src.Holds c first count) :
    Ends (blitNoted mem src first count) (c, [])
      (fun _ t => (Extended c t.1 count fun i => src.bit c (first + i)) ∧
        ∀ e ∈ t.2, e.size ≤ c.size + count)
      fun _ t => (t.1 = c ∧ ¬ HasRoom V mem (c.size + count)) ∧
        ∀ e ∈ t.2, e.size ≤ c.size + count := by
  have hc : c.size ≤ c.size + count := Nat.le_add_right _ _
  unfold blitNoted
  split
  · rename_i hz
    refine (ends_noted (I := fun e => e.size ≤ c.size + count) (refuseAny_ends hz)
      (fun e he => absurd he List.not_mem_nil) (fun _ t ht => ht.1 ▸ hc) fun _ t ht =>
        ht.1 ▸ hc).mono (fun _ t ht => ⟨?_, ht.2⟩) fun _ _ ht => ht
    obtain ⟨⟨heq, rfl⟩, -⟩ := ht
    exact heq ▸ .refl h hr
  · exact ends_bind (makeRoomFor_ends h hs fun _ he => he) fun _ t ht =>
      (blitBlocks_ends hs hu hsrc ht.1.1 ht.1.2 ht.2 fun _ he _ => he).mono (fun _ _ hu => hu)
        fun _ _ hf => hf.elim

theorem blit_ends (h : c.Inv) (hr : c.mBlocks.Roomy V) (hs : V.hasStoredSize = true)
    (hu : V.hasStoredCount = false) (hsrc : src.Holds c first count) :
    Ends (blit mem src first count) c
      (fun _ d => Extended c d count fun i => src.bit c (first + i))
      fun _ t => t = c ∧ ¬ HasRoom V mem (c.size + count) :=
  forgets_blit.ends ((blitNoted_ends h hr hs hu hsrc).mono (fun _ _ ht => ht.1) fun _ _ ht => ht.1)

end Blit

/-! ## 6. Values packed -/

section Pack
variable {c d : BitBlockContainer V} {mem : Memory} {rg : ValueRange}

/-- **`m` bools read**: whole blocks of them appended, the rest in the block under way. -/
structure Packed (c d : BitBlockContainer V) (under : BitVec w × Nat) (m : Nat) (g : Nat → Bool) :
    Prop where
  le : under.2 ≤ m
  short : under.2 < w
  extended : Extended c d (m - under.2) g
  bit : ∀ j, j < w → under.1.getLsbD j = (decide (j < under.2) && g (m - under.2 + j))

/-- What a packing that throws leaves: some of what it read, and none where room was made first,
    unless reading is what threw. -/
structure PackThrown (mem : Memory) (c : BitBlockContainer V) (rg : ValueRange) (e : Exn)
    (t : BitBlockContainer V) : Prop where
  extended : ∃ k g, Extended c t k g ∧ (rg.sized = true → k = 0 ∨ (rg.throws = true ∧ e = .reading))
  full : rg.throws = false → ¬ HasRoom V mem (c.size + rg.distance)

/-- One bool more in the block under way. -/
theorem getLsbD_under {block : BitVec w} {n m : Nat} {g : Nat → Bool} (hle : n ≤ m)
    (hold : ∀ j, j < w → block.getLsbD j = (decide (j < n) && g (m - n + j))) {j : Nat}
    (hj : j < w) :
    (if g m then block ||| shl unit n else block).getLsbD j =
      (decide (j < n + 1) && g (m - n + j)) := by
  have hj0 := hold j hj
  by_cases hjn : j = n
  · subst hjn
    rw [decide_eq_false (Nat.lt_irrefl _), Bool.false_and] at hj0
    rw [decide_eq_true (Nat.lt_succ_self _), Bool.true_and, show m - j + j = m by omega]
    cases g m
    · exact hj0
    · rw [if_pos rfl, BitVec.getLsbD_or, hj0, getLsbD_unit_shl hj]
      simp
  · have hsame : (if g m then block ||| shl unit n else block).getLsbD j = block.getLsbD j := by
      cases g m
      · rfl
      · rw [if_pos rfl, BitVec.getLsbD_or, getLsbD_unit_shl hj]
        simp [hjn]
    rw [hsame, hj0, show decide (j < n) = decide (j < n + 1) from decide_eq_decide.mpr (by omega)]

theorem packBit_ends (hs : V.hasStoredSize = true) {under : BitVec w × Nat} {m : Nat}
    {g : Nat → Bool} (h : Packed c d under m g) :
    Ends (packBit mem under (g m)) d
      (fun u e => (Packed c e u (m + 1) g ∧ d.mBlocks.reserved ≤ e.mBlocks.reserved) ∧
        (Reserved d (c.size + (m + 1)) → e.mBlocks.reserved = d.mBlocks.reserved))
      fun _ t => t = d ∧ ¬ Reserved d (c.size + (m + 1)) ∧ ¬ HasRoom V mem (c.size + (m + 1)) := by
  obtain ⟨block, n⟩ := under
  have hle : n ≤ m := h.le
  have hshort : n < w := h.short
  have hext : Extended c d (m - n) g := h.extended
  have hsize := hext.size
  unfold packBit
  extract_lets block'
  have hblock (j : Nat) (hj : j < w) :
      block'.getLsbD j = (decide (j < n + 1) && g (m - n + j)) := getLsbD_under hle h.bit hj
  by_cases hfull : n + 1 = w
  · rw [if_pos hfull]
    refine ends_bind ((hext.append_ends hs fun j hj => ?_).mono (fun _ _ he => he)
      fun _ _ ht => ?_) ?_
    · rw [hblock j hj, decide_eq_true (by omega), Bool.true_and]
    · rwa [show d.size + w = c.size + (m + 1) by omega] at ht
    · intro _ e ⟨⟨he, hres⟩, hkept⟩
      rw [show d.size + w = c.size + (m + 1) by omega] at hkept
      refine ends_pure ⟨⟨⟨Nat.zero_le _, V.bits_pos, ?_, fun j _ => ?_⟩, hres⟩, hkept⟩
      · show Extended c e (m + 1 - 0) g
        rwa [show m + 1 - 0 = m - n + w by omega]
      · show (zero : BitVec w).getLsbD j = _
        rw [BitVec.getLsbD_zero, decide_eq_false (Nat.not_lt_zero _), Bool.false_and]
  · rw [if_neg hfull]
    refine ends_pure ⟨⟨⟨?_, ?_, ?_, fun j hj => ?_⟩, Nat.le_refl _⟩, fun _ => rfl⟩
    · show n + 1 ≤ m + 1
      omega
    · show n + 1 < w
      omega
    · show Extended c d (m + 1 - (n + 1)) g
      rwa [Nat.add_sub_add_right]
    · rw [hblock j hj]
      show _ = (decide (j < n + 1) && g (m + 1 - (n + 1) + j))
      rw [Nat.add_sub_add_right]

/-- A refusal on the way leaves what was packed, and comes only where no room was made. -/
theorem packRefused {k m : Nat} {g : Nat → Bool} {e : Exn} {t : BitBlockContainer V}
    (hroom : rg.sized = true → Reserved d (c.size + rg.distance)) (hm : m ≤ rg.distance)
    (ht : Extended c t k g) (hkept : rg.sized = true → t.mBlocks.reserved = d.mBlocks.reserved)
    (hres : ¬ Reserved t (c.size + m)) (hfull : ¬ HasRoom V mem (c.size + m)) :
    PackThrown mem c rg e t ∧ (rg.sized = true → rg.throws = true ∧ e = .reading) := by
  have hunsized (hsized : rg.sized = true) : False :=
    hres (((hroom hsized).kept (Nat.le_of_eq (hkept hsized).symm)).mono (by omega))
  exact ⟨⟨⟨k, g, ht, fun hc => (hunsized hc).elim⟩, fun _ hc => hfull (hc.mono (by omega))⟩,
    fun hc => (hunsized hc).elim⟩

section Room
variable {I : BitBlockContainer V → Prop} {notes : List (BitBlockContainer V)} {g : Nat → Bool}

/-- **One bool more**, noted. -/
theorem packBit_noted (hs : V.hasStoredSize = true)
    (hroom : rg.sized = true → Reserved d (c.size + rg.distance))
    (hI : ∀ e : BitBlockContainer V, e.size ≤ c.size + rg.distance →
      (rg.sized = true → e.mBlocks.reserved = d.mBlocks.reserved) → I e)
    {under : BitVec w × Nat} {m : Nat} {t : BitBlockContainer V} (hm : m + 1 ≤ rg.distance)
    (ht : Packed c t under m g)
    (hkept : rg.sized = true → t.mBlocks.reserved = d.mBlocks.reserved)
    (hnotes : ∀ e ∈ notes, I e) :
    Ends (noted (packBit mem under (g m))) (t, notes)
      (fun u e => (Packed c e.1 u (m + 1) g ∧
        (rg.sized = true → e.1.mBlocks.reserved = d.mBlocks.reserved)) ∧ ∀ a ∈ e.2, I a)
      fun e u => (PackThrown mem c rg e u.1 ∧
        (rg.sized = true → rg.throws = true ∧ e = .reading)) ∧ ∀ a ∈ u.2, I a := by
  have hinHand (hsized : rg.sized = true) : Reserved t (c.size + (m + 1)) :=
    ((hroom hsized).kept (Nat.le_of_eq (hkept hsized).symm)).mono (by omega)
  have hsize := ht.extended.size
  refine (ends_noted (I := I) (packBit_ends hs ht) hnotes (fun u e he => ?_)
    fun _ e he => ?_).mono (fun u e he => ?_) fun _ e he => ?_
  · have hesize := he.1.1.extended.size
    exact hI e (by omega) fun hc => (he.2 (hinHand hc)).trans (hkept hc)
  · rw [he.1]
    exact hI t (by omega) hkept
  · exact ⟨⟨he.1.1.1, fun hc => (he.1.2 (hinHand hc)).trans (hkept hc)⟩, he.2⟩
  · obtain ⟨⟨he, hres, hfull⟩, hnotes'⟩ := he
    refine ⟨?_, hnotes'⟩
    rw [he]
    exact packRefused hroom hm ht.extended hkept hres hfull

/-- **All that is read, packed**: what is left stands in the block under way. -/
theorem forEachPack_ends (hs : V.hasStoredSize = true)
    (hroom : rg.sized = true → Reserved d (c.size + rg.distance))
    (hI : ∀ e : BitBlockContainer V, e.size ≤ c.size + rg.distance →
      (rg.sized = true → e.mBlocks.reserved = d.mBlocks.reserved) → I e)
    (hd : Extended c d 0 fun i => rg.read.getD i false) (hnotes : ∀ e ∈ notes, I e) :
    Ends (forEachNoted rg (packBit mem) (zero, 0)) (d, notes)
      (fun under t => (Packed c t.1 under rg.distance (fun i => rg.read.getD i false) ∧
        (rg.sized = true → t.1.mBlocks.reserved = d.mBlocks.reserved)) ∧ ∀ e ∈ t.2, I e)
      fun e t => (PackThrown mem c rg e t.1 ∧
        (rg.sized = true → rg.throws = true ∧ e = .reading)) ∧ ∀ e ∈ t.2, I e := by
  unfold forEachNoted
  refine rg.read_ends (P := fun m under (t : BitBlockContainer V × List (BitBlockContainer V)) =>
    (Packed c t.1 under m (fun i => rg.read.getD i false) ∧
      (rg.sized = true → t.1.mBlocks.reserved = d.mBlocks.reserved)) ∧ ∀ e ∈ t.2, I e) ?_ ?_ ?_
  · intro m under ⟨t, notes'⟩ hm ⟨⟨ht, hkept⟩, hnotes'⟩
    exact packBit_noted (g := fun i => rg.read.getD i false) hs hroom hI hm ht hkept hnotes'
  · refine ⟨⟨⟨Nat.zero_le _, V.bits_pos, hd, fun j _ => ?_⟩, fun _ => rfl⟩, hnotes⟩
    rw [decide_eq_false (Nat.not_lt_zero _), Bool.false_and]
    exact BitVec.getLsbD_zero
  · intro hthrows under t ⟨⟨ht, _⟩, hnotes'⟩
    refine ⟨⟨⟨⟨_, _, ht.extended, fun _ => Or.inr ⟨hthrows, rfl⟩⟩, fun hf => ?_⟩,
      fun _ => ⟨hthrows, rfl⟩⟩, hnotes'⟩
    rw [hthrows] at hf
    cases hf

/-- **The values packed** into what room there is. Where it was made for all of them, no state
    passed on the way reserves another number of blocks, and only a read can throw; none is wider
    than the whole in any case. -/
theorem packBlocks_ends (hs : V.hasStoredSize = true) (hu : V.hasStoredCount = false)
    (hd : Extended c d 0 fun i => rg.read.getD i false)
    (hroom : rg.sized = true → Reserved d (c.size + rg.distance)) (hnotes : ∀ e ∈ notes, I e)
    (hI : ∀ e : BitBlockContainer V, e.size ≤ c.size + rg.distance →
      (rg.sized = true → e.mBlocks.reserved = d.mBlocks.reserved) → I e) :
    Ends (packBlocksNoted mem rg) (d, notes)
      (fun _ t => (Extended c t.1 rg.distance fun i => rg.read.getD i false) ∧ ∀ e ∈ t.2, I e)
      fun e t => (PackThrown mem c rg e t.1 ∧
        (rg.sized = true → rg.throws = true ∧ e = .reading)) ∧ ∀ e ∈ t.2, I e := by
  refine ends_bind (forEachPack_ends hs hroom hI hd hnotes) ?_
  intro under ⟨t, notes'⟩ ⟨⟨ht, hkept⟩, hnotes'⟩
  have ht : Packed c t under rg.distance fun i => rg.read.getD i false := ht
  have hkept : rg.sized = true → t.mBlocks.reserved = d.mBlocks.reserved := hkept
  have hle := ht.le
  have hsize := ht.extended.size
  have htotal : t.size + under.2 = c.size + rg.distance := by omega
  have hvalue (j : Nat) (hj : j < under.2) :
      under.1.getLsbD j = rg.read.getD (rg.distance - under.2 + j) false := by
    have := ht.short
    rw [ht.bit j (by omega), decide_eq_true hj, Bool.true_and]
  refine (ht.extended.partial_ends hs hu (Nat.le_of_lt ht.short) hvalue hnotes'
    fun e he hres => hI e (by omega) fun hc => ?_).mono (fun _ e he => ?_) fun _ e he => ?_
  · refine (hres ?_).trans (hkept hc)
    rw [htotal]
    exact (hroom hc).kept (Nat.le_of_eq (hkept hc).symm)
  · rwa [Nat.sub_add_cancel hle] at he
  · obtain ⟨⟨he, hres, hfull⟩, hnotes''⟩ := he
    rw [htotal] at hres hfull
    refine ⟨?_, hnotes''⟩
    rw [he]
    exact packRefused hroom (Nat.le_refl _) ht.extended hkept hres hfull

end Room

/-- **Values packed**, or what a throw on the way leaves; no state passed is wider than the
    whole. -/
theorem packNoted_ends (h : c.Inv) (hr : c.mBlocks.Roomy V) (hs : V.hasStoredSize = true)
    (hu : V.hasStoredCount = false) :
    Ends (packNoted mem rg) (c, [])
      (fun _ t => (Extended c t.1 rg.distance fun i => rg.read.getD i false) ∧
        ∀ e ∈ t.2, e.size ≤ c.size + rg.distance)
      fun e t => PackThrown mem c rg e t.1 ∧ ∀ e ∈ t.2, e.size ≤ c.size + rg.distance := by
  have hc : c.size ≤ c.size + rg.distance := Nat.le_add_right _ _
  have hnothing : ∀ e ∈ ([] : List (BitBlockContainer V)), e.size ≤ c.size + rg.distance :=
    fun e he => absurd he List.not_mem_nil
  have hfull {e : Exn} (hroom : ¬ HasRoom V mem (c.size + rg.distance)) : PackThrown mem c rg e c :=
    ⟨⟨0, fun _ => false, .refl h hr, fun _ => Or.inl rfl⟩, fun _ => hroom⟩
  unfold packNoted
  split
  · rename_i hz
    have hrefuse : Ends (refuseAny (rg.distance != 0)) c (fun _ d => c = d ∧ rg.distance = 0)
        fun _ t => t = c ∧ ¬ HasRoom V mem (c.size + rg.distance) := refuseAny_ends hz
    refine (ends_noted (I := fun e => e.size ≤ c.size + rg.distance) hrefuse hnothing
      (fun _ t ht => ht.1 ▸ hc) fun _ t ht => ht.1 ▸ hc).mono (fun _ t ht => ⟨?_, ht.2⟩)
      fun _ t ht => ⟨?_, ht.2⟩
    · rw [← ht.1.1, ht.1.2]
      exact .refl h hr
    · rw [ht.1.1]
      exact hfull ht.1.2
  · -- room is in hand from here on where the size is known
    refine ends_bind (P := fun _ t => ((Extended c t.1 0 fun i => rg.read.getD i false) ∧
      (rg.sized = true → Reserved t.1 (c.size + rg.distance))) ∧
        ∀ e ∈ t.2, e.size ≤ c.size + rg.distance) ?_ fun _ t ht => ?_
    · split
      · refine (makeRoomFor_ends h hs fun _ he => he).mono
          (fun _ t ht => ⟨⟨ht.1.1, fun _ => ht.1.2⟩, ht.2⟩) fun _ t ht => ⟨?_, ht.2⟩
        rw [ht.1.1]
        exact hfull ht.1.2
      · rename_i hsized
        exact ends_pure ⟨⟨.refl h hr, fun hc => absurd hc hsized⟩, hnothing⟩
    · exact (packBlocks_ends hs hu ht.1.1 ht.1.2 ht.2 fun _ he _ => he).mono (fun _ _ hu => hu)
        fun _ _ hu => ⟨hu.1.1, hu.2⟩

theorem pack_ends (h : c.Inv) (hr : c.mBlocks.Roomy V) (hs : V.hasStoredSize = true)
    (hu : V.hasStoredCount = false) :
    Ends (pack mem rg) c (fun _ d => Extended c d rg.distance fun i => rg.read.getD i false)
      (PackThrown mem c rg) :=
  forgets_pack.ends ((packNoted_ends h hr hs hu).mono (fun _ _ ht => ht.1) fun _ _ ht => ht.1)

end Pack

/-! ## 7. A range appended -/

section AppendRange
variable {c : BitBlockContainer V} {mem : Memory} {rg : SourceRange V}

/-- A read of the range throws after room was made for all of it. -/
def SourceRange.ReadsInPlace (e : Exn) : SourceRange V → Prop
  | .window .. => False
  | .values rg => rg.sized = true ∧ rg.throws = true ∧ e = .reading

/-- **A range appended**: what arrived. A throw leaves the sequence as it was, but for a read that
    throws after room was made, and a range whose reading throws nothing is refused only where its
    width does not fit. -/
theorem appendRange_ends (h : c.Inv) (hr : c.mBlocks.Roomy V) (hs : V.hasStoredSize = true)
    (hu : V.hasStoredCount = false) (hrg : rg.Readable c) :
    Ends (appendRange mem rg) c (fun _ d => Extended c d rg.count fun i => rg.value c i)
      fun e t => (¬ SourceRange.ReadsInPlace e rg → Intact c t) ∧
        (rg.throws = false → ¬ HasRoom V mem (c.size + rg.count)) := by
  cases rg with
  | window src first count =>
      refine (blit_ends h hr hs hu hrg).mono (fun _ _ hd => hd) fun _ t ht => ?_
      obtain ⟨rfl, ht⟩ := ht
      exact ⟨fun _ => .refl, fun _ => ht⟩
  | values rg =>
      have hpack : Ends (pack mem rg) c _ (PackThrown mem c rg) := pack_ends h hr hs hu
      show Ends (appendValues mem rg) c _ _
      unfold appendValues
      by_cases hsized : rg.sized = true
      · rw [if_pos hsized]
        refine hpack.mono (fun _ _ hd => hd) fun e t ht => ⟨fun hread => ?_, ht.full⟩
        obtain ⟨k, g, hext, hk⟩ := ht.extended
        rcases hk hsized with rfl | ⟨ht, he⟩
        · exact hext.intact h
        · exact absurd ⟨hsized, ht, he⟩ hread
      · rw [if_neg hsized]
        refine ends_bind_get (ends_onThrow (hpack.mono (fun _ _ hd => hd) fun e t ht => ?_))
        obtain ⟨k, g, hext, -⟩ := ht.extended
        exact (hext.undo_ends h hs).mono (fun _ u hu => ⟨fun _ => hu.2.2, ht.full⟩)
          fun _ _ hf => nomatch hf

end AppendRange

/-! ## 8. Appended in blocks -/

section Appending
variable {c : BitBlockContainer V}

/-- **Appending in blocks appends what is there, within the room it takes.** The old elements stand
    first and the source's follow in order, its own among them. No state on the way is wider than
    the whole, so that a capacity refuses only what does not fit; and where the size is known, all
    that comes after `make_room` runs in what it left, whatever memory is left to ask for. -/
theorem appending_exact (h : c.Inv) (hr : c.mBlocks.Roomy V) (hs : V.hasStoredSize = true)
    (hu : V.hasStoredCount = false) (mem mem' : Memory) :
    (∀ (src : BitSource V) (first count : Nat), src.Holds c first count →
      (Forgets (blitNoted mem src first count) (blit mem src first count) ∧
        Ends (blitNoted mem src first count) (c, [])
          (fun _ t => (Extended c t.1 count fun i => src.bit c (first + i)) ∧
            ∀ e ∈ t.2, e.size ≤ t.1.size)
          fun _ t => (t.1 = c ∧ ¬ HasRoom V mem (c.size + count)) ∧
            ∀ e ∈ t.2, e.size ≤ c.size + count) ∧
      (V.hasZeroCapacity = false → blit mem src first count =
        makeRoomFor mem count >>= fun _ => blitBlocks mem src first count) ∧
      Forgets (blitBlocksNoted mem' src first count) (blitBlocks mem' src first count) ∧
      ∀ d, makeRoomFor mem count c = .ok () d →
        Ends (blitBlocksNoted mem' src first count) (d, [])
          (fun _ t => ∀ e ∈ t.2, e.mBlocks.reserved = d.mBlocks.reserved) fun _ _ => False) ∧
    ∀ rg : ValueRange,
      (Forgets (packNoted mem rg) (pack (V := V) mem rg) ∧
        Ends (packNoted mem rg) (c, [])
          (fun _ t => (Extended c t.1 rg.distance fun i => rg.read.getD i false) ∧
            ∀ e ∈ t.2, e.size ≤ t.1.size)
          fun e t => PackThrown mem c rg e t.1 ∧ ∀ e ∈ t.2, e.size ≤ c.size + rg.distance) ∧
      (rg.sized = true →
        (V.hasZeroCapacity = false → pack (V := V) mem rg =
          makeRoomFor mem rg.distance >>= fun _ => packBlocks mem rg) ∧
        Forgets (packBlocksNoted mem' rg) (packBlocks (V := V) mem' rg) ∧
        ∀ d, makeRoomFor mem rg.distance c = .ok () d →
          Ends (packBlocksNoted mem' rg) (d, [])
            (fun _ t => ∀ e ∈ t.2, e.mBlocks.reserved = d.mBlocks.reserved)
            fun e t => (rg.throws = true ∧ e = .reading) ∧
              ∀ e ∈ t.2, e.mBlocks.reserved = d.mBlocks.reserved) := by
  have hroom {n : Nat} {g : Nat → Bool} {d : BitBlockContainer V}
      (hd : makeRoomFor mem n c = .ok () d) : Extended c d 0 g ∧ Reserved d (c.size + n) :=
    forgets_makeRoomFor.ok (Q := fun _ d => Extended c d 0 g ∧ Reserved d (c.size + n))
      (makeRoomFor_ends h hs (I := fun _ => True) fun _ _ => trivial) (fun _ _ ht => ht.1) hd
  have hnothing {I : BitBlockContainer V → Prop} : ∀ e ∈ ([] : List (BitBlockContainer V)), I e :=
    fun e he => absurd he List.not_mem_nil
  refine ⟨fun src first count hsrc => ⟨⟨forgets_blit, ?_⟩, fun hz => ?_, forgets_blitBlocks,
    fun d hd => ?_⟩, fun rg => ⟨⟨forgets_pack, ?_⟩, fun hsized => ⟨fun hz => ?_,
      forgets_packBlocks, fun d hd => ?_⟩⟩⟩
  · refine (blitNoted_ends h hr hs hu hsrc).mono (fun _ t ht => ⟨ht.1, ?_⟩) fun _ _ ht => ht
    rw [ht.1.size]
    exact ht.2
  · unfold blit
    rw [if_neg (by rw [hz]; exact Bool.false_ne_true)]
    rfl
  · obtain ⟨hext, hres⟩ := hroom hd
    exact (blitBlocks_ends hs hu hsrc hext hres hnothing fun _ _ he => he).mono
      (fun _ _ ht => ht.2) fun _ _ hf => hf
  · refine (packNoted_ends h hr hs hu).mono (fun _ t ht => ⟨ht.1, ?_⟩) fun _ _ ht => ht
    rw [ht.1.size]
    exact ht.2
  · unfold pack
    rw [if_neg (by rw [hz]; exact Bool.false_ne_true), if_pos hsized]
    rfl
  · obtain ⟨hext, hres⟩ := hroom hd
    exact (packBlocks_ends hs hu hext (fun _ => hres) hnothing fun _ _ he => he hsized).mono
      (fun _ _ ht => ht.2) fun _ _ ht => ⟨ht.1.2 hsized, ht.2⟩

end Appending

/-- Twelve bools and their own first eleven after them. -/
theorem appending_exact_twelve : ∃ d : BitBlockContainer (byteVector false),
    blit .ample .own 0 11 (fourOfTwelve false) = .ok () d ∧
      Extended (fourOfTwelve false) d 11 fun i => (fourOfTwelve false).bit (0 + i) := by
  -- at any state, where the run does not evaluate
  have happend {c d : BitBlockContainer (byteVector false)} (hc : c.Inv)
      (hr : c.mBlocks.Roomy (byteVector false)) (hsize : 0 + 11 ≤ c.size)
      (hd : blit .ample .own 0 11 c = .ok () d) :
      Extended c d 11 fun i => c.bit (0 + i) := by
    obtain ⟨hblit, -⟩ := appending_exact hc hr rfl rfl .ample .ample
    obtain ⟨⟨hforgets, hends⟩, -⟩ := hblit .own 0 11 hsize
    exact hforgets.ok (Q := fun _ d => Extended c d 11 fun i => c.bit (0 + i)) hends
      (fun _ _ ht => ht.1) hd
  have hd : blit .ample .own 0 11 (fourOfTwelve false) = .ok () _ := rfl
  exact ⟨_, hd, happend (fourOfTwelve_inv false) (fun _ => Nat.le_refl 2) (Nat.le_of_ble_eq_true rfl)
    hd⟩

end SequenceAdaptor

end XstdBits
