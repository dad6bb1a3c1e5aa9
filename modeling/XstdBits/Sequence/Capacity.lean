/-
  File: XstdBits/Sequence/Capacity.lean
  Subject: what `reserve` promises, over every run.

  * `reserve`, `capacity`, `shrink_to_fit` and the doors of a static capacity (`try_emplace_back`,
    `unchecked_emplace_back`) beside the modifiers of a sequence.
  * `Suffices` says when one memory does for another; every modifier that works in place follows it
    (`SeqOp.run_follows`), those that rebuild aside do not.
  * a `Ledger` keeps the width each sequence was last promised; `reserve_promise` is what holds of
    it along every run.
-/
import XstdBits.Lib.Follows
import XstdBits.Sequence.Refinement

namespace XstdBits

/-! ## 1. Reserving -/

/-- Memory that grants requests of up to `r` blocks. -/
def Memory.upTo (r : Nat) : Memory := ⟨fun n => if n ≤ r then .ok n else .error .badAlloc⟩

namespace Blocks
variable {w : Nat}

/-- `reserve(n)`: past `max_size()` a `length_error`, else room for so many. -/
def reserve (V : Vehicle w) (mem : Memory) (b : Blocks w) (n : Nat) : Except Exn (Blocks w) :=
  if V.hasStaticCapacity = false ∧ V.maxBlocks < n then .error (.lengthError n V.maxBlocks)
  else b.makeRoom V mem n

/-- `shrink_to_fit()`: no more than before in reserve, and no effects where it throws. -/
def shrinkToFit (V : Vehicle w) (mem : Memory) (b : Blocks w) : Except Exn (Blocks w) :=
  if V.hasStaticCapacity then .ok b
  else
    match allocateFor V mem b.elems.length with
    | .error e => .error e
    | .ok capacity => .ok { b with reserved := min b.reserved (max b.elems.length capacity) }

end Blocks

namespace BitBlockContainer
variable {w : Nat} {V : Vehicle w}

/-- `reserve(n)`, in bits. -/
def reserve (mem : Memory) (n : Nat) : Action V Unit := fun c =>
  if overCapacity V n then .error .badAlloc c
  else
    match c.mBlocks.reserve V mem (blocksFor w n) with
    | .error e => .error e c
    | .ok blocks => .ok () { c with mBlocks := blocks }

/-- `capacity()`, in bits. -/
def capacity (c : BitBlockContainer V) : Nat :=
  if V.hasStaticCapacity then V.extent else c.mBlocks.reserved * w

def shrinkToFit (mem : Memory) : Action V Unit := fun c =>
  match c.mBlocks.shrinkToFit V mem with
  | .error e => .error e c
  | .ok blocks => .ok () { c with mBlocks := blocks }

end BitBlockContainer

namespace SequenceAdaptor
variable {w : Nat} {V : Vehicle w}

open BitBlockContainer (pushBack)

/-- `reserve(n)` where the type carries the capacity: static, and throwing rather than growing. -/
def reserveStatic (n : Nat) : Action V Unit := fun c =>
  if c.capacity < n then .error .badAlloc c else .ok () c

/-- `reserve(n)`. -/
def reserve (mem : Memory) (n : Nat) : Action V Unit :=
  if V.hasStaticCapacity then reserveStatic n
  else checkedWidth V n >>= BitBlockContainer.reserve mem

/-- `shrink_to_fit()`: a no-op where the blocks are the object. -/
def shrinkToFit (mem : Memory) : Action V Unit :=
  if V.hasStaticCapacity then pure () else BitBlockContainer.shrinkToFit mem

/-- `back()`, as the position it refers to. -/
def back : Action V Nat := fun c => if c.size = 0 then .error .abort c else .ok (c.size - 1) c

def emplaceBack (mem : Memory) (value : Bool) : Action V Nat := do
  pushBack mem value
  back

/-- `try_emplace_back`: a full one answers `nullopt`. -/
def tryEmplaceBack (mem : Memory) (value : Bool) : Action V (Option Nat) := fun c =>
  if c.size = c.capacity then .ok .none c else (some <$> emplaceBack mem value : Action V _) c

/-- `unchecked_emplace_back`: the caller has established the room. -/
def uncheckedEmplaceBack (mem : Memory) (value : Bool) : Action V Nat := fun c =>
  if c.size < c.capacity then emplaceBack mem value c else .error .abort c

end SequenceAdaptor

/-! ## 2. A memory that suffices -/

/-- **While `P` holds of the blocks in reserve, `mem` makes the room `mem₀` makes**, and `P` holds
    of what is then in reserve. -/
def Suffices {w : Nat} (V : Vehicle w) (P : Nat → Prop) (mem₀ mem : Memory) : Prop :=
  ∀ (b b' : Blocks w) (n : Nat), P b.reserved → b.makeRoom V mem₀ n = .ok b' →
    b.makeRoom V mem n = .ok b' ∧ P b'.reserved

section Suffices
variable {w : Nat} {V : Vehicle w} {mem₀ mem : Memory} {r : Nat}

/-- What is in reserve stays there. -/
theorem suffices_keeps : Suffices V (r ≤ ·) mem mem := fun _ _ _ hr h =>
  ⟨h, Nat.le_trans hr (Blocks.makeRoom_keeps h)⟩

/-- **Memory that grants no more than what is in reserve is never asked**, and any does for it. -/
theorem suffices_of_refused (mem : Memory) (h : ∀ n, r < n → ∀ k, mem₀.allocate n ≠ .ok k) :
    Suffices V (· = r) mem₀ mem := by
  intro b b' n hr hb
  subst hr
  unfold Blocks.makeRoom at hb ⊢
  split at hb
  · rename_i hc
    rw [if_pos hc]
    split at hb
    · cases hb
    · rename_i hn
      cases hb
      rw [if_neg hn]
      exact ⟨rfl, rfl⟩
  · rename_i hc
    rw [if_neg hc]
    split at hb
    · rename_i hn
      cases hb
      rw [if_pos hn]
      exact ⟨rfl, rfl⟩
    · rename_i hn
      split at hb
      · cases hb
      · rename_i k hk
        -- asked for more than is in reserve, and granted
        obtain ⟨-, hnum, hgranted⟩ := Blocks.allocateFor_ok.mp hk
        exact absurd hgranted (h n (by omega) k)

theorem upTo_refuses : ∀ n, r < n → ∀ k, (Memory.upTo r).allocate n ≠ .ok k := by
  intro n hn k hk
  have hk : (if n ≤ r then .ok n else .error .badAlloc : Except Exn Nat) = .ok k := hk
  rw [if_neg (by omega)] at hk
  cases hk

theorem refusing_refuses : ∀ n, r < n → ∀ k, Memory.refusing.allocate n ≠ .ok k := fun _ _ _ => nofun

end Suffices

/-! ## 3. What follows it -/

/-- The blocks in reserve have `P`. -/
def InReserve {w : Nat} {V : Vehicle w} (P : Nat → Prop) (c : BitBlockContainer V) : Prop :=
  P c.mBlocks.reserved

section Follows
variable {w : Nat} {V : Vehicle w} {P : Nat → Prop} {mem₀ mem : Memory} {n : Nat} {v : Bool}

theorem Suffices.resize (h : Suffices V P mem₀ mem) {b b' : Blocks w} {value : BitVec w}
    (hr : P b.reserved) (hb : b.resize V mem₀ n value = .ok b') :
    b.resize V mem n value = .ok b' ∧ P b'.reserved := by
  unfold Blocks.resize at hb ⊢
  cases hm : b.makeRoom V mem₀ n with
  | error e =>
      rw [hm] at hb
      cases hb
  | ok b₁ =>
      rw [hm] at hb
      cases hb
      obtain ⟨hm', hr'⟩ := h b b₁ n hr hm
      rw [hm']
      exact ⟨rfl, hr'⟩

theorem Suffices.pushBack (h : Suffices V P mem₀ mem) {b b' : Blocks w} {value : BitVec w}
    (hr : P b.reserved) (hb : b.pushBack V mem₀ value = .ok b') :
    b.pushBack V mem value = .ok b' ∧ P b'.reserved := by
  unfold Blocks.pushBack at hb ⊢
  cases hm : b.makeRoom V mem₀ (b.elems.length + 1) with
  | error e =>
      rw [hm] at hb
      cases hb
  | ok b₁ =>
      rw [hm] at hb
      cases hb
      obtain ⟨hm', hr'⟩ := h b b₁ _ hr hm
      rw [hm']
      exact ⟨rfl, hr'⟩

namespace BitBlockContainer
variable {c d : BitBlockContainer V}

theorem grown_follows (h : Suffices V P mem₀ mem) (hr : P c.mBlocks.reserved)
    (hg : (if v = true ∧ c.size < n then c.growOnes mem₀ (blocksFor w n)
      else c.growZeros mem₀ (blocksFor w n)) = .ok d) :
    (if v = true ∧ c.size < n then c.growOnes mem (blocksFor w n)
      else c.growZeros mem (blocksFor w n)) = .ok d ∧ P d.mBlocks.reserved := by
  split at hg
  · rename_i hgrow
    rw [if_pos hgrow]
    unfold growOnes at hg ⊢
    dsimp only at hg ⊢
    split at hg
    · cases hg
    · rename_i blocks hb
      obtain ⟨hb', hr'⟩ := h.resize hr hb
      cases hg
      rw [hb']
      refine ⟨rfl, ?_⟩
      split
      · exact hr'
      · exact hr'
  · rename_i hgrow
    rw [if_neg hgrow]
    unfold growZeros at hg ⊢
    split at hg
    · cases hg
    · rename_i blocks hb
      obtain ⟨hb', hr'⟩ := h.resize hr hb
      cases hg
      rw [hb']
      exact ⟨rfl, hr'⟩

/-- **A resize** asks for room alone. -/
theorem resizeTo_follows (h : Suffices V P mem₀ mem) :
    Follows (InReserve P) (resizeTo mem₀ n v : Action V Unit) (resizeTo mem n v) := by
  intro c hr a d hok
  unfold resizeTo at hok ⊢
  split at hok
  · cases hok
  · rename_i hover
    rw [if_neg hover]
    dsimp only at hok ⊢
    split at hok
    · cases hok
    · rename_i g hg
      obtain ⟨hg', hr'⟩ := grown_follows h hr hg
      rw [hg']
      cases hok
      refine ⟨rfl, ?_⟩
      have herase : SameWidth (g.storeSize n) ((g.storeSize n).eraseUnused) := sameWidth_eraseUnused
      unfold InReserve
      rw [mBlocks_storeCount, herase.reserved, mBlocks_storeSize]
      exact hr'

theorem inReserve_stored {k : Nat} (h : P c.mBlocks.reserved) :
    InReserve P ((c.storeSize n).countUp k) := by
  unfold InReserve
  rw [mBlocks_countUp, mBlocks_storeSize]
  exact h

theorem append_follows (h : Suffices V P mem₀ mem) {value : BitVec w} :
    Follows (InReserve P) (append mem₀ value : Action V Unit) (append mem value) := by
  intro c hr a d hok
  unfold append at hok ⊢
  split at hok
  · cases hok
  · rename_i hover
    rw [if_neg hover]
    by_cases hoff : c.size % w ≠ 0
    · simp only [if_pos hoff] at hok ⊢
      cases hb : c.mBlocks.pushBack V mem₀ (shr value (w - c.size % w)) with
      | error e =>
          rw [hb] at hok
          cases hok
      | ok blocks =>
          rw [hb] at hok
          obtain ⟨hb', hr'⟩ := h.pushBack hr hb
          rw [hb']
          cases hok
          exact ⟨rfl, inReserve_stored hr'⟩
    · simp only [if_neg hoff] at hok ⊢
      cases hb : c.mBlocks.pushBack V mem₀ value with
      | error e =>
          rw [hb] at hok
          cases hok
      | ok blocks =>
          rw [hb] at hok
          obtain ⟨hb', hr'⟩ := h.pushBack hr hb
          rw [hb']
          cases hok
          exact ⟨rfl, inReserve_stored hr'⟩

theorem pushBack_follows (h : Suffices V P mem₀ mem) :
    Follows (InReserve P) (BitBlockContainer.pushBack mem₀ v : Action V Unit)
      (BitBlockContainer.pushBack mem v) := fun c hc => resizeTo_follows h c hc

theorem popBack_follows (h : Suffices V P mem₀ mem) :
    Follows (InReserve P) (popBack mem₀ : Action V Unit) (popBack mem) :=
  fun c hc => resizeTo_follows h c hc

/-- A write keeps the blocks in reserve. -/
theorem modify_follows {f : BitBlockContainer V → BitBlockContainer V}
    (hf : ∀ c, (f c).mBlocks.reserved = c.mBlocks.reserved) :
    Follows (InReserve P) (modify f : Action V Unit) (modify f) := by
  refine follows_modify fun c hc => ?_
  unfold InReserve at hc ⊢
  rwa [hf]

end BitBlockContainer

namespace SequenceAdaptor

open BitBlockContainer

variable {c : BitBlockContainer V} {first count pos last position : Nat}

theorem reserved_shiftUp {width : Nat} :
    (shiftUp width pos n c).mBlocks.reserved = c.mBlocks.reserved := by
  unfold shiftUp
  extract_lets tail
  obtain ⟨q, -, h⟩ := forStep_inv (k := w) (a := 0) (b := tail)
    (f := fun k (d : BitBlockContainer V) =>
      d.writeBlockAt (pos + tail - k - min w (tail - k) + n)
        (d.blockAt (pos + tail - k - min w (tail - k)))
        (partialBlockMask (min w (tail - k)))) (s := c)
    (fun _ d => d.mBlocks.reserved = c.mBlocks.reserved) V.bits_pos rfl
    fun _ _ _ hd => sameWidth_writeBlockAt.reserved.trans hd
  exact h

theorem reserved_shiftDown {width : Nat} :
    (shiftDown width pos last c).mBlocks.reserved = c.mBlocks.reserved := by
  unfold shiftDown
  obtain ⟨q, -, h⟩ := forStep_inv (k := w) (a := 0) (b := width - last)
    (f := fun k (d : BitBlockContainer V) =>
      d.writeBlockAt (pos + k) (d.blockAt (last + k))
        (partialBlockMask (min w (width - last - k)))) (s := c)
    (fun _ d => d.mBlocks.reserved = c.mBlocks.reserved) V.bits_pos rfl
    fun _ _ _ hd => sameWidth_writeBlockAt.reserved.trans hd
  exact h

theorem reserved_blitAt {U : Vehicle w} {src : BitBlockContainer U} :
    (blitAt pos src first count c).mBlocks.reserved = c.mBlocks.reserved := by
  unfold blitAt
  obtain ⟨q, -, h⟩ := forStep_inv (k := w) (a := 0) (b := count)
    (f := fun k (d : BitBlockContainer V) =>
      d.writeBlockAt (pos + k) (src.blockAt (first + k)) (partialBlockMask (min w (count - k))))
    (s := c) (fun _ d => d.mBlocks.reserved = c.mBlocks.reserved) V.bits_pos rfl
    fun _ _ _ hd => sameWidth_writeBlockAt.reserved.trans hd
  exact h

theorem reserved_setRange {len : Nat} :
    (c.setRange n len v).mBlocks.reserved = c.mBlocks.reserved := by
  unfold BitBlockContainer.setRange
  rw [mBlocks_storeCount]
  dsimp only
  split_ifs <;> rfl

theorem checkedWidth_follows :
    Follows (InReserve P) (checkedWidth V n : Action V Nat) (checkedWidth V n) := by
  refine follows_of_still fun c a d h => ?_
  unfold checkedWidth at h
  split at h <;> cases h
  rfl

theorem refuseAny_follows {some : Bool} :
    Follows (InReserve P) (refuseAny some : Action V Unit) (refuseAny some) := by
  refine follows_of_still fun c a d h => ?_
  unfold refuseAny at h
  split at h <;> cases h
  rfl

theorem indexOf_follows :
    Follows (InReserve P) (indexOf position : Action V Nat) (indexOf position) := by
  refine follows_of_still fun c a d h => ?_
  unfold indexOf at h
  split at h <;> cases h
  rfl

/-! ### Appending -/

theorem makeRoomFor_follows (h : Suffices V P mem₀ mem) :
    Follows (InReserve P) (makeRoomFor mem₀ n : Action V Unit) (makeRoomFor mem n) :=
  follows_bind_get fun _ => follows_bind checkedWidth_follows fun _ => follows_bind_get fun _ =>
    follows_bind (resizeTo_follows h) fun _ => resizeTo_follows h

theorem appendPartial_follows (h : Suffices V P mem₀ mem) {block : BitVec w} :
    Follows (InReserve P) (appendPartial mem₀ block n : Action V Unit)
      (appendPartial mem block n) :=
  follows_ite (follows_pure ()) (follows_bind_get fun _ =>
    follows_bind (resizeTo_follows h) fun _ =>
      modify_follows fun _ => sameWidth_writeBlockAt.reserved)

theorem blit_follows (h : Suffices V P mem₀ mem) {src : BitSource V} :
    Follows (InReserve P) (blit mem₀ src first count) (blit mem src first count) := by
  refine follows_ite refuseAny_follows (follows_bind (makeRoomFor_follows h) fun _ => ?_)
  refine follows_bind (follows_wholeSteps fun _ => follows_bind_get fun _ => append_follows h)
    fun _ => follows_bind_get fun _ => appendPartial_follows h

theorem forEach_follows {β : Type} {rg : ValueRange} {body body' : β → Bool → Action V β}
    (h : ∀ b x, Follows (InReserve P) (body b x) (body' b x)) (b : β) :
    Follows (InReserve P) (forEach rg body b) (forEach rg body' b) :=
  follows_bind (follows_foldlM h _ _) fun _ => follows_ite (follows_throw _) (follows_pure _)

theorem packBit_follows (h : Suffices V P mem₀ mem) {under : BitVec w × Nat} {e : Bool} :
    Follows (InReserve P) (packBit mem₀ under e : Action V _) (packBit mem under e) :=
  follows_ite (follows_bind (append_follows h) fun _ => follows_pure _) (follows_pure _)

theorem pack_follows (h : Suffices V P mem₀ mem) {rg : ValueRange} :
    Follows (InReserve P) (pack mem₀ rg : Action V Unit) (pack mem rg) := by
  refine follows_ite refuseAny_follows (follows_bind ?_ fun _ => ?_)
  · exact follows_ite (makeRoomFor_follows h) (follows_pure ())
  · exact follows_bind (forEach_follows (fun _ _ => packBit_follows h) _) fun _ =>
      appendPartial_follows h

theorem appendRange_follows (h : Suffices V P mem₀ mem) {rg : SourceRange V} :
    Follows (InReserve P) (appendRange mem₀ rg) (appendRange mem rg) := by
  cases rg with
  | window src first count => exact blit_follows h
  | values rg =>
      exact follows_ite (pack_follows h)
        (follows_bind_get fun _ => follows_onThrow (pack_follows h))

theorem pushAll_follows (h : Suffices V P mem₀ mem) {rg : ValueRange} :
    Follows (InReserve P) (pushAll mem₀ rg : Action V Unit) (pushAll mem rg) :=
  forEach_follows (fun _ _ => pushBack_follows h) _

/-! ### Gaps -/

theorem openGap_follows (h : Suffices V P mem₀ mem) :
    Follows (InReserve P) (openGap mem₀ pos n : Action V Unit) (openGap mem pos n) := by
  refine follows_bind_get fun _ => follows_bind checkedWidth_follows fun _ =>
    follows_bind (resizeTo_follows h) fun _ => modify_follows fun d => ?_
  split
  · rfl
  · exact reserved_shiftUp

theorem closeGap_follows (h : Suffices V P mem₀ mem) :
    Follows (InReserve P) (closeGap mem₀ pos last : Action V Unit) (closeGap mem pos last) := by
  refine follows_bind_get fun _ => follows_bind (modify_follows fun d => ?_) fun _ =>
    resizeTo_follows h
  split
  · rfl
  · exact reserved_shiftDown

theorem writeAt_follows {rg : ValueRange} :
    Follows (InReserve P) (writeAt pos rg : Action V Unit) (writeAt pos rg) :=
  follows_bind (forEach_follows (fun _ _ =>
    follows_bind (modify_follows fun _ => sameWidth_assign.reserved) fun _ => follows_pure _) _)
    fun _ => follows_pure ()

/-! ### The modifiers -/

theorem resize_follows (h : Suffices V P mem₀ mem) :
    Follows (InReserve P) (SequenceAdaptor.resize mem₀ n v : Action V Unit)
      (SequenceAdaptor.resize mem n v) :=
  follows_bind checkedWidth_follows fun _ => resizeTo_follows h

theorem assignCount_follows (h : Suffices V P mem₀ mem) :
    Follows (InReserve P) (assignCount mem₀ n v : Action V Unit) (assignCount mem n v) :=
  follows_bind (resizeTo_follows h) fun _ => resize_follows h

theorem assignPair_follows (h : Suffices V P mem₀ mem) {rg : ValueRange} :
    Follows (InReserve P) (assignPair mem₀ rg : Action V Unit) (assignPair mem rg) :=
  follows_bind (resizeTo_follows h) fun _ => pushAll_follows h

theorem assignRange_follows (h : Suffices V P mem₀ mem) {rg : SourceRange V} :
    Follows (InReserve P) (assignRange mem₀ rg) (assignRange mem rg) :=
  follows_bind (resizeTo_follows h) fun _ => appendRange_follows h

theorem insertCount_follows (h : Suffices V P mem₀ mem) :
    Follows (InReserve P) (insertCount mem₀ position n v : Action V Nat)
      (insertCount mem position n v) :=
  follows_bind indexOf_follows fun _ => follows_bind (openGap_follows h) fun _ =>
    follows_bind (modify_follows fun _ => reserved_setRange) fun _ => follows_pure _

/-- The range is neither read once, its size unknown, nor a window of the sequence itself. -/
def SourceRange.inPlace : SourceRange V → Bool
  | .window .own _ _ => false
  | .window (.of _ _) _ _ => true
  | .values rg => rg.forward || rg.sized

/-- **A range inserted in place.** -/
theorem insertRange_follows (h : Suffices V P mem₀ mem) {rg : SourceRange V}
    (hrg : SourceRange.inPlace rg = true) :
    Follows (InReserve P) (insertRange mem₀ position rg) (insertRange mem position rg) := by
  refine follows_bind indexOf_follows fun pos => ?_
  cases rg with
  | values rg =>
      have hkind : rg.forward = true ∨ rg.sized = true := by
        simpa [SourceRange.inPlace] using hrg
      dsimp only
      rw [if_pos hkind, if_pos hkind]
      exact follows_bind (openGap_follows h) fun _ =>
        follows_bind (follows_onThrow writeAt_follows) fun _ => follows_pure _
  | window src first count =>
      cases src with
      | own => cases hrg
      | of U bits =>
          exact follows_bind (openGap_follows h) fun _ =>
            follows_bind (modify_follows fun _ => reserved_blitAt) fun _ => follows_pure _

theorem eraseRange_follows (h : Suffices V P mem₀ mem) :
    Follows (InReserve P) (eraseRange mem₀ first last : Action V Nat)
      (eraseRange mem first last) := by
  have hrun : Follows (InReserve P)
      (indexOf first >>= fun pos => indexOf last >>= fun last => closeGap mem₀ pos last >>= fun _ =>
        pure pos : Action V Nat)
      (indexOf first >>= fun pos => indexOf last >>= fun last => closeGap mem pos last >>= fun _ =>
        pure pos) :=
    follows_bind indexOf_follows fun _ => follows_bind indexOf_follows fun _ =>
      follows_bind (closeGap_follows h) fun _ => follows_pure _
  intro c hc a d hok
  unfold eraseRange at hok ⊢
  split at hok
  · cases hok
  · rename_i hle
    rw [if_neg hle]
    exact hrun c hc a d hok

theorem erase_follows (h : Suffices V P mem₀ mem) :
    Follows (InReserve P) (erase mem₀ position : Action V Nat) (erase mem position) := by
  intro c hc a d hok
  unfold erase at hok ⊢
  split at hok
  · cases hok
  · rename_i hne
    rw [if_neg hne]
    exact eraseRange_follows h c hc a d hok

end SequenceAdaptor

end Follows

/-! ## 4. The calls -/

/-- The range is inserted into sequence `i` without rebuilding it aside. -/
def RangeArg.inPlace {w : Nat} {V : Vehicle w} (i : Nat) : RangeArg V → Bool
  | .window j _ _ => j != i
  | .foreign .. => true
  | .values rg => rg.forward || rg.sized

/-- The modifier works on the blocks sequence `i` has. -/
def SeqOp.inPlace {w : Nat} {V : Vehicle w} (i : Nat) : SeqOp V → Bool
  | .insertPair _ _ => false
  | .insertRange _ rg => rg.inPlace i
  | .swap _ => false
  | _ => true

/-- A call on one sequence of a bank. -/
inductive SeqCall {w : Nat} (V : Vehicle w) where
  | modifier (op : SeqOp V)
  | reserve (n : Nat) | shrinkToFit
  | tryEmplaceBack (value : Bool) | uncheckedEmplaceBack (value : Bool)

/-- The width each sequence was last promised. -/
abbrev Ledger := Nat → Nat

namespace SeqCall
variable {w : Nat} {V : Vehicle w}

/-- What the members' constraints and assertions ask. -/
def Pre (L : Nat → List Bool) (i : Nat) : SeqCall V → Prop
  | modifier op => op.Pre L i
  | tryEmplaceBack _ => V.hasStaticCapacity = true
  | uncheckedEmplaceBack _ => V.hasStaticCapacity = true ∧ (L i).length < V.extent
  | _ => V.traits.hasCapacity = true

def spec (L : Nat → List Bool) (i : Nat) : SeqCall V → Nat → List Bool
  | modifier op => op.spec L i
  | tryEmplaceBack value =>
      if (L i).length = V.extent then L else Function.update L i (L i ++ [value])
  | uncheckedEmplaceBack value => Function.update L i (L i ++ [value])
  | _ => L

/-- Where the iterator or the reference returned points. -/
def returned (L : Nat → List Bool) (i : Nat) : SeqCall V → Option Nat
  | modifier op => op.returned
  | tryEmplaceBack _ => if (L i).length = V.extent then none else some (L i).length
  | uncheckedEmplaceBack _ => some (L i).length
  | _ => none

/-- What is promised after the call: blocks exchanged take their promise along, blocks left for
    others and blocks given back lose it. -/
def ledger (P : Ledger) (i : Nat) : SeqCall V → Ledger
  | modifier (.swap j) => Function.update (Function.update P i (P j)) j (P i)
  | modifier op => if op.inPlace i then P else Function.update P i 0
  | reserve n => Function.update P i (max (P i) n)
  | shrinkToFit => Function.update P i 0
  | _ => P

def run (mem : Memory) (i : Nat) : SeqCall V → EStateM Exn (Bank V) (Option Nat)
  | modifier op => op.run mem i
  | reserve n => Bank.attempt i fun _ => SeqOp.dropped (SequenceAdaptor.reserve mem n)
  | shrinkToFit => Bank.attempt i fun _ => SeqOp.dropped (SequenceAdaptor.shrinkToFit mem)
  | tryEmplaceBack value => Bank.attempt i fun _ => SequenceAdaptor.tryEmplaceBack mem value
  | uncheckedEmplaceBack value =>
      Bank.attempt i fun _ => SeqOp.iterator (SequenceAdaptor.uncheckedEmplaceBack mem value)

end SeqCall

/-! ## 5. What a modifier in place follows -/

section Bank
variable {w : Nat} {V : Vehicle w} {P : Nat → Prop} {mem₀ mem : Memory} {i : Nat} {S T : Bank V}

theorem attempt_ok {α : Type} {a : Bank V → Action V α} {x : α}
    (h : Bank.attempt i a S = .ok x T) : ∃ d, a S (S i) = .ok x d ∧ T = S.put i d := by
  unfold Bank.attempt at h
  split at h
  · rename_i y d hd
    cases h
    exact ⟨d, hd, rfl⟩
  · cases h

theorem attempt_of_ok {α : Type} {a : Bank V → Action V α} {x : α} {d : BitBlockContainer V}
    (h : a S (S i) = .ok x d) : Bank.attempt i a S = .ok x (S.put i d) := by
  unfold Bank.attempt
  rw [h]

/-- The others are left alone. -/
theorem attempt_other {α : Type} {a : Bank V → Action V α} {x : α}
    (h : Bank.attempt i a S = .ok x T) {k : Nat} (hk : k ≠ i) : T k = S k := by
  obtain ⟨d, -, rfl⟩ := attempt_ok h
  exact if_neg hk

theorem attempt_follows {α : Type} {a b : Bank V → Action V α}
    (h : ∀ S, Follows (InReserve P) (a S) (b S)) :
    Follows (fun S : Bank V => InReserve P (S i)) (Bank.attempt i a) (Bank.attempt i b) := by
  intro S hS x T hok
  obtain ⟨d, hd, rfl⟩ := attempt_ok hok
  obtain ⟨hb, hr⟩ := h S (S i) hS x d hd
  unfold Bank.attempt
  rw [hb]
  refine ⟨rfl, ?_⟩
  show InReserve P (if i = i then d else S i)
  rwa [if_pos rfl]

namespace SeqOp

theorem dropped_follows {a b : Action V Unit} (h : Follows (InReserve P) a b) :
    Follows (InReserve P) (dropped a) (dropped b) := follows_bind h fun _ => follows_pure _

theorem iterator_follows {a b : Action V Nat} (h : Follows (InReserve P) a b) :
    Follows (InReserve P) (iterator a) (iterator b) := follows_bind h fun _ => follows_pure _

theorem range_inPlace {arg : RangeArg V} (h : arg.inPlace i = true) :
    SequenceAdaptor.SourceRange.inPlace (S.range i arg) = true := by
  cases arg with
  | values rg => exact h
  | foreign U bits first count => rfl
  | window j first count =>
      have hij : i ≠ j := fun hij => bne_iff_ne.mp h hij.symm
      have hof : S.source i j = .of V (S j) := if_neg hij
      show SequenceAdaptor.SourceRange.inPlace (.window (S.source i j) first count) = true
      rw [hof]
      rfl

/-- **A modifier in place asks its memory for room alone**: where one memory suffices for another,
    what it does with the one it does with the other. -/
theorem run_follows (h : Suffices V P mem₀ mem) {op : SeqOp V} (hop : op.inPlace i = true) :
    Follows (fun S : Bank V => InReserve P (S i)) (op.run mem₀ i) (op.run mem i) := by
  cases op with
  | pushBack value =>
      exact attempt_follows fun _ => dropped_follows (BitBlockContainer.pushBack_follows h)
  | popBack => exact attempt_follows fun _ => dropped_follows (BitBlockContainer.popBack_follows h)
  | resize n value =>
      exact attempt_follows fun _ => dropped_follows (SequenceAdaptor.resize_follows h)
  | clear => exact attempt_follows fun _ => dropped_follows (BitBlockContainer.resizeTo_follows h)
  | assignCount n value =>
      exact attempt_follows fun _ => dropped_follows (SequenceAdaptor.assignCount_follows h)
  | assignPair rg =>
      exact attempt_follows fun _ => dropped_follows (SequenceAdaptor.assignPair_follows h)
  | assignRange rg =>
      exact attempt_follows fun _ => dropped_follows (SequenceAdaptor.assignRange_follows h)
  | insert position value =>
      exact attempt_follows fun _ => iterator_follows (SequenceAdaptor.insertCount_follows h)
  | insertCount position n value =>
      exact attempt_follows fun _ => iterator_follows (SequenceAdaptor.insertCount_follows h)
  | insertPair position rg => cases hop
  | insertRange position rg =>
      exact attempt_follows fun _ =>
        iterator_follows (SequenceAdaptor.insertRange_follows h (range_inPlace hop))
  | appendRange rg =>
      exact attempt_follows fun _ => dropped_follows (SequenceAdaptor.appendRange_follows h)
  | erase position =>
      exact attempt_follows fun _ => iterator_follows (SequenceAdaptor.erase_follows h)
  | eraseRange first last =>
      exact attempt_follows fun _ => iterator_follows (SequenceAdaptor.eraseRange_follows h)
  | swap j => cases hop

/-- Every modifier but a swap is an attempt on its own sequence. -/
theorem run_attempt (mem : Memory) (i : Nat) {op : SeqOp V} (hop : ∀ j, op ≠ swap j) :
    ∃ a, op.run mem i = Bank.attempt i a := by
  cases op with
  | swap j => exact absurd rfl (hop j)
  | _ => exact ⟨_, rfl⟩

end SeqOp

end Bank

/-! ## 6. What is promised -/

namespace BitBlockContainer
variable {w : Nat} {V : Vehicle w} {c d : BitBlockContainer V} {mem : Memory} {n : Nat}

/-- **A width promised**: it is in hand, and no check on the way to it refuses it. -/
structure Promised (c : BitBlockContainer V) (n : Nat) : Prop where
  reserved : Reserved c n
  addressable : V.hasStaticCapacity = false → n ≤ V.maxAddressableWidth
  blocks : V.hasStaticCapacity = false → blocksFor w n ≤ V.maxBlocks

theorem Promised.kept (h : Promised c n) (hd : c.mBlocks.reserved ≤ d.mBlocks.reserved) :
    Promised d n where
  reserved := h.reserved.kept hd
  addressable := h.addressable
  blocks := h.blocks

/-- A capacity the type carries promises the same of every value. -/
theorem Promised.of_static (h : Promised c n) (hc : V.hasStaticCapacity = true) :
    Promised d n where
  reserved :=
    { capacity := h.reserved.capacity
      blocks := fun hf => by
        rw [hc] at hf
        cases hf }
  addressable := h.addressable
  blocks := h.blocks

theorem promised_zero : Promised c 0 where
  reserved :=
    { capacity := by
        unfold overCapacity
        rw [decide_eq_false (Nat.not_lt_zero _), Bool.and_false]
      blocks := fun _ => by
        rw [blocksFor_zero]
        exact ⟨Nat.zero_le _, Nat.zero_le _⟩ }
  addressable _ := Nat.zero_le _
  blocks _ := by
    rw [blocksFor_zero]
    exact Nat.zero_le _

theorem Promised.max {m : Nat} (h : Promised c n) (h' : Promised c m) : Promised c (max n m) := by
  rcases Nat.le_total n m with hle | hle
  · rwa [Nat.max_eq_right hle]
  · rwa [Nat.max_eq_left hle]

theorem Promised.le_capacity (h : Promised c n) : n ≤ c.capacity := by
  unfold capacity
  split
  · rename_i hc
    exact fits_capacity h.reserved.capacity hc
  · rename_i hc
    exact (blocksFor_le_iff V.bits_pos).mp (h.reserved.blocks (by simpa using hc)).1

theorem size_le_capacity (h : c.Inv) (hr : c.mBlocks.Roomy V) : c.size ≤ c.capacity := by
  unfold capacity
  split
  · rename_i hc
    exact h.capacity hc
  · rename_i hc
    have hlen := hr (by simpa using hc)
    rw [h.shape] at hlen
    exact (blocksFor_le_iff V.bits_pos).mp hlen

/-- **Within the promise the blocks in reserve are room enough**, whatever else is refused. -/
theorem Promised.hasRoom (h : Promised c n)
    (haddr : V.hasStaticCapacity = true → n ≤ V.maxAddressableWidth) :
    HasRoom V (.upTo c.mBlocks.reserved) n where
  addressable := by
    cases hc : V.hasStaticCapacity with
    | true => exact haddr hc
    | false => exact h.addressable hc
  capacity := h.reserved.capacity
  grants k hk hc := by
    obtain ⟨h1, h2⟩ := h.reserved.blocks hc
    have h3 := h.blocks hc
    exact ⟨k, Blocks.allocateFor_ok.mpr ⟨by omega, by omega, if_pos (by omega)⟩⟩

/-- What a completed `reserve` leaves. -/
theorem reserve_ok (hs : V.hasStoredSize = true) (h : reserve mem n c = .ok () d) :
    SameValue c d ∧ Reserved d n ∧ c.mBlocks.reserved ≤ d.mBlocks.reserved ∧
      (V.hasStaticCapacity = false → blocksFor w n ≤ V.maxBlocks) := by
  unfold reserve at h
  split at h
  · cases h
  · rename_i hover
    split at h
    · cases h
    · rename_i blocks hb
      cases h
      unfold Blocks.reserve at hb
      split at hb
      · cases hb
      · rename_i hmax
        obtain ⟨helems, -, hnum, -⟩ := Blocks.makeRoom_ok hs hb
        refine ⟨⟨fun _ => rfl, fun _ => rfl, helems⟩, ⟨by simpa using hover, fun hc => ?_⟩,
          Blocks.makeRoom_keeps hb, fun hc => ?_⟩
        · exact ⟨Blocks.makeRoom_reserved hb hc, hnum⟩
        · exact Nat.le_of_not_lt fun hlt => hmax ⟨hc, hlt⟩

theorem shrinkToFit_ok (hr : c.mBlocks.Roomy V) (h : shrinkToFit mem c = .ok () d) :
    SameValue c d ∧ d.mBlocks.Roomy V := by
  unfold shrinkToFit Blocks.shrinkToFit at h
  split at h
  · cases h
  · rename_i blocks hb
    cases h
    split at hb
    · cases hb
      exact ⟨.refl, hr⟩
    · split at hb
      · cases hb
      · cases hb
        refine ⟨⟨fun _ => rfl, fun _ => rfl, rfl⟩, fun hc => ?_⟩
        have := hr hc
        show c.mBlocks.elems.length ≤ min c.mBlocks.reserved (max c.mBlocks.elems.length _)
        omega

end BitBlockContainer

namespace SequenceAdaptor
variable {w : Nat} {V : Vehicle w} {c d : BitBlockContainer V} {mem : Memory} {n : Nat}
  {xs : List Bool} {value : Bool}

open BitBlockContainer

/-- **`reserve(n)` promises `n`**, and touches no element. -/
theorem reserve_promises (hs : V.hasStoredSize = true) (hx : Holds c xs) {m : Nat}
    (hm : Promised c m) (h : reserve mem n c = .ok () d) : Holds d xs ∧ Promised d (max m n) := by
  by_cases hc : V.hasStaticCapacity = true
  · have hstatic : c.capacity = V.extent := if_pos hc
    have hreserve : (reserve mem n : Action V Unit) = reserveStatic n := if_pos hc
    rw [hreserve] at h
    unfold reserveStatic at h
    split at h
    · cases h
    · rename_i hn
      cases h
      rw [hstatic] at hn
      have hnever {p : Prop} : V.hasStaticCapacity = false → p := by
        rw [hc]
        exact nofun
      refine ⟨hx, hm.max ⟨⟨?_, hnever⟩, hnever, hnever⟩⟩
      unfold overCapacity
      rw [decide_eq_false hn, Bool.and_false]
  · have hreserve : (reserve mem n : Action V Unit) =
        checkedWidth V n >>= BitBlockContainer.reserve mem := if_neg hc
    rw [hreserve] at h
    have h : EStateM.bind (checkedWidth V n) (BitBlockContainer.reserve mem) c = .ok () d := h
    unfold EStateM.bind checkedWidth checkAddressableWidth at h
    by_cases haddr : V.maxAddressableWidth < n
    · rw [if_pos haddr] at h
      cases h
    · rw [if_neg haddr] at h
      obtain ⟨hsame, hres, hkeep, hblocks⟩ := reserve_ok hs h
      have hroomy : d.mBlocks.Roomy V := fun hf => by
        rw [hsame.elems]
        exact Nat.le_trans (hx.roomy hf) hkeep
      exact ⟨hx.transferred hsame hroomy,
        (hm.kept hkeep).max ⟨hres, fun _ => Nat.le_of_not_lt haddr, hblocks⟩⟩

theorem shrinkToFit_holds (hx : Holds c xs) (h : shrinkToFit mem c = .ok () d) : Holds d xs := by
  by_cases hc : V.hasStaticCapacity = true
  · have hshrink : (shrinkToFit mem : Action V Unit) = pure () := if_pos hc
    rw [hshrink] at h
    cases h
    exact hx
  · have hshrink : (shrinkToFit mem : Action V Unit) = BitBlockContainer.shrinkToFit mem :=
      if_neg hc
    rw [hshrink] at h
    obtain ⟨hsame, hroomy⟩ := shrinkToFit_ok hx.roomy h
    exact hx.transferred hsame hroomy

/-- **Room in hand is enough for one more**, whatever the memory. -/
theorem emplaceBack_reserved (value : Bool) (hs : V.hasStoredSize = true) (hx : Holds c xs)
    (hr : Reserved c (c.size + 1)) :
    ∃ d, (∀ mem, emplaceBack mem value c = .ok xs.length d) ∧ Holds d (xs ++ [value]) := by
  have hends : Ends (pushBack Memory.refusing value) c (fun _ d => Holds d (xs ++ [value]))
      fun _ _ => False :=
    (resizeTo_ends hx.inv hs).mono
      (fun _ d hd => hx.extended (g := fun _ => value) (n := 1)
        ⟨hd.inv, hd.roomy, hd.size, fun p hp => by rw [hd.bit, if_pos hp]⟩ lists_replicate)
      fun _ _ ht => ht.2.1 hr
  obtain ⟨⟨⟩, d, hd⟩ := hends.completes fun _ _ hf => hf
  have hheld : Holds d (xs ++ [value]) := hends.ok hd
  refine ⟨d, fun mem => ?_, hheld⟩
  have hpush : pushBack mem value c = .ok () d :=
    (pushBack_follows (suffices_of_refused _ refusing_refuses) c rfl () d hd).1
  have hsize := hheld.size
  rw [List.length_append, List.length_singleton] at hsize
  show EStateM.bind (pushBack mem value) (fun _ => back) c = _
  unfold EStateM.bind
  rw [hpush]
  show back d = _
  unfold back
  rw [if_neg (by omega), hsize, Nat.add_sub_cancel]

theorem reserved_static (hc : V.hasStaticCapacity = true) (hn : n ≤ V.extent) : Reserved c n where
  capacity := by
    unfold overCapacity
    rw [decide_eq_false (Nat.not_lt.mpr hn), Bool.and_false]
  blocks hf := by
    rw [hc] at hf
    cases hf

/-- **Both answers of `try_emplace_back`**, neither of which asks the memory for anything. -/
theorem tryEmplaceBack_answers (value : Bool) (hs : V.hasStoredSize = true) (hx : Holds c xs)
    (hc : V.hasStaticCapacity = true) :
    if xs.length = V.extent then ∀ mem, tryEmplaceBack mem value c = .ok .none c
    else ∃ d, (∀ mem, tryEmplaceBack mem value c = .ok (some xs.length) d) ∧
      Holds d (xs ++ [value]) := by
  have hstatic : c.capacity = V.extent := if_pos hc
  have hsize := hx.size
  have hfits := hx.inv.capacity hc
  split
  · rename_i hfull
    intro mem
    unfold tryEmplaceBack
    rw [if_pos (by omega)]
  · rename_i hfull
    obtain ⟨d, hd, hheld⟩ := emplaceBack_reserved value hs hx
      (reserved_static hc (by omega))
    refine ⟨d, fun mem => ?_, hheld⟩
    unfold tryEmplaceBack
    rw [if_neg (by omega)]
    show EStateM.map some (emplaceBack mem value) c = _
    unfold EStateM.map
    rw [hd mem]

theorem uncheckedEmplaceBack_answers (value : Bool) (hs : V.hasStoredSize = true) (hx : Holds c xs)
    (hc : V.hasStaticCapacity = true) (hroom : xs.length < V.extent) :
    ∃ d, (∀ mem, uncheckedEmplaceBack mem value c = .ok xs.length d) ∧ Holds d (xs ++ [value]) := by
  have hstatic : c.capacity = V.extent := if_pos hc
  have hsize := hx.size
  obtain ⟨d, hd, hheld⟩ := emplaceBack_reserved value hs hx
    (reserved_static hc (by omega))
  refine ⟨d, fun mem => ?_, hheld⟩
  unfold uncheckedEmplaceBack
  rw [if_pos (by omega)]
  exact hd mem

end SequenceAdaptor

/-! ## 7. What is rebuilt aside -/

namespace SequenceAdaptor
variable {w : Nat} {V : Vehicle w} {c d : BitBlockContainer V} {pos p : Nat} {mem : Memory}

open BitBlockContainer

/-- Without a block in reserve there is no width. -/
theorem size_of_unreserved (h : c.Inv) (hr : c.mBlocks.Roomy V) (hc : V.hasStaticCapacity = false)
    (h0 : c.mBlocks.reserved = 0) : c.size = 0 := by
  have hlen := hr hc
  rw [h.shape, h0] at hlen
  have hsize := (blocksFor_le_iff V.bits_pos).mp hlen
  omega

/-- **A sequence rebuilt where every request is refused** is left with nothing. -/
theorem rebuild_refused (h : c.Inv) (hs : V.hasStoredSize = true) (hu : V.hasStoredCount = false)
    (hc : V.hasStaticCapacity = false) (hpos : pos ≤ c.size) {middle : Action V Unit}
    (hmiddle : ∀ t : BitBlockContainer V, t.Inv → t.mBlocks.Roomy V →
      Ends middle t (fun _ u => u.Inv ∧ u.mBlocks.Roomy V) fun _ _ => True)
    (hfollows : Follows (InReserve (· = 0)) middle middle)
    (hok : rebuild .refusing pos pos middle c = .ok p d) : d.size = 0 := by
  have hstatic : V.hasStaticSize = false := by
    obtain ⟨st, hp, hi, hh, hwb⟩ := V
    cases st <;> first | rfl | cases hs
  have hempty : InReserve (· = 0) (BitBlockContainer.default V c.mBlocks.alloc) := by
    show V.staticNumBlocks = 0
    unfold Vehicle.staticNumBlocks
    rw [hstatic, if_neg Bool.false_ne_true]
  have hsound : Suffices V (· = 0) Memory.refusing Memory.refusing :=
    suffices_of_refused _ refusing_refuses
  unfold rebuild at hok
  dsimp only at hok
  split at hok
  · cases hok
  · rename_i t ht
    have hzero : InReserve (· = 0) t :=
      (follows_bind (blit_follows hsound) (fun _ => follows_bind hfollows fun _ =>
        blit_follows hsound) _ hempty _ _ ht).2
    have hwindow {first count : Nat} (hin : first + count ≤ c.size) (u : BitBlockContainer V) :
        BitSource.Holds (.of V c) u first count := ⟨h, hin⟩
    have hbuild : Ends (do
        blit .refusing (.of V c) 0 pos
        middle
        blit .refusing (.of V c) pos (c.size - pos) : Action V Unit)
        (BitBlockContainer.default V c.mBlocks.alloc)
        (fun _ u => u.Inv ∧ u.mBlocks.Roomy V) fun _ _ => True := by
      refine ends_bind ((blit_ends (default_spec (Or.inl hs) _).1 (default_roomy _) hs hu
        (hwindow (by omega) _)).mono (fun _ _ h₁ => h₁) fun _ _ _ => trivial) fun _ t₁ h₁ => ?_
      refine ends_bind (hmiddle t₁ h₁.inv h₁.roomy) fun _ t₂ h₂ => ?_
      exact (blit_ends h₂.1 h₂.2 hs hu (hwindow (by omega) _)).mono
        (fun _ _ h₃ => ⟨h₃.inv, h₃.roomy⟩) fun _ _ _ => trivial
    have hshape := hbuild.ok ht
    have htsize := size_of_unreserved hshape.1 hshape.2 hc hzero
    split at hok
    · cases hok
    · rename_i left e hmove
      cases hok
      obtain ⟨hsame, -⟩ := moveAssign_ok hshape.1 hmove
      rw [hsame.size, htsize]

theorem indexOf_bind {α : Type} {f : Nat → Action V α} (hpos : pos ≤ c.size) :
    (indexOf pos >>= f) c = f pos c := by
  show EStateM.bind (indexOf pos) f c = _
  unfold EStateM.bind indexOf
  rw [if_neg (Nat.not_lt.mpr hpos)]

theorem insertPair_refused {rg : ValueRange} (h : c.Inv) (hs : V.hasStoredSize = true)
    (hu : V.hasStoredCount = false) (hc : V.hasStaticCapacity = false) (hpos : pos ≤ c.size)
    (hok : insertPair .refusing pos rg c = .ok p d) : d.size = 0 := by
  unfold insertPair at hok
  rw [indexOf_bind hpos] at hok
  refine rebuild_refused h hs hu hc hpos (fun t ht htr => ?_)
    (pushAll_follows (suffices_of_refused _ refusing_refuses)) hok
  exact (pushAll_ends ht htr hs).mono (fun _ _ hd => ⟨hd.inv, hd.roomy⟩) fun _ _ _ => trivial

theorem insertRange_refused {rg : SourceRange V} (h : c.Inv) (hs : V.hasStoredSize = true)
    (hu : V.hasStoredCount = false) (hc : V.hasStaticCapacity = false) (hpos : pos ≤ c.size)
    (hread : rg.Readable c) (hrg : SourceRange.inPlace rg = false)
    (hok : insertRange .refusing pos rg c = .ok p d) : d.size = 0 := by
  have hsound : Suffices V (· = 0) Memory.refusing Memory.refusing :=
    suffices_of_refused _ refusing_refuses
  have hmiddle (src : SourceRange V) {t : BitBlockContainer V} (ht : t.Inv)
      (htr : t.mBlocks.Roomy V) (hsrc : src.Readable t) :
      Ends (appendRange .refusing src) t (fun _ u => u.Inv ∧ u.mBlocks.Roomy V) fun _ _ => True :=
    (appendRange_ends ht htr hs hu hsrc).mono (fun _ _ hd => ⟨hd.inv, hd.roomy⟩)
      fun _ _ _ => trivial
  unfold insertRange at hok
  rw [indexOf_bind hpos] at hok
  cases rg with
  | values rg =>
      have hkind : ¬ (rg.forward = true ∨ rg.sized = true) := by
        simpa [SourceRange.inPlace] using hrg
      dsimp only at hok
      rw [if_neg hkind] at hok
      exact rebuild_refused h hs hu hc hpos (fun t ht htr => hmiddle (.values rg) ht htr trivial)
        (appendRange_follows hsound) hok
  | window src first count =>
      cases src with
      | of U bits => cases hrg
      | own =>
          have hok : rebuild .refusing pos pos
              (appendRange .refusing (.window (.of V c) first count)) c = .ok p d := hok
          exact rebuild_refused h hs hu hc hpos
            (fun t ht htr => hmiddle (.window (.of V c) first count) ht htr ⟨h, hread⟩)
            (appendRange_follows hsound) hok

end SequenceAdaptor

/-! ## 8. Every run -/

/-- The blocks in reserve change hands. -/
theorem reserved_swap {w : Nat} {V : Vehicle w} {c d : BitBlockContainer V} :
    d.mBlocks.reserved ≤ (c.swap d).1.mBlocks.reserved ∧
      c.mBlocks.reserved ≤ (c.swap d).2.mBlocks.reserved := by
  unfold BitBlockContainer.swap Blocks.swapped
  split <;> exact ⟨Nat.le_refl _, Nat.le_refl _⟩

/-- **A run of the calls** on a bank of empty sequences: what they hold, and what they were
    promised. -/
inductive CapacityRun {w : Nat} (V : Vehicle w) :
    Bank V → (Nat → List Bool) → Ledger → Prop where
  | start (alloc : Nat → Nat) :
      CapacityRun V (fun i => BitBlockContainer.default V (alloc i)) (fun _ => []) fun _ => 0
  | step {S T : Bank V} {L : Nat → List Bool} {P : Ledger} {call : SeqCall V} {mem : Memory}
      {i : Nat} {r : Option Nat} : CapacityRun V S L P → call.Pre L i →
      call.run mem i S = .ok r T → CapacityRun V T (call.spec L i) (call.ledger P i)

section Run
variable {w : Nat} {V : Vehicle w} {S T : Bank V} {L : Nat → List Bool} {P : Ledger}
  {mem : Memory} {i : Nat} {r : Option Nat} {op : SeqOp V}

theorem ledger_modifier (hop : ∀ j, op ≠ .swap j) : (SeqCall.modifier op).ledger P i =
    if op.inPlace i then P else Function.update P i 0 := by
  cases op with
  | swap j => exact absurd rfl (hop j)
  | _ => rfl

/-- A promise moves with what sequence `i` was left. -/
theorem update_promised (hP : ∀ k, (S k).Promised (P k)) {n : Nat} (hi : (T i).Promised n)
    (hother : ∀ k, k ≠ i → T k = S k) (k : Nat) : (T k).Promised (Function.update P i n k) := by
  rw [Function.update_apply]
  split
  · rename_i hk
    rwa [hk]
  · rename_i hk
    rw [hother k hk]
    exact hP k

/-- **A modifier keeps the ledger.** -/
theorem modifier_promised (hP : ∀ k, (S k).Promised (P k)) (hrun : op.run mem i S = .ok r T)
    (k : Nat) : (T k).Promised ((SeqCall.modifier op).ledger P i k) := by
  by_cases hswap : ∃ j, op = .swap j
  · obtain ⟨j, rfl⟩ := hswap
    show (T k).Promised (Function.update (Function.update P i (P j)) j (P i) k)
    rw [Function.update_apply, Function.update_apply]
    unfold SeqOp.run at hrun
    dsimp only at hrun
    split at hrun
    · rename_i hij
      cases hrun
      subst hij
      split
      · rename_i hk
        subst hk
        exact hP k
      · exact hP k
    · rename_i hij
      cases hrun
      unfold Bank.put
      split
      · exact (hP i).kept (reserved_swap (c := S i) (d := S j)).2
      · split
        · exact (hP j).kept (reserved_swap (c := S i) (d := S j)).1
        · exact hP k
  · have hop : ∀ j, op ≠ .swap j := fun j hj => hswap ⟨j, hj⟩
    obtain ⟨a, ha⟩ := SeqOp.run_attempt mem i hop
    have hother (k : Nat) (hk : k ≠ i) : T k = S k := by
      rw [ha] at hrun
      exact attempt_other hrun hk
    rw [ledger_modifier hop]
    split
    · rename_i hin
      have hkept : InReserve ((S i).mBlocks.reserved ≤ ·) (T i) :=
        (SeqOp.run_follows suffices_keeps hin S (Nat.le_refl _) r T hrun).2
      by_cases hk : k = i
      · rw [hk]
        exact (hP i).kept hkept
      · rw [hother k hk]
        exact hP k
    · exact update_promised hP BitBlockContainer.promised_zero hother k

theorem dropped_ok {a : Action V Unit} {c d : BitBlockContainer V}
    (h : SeqOp.dropped a c = .ok r d) : a c = .ok () d ∧ r = .none := by
  have h : EStateM.bind a (fun _ => pure Option.none) c = .ok r d := h
  unfold EStateM.bind at h
  split at h
  · rename_i u e hu
    cases h
    exact ⟨hu, rfl⟩
  · cases h

theorem iterator_ok {a : Action V Nat} {c d : BitBlockContainer V} {p : Nat}
    (h : a c = .ok p d) : SeqOp.iterator a c = .ok (some p) d := by
  show EStateM.bind a (fun p => pure (some p)) c = _
  unfold EStateM.bind
  rw [h]
  rfl

/-- A list of sequence `i` alone changed. -/
theorem held_put (h : ∀ k, Holds (S k) (L k)) {d : BitBlockContainer V} (hT : T = S.put i d)
    (hd : Holds d (L i)) (k : Nat) : Holds (T k) (L k) := by
  subst hT
  unfold Bank.put
  split
  · rename_i hk
    rwa [hk]
  · exact h k

/-- **One call**: the lists after it, what it returns, and what is promised then. -/
theorem SeqCall.step (hs : V.hasStoredSize = true) (hu : V.hasStoredCount = false)
    (h : ∀ k, Holds (S k) (L k)) (hP : ∀ k, (S k).Promised (P k)) {call : SeqCall V}
    (hp : call.Pre L i) (hrun : call.run mem i S = .ok r T) :
    ((∀ k, Holds (T k) (call.spec L i k)) ∧ r = call.returned L i) ∧
      ∀ k, (T k).Promised (call.ledger P i k) := by
  cases call with
  | modifier op =>
      have hstep : Ends (op.run mem i) S _ _ := SeqOp.step hs hu h hp
      exact ⟨hstep.ok hrun, modifier_promised hP hrun⟩
  | reserve n =>
      have hrun : Bank.attempt i (fun _ => SeqOp.dropped (SequenceAdaptor.reserve mem n)) S =
        .ok r T := hrun
      obtain ⟨d, hd, rfl⟩ := attempt_ok hrun
      obtain ⟨hok, rfl⟩ := dropped_ok hd
      obtain ⟨hheld, hpromised⟩ := SequenceAdaptor.reserve_promises hs (h i) (hP i) hok
      refine ⟨⟨held_put h rfl hheld, rfl⟩, update_promised hP ?_ fun k hk => if_neg hk⟩
      show (if i = i then d else S i).Promised _
      rwa [if_pos rfl]
  | shrinkToFit =>
      have hrun : Bank.attempt i (fun _ => SeqOp.dropped (SequenceAdaptor.shrinkToFit mem)) S =
        .ok r T := hrun
      obtain ⟨d, hd, rfl⟩ := attempt_ok hrun
      obtain ⟨hok, rfl⟩ := dropped_ok hd
      exact ⟨⟨held_put h rfl (SequenceAdaptor.shrinkToFit_holds (h i) hok), rfl⟩,
        update_promised hP BitBlockContainer.promised_zero fun k hk => if_neg hk⟩
  | tryEmplaceBack value =>
      have hc : V.hasStaticCapacity = true := hp
      refine ⟨?_, fun k => (hP k).of_static hc⟩
      have hrun : Bank.attempt i (fun _ => SequenceAdaptor.tryEmplaceBack mem value) S =
        .ok r T := hrun
      obtain ⟨d, hd, rfl⟩ := attempt_ok hrun
      have hanswers := SequenceAdaptor.tryEmplaceBack_answers value hs (h i) hc
      unfold SeqCall.spec SeqCall.returned
      dsimp only
      split at hanswers
      · rename_i hfull
        rw [hanswers mem] at hd
        cases hd
        rw [if_pos hfull, if_pos hfull]
        exact ⟨held_put h rfl (h i), rfl⟩
      · rename_i hfull
        obtain ⟨e, he, hheld⟩ := hanswers
        rw [he mem] at hd
        cases hd
        rw [if_neg hfull, if_neg hfull]
        exact ⟨SeqOp.put_holds h hheld, rfl⟩
  | uncheckedEmplaceBack value =>
      refine ⟨?_, fun k => (hP k).of_static hp.1⟩
      have hrun : Bank.attempt i (fun _ => 
        SeqOp.iterator (SequenceAdaptor.uncheckedEmplaceBack mem value)) S =
        .ok r T := hrun
      obtain ⟨d, hd, rfl⟩ := attempt_ok hrun
      obtain ⟨e, he, hheld⟩ :=
        SequenceAdaptor.uncheckedEmplaceBack_answers value hs (h i) hp.1 hp.2
      rw [iterator_ok (he mem)] at hd
      cases hd
      exact ⟨SeqOp.put_holds h hheld, rfl⟩

/-- **Every sequence holds its list and its promise** after any run. -/
theorem CapacityRun.holds (hs : V.hasStoredSize = true) (hu : V.hasStoredCount = false)
    (h : CapacityRun V S L P) : (∀ k, Holds (S k) (L k)) ∧ ∀ k, (S k).Promised (P k) := by
  induction h with
  | start alloc =>
      exact ⟨(SeqRun.start alloc).holds hs hu, fun _ => BitBlockContainer.promised_zero⟩
  | step _ hp hrun ih =>
      have hstep := SeqCall.step hs hu ih.1 ih.2 hp hrun
      exact ⟨hstep.1.1, hstep.2⟩

/-- **A modifier in place, within the promise**: it completes the same in every memory and leaves
    the blocks where they are. -/
theorem modifier_inPlace (hs : V.hasStoredSize = true) (hu : V.hasStoredCount = false)
    (h : ∀ k, Holds (S k) (L k)) (hp : op.Pre L i) (hin : op.inPlace i = true) {n : Nat}
    (hpromised : (S i).Promised n) (hn : (op.edited L i).length ≤ n)
    (haddr : V.hasStaticCapacity = true → n ≤ V.maxAddressableWidth) :
    ∃ T, (∀ mem, op.run mem i S = .ok op.returned T) ∧ (∀ k, Holds (T k) (op.spec L i k)) ∧
      (T i).mBlocks.reserved = (S i).mBlocks.reserved := by
  have hroom := (hpromised.hasRoom haddr).mono hn
  have hstep : Ends (op.run (.upTo (S i).mBlocks.reserved) i) S _ _ := SeqOp.step hs hu h hp
  have hfits : op.Fits (.upTo (S i).mBlocks.reserved) L i := by
    cases op with
    | popBack => trivial
    | clear => trivial
    | erase position => trivial
    | eraseRange first last => trivial
    | swap j => trivial
    | _ => exact hroom
  obtain ⟨q, T, hT⟩ := hstep.completes fun _ _ ht => ht hfits
  obtain ⟨hheld, rfl⟩ := hstep.ok hT
  have hfollows (mem : Memory) :=
    SeqOp.run_follows (suffices_of_refused mem upTo_refuses) hin S rfl _ T hT
  exact ⟨T, fun mem => (hfollows mem).1, hheld, (hfollows .ample).2⟩

theorem iterator_inv {a : Action V Nat} {c d : BitBlockContainer V}
    (h : SeqOp.iterator a c = .ok r d) : ∃ p, a c = .ok p d := by
  have h : EStateM.bind a (fun p => pure (some p)) c = .ok r d := h
  unfold EStateM.bind at h
  split at h
  · rename_i p e hp
    cases h
    exact ⟨p, hp⟩
  · cases h

theorem range_aside {arg : RangeArg V} (h : arg.inPlace i = false) :
    SequenceAdaptor.SourceRange.inPlace (S.range i arg) = false := by
  cases arg with
  | values rg => exact h
  | foreign U bits first count => cases h
  | window j first count =>
      have hij : i = j := by
        by_contra hne
        have htrue : (j != i) = true := bne_iff_ne.mpr fun hji => hne hji.symm
        have h : (j != i) = false := h
        rw [htrue] at h
        cases h
      have hown : S.source i j = .own := if_pos hij
      show SequenceAdaptor.SourceRange.inPlace (.window (S.source i j) first count) = false
      rw [hown]
      rfl

/-- **A modifier that rebuilds aside is promised nothing**: where every request is refused, it is
    refused, unless nothing is left to hold. -/
theorem modifier_aside (hs : V.hasStoredSize = true) (hu : V.hasStoredCount = false)
    (hc : V.hasStaticCapacity = false) (h : ∀ k, Holds (S k) (L k)) (hp : op.Pre L i)
    (hin : op.inPlace i = false) (hop : ∀ j, op ≠ .swap j) (hne : op.edited L i ≠ []) :
    ¬ Completes (op.run .refusing i) S := by
  rintro ⟨r, T, hT⟩
  have hsize := (h i).size
  have hempty : (T i).size = 0 := by
    cases op with
    | insertPair position rg =>
        have hT : Bank.attempt i (fun _ =>
          SeqOp.iterator (SequenceAdaptor.insertPair .refusing position rg)) S = .ok r T := hT
        obtain ⟨d, hd, rfl⟩ := attempt_ok hT
        obtain ⟨p, hd⟩ := iterator_inv hd
        show (if i = i then d else S i).size = 0
        rw [if_pos rfl]
        exact SequenceAdaptor.insertPair_refused (h i).inv hs hu hc (hsize ▸ hp.1) hd
    | insertRange position rg =>
        have hT : Bank.attempt i (fun S =>
          SeqOp.iterator (SequenceAdaptor.insertRange .refusing position (S.range i rg))) S =
            .ok r T := hT
        obtain ⟨d, hd, rfl⟩ := attempt_ok hT
        obtain ⟨p, hd⟩ := iterator_inv hd
        show (if i = i then d else S i).size = 0
        rw [if_pos rfl]
        exact SequenceAdaptor.insertRange_refused (h i).inv hs hu hc (hsize ▸ hp.1)
          (SeqOp.range_lists h hp.2).1 (range_aside hin) hd
    | swap j => exact absurd rfl (hop j)
    | _ => cases hin
  have hstep : Ends (op.run .refusing i) S _ _ := SeqOp.step hs hu h hp
  have hheld := (hstep.ok hT).1 i
  have hspec : op.spec L i i = op.edited L i := by
    cases op with
    | swap j => exact absurd rfl (hop j)
    | _ => exact Function.update_self _ _ _
  rw [hspec] at hheld
  have hlen := hheld.size
  rw [hempty] at hlen
  exact hne (List.length_eq_zero_iff.mp hlen.symm)

/-- **What `reserve` promises is kept along every run.** Each sequence holds its list within its
    capacity, and its capacity never falls below what it was promised. A modifier that works in
    place and leaves no more than that completes in every memory, one that refuses everything
    included, with the same outcome and without moving the blocks; one that rebuilds aside is
    promised nothing. Where the type carries the capacity, `try_emplace_back` answers for it. -/
theorem reserve_promise (hs : V.hasStoredSize = true) (hu : V.hasStoredCount = false)
    (h : CapacityRun V S L P) :
    (∀ i, SequenceAdaptor.elements (S i) = L i ∧ (L i).length ≤ (S i).capacity ∧
      P i ≤ (S i).capacity) ∧
    (∀ (i : Nat) (op : SeqOp V), op.Pre L i → op.inPlace i = true → (op.edited L i).length ≤ P i →
      (V.hasStaticCapacity = true → P i ≤ V.maxAddressableWidth) →
      ∃ T, (∀ mem, op.run mem i S = .ok op.returned T) ∧
        (∀ k, SequenceAdaptor.elements (T k) = op.spec L i k) ∧
        (T i).capacity = (S i).capacity) ∧
    (V.hasStaticCapacity = false → ∀ (i : Nat) (op : SeqOp V), op.Pre L i →
      op.inPlace i = false → (∀ j, op ≠ .swap j) → op.edited L i ≠ [] →
      ¬ Completes (op.run .refusing i) S) ∧
    (V.hasStaticCapacity = true → ∀ (i : Nat) (value : Bool),
      ∃ T, (∀ mem, (SeqCall.tryEmplaceBack value).run mem i S =
          .ok (if (L i).length = (S i).capacity then none else some (L i).length) T) ∧
        ∀ k, SequenceAdaptor.elements (T k) =
          if k = i ∧ (L i).length ≠ (S i).capacity then L i ++ [value] else L k) := by
  obtain ⟨hheld, hpromised⟩ := h.holds hs hu
  refine ⟨fun i => ⟨(hheld i).elements, ?_, (hpromised i).le_capacity⟩, ?_, ?_, ?_⟩
  · rw [← (hheld i).size]
    exact BitBlockContainer.size_le_capacity (hheld i).inv (hheld i).roomy
  · intro i op hp hin hn haddr
    obtain ⟨T, hT, hspec, hres⟩ := modifier_inPlace hs hu hheld hp hin (hpromised i) hn haddr
    refine ⟨T, hT, fun k => (hspec k).elements, ?_⟩
    unfold BitBlockContainer.capacity
    rw [hres]
  · intro hc i op hp hin hop hne
    exact modifier_aside hs hu hc hheld hp hin hop hne
  · intro hc i value
    have hcapacity : (S i).capacity = V.extent := if_pos hc
    have hanswers := SequenceAdaptor.tryEmplaceBack_answers value hs (hheld i) hc
    rw [hcapacity]
    split at hanswers
    · rename_i hfull
      refine ⟨S.put i (S i), fun mem => ?_, fun k => ?_⟩
      · rw [if_pos hfull]
        exact attempt_of_ok (a := fun _ => SequenceAdaptor.tryEmplaceBack mem value)
          (hanswers mem)
      · rw [if_neg fun hk => hk.2 hfull]
        exact (held_put hheld rfl (hheld i) k).elements
    · rename_i hfull
      obtain ⟨d, hd, hd'⟩ := hanswers
      refine ⟨S.put i d, fun mem => ?_, fun k => ?_⟩
      · rw [if_neg hfull]
        exact attempt_of_ok (a := fun _ => SequenceAdaptor.tryEmplaceBack mem value) (hd mem)
      · rw [(SeqOp.put_holds hheld hd' k).elements, Function.update_apply]
        by_cases hk : k = i
        · rw [if_pos hk, if_pos ⟨hk, hfull⟩]
        · rw [if_neg hk, if_neg fun h => hk h.1]

end Run

/-- Twenty positions reserved, none held. -/
def twentyReserved : Bank (byteVector false) :=
  Bank.put (fun _ => BitBlockContainer.default (byteVector false) 0) 0
    { mSize := 0, mCount := 0, mBlocks := { elems := [], reserved := 3, alloc := 0 } }

set_option maxRecDepth 4000 in
/-- Twenty ones inserted where they were reserved, every request refused from then on. -/
theorem reserve_promise_twenty : ∃ T : Bank (byteVector false),
    (SeqOp.insertCount 0 20 true : SeqOp (byteVector false)).run .refusing 0 twentyReserved =
      .ok (some 0) T ∧ SequenceAdaptor.elements (T 0) = List.replicate 20 true ∧
      (T 0).capacity = 24 := by
  have hreserve : (SeqCall.reserve 20 : SeqCall (byteVector false)).run .ample 0
      (fun _ => BitBlockContainer.default (byteVector false) 0) = .ok none twentyReserved := rfl
  have hpre : (SeqCall.reserve 20 : SeqCall (byteVector false)).Pre (fun _ => []) 0 := rfl
  have hrun : CapacityRun (byteVector false) twentyReserved (fun _ => [])
      (Function.update (fun _ => 0) 0 (max 0 20)) := .step (.start fun _ => 0) hpre hreserve
  obtain ⟨-, hinPlace, -⟩ := reserve_promise rfl rfl hrun
  obtain ⟨T, hT, hspec, hcapacity⟩ := hinPlace 0 (.insertCount 0 20 true) (Nat.zero_le _) rfl
    (Nat.le_of_ble_eq_true rfl) nofun
  exact ⟨T, hT .refusing, hspec 0, hcapacity⟩

end XstdBits
