/-
  File: XstdBits/Sequence/Adaptor.lean
  Subject: the modifiers of `sequence_adaptor` over a storage that grows.

  * an iterator is a position, checked once by `indexOf`.
  * a range of known size is written into a gap (`insertValues`); a window of the sequence itself
    and a range read once rebuild the sequence aside and move it in (`rebuild`).
  * each modifier has one lemma for both its ends: what it leaves, and that a throw leaves the
    sequence as it was where the operation promises it (`insertRange_ends`, …).
  * a `RangeArg` is a range argument whose storage may be any sequence of a bank.
-/
import XstdBits.Container.Machine
import XstdBits.Sequence.Gap

namespace XstdBits

open BitBlockContainer

namespace SequenceAdaptor
variable {w : Nat} {V : Vehicle w}

/-! ## 1. The modifiers -/

/-- `index_of`: the one place a caller's iterator becomes an index. -/
def indexOf (position : Nat) : Action V Nat := fun c =>
  if c.size < position then .error .abort c else .ok position c

/-- `rebuild`: head, middle and tail rebuilt aside, then moved in. -/
def rebuild (mem : Memory) (pos tail : Nat) (middle : Action V Unit) : Action V Nat := fun c =>
  let build : Action V Unit := do
    blit mem (.of V c) 0 pos
    middle
    blit mem (.of V c) tail (c.size - tail)
  match build (BitBlockContainer.default V c.mBlocks.alloc) with
  | .error e _ => .error e c
  | .ok _ tmp =>
      match moveAssign mem tmp c with
      | .error e d => .error e d
      | .ok _ d => .ok pos d

/-- A range of known size into a gap, which a read that throws closes again. -/
def insertValues (mem : Memory) (pos : Nat) (rg : ValueRange) : Action V Nat := do
  openGap mem pos rg.distance
  onThrow (writeAt pos rg) (closeGap mem pos (pos + rg.distance))
  pure pos

/-- A window of another sequence into a gap. -/
def insertBlocks {U : Vehicle w} (mem : Memory) (pos : Nat) (src : BitBlockContainer U)
    (first count : Nat) : Action V Nat := do
  openGap mem pos count
  modify (blitAt pos src first count)
  pure pos

/-- `insert_range`: a window of this storage would move with its own tail, so it is rebuilt. -/
def insertRange (mem : Memory) (position : Nat) (rg : SourceRange V) : Action V Nat :=
  indexOf position >>= fun pos =>
    match rg with
    | .values rg =>
        if rg.forward ∨ rg.sized then insertValues mem pos rg
        else rebuild mem pos pos (appendRange mem (.values rg))
    | .window (.of _ src) first count => insertBlocks mem pos src first count
    | .window .own first count =>
        get >>= fun c => rebuild mem pos pos (appendRange mem (.window (.of V c) first count))

/-- `for (; first != last; ++first) push_back(*first)`, as a pair that makes no range is read. -/
def pushAll (mem : Memory) (rg : ValueRange) : Action V Unit :=
  forEach rg (fun _ x => pushBack mem x) ()

/-- `insert(position, first, last)` of a C++17 iterator pair, read once into the rebuilt sequence;
    any other pair is a range. -/
def insertPair (mem : Memory) (position : Nat) (rg : ValueRange) : Action V Nat :=
  indexOf position >>= fun pos => rebuild mem pos pos (pushAll mem rg)

/-- `insert(position, n, value)`. -/
def insertCount (mem : Memory) (position n : Nat) (value : Bool) : Action V Nat := do
  let pos ← indexOf position
  openGap mem pos n
  modify (·.setRange pos n value)
  pure pos

/-- `erase(first, last)`. -/
def eraseRange (mem : Memory) (first last : Nat) : Action V Nat := fun c =>
  if last < first then .error .abort c
  else
    (do
      let pos ← indexOf first
      let last ← indexOf last
      closeGap mem pos last
      pure pos : Action V Nat) c

/-- `erase(position)`: dereferenceable, which the end is not. -/
def erase (mem : Memory) (position : Nat) : Action V Nat := fun c =>
  if position = c.size then .error .abort c else eraseRange mem position (position + 1) c

/-- `resize(n, value)`. -/
def resize (mem : Memory) (n : Nat) (value : Bool) : Action V Unit := do
  let n ← checkedWidth V n
  BitBlockContainer.resize mem n value

/-- `assign(n, value)`: a clear and a refill. -/
def assignCount (mem : Memory) (n : Nat) (value : Bool) : Action V Unit := do
  clear mem
  resize mem n value

/-- `assign(first, last)`. -/
def assignPair (mem : Memory) (rg : ValueRange) : Action V Unit := do
  clear mem
  pushAll mem rg

/-- `assign_range`: an overflow leaves what was appended. -/
def assignRange (mem : Memory) (rg : SourceRange V) : Action V Unit := do
  clear mem
  appendRange mem rg

/-! ## 2. Values pushed one by one -/

section Push
variable {c d : BitBlockContainer V} {mem : Memory} {k : Nat} {g : Nat → Bool} {rg : ValueRange}

theorem Extended.push_ends (h : Extended c d k g) (hs : V.hasStoredSize = true) :
    Ends (pushBack mem (g k)) d (fun _ e => Extended c e (k + 1) g)
      fun _ t => t = d ∧ ¬ HasRoom V mem (c.size + (k + 1)) := by
  have hsize := h.size
  show Ends (resizeTo mem (d.size + 1) (g k)) d _ _
  refine (resizeTo_ends h.inv hs).mono (fun _ e he => ?_) fun _ _ ht => ?_
  · have hes := he.size
    refine ⟨he.inv, he.roomy, by omega, fun p hp => ?_⟩
    rw [he.bit, if_pos (by omega)]
    by_cases hin : p < d.size
    · rw [if_pos hin, h.bit p (by omega)]
    · rw [if_neg hin, if_neg (by omega)]
      congr 1
      omega
  · rw [show c.size + (k + 1) = d.size + 1 by omega]
    exact ⟨ht.1, ht.2.2⟩

/-- **Values pushed**, a throw leaving those before it. -/
theorem pushAll_ends (h : c.Inv) (hr : c.mBlocks.Roomy V) (hs : V.hasStoredSize = true) :
    Ends (pushAll mem rg) c (fun _ d => Extended c d rg.distance fun i => rg.read.getD i false)
      fun _ _ => rg.throws = false → ¬ HasRoom V mem (c.size + rg.distance) := by
  unfold pushAll forEach
  refine rg.read_ends (P := fun m _ d => Extended c d m fun i => rg.read.getD i false)
    (fun m _ d hm hd => ?_) (.refl h hr) fun hthrows _ _ _ hf => ?_
  · exact (hd.push_ends hs).mono (fun _ _ he => he) fun _ _ ht _ hroom =>
      ht.2 (hroom.mono (by omega))
  · rw [hthrows] at hf
    cases hf

end Push

/-! ## 3. Insertion -/

section Insert
variable {c d : BitBlockContainer V} {mem : Memory} {pos n : Nat} {g : Nat → Bool}

theorem indexOf_ends (hpos : pos ≤ c.size) {E : Exn → BitBlockContainer V → Prop} :
    Ends (indexOf pos) c (fun a d => c = d ∧ pos = a) E := by
  have hin : indexOf pos c = .ok pos c := if_neg (Nat.not_lt.mpr hpos)
  unfold Ends
  rw [hin]
  exact ⟨rfl, rfl⟩

/-- **A sequence rebuilt around its middle**: the gap of it filled, or everything as it was. -/
theorem rebuild_ends (h : c.Inv) (hs : V.hasStoredSize = true) (hu : V.hasStoredCount = false)
    (hpos : pos ≤ c.size) {middle : Action V Unit} {reads : Prop}
    (hmiddle : ∀ t : BitBlockContainer V, t.Inv → t.mBlocks.Roomy V →
      Ends middle t (fun _ u => Extended t u n g) fun _ _ => reads → ¬ HasRoom V mem (t.size + n)) :
    Ends (rebuild mem pos pos middle) c (fun r d => r = pos ∧ Filled c d pos n n g)
      fun _ t => t = c ∧ (reads → ¬ HasRoom V mem (c.size + n)) := by
  have hinv := (default_spec (V := V) (Or.inl hs) c.mBlocks.alloc).1
  have hempty : (BitBlockContainer.default V c.mBlocks.alloc).size = 0 := by
    rw [size_of_stored hs]
    split <;> rfl
  have hbuild : Ends (do
      blit mem (.of V c) 0 pos
      middle
      blit mem (.of V c) pos (c.size - pos) : Action V Unit)
      (BitBlockContainer.default V c.mBlocks.alloc)
      (fun _ t => t.Inv ∧ t.mBlocks.Roomy V ∧ t.size = c.size + n ∧
        ∀ p, p < c.size + n → t.bit p =
          if p < pos then c.bit p else if p < pos + n then g (p - pos) else c.bit (p - n))
      fun _ _ => reads → ¬ HasRoom V mem (c.size + n) := by
    have hwindow {first count : Nat} (hin : first + count ≤ c.size) (t : BitBlockContainer V) :
        BitSource.Holds (.of V c) t first count := ⟨h, hin⟩
    refine ends_bind ((blit_ends hinv (default_roomy _) hs hu (hwindow (by omega) _)).mono
      (fun _ _ ht => ht) fun _ _ ht _ hroom => ht.2 (hroom.mono (by omega))) ?_
    intro _ t1 h1
    have hs1 := h1.size
    refine ends_bind ((hmiddle t1 h1.inv h1.roomy).mono (fun _ _ ht => ht)
      fun _ _ ht hreads hroom => ht hreads (hroom.mono (by omega))) ?_
    intro _ t2 h2
    have hs2 := h2.size
    refine (blit_ends h2.inv h2.roomy hs hu (hwindow (by omega) _)).mono ?_
      fun _ _ ht _ hroom => ht.2 (hroom.mono (by omega))
    intro _ t3 h3
    have hs3 := h3.size
    refine ⟨h3.inv, h3.roomy, by omega, fun p hp => ?_⟩
    rw [h3.bit p (by omega)]
    by_cases hp1 : p < pos
    · rw [if_pos hp1, if_pos (by omega), h2.old (by omega), h1.bit p (by omega), if_neg (by omega)]
      show c.bit (0 + (p - _)) = c.bit p
      congr 1
      omega
    · rw [if_neg hp1]
      by_cases hp2 : p < pos + n
      · rw [if_pos hp2, if_pos (by omega), h2.bit p (by omega), if_neg (by omega)]
        congr 1
        omega
      · rw [if_neg hp2, if_neg (by omega)]
        show c.bit (pos + (p - _)) = c.bit (p - n)
        congr 1
        omega
  unfold rebuild Ends
  dsimp only
  cases hb : (do
      blit mem (.of V c) 0 pos
      middle
      blit mem (.of V c) pos (c.size - pos) : Action V Unit)
      (BitBlockContainer.default V c.mBlocks.alloc) with
  | error e t => exact ⟨rfl, hbuild.error hb⟩
  | ok _ t =>
      obtain ⟨hti, htr, hts, htb⟩ := hbuild.ok hb
      dsimp only
      cases hm : moveAssign mem t c with
      | error e d =>
          refine ⟨moveAssign_strong e d hm, fun _ hroom => ?_⟩
          rw [← hts] at hroom
          obtain ⟨_, _, hok⟩ := hroom.moveAssign (c := c) hti.shape
          rw [hm] at hok
          cases hok
      | ok left d =>
          obtain ⟨hsame, -⟩ := moveAssign_ok hti hm
          have hbit (p : Nat) (hp : p < c.size + n) := (hsame.bit p).trans (htb p hp)
          refine ⟨rfl, ⟨hti.transferred hsame, moveAssign_roomy htr hm, by rw [hsame.size, hts],
            fun p hp => ?_, fun p h1 h2 => ?_⟩, fun i hi => ?_⟩
          · rw [hbit p (by omega), if_pos hp]
          · rw [hbit _ (by omega), if_neg (by omega), if_neg (by omega), Nat.add_sub_cancel]
          · rw [hbit _ (by omega), if_neg (by omega), if_pos (by omega), Nat.add_sub_cancel_left]

/-- **A range of known size inserted**: a throw closes the gap it opened. -/
theorem insertValues_ends {rg : ValueRange} (h : c.Inv) (hs : V.hasStoredSize = true)
    (hu : V.hasStoredCount = false) (hpos : pos ≤ c.size) :
    Ends (insertValues mem pos rg) c
      (fun r d => r = pos ∧ Filled c d pos rg.distance rg.distance fun i => rg.read.getD i false)
      fun _ t => Intact c t ∧ (rg.throws = false → ¬ HasRoom V mem (c.size + rg.distance)) := by
  refine ends_bind ((openGap_ends h hs hu hpos).mono (fun _ _ hd => hd)
    fun _ _ ht => ⟨.of_eq ht.1, fun _ => ht.2⟩) fun _ d hd => ?_
  refine ends_bind (ends_onThrow ((writeAt_ends hd hpos).mono (fun _ _ he => he) ?_))
    fun _ e he => ends_pure ⟨rfl, he⟩
  intro _ t ⟨ht, hthrows⟩
  refine (ht.close_ends h hs hu hpos).mono (fun _ u hut => ⟨hut, fun hf => ?_⟩) fun _ _ hf => nomatch hf
  rw [hthrows] at hf
  cases hf

/-- **A window of another sequence inserted.** -/
theorem insertBlocks_ends {U : Vehicle w} {src : BitBlockContainer U} {first : Nat} (h : c.Inv)
    (hs : V.hasStoredSize = true) (hu : V.hasStoredCount = false) (hpos : pos ≤ c.size)
    (hsrc : src.Inv) (hin : first + n ≤ src.size) :
    Ends (insertBlocks mem pos src first n) c
      (fun r d => r = pos ∧ Filled c d pos n n fun i => src.bit (first + i))
      fun _ t => t = c ∧ ¬ HasRoom V mem (c.size + n) := by
  refine ends_bind (openGap_ends h hs hu hpos) fun _ d hd => ?_
  refine ends_bind (ends_modify
    (R := fun _ e => Filled c e pos n n fun i => src.bit (first + i)) ?_)
    fun _ e he => ends_pure ⟨rfl, he⟩
  exact blitAt_spec hd hpos hu hsrc hin

/-- **A range inserted**: its values in place, or everything as it was. A range whose reading throws
    nothing is refused only where its width does not fit. -/
theorem insertRange_ends {rg : SourceRange V} (h : c.Inv) (hs : V.hasStoredSize = true)
    (hu : V.hasStoredCount = false) (hpos : pos ≤ c.size) (hrg : rg.Readable c) :
    Ends (insertRange mem pos rg) c
      (fun r d => r = pos ∧ Filled c d pos rg.count rg.count fun i => rg.value c i)
      fun _ t => Intact c t ∧ (rg.throws = false → ¬ HasRoom V mem (c.size + rg.count)) := by
  refine ends_bind (indexOf_ends hpos) ?_
  intro _ _ ⟨hc, hp⟩
  subst hc hp
  cases rg with
  | values rg =>
      dsimp only
      split
      · exact insertValues_ends h hs hu hpos
      · refine (rebuild_ends (g := fun i => rg.read.getD i false) h hs hu hpos
          (fun t ht htr => ?_)).mono (fun _ _ hd => hd) fun _ _ ht => ⟨.of_eq ht.1, ht.2⟩
        have hread : (SourceRange.values rg : SourceRange V).Readable t := trivial
        exact (appendRange_ends ht htr hs hu hread).mono (fun _ _ hu => hu) fun _ _ hu => hu.2
  | window src first count =>
      cases src with
      | of U bits =>
          exact (insertBlocks_ends h hs hu hpos hrg.1 hrg.2).mono (fun _ _ hd => hd)
            fun _ _ ht => ⟨.of_eq ht.1, fun _ => ht.2⟩
      | own =>
          refine ends_bind_get ((rebuild_ends (g := fun i => c.bit (first + i)) h hs hu hpos
            (fun t ht htr => ?_)).mono (fun _ _ hd => hd) fun _ _ ht => ⟨.of_eq ht.1, ht.2⟩)
          have hread : (SourceRange.window (.of V c) first count : SourceRange V).Readable t :=
            ⟨h, hrg⟩
          exact (appendRange_ends ht htr hs hu hread).mono (fun _ _ hu => hu) fun _ _ hu => hu.2

/-- **A pair read once inserted.** -/
theorem insertPair_ends {rg : ValueRange} (h : c.Inv) (hs : V.hasStoredSize = true)
    (hu : V.hasStoredCount = false) (hpos : pos ≤ c.size) :
    Ends (insertPair mem pos rg) c
      (fun r d => r = pos ∧ Filled c d pos rg.distance rg.distance fun i => rg.read.getD i false)
      fun _ t => t = c ∧ (rg.throws = false → ¬ HasRoom V mem (c.size + rg.distance)) := by
  refine ends_bind (indexOf_ends hpos) ?_
  intro _ _ ⟨hc, hp⟩
  subst hc hp
  exact rebuild_ends h hs hu hpos fun t ht htr => pushAll_ends ht htr hs

/-- **`n` copies of a value inserted.** -/
theorem insertCount_ends {v : Bool} (h : c.Inv) (hs : V.hasStoredSize = true)
    (hu : V.hasStoredCount = false) (hpos : pos ≤ c.size) :
    Ends (insertCount mem pos n v) c (fun r d => r = pos ∧ Filled c d pos n n fun _ => v)
      fun _ t => t = c ∧ ¬ HasRoom V mem (c.size + n) := by
  refine ends_bind (indexOf_ends hpos) ?_
  intro _ _ ⟨hc, hp⟩
  subst hc hp
  refine ends_bind (openGap_ends h hs hu hpos) fun _ d hd => ?_
  refine ends_bind (ends_modify (R := fun _ e => Filled c e pos n n fun _ => v) (hd.setRange hpos))
    fun _ e he => ends_pure ⟨rfl, he⟩

end Insert

/-! ## 4. Erasure, and a width or a content given anew -/

section Erase
variable {c : BitBlockContainer V} {mem : Memory} {n first last : Nat} {v : Bool} {rg : ValueRange}
  {E : Exn → BitBlockContainer V → Prop}

/-- **A range erased**, which never throws. -/
theorem eraseRange_ends (h : c.Inv) (hr : c.mBlocks.Roomy V) (hs : V.hasStoredSize = true)
    (hu : V.hasStoredCount = false) (hfirst : first ≤ last) (hlast : last ≤ c.size) :
    Ends (eraseRange mem first last) c (fun r d => r = first ∧ Erased c d first last) E := by
  have hrun : Ends (do
      let pos ← indexOf first
      let last ← indexOf last
      closeGap mem pos last
      pure pos : Action V Nat) c (fun r d => r = first ∧ Erased c d first last) E := by
    refine ends_bind (indexOf_ends (by omega)) ?_
    intro _ _ ⟨hc, hp⟩
    subst hc hp
    refine ends_bind (indexOf_ends hlast) ?_
    intro _ _ ⟨hc, hp⟩
    subst hc hp
    refine ends_bind ((closeGap_ends h hr hs hu hfirst hlast).mono (fun _ _ hd => hd)
      fun _ _ hf => nomatch hf) fun _ d hd => ends_pure ⟨rfl, hd⟩
  unfold Ends eraseRange at *
  rw [if_neg (Nat.not_lt.mpr hfirst)]
  exact hrun

theorem erase_ends (h : c.Inv) (hr : c.mBlocks.Roomy V) (hs : V.hasStoredSize = true)
    (hu : V.hasStoredCount = false) (hfirst : first < c.size) :
    Ends (erase mem first) c (fun r d => r = first ∧ Erased c d first (first + 1)) E := by
  have hrun : Ends (eraseRange mem first (first + 1)) c _ E :=
    eraseRange_ends h hr hs hu (Nat.le_succ first) hfirst
  unfold Ends erase at *
  rw [if_neg (Nat.ne_of_lt hfirst)]
  exact hrun

/-- **A width given**, with the new positions at `v`. -/
theorem resize_ends (h : c.Inv) (hs : V.hasStoredSize = true) :
    Ends (resize mem n v) c (fun _ d => Resized c d n v) fun _ _ => ¬ HasRoom V mem n := by
  refine ends_bind (P := fun a d => c = d ∧ n = a) ?_ ?_
  · unfold checkedWidth Ends
    cases hn : checkAddressableWidth V n with
    | error e =>
        intro hroom
        rw [hroom.checked] at hn
        cases hn
    | ok a =>
        unfold checkAddressableWidth at hn
        split at hn
        · cases hn
        · cases hn
          exact ⟨rfl, rfl⟩
  · intro _ _ ⟨hc, hn⟩
    subst hc hn
    exact (resizeTo_ends h hs).mono (fun _ _ hd => hd) fun _ _ ht => ht.2.2

/-- **Everything erased**, which never throws. -/
theorem clear_ends (h : c.Inv) (hr : c.mBlocks.Roomy V) (hs : V.hasStoredSize = true) :
    Ends (clear mem) c (fun _ d => d.Inv ∧ d.mBlocks.Roomy V ∧ d.size = 0) E :=
  (shrink_ends h hr hs (Nat.zero_le _)).mono (fun _ _ hd => ⟨hd.inv, hd.roomy, hd.size⟩)
    fun _ _ hf => nomatch hf

theorem assignCount_ends (h : c.Inv) (hr : c.mBlocks.Roomy V) (hs : V.hasStoredSize = true) :
    Ends (assignCount mem n v) c
      (fun _ d => d.Inv ∧ d.mBlocks.Roomy V ∧ d.size = n ∧ ∀ p, p < n → d.bit p = v)
      fun _ _ => ¬ HasRoom V mem n := by
  refine ends_bind (clear_ends h hr hs) ?_
  intro _ e ⟨he, _, hsize⟩
  refine (resize_ends he hs).mono (fun _ d hd => ⟨hd.inv, hd.roomy, hd.size, fun p hp => ?_⟩)
    fun _ _ ht => ht
  rw [hd.bit, if_pos hp, if_neg (by omega)]

theorem assignPair_ends (h : c.Inv) (hr : c.mBlocks.Roomy V) (hs : V.hasStoredSize = true) :
    Ends (assignPair mem rg) c
      (fun _ d => d.Inv ∧ d.mBlocks.Roomy V ∧ d.size = rg.distance ∧
        ∀ p, p < rg.distance → d.bit p = rg.read.getD p false)
      fun _ _ => rg.throws = false → ¬ HasRoom V mem rg.distance := by
  refine ends_bind (clear_ends h hr hs) ?_
  intro _ e ⟨he, her, hsize⟩
  refine (pushAll_ends he her hs).mono (fun _ d hd => ?_) fun _ _ ht => ?_
  · have hds := hd.size
    refine ⟨hd.inv, hd.roomy, by omega, fun p hp => ?_⟩
    rw [hd.bit p (by omega), if_neg (by omega), hsize, Nat.sub_zero]
  · rwa [hsize, Nat.zero_add] at ht

/-- A clear first, so that no window of the sequence itself is left to read. -/
theorem assignRange_ends {rg : SourceRange V} (h : c.Inv) (hr : c.mBlocks.Roomy V)
    (hs : V.hasStoredSize = true) (hu : V.hasStoredCount = false) (hrg : rg.Readable c)
    (hown : ∀ first count, rg ≠ .window .own first count) :
    Ends (assignRange mem rg) c
      (fun _ d => d.Inv ∧ d.mBlocks.Roomy V ∧ d.size = rg.count ∧
        ∀ p, p < rg.count → d.bit p = rg.value c p)
      fun _ _ => rg.throws = false → ¬ HasRoom V mem rg.count := by
  have helsewhere (d : BitBlockContainer V) :
      rg.Readable d ∧ ∀ p, rg.value d p = rg.value c p := by
    cases rg with
    | values rg => exact ⟨trivial, fun _ => rfl⟩
    | window src first count =>
        cases src with
        | own => exact absurd rfl (hown first count)
        | of U bits => exact ⟨hrg, fun _ => rfl⟩
  refine ends_bind (clear_ends h hr hs) ?_
  intro _ e ⟨he, her, hsize⟩
  obtain ⟨hread, hvalue⟩ := helsewhere e
  refine (appendRange_ends he her hs hu hread).mono (fun _ d hd => ?_) fun _ _ ht => ?_
  · have hds := hd.size
    refine ⟨hd.inv, hd.roomy, by omega, fun p hp => ?_⟩
    rw [hd.bit p (by omega), if_neg (by omega), hsize, Nat.sub_zero, hvalue]
  · rw [hsize, Nat.zero_add] at ht
    exact ht.2

end Erase

end SequenceAdaptor

/-! ## 5. Sequences of a bank -/

/-- A range argument, whose storage may be a sequence of the bank. -/
inductive RangeArg {w : Nat} (V : Vehicle w) where
  | window (j first count : Nat)
  | foreign (U : Vehicle w) (bits : BitBlockContainer U) (first count : Nat)
  | values (rg : ValueRange)

namespace Bank
variable {w : Nat} {V : Vehicle w}

/-- The storage of container `j` as container `i` sees it. -/
def source (S : Bank V) (i j : Nat) : BitSource V := if i = j then .own else .of V (S j)

/-- The range as container `i` sees it. -/
def range (S : Bank V) (i : Nat) : RangeArg V → SourceRange V
  | .window j first count => .window (S.source i j) first count
  | .foreign U bits first count => .window (.of U bits) first count
  | .values rg => .values rg

/-- An action on container `i`, and the bank as it is left either way. -/
def attempt {α : Type} (i : Nat) (a : Bank V → Action V α) : EStateM Exn (Bank V) α := fun S =>
  match a S (S i) with
  | .ok x d => .ok x (S.put i d)
  | .error e d => .error e (S.put i d)

variable {S : Bank V} {i j : Nat}

theorem bit_source {p : Nat} : (S.source i j).bit (S i) p = (S j).bit p := by
  unfold source
  split
  · rename_i h
    subst h
    rfl
  · rfl

theorem source_holds (h : (S j).Inv) {first count : Nat} (hin : first + count ≤ (S j).size) :
    (S.source i j).Holds (S i) first count := by
  unfold source
  split
  · rename_i hij
    subst hij
    exact hin
  · exact ⟨h, hin⟩

/-- A range that is no window of sequence `i` is read elsewhere. -/
theorem range_elsewhere {arg : RangeArg V} (h : ∀ first count, arg ≠ .window i first count) :
    ∀ first count, S.range i arg ≠ .window .own first count := by
  intro first count heq
  cases arg with
  | values rg => cases heq
  | foreign U bits first count => cases heq
  | window j a b =>
      have hij : i ≠ j := by
        intro hij
        subst hij
        exact h a b rfl
      have hof : S.source i j = .of V (S j) := if_neg hij
      have heq : SourceRange.window (S.source i j) a b = .window .own first count := heq
      rw [hof] at heq
      cases heq

end Bank

end XstdBits
