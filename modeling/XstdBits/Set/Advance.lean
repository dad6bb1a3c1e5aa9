/-
  File: XstdBits/Set/Advance.lean
  Subject: the iterators of a set moved by an offset, and the distance between two of them.

  * `singleSteps` is what `n` calls of `++` or `--`, none past a bound, do; `advanceKeys` moves to
    the n-th set position of a range instead (`advance_up`, `advance_down`).
  * a `std::ptrdiff_t` is a word of its width. The negation of the most negative one is undefined,
    and has no answer here (`negated`).
-/
import XstdBits.Container.Select
import XstdBits.Lib.Steps
import XstdBits.Set.Erasure

namespace XstdBits

namespace SetAdaptor
variable {w : Nat} {V : Vehicle w}

/-! ## 1. The offsets -/

abbrev PtrdiffT := BitVec 64

/-- `-n`, undefined where it is no `std::ptrdiff_t`. -/
def negated (n : PtrdiffT) : Option PtrdiffT := if n = BitVec.intMin 64 then none else some (-n)

/-- `n < 0 ? -n : n`, as a `std::size_t`. -/
def stepCount (n : PtrdiffT) : Option Nat :=
  if n.slt 0#64 then (negated n).map BitVec.toNat else some n.toNat

section Offsets
variable (bitSelect : BitVec w → Nat → Nat) (desc : Bool) (c : BitBlockContainer V)

/-- `advance_keys`: where it leaves the iterator at `p`, and the steps it fell short by. -/
def advanceKeys (p : Nat) (n : PtrdiffT) (bound : Nat) : Option (Nat × PtrdiffT) :=
  if n = 0#64 ∨ p = bound then some (p, n)
  else
    match stepCount n with
    | .none => none
    | .some m =>
        -- up the positions is forward in an ascending set and backward in a descending one
        let result :=
          if (BitVec.slt 0#64 n) != desc then
            c.selectUp bitSelect (if p = c.size then 0 else p + 1) bound m
          else c.selectDown bitSelect (if bound = c.size then 0 else bound + 1) p m
        result.map fun r =>
          if r.missing = 0 then (r.position, 0#64)
          else
            let rest := BitVec.ofNat 64 (r.missing - 1)
            (bound, if n.slt 0#64 then -rest else rest)

/-- `first_key_position`. -/
def firstKeyPosition : Nat := if desc then c.totalFindPrev c.size else c.findFirst

/-- `keys_between`. -/
def keysBetween (first last : Nat) : PtrdiffT :=
  if desc then
    if first = c.size then 0#64
    else
      let lo := if last = c.size then 0 else last + 1
      BitVec.ofNat 64 (c.countRange lo (first + 1 - lo))
  else BitVec.ofNat 64 (c.countRange first (last - first))

/-- `bit_advance(it, n)`, which asserts that no step is left. -/
def bitAdvance (p : Nat) (n : PtrdiffT) : Option Nat :=
  let bound := if BitVec.slt 0#64 n then c.size else firstKeyPosition desc c
  match advanceKeys bitSelect desc c p n bound with
  | .none => none
  | .some (q, rest) => if rest = 0#64 then some q else none

/-- `bit_advance(it, n, bound)`. -/
def bitAdvanceTo (p : Nat) (n : PtrdiffT) (bound : Nat) : Option (Nat × PtrdiffT) :=
  advanceKeys bitSelect desc c p n bound

def bitNext (p : Nat) (n : PtrdiffT) : Option Nat := bitAdvance bitSelect desc c p n

def bitPrev (p : Nat) (n : PtrdiffT) : Option Nat :=
  match negated n with
  | .none => none
  | .some m => bitAdvance bitSelect desc c p m

def bitDistance (first last : Nat) : PtrdiffT := keysBetween desc c first last

end Offsets

/-- **What `n` single steps do**, `++` or `--` by its sign, none past `bound`: where they end, and
    the steps not taken with the sign of `n`. -/
def singleSteps (desc : Bool) (c : BitBlockContainer V) (bound : Nat) (n : Int) (p : Nat) :
    Nat × Int :=
  if n < 0 then
    let r := stepsUntil (prevPosition desc c) bound n.natAbs p
    (r.1, -r.2)
  else
    let r := stepsUntil (nextPosition desc c) bound n.natAbs p
    (r.1, r.2)

/-! ## 2. The number of steps -/

section Ptrdiff
variable {n : PtrdiffT}

theorem slt_zero_iff : n.slt 0#64 = true ↔ n.toInt < 0 := by
  rw [BitVec.slt_iff_toInt_lt, BitVec.toInt_zero]

theorem zero_slt_iff : BitVec.slt 0#64 n = true ↔ 0 < n.toInt := by
  rw [BitVec.slt_iff_toInt_lt, BitVec.toInt_zero]

theorem eq_zero_iff : n = 0#64 ↔ n.toInt = 0 := by
  rw [← BitVec.toInt_inj, BitVec.toInt_zero]

theorem stepCount_eq (hn : n ≠ BitVec.intMin 64) : stepCount n = some n.toInt.natAbs := by
  have hne : n.toNat ≠ 2 ^ 63 := fun he => hn (BitVec.eq_of_toNat_eq he)
  have hlt := n.isLt
  have hint := BitVec.toInt_eq_toNat_cond n
  unfold stepCount negated
  split
  · rename_i hneg
    rw [slt_zero_iff] at hneg
    rw [Option.map_some, BitVec.toNat_neg]
    congr 1
    split at hint <;> omega
  · rename_i hneg
    rw [slt_zero_iff] at hneg
    congr 1
    split at hint <;> omega

theorem stepCount_intMin : stepCount (BitVec.intMin 64) = none := rfl

/-- A rest short of `n` keeps its number. -/
theorem toInt_rest {k : Nat} (hk : k < 2 ^ 63) :
    (BitVec.ofNat 64 k).toInt = k ∧ (-BitVec.ofNat 64 k).toInt = -k := by
  have h1 := BitVec.toInt_eq_toNat_cond (BitVec.ofNat 64 k)
  have h2 := BitVec.toInt_eq_toNat_cond (-BitVec.ofNat 64 k)
  rw [BitVec.toNat_neg] at h2
  rw [BitVec.toNat_ofNat] at h1 h2
  constructor
  · split at h1 <;> omega
  · split at h2 <;> omega

end Ptrdiff

/-! ## 3. A walk of many steps -/

section Steps
variable {bitSelect : BitVec w → Nat → Nat} {desc : Bool} {c : BitBlockContainer V}
  {step : Nat → Nat} {a b bound lo m p : Nat}

/-- **Steps up are a search up**: the one set position it finds, or the bound. -/
theorem advance_up (hs : BitBlockContainer.Selects bitSelect)
    (hstep : ∀ q, c.bit q = true → q < c.size → step q = nextSet c.bit (q + 1) c.size)
    (hb : c.bit bound = true ∨ bound = c.size) (hsize : bound ≤ c.size) (hm : 0 < m)
    (hab : a ≤ bound) (hpb : p ≠ bound) (hp : step p = nextSet c.bit a c.size) :
    ∃ r, c.selectUp bitSelect a bound m = some r ∧ r.missing ≤ m ∧
      stepsUntil step bound m p =
        if r.missing = 0 then (r.position, 0) else (bound, r.missing - 1) := by
  obtain ⟨r, hr, hsel⟩ := BitBlockContainer.selectUp_spec (c := c) hs hm hab hsize
  obtain ⟨m, rfl⟩ : ∃ k, m = k + 1 := ⟨m - 1, by omega⟩
  refine ⟨r, hr, ?_, ?_⟩
  · rcases hsel with ⟨h1, -⟩ | ⟨-, -, h3⟩ <;> omega
  · rw [stepsUntil_succ hpb, hp]
    rcases hsel with ⟨h1, h2, h3, h4, h5⟩ | ⟨h1, -, h3⟩
    · rw [if_pos h1]
      exact stepsUntil_up hstep hsize h3 h4 h2 (by omega)
    · rw [if_neg h1, stepsUntil_up_bound hstep hsize hb hab rfl (by omega)]
      congr 1
      omega

/-- **Steps down are a search down.** -/
theorem advance_down (hs : BitBlockContainer.Selects bitSelect)
    (hstep : ∀ q, lo ≤ q → c.bit q = true → q < c.size → step q = prevSet c.bit q c.size)
    (hb : (c.bit bound = true ∧ bound + 1 = lo) ∨ (bound = c.size ∧ lo = 0)) (hm : 0 < m)
    (hlb : lo ≤ b) (hsize : b ≤ c.size) (hpb : p ≠ bound) (hp : step p = prevSet c.bit b c.size) :
    ∃ r, c.selectDown bitSelect lo b m = some r ∧ r.missing ≤ m ∧
      stepsUntil step bound m p =
        if r.missing = 0 then (r.position, 0) else (bound, r.missing - 1) := by
  obtain ⟨r, hr, hsel⟩ := BitBlockContainer.selectDown_spec (c := c) hs hm hlb hsize
  obtain ⟨m, rfl⟩ : ∃ k, m = k + 1 := ⟨m - 1, by omega⟩
  refine ⟨r, hr, ?_, ?_⟩
  · rcases hsel with ⟨h1, -⟩ | ⟨-, -, h3⟩ <;> omega
  · rw [stepsUntil_succ hpb, hp]
    rcases hsel with ⟨h1, h2, h3, h4, h5⟩ | ⟨h1, -, h3⟩
    · rw [if_pos h1]
      exact stepsUntil_down hstep h2 (by omega) h4 h3 hsize (by omega)
    · rw [if_neg h1, stepsUntil_down_bound hstep hb hlb hsize rfl (by omega)]
      congr 1
      omega

end Steps

/-! ## 4. Where a walk leads -/

section Reach
variable {desc : Bool} {c : BitBlockContainer V} {first last p : Nat} {ps : List Nat}

theorem Walks.stands (h : c.Inv) (hw : Walks desc c first ps last) (hf : Stands c first) :
    Stands c last := by
  induction hw with
  | here n => exact hf
  | @next n last ps hn hw ih =>
      refine ih ?_
      rw [nextPosition_eq desc h (h.lt_size hn)]
      split
      · exact stands_prevSet n
      · exact stands_nextSet (n + 1)

/-- A walk of some steps starts at an element, and ends elsewhere. -/
theorem Walks.bit_first (hw : Walks desc c first ps last) (hne : first ≠ last) :
    c.bit first = true := by
  cases hw with
  | here n => exact absurd rfl hne
  | next hn _ => exact hn

/-- **Which side of a position a bound lies on**, ahead of it in the comparator's direction. -/
theorem walks_side (h : c.Inv) (hw : Walks desc c first ps last) (hne : first ≠ last) :
    if desc then last = c.size ∨ last < first else first < last := by
  cases desc
  · have hle := (walks_up h hw).1
    exact Nat.lt_of_le_of_ne hle hne
  · rcases walks_down h hw with ⟨-, he⟩ | ⟨-, hlast, -⟩
    · exact absurd he hne
    · exact hlast

/-- How many positions lie ahead of an iterator, in the comparator's direction. -/
def ahead (desc : Bool) (c : BitBlockContainer V) (p : Nat) : Nat :=
  if desc then (if p = c.size then 0 else p + 1) else c.size - p

theorem ahead_next (desc : Bool) (h : c.Inv) (hb : c.bit p = true) :
    ahead desc c (nextPosition desc c p) < ahead desc c p := by
  have hlt := h.lt_size hb
  rw [nextPosition_eq desc h hlt]
  unfold ahead
  cases desc
  · show c.size - nextSet c.bit (p + 1) c.size < c.size - p
    rcases nextSet_spec c.bit (p + 1) c.size with ⟨h1, -⟩ | ⟨h1, -⟩ <;> omega
  · show (if prevSet c.bit p c.size = c.size then 0 else prevSet c.bit p c.size + 1) <
      if p = c.size then 0 else p + 1
    rw [if_neg (show ¬ p = c.size by omega)]
    rcases prevSet_spec c.bit p c.size with ⟨h1, -⟩ | ⟨h1, -⟩ <;> split <;> omega

/-- Every iterator comes to the end. -/
theorem walks_to_end (desc : Bool) (h : c.Inv) : ∀ {p : Nat}, Stands c p →
    ∃ ps, Walks desc c p ps (endPos c)
  | p, hp => by
      by_cases he : p = endPos c
      · exact ⟨[], he ▸ .here p⟩
      · have hb := hp.resolve_right he
        have hcloser := ahead_next desc h hb
        have hstands : Stands c (nextPosition desc c p) :=
          (Walks.next hb (.here _) : Walks desc c p [p] (nextPosition desc c p)).stands h hp
        obtain ⟨ps, hw⟩ := walks_to_end desc h hstands
        exact ⟨p :: ps, .next hb hw⟩
termination_by p => ahead desc c p

theorem Walks.cut (hw : Walks desc c first ps last) (hp : p ∈ ps) :
    ∃ qs, Walks desc c first qs p := by
  induction hw with
  | here n => exact absurd hp List.not_mem_nil
  | @next n last ps hn hw ih =>
      rcases List.mem_cons.mp hp with rfl | hp
      · exact ⟨[], .here p⟩
      · obtain ⟨qs, hq⟩ := ih hp
        exact ⟨n :: qs, .next hn hq⟩

/-- Every iterator is come to from the first. -/
theorem walks_from_begin (desc : Bool) (h : c.Inv) (hp : Stands c p) :
    ∃ ps, Walks desc c (beginPos desc c) ps p := by
  have hbegin : beginPos desc c =
      if desc then prevSet c.bit c.size c.size else nextSet c.bit 0 c.size := beginPos_eq h
  have hstands : Stands c (beginPos desc c) := by
    rw [hbegin]
    split
    · exact stands_prevSet c.size
    · exact stands_nextSet 0
  obtain ⟨ps, hw⟩ := walks_to_end desc h hstands
  rcases hp with hb | he
  · refine hw.cut ?_
    have hlt := h.lt_size hb
    cases desc
    · rw [(walks_up h hw).2, hbegin, if_neg (by decide)]
      exact ⟨hb, (nextSet_toward (Nat.zero_le p) (Nat.le_of_lt hlt) (Or.inl hb)).2.1, hlt⟩
    · rw [if_pos rfl] at hbegin
      have hle : p ≤ beginPos true c ∧ beginPos true c ≠ c.size := by
        rw [hbegin]
        rcases prevSet_spec c.bit c.size c.size with ⟨h1, -, h3⟩ | ⟨-, h2⟩
        · refine ⟨?_, by omega⟩
          by_contra hgt
          rw [h3 p (by omega) hlt] at hb
          cases hb
        · rw [h2 p hlt] at hb
          cases hb
      rcases walks_down h hw with ⟨-, he⟩ | ⟨-, -, hmem⟩
      · exact absurd he hle.2
      · exact (hmem p).mpr ⟨hb, hle.1, Or.inl rfl⟩
  · exact ⟨ps, he ▸ hw⟩

/-- **The number of `++` from one iterator to another**, as a count of set positions. -/
theorem walks_length (h : c.Inv) (hw : Walks desc c first ps last) : ps.length =
    if desc then
      if first = c.size then 0
      else countIn c.bit (if last = c.size then 0 else last + 1)
        (first + 1 - (if last = c.size then 0 else last + 1))
    else countIn c.bit first (last - first) := by
  induction hw with
  | here n =>
      rw [Nat.sub_self]
      cases desc
      · rfl
      · show 0 = if n = c.size then 0 else _
        split
        · rfl
        · rw [Nat.sub_self]
          rfl
  | @next n last ps hn hw ih =>
      have hlt := h.lt_size hn
      have hstep := nextPosition_eq desc h hlt
      rw [List.length_cons, ih]
      cases desc
      · have hle := (walks_up h hw).1
        rw [hstep] at hle ⊢
        simp only [Bool.false_eq_true, if_false] at hle ⊢
        have hpast : n + 1 ≤ nextSet c.bit (n + 1) c.size := le_nextSet hlt
        rw [← countIn_skip hpast hle fun j h1 h2 => nextSet_clear h1 h2,
          show last - n = last - (n + 1) + 1 by omega, countIn_succ_left hn]
      · rw [hstep] at hw ih ⊢
        simp only [if_true] at hw ih ⊢
        rw [if_neg (show ¬ n = c.size by omega)]
        generalize hlo : (if last = c.size then 0 else last + 1) = lo at ih ⊢
        -- no key between the two, down to the limit
        have hgap : lo ≤ n ∧ countIn c.bit lo (n - lo) =
            if prevSet c.bit n c.size = c.size then 0
            else countIn c.bit lo (prevSet c.bit n c.size + 1 - lo) := by
          rcases prevSet_spec c.bit n c.size with ⟨h1, h2, h3⟩ | ⟨h1, h2⟩
          · have hside : lo ≤ prevSet c.bit n c.size + 1 := by
              rcases walks_down h hw with ⟨-, he⟩ | ⟨-, hlast, -⟩
              · split at hlo <;> omega
              · split at hlo <;> omega
            rw [if_neg (by omega)]
            exact ⟨by omega, countIn_drop hside (by omega) fun j hj1 hj2 => h3 j (by omega) hj2⟩
          · have hlast : last = c.size := by
              rcases walks_down h hw with ⟨-, he⟩ | ⟨hb, -⟩
              · omega
              · rw [h1, h.clear _ (Nat.le_refl _)] at hb
                cases hb
            rw [if_pos h1, ← hlo, if_pos hlast]
            exact ⟨Nat.zero_le n, countIn_clear fun j _ hj => h2 j (by omega)⟩
        rw [← hgap.2, show n + 1 - lo = n - lo + 1 by omega, countIn_succ_right]
        rw [show lo + (n - lo) = n by omega, hn]

end Reach

/-! ## 5. Up to a bound -/

section Bounded
variable {bitSelect : BitVec w → Nat → Nat} {desc : Bool} {c : BitBlockContainer V}
  {bound p : Nat} {n : PtrdiffT}

/-- `bound` is reached from `p` in the direction of `n`. -/
def Toward (desc : Bool) (c : BitBlockContainer V) (n : Int) (p bound : Nat) : Prop :=
  if 0 < n then ∃ ps, Walks desc c p ps bound
  else if n < 0 then ∃ ps, Walks desc c bound ps p
  else True

/-- **The search stands for the steps**, in either direction of either order. -/
theorem search_steps (hs : BitBlockContainer.Selects bitSelect) (h : c.Inv) (hp : Stands c p)
    {fwd : Bool} (hr : if fwd then ∃ ps, Walks desc c p ps bound else ∃ ps, Walks desc c bound ps p)
    (hne : p ≠ bound) {m : Nat} (hm : 0 < m) :
    ∃ r, (if fwd != desc then
        c.selectUp bitSelect (if p = c.size then 0 else p + 1) bound m
      else c.selectDown bitSelect (if bound = c.size then 0 else bound + 1) p m) = some r ∧
      r.missing ≤ m ∧
      stepsUntil (if fwd then nextPosition desc c else prevPosition desc c) bound m p =
        if r.missing = 0 then (r.position, 0) else (bound, r.missing - 1) := by
  have hple := hp.le h
  cases fwd
  · obtain ⟨ps, hw⟩ : ∃ ps, Walks desc c bound ps p := hr
    have hb := hw.bit_first (Ne.symm hne)
    have hblt := h.lt_size hb
    have hside := walks_side h hw (Ne.symm hne)
    cases desc
    · -- backward in an ascending set: down
      have hside : bound < p := hside
      have hprev (q : Nat) (hq : bound < q) (hqs : q ≤ c.size) :
          prevPosition false c q = prevSet c.bit q c.size :=
        BitBlockContainer.exclusiveFindPrev_eq h hqs ⟨bound, hq, hb⟩
      show ∃ r, c.selectDown bitSelect (if bound = c.size then 0 else bound + 1) p m = some r ∧ _
      rw [if_neg (by omega)]
      exact advance_down hs (fun q h1 _ h3 => hprev q h1 (Nat.le_of_lt h3)) (Or.inl ⟨hb, rfl⟩) hm
        hside hple hne (hprev p hside hple)
    · -- backward in a descending set: up, the end being below position nought
      have hside : p = c.size ∨ p < bound := hside
      have hstep (q : Nat) (hq : q < c.size) :
          prevPosition true c q = nextSet c.bit (q + 1) c.size := by
        unfold prevPosition
        rw [if_neg (by decide), if_neg (by omega), BitBlockContainer.exclusiveFindNext_eq h hq]
      show ∃ r, c.selectUp bitSelect (if p = c.size then 0 else p + 1) bound m = some r ∧ _
      refine advance_up hs (fun q _ hq => hstep q hq) (Or.inl hb) (Nat.le_of_lt hblt) hm ?_ hne ?_
      · split <;> omega
      · show prevPosition true c p = _
        split
        · rename_i he
          subst he
          unfold prevPosition
          rw [if_neg (by decide), if_pos rfl, BitBlockContainer.findFirst_eq h]
        · exact hstep p (by omega)
  · obtain ⟨ps, hw⟩ : ∃ ps, Walks desc c p ps bound := hr
    have hb := hw.stands h hp
    have hbit := hw.bit_first hne
    have hlt := h.lt_size hbit
    have hble := hb.le h
    have hside := walks_side h hw hne
    have hstep (q : Nat) (hq : q < c.size) := nextPosition_eq desc h hq
    cases desc
    · -- forward in an ascending set: up
      have hside : p < bound := hside
      show ∃ r, c.selectUp bitSelect (if p = c.size then 0 else p + 1) bound m = some r ∧ _
      rw [if_neg (by omega)]
      exact advance_up hs (fun q _ hq => hstep q hq) hb hble hm hside hne (hstep p hlt)
    · -- forward in a descending set: down
      have hside : bound = c.size ∨ bound < p := hside
      show ∃ r, c.selectDown bitSelect (if bound = c.size then 0 else bound + 1) p m = some r ∧ _
      have hlo : (c.bit bound = true ∧ bound + 1 = if bound = c.size then 0 else bound + 1) ∨
          (bound = c.size ∧ (if bound = c.size then 0 else bound + 1) = 0) := by
        rcases hb with hb | hb
        · have := h.lt_size hb
          exact Or.inl ⟨hb, (if_neg (by omega)).symm⟩
        · exact Or.inr ⟨hb, if_pos hb⟩
      refine advance_down hs (fun q _ _ hq => hstep q hq) hlo hm ?_ hple hne (hstep p hlt)
      split <;> omega

/-- **The offset up to a bound is that many single steps**, where its number can be negated. -/
theorem advanceKeys_spec (hs : BitBlockContainer.Selects bitSelect) (h : c.Inv) (hp : Stands c p)
    (hr : Toward desc c n.toInt p bound) (hn : n = BitVec.intMin 64 → p = bound) :
    (advanceKeys bitSelect desc c p n bound).map (fun r => (r.1, r.2.toInt)) =
      some (singleSteps desc c bound n.toInt p) := by
  unfold advanceKeys singleSteps
  by_cases h0 : n.toInt = 0
  · rw [if_pos (Or.inl (eq_zero_iff.mpr h0)), h0, if_neg (by decide), Option.map_some, h0]
    rfl
  by_cases hpb : p = bound
  · subst hpb
    rw [if_pos (Or.inr rfl), Option.map_some, stepsUntil_bound, stepsUntil_bound]
    split
    · exact congrArg some (Prod.ext rfl (by dsimp only; omega))
    · exact congrArg some (Prod.ext rfl (by dsimp only; omega))
  have hmin : n ≠ BitVec.intMin 64 := fun he => hpb (hn he)
  rw [if_neg (by rw [eq_zero_iff]; tauto), stepCount_eq hmin]
  have hbig : n.toInt.natAbs < 2 ^ 63 := by
    have hne : n.toNat ≠ 2 ^ 63 := fun he => hmin (BitVec.eq_of_toNat_eq he)
    have hlt := n.isLt
    have hint := BitVec.toInt_eq_toNat_cond n
    split at hint <;> omega
  have hside : if BitVec.slt 0#64 n then ∃ ps, Walks desc c p ps bound
      else ∃ ps, Walks desc c bound ps p := by
    unfold Toward at hr
    by_cases hpos : 0 < n.toInt
    · rw [if_pos hpos] at hr
      rwa [if_pos (zero_slt_iff.mpr hpos)]
    · rw [if_neg hpos, if_pos (by omega)] at hr
      rwa [if_neg (by rw [zero_slt_iff]; exact hpos)]
  obtain ⟨r, h1, h2, h3⟩ := search_steps hs h hp hside hpb
    (show 0 < n.toInt.natAbs by omega)
  dsimp only
  rw [h1, Option.map_some, Option.map_some]
  obtain ⟨hrest, hneg⟩ := toInt_rest (k := r.missing - 1) (by omega)
  by_cases hlt : n.toInt < 0
  · have hslt : n.slt 0#64 = true := slt_zero_iff.mpr hlt
    have hpos : BitVec.slt 0#64 n = false := by
      rw [Bool.eq_false_iff, Ne, zero_slt_iff]
      omega
    rw [hpos] at h3
    rw [if_pos hlt, show stepsUntil (prevPosition desc c) bound n.toInt.natAbs p = _ from h3]
    split
    · rfl
    · exact congrArg some (Prod.ext rfl hneg)
  · have hslt : ¬ n.slt 0#64 = true := by rwa [slt_zero_iff]
    have hpos : BitVec.slt 0#64 n = true := zero_slt_iff.mpr (by omega)
    rw [hpos] at h3
    rw [if_neg hlt, show stepsUntil (nextPosition desc c) bound n.toInt.natAbs p = _ from h3]
    split
    · rfl
    · exact congrArg some (Prod.ext rfl hrest)

/-- The most negative offset has no answer, except where nothing is to be done. -/
theorem advanceKeys_intMin (hpb : p ≠ bound) :
    advanceKeys bitSelect desc c p (BitVec.intMin 64) bound = none := by
  unfold advanceKeys
  rw [if_neg, stepCount_intMin]
  intro h0
  rcases h0 with h0 | h0
  · exact absurd h0 (by decide)
  · exact hpb h0

/-- Where `n` steps exist, none past the end they lead towards, the unbounded offset takes them. -/
theorem bitAdvance_iff (hs : BitBlockContainer.Selects bitSelect) (h : c.Inv) (hp : Stands c p)
    {q : Nat} (hq : singleSteps desc c (if 0 < n.toInt then endPos c else beginPos desc c) n.toInt p
      = (q, 0)) : bitAdvance bitSelect desc c p n = some q ↔ n ≠ BitVec.intMin 64 := by
  have hfirst : firstKeyPosition desc c = beginPos desc c := rfl
  have hbound : (if BitVec.slt 0#64 n then c.size else firstKeyPosition desc c) =
      if 0 < n.toInt then endPos c else beginPos desc c :=
    if_congr zero_slt_iff rfl hfirst
  have hreach : Toward desc c n.toInt p (if 0 < n.toInt then endPos c else beginPos desc c) := by
    unfold Toward
    split
    · exact walks_to_end desc h hp
    · split
      · exact walks_from_begin desc h hp
      · trivial
  unfold bitAdvance
  dsimp only
  rw [hbound]
  generalize (if 0 < n.toInt then endPos c else beginPos desc c) = bound at hq hreach ⊢
  by_cases hmin : n = BitVec.intMin 64
  · have hpb : p ≠ bound := by
      intro he
      rw [he, hmin] at hq
      unfold singleSteps at hq
      rw [if_pos (by decide), stepsUntil_bound] at hq
      have hz : -((BitVec.intMin 64).toInt.natAbs : Int) = 0 := congrArg Prod.snd hq
      exact absurd hz (by decide)
    rw [hmin, advanceKeys_intMin hpb]
    exact iff_of_false nofun fun hne => hne rfl
  · refine iff_of_true ?_ hmin
    have hspec := advanceKeys_spec hs h hp hreach fun he => absurd he hmin
    rw [hq] at hspec
    obtain ⟨⟨q', rest⟩, hkeys, hpair⟩ := Option.map_eq_some_iff.mp hspec
    have hrest : rest = 0#64 := eq_zero_iff.mpr (congrArg Prod.snd hpair)
    have hq' : q' = q := congrArg Prod.fst hpair
    rw [hkeys]
    dsimp only
    rw [if_pos hrest, hq']

end Bounded

/-! ## 6. The offsets of every iterator -/

/-- A number of keys that is a `std::ptrdiff_t`. -/
theorem toInt_ofNat_iff {k : Nat} : (BitVec.ofNat 64 k).toInt = k ↔ k < 2 ^ 63 := by
  constructor
  · intro he
    have := BitVec.two_mul_toInt_lt (x := BitVec.ofNat 64 k)
    omega
  · exact fun hk => (toInt_rest hk).1

/-- **Offsets are single steps**: up to a bound, exactly where the number is not the most negative
    one or nothing is to be done; without one, where the steps exist, exactly where it is not the
    most negative one; and a distance is the number of `++`, exactly where that is a
    `std::ptrdiff_t`. -/
theorem offsets_exact_iff {bitSelect : BitVec w → Nat → Nat}
    (hs : BitBlockContainer.Selects bitSelect) (desc : Bool) {c : BitBlockContainer V} (h : c.Inv) :
    (∀ p n bound, Stands c p → Toward desc c n.toInt p bound →
      ((bitAdvanceTo bitSelect desc c p n bound).map (fun r => (r.1, r.2.toInt)) =
        some (singleSteps desc c bound n.toInt p) ↔ (n = BitVec.intMin 64 → p = bound))) ∧
    (∀ p n q, Stands c p →
      singleSteps desc c (if 0 < n.toInt then endPos c else beginPos desc c) n.toInt p = (q, 0) →
      (bitAdvance bitSelect desc c p n = some q ↔ n ≠ BitVec.intMin 64) ∧
      (bitNext bitSelect desc c p n = some q ↔ n ≠ BitVec.intMin 64)) ∧
    (∀ p n q, Stands c p →
      singleSteps desc c (if n.toInt < 0 then endPos c else beginPos desc c) (-n.toInt) p = (q, 0) →
      (bitPrev bitSelect desc c p n = some q ↔ n ≠ BitVec.intMin 64)) ∧
    ∀ first last ps, Stands c first → Walks desc c first ps last →
      ((bitDistance desc c first last).toInt = ps.length ↔ ps.length < 2 ^ 63) := by
  refine ⟨fun p n bound hp hr => ?_, fun p n q hp hq =>
    ⟨bitAdvance_iff hs h hp hq, bitAdvance_iff hs h hp hq⟩, fun p n q hp hq => ?_,
    fun first last ps hf hw => ?_⟩
  · refine ⟨fun hspec hn => ?_, advanceKeys_spec hs h hp hr⟩
    by_contra hpb
    unfold bitAdvanceTo at hspec
    rw [hn, advanceKeys_intMin hpb] at hspec
    cases hspec
  · unfold bitPrev negated
    by_cases hmin : n = BitVec.intMin 64
    · rw [if_pos hmin]
      exact iff_of_false nofun fun hne => hne hmin
    · have hneg : (-n).toInt = -n.toInt := BitVec.toInt_neg_of_ne_intMin hmin
      have hne : -n ≠ BitVec.intMin 64 := by
        intro he
        rw [BitVec.neg_eq_iff_eq_neg, BitVec.neg_intMin] at he
        exact hmin he
      rw [if_neg hmin]
      refine iff_of_true ((bitAdvance_iff hs h hp ?_).mpr hne) hmin
      rw [hneg, ← hq]
      congr 1
      exact if_congr (by omega) rfl rfl
  · have hlen := walks_length h hw
    have hl := hw.stands h hf
    have hle := hl.le h
    have heq : bitDistance desc c first last = BitVec.ofNat 64 ps.length := by
      rw [hlen]
      unfold bitDistance keysBetween
      cases desc
      · have hfl := (walks_up h hw).1
        show BitVec.ofNat 64 (c.countRange first (last - first)) = _
        rw [BitBlockContainer.countRange_eq h.shape (by omega)]
        rfl
      · simp only [if_true]
        split
        · rfl
        · rename_i hne
          have hfle := hf.le h
          have hlo : (if last = c.size then 0 else last + 1) ≤ first + 1 := by
            rcases walks_down h hw with ⟨-, he⟩ | ⟨-, hlast, -⟩ <;> split <;> omega
          rw [BitBlockContainer.countRange_eq h.shape (by omega)]
    rw [heq]
    exact toInt_ofNat_iff

/-- The set of three and nine: two steps from its end, and the distance between its ends. -/
theorem offsets_exact_nine : ∃ c : BitBlockContainer (byteVector true), c.size = 10 ∧
    bitPrev BitBlockContainer.scanSelect false c 10 2#64 = some 3 ∧
    (bitDistance false c 3 10).toInt = 2 := by
  have h0 : Reachable (byteVector true) fun _ => BitBlockContainer.default (byteVector true) 0 :=
    .start fun _ => 0
  have h1 := Reachable.step .ample 0 (.growingInsert 3) h0 (Or.inl rfl) rfl
  have h2 := Reachable.step .ample 0 (.growingInsert 9) h1 (Or.inl rfl) rfl
  obtain ⟨-, -, hprev, hdist⟩ := offsets_exact_iff BitBlockContainer.scanSelect_selects false
    (h2.inv (Or.inl rfl) 0)
  exact ⟨_, rfl, (hprev 10 2#64 3 (Or.inr rfl) rfl).mpr (by decide),
    (hdist 3 10 [3, 9] (Or.inl rfl) (.next rfl (.next rfl (.here _)))).mpr (by decide)⟩

/-- **The most negative offset is undefined**: of the set of three and nine, from nine back to its
    first key, which is one step away. -/
theorem advance_most_negative : ∃ S : Bank (byteVector true), Reachable (byteVector true) S ∧
    Stands (S 0) 9 ∧ Toward false (S 0) (BitVec.intMin 64).toInt 9 (beginPos false (S 0)) ∧
    ∀ bitSelect,
      bitAdvanceTo bitSelect false (S 0) 9 (BitVec.intMin 64) (beginPos false (S 0)) = none ∧
      (bitAdvanceTo bitSelect false (S 0) 9 (BitVec.intMin 64) (beginPos false (S 0))).map
        (fun r => (r.1, r.2.toInt)) ≠ some (singleSteps false (S 0) (beginPos false (S 0))
          (BitVec.intMin 64).toInt 9) := by
  have h0 : Reachable (byteVector true) fun _ => BitBlockContainer.default (byteVector true) 0 :=
    .start fun _ => 0
  have h1 := Reachable.step .ample 0 (.growingInsert 3) h0 (Or.inl rfl) rfl
  have h2 := Reachable.step .ample 0 (.growingInsert 9) h1 (Or.inl rfl) rfl
  exact ⟨_, h2, Or.inl rfl, ⟨[3], .next rfl (.here _)⟩, fun _ => ⟨rfl, nofun⟩⟩

end SetAdaptor

end XstdBits
