/-
  File: XstdBits/Container/Select.lean
  Subject: the n-th set position of a range, upwards or downwards, a block at a time.

  * the position inside a block is answered by `bit_select`, which is not in this repository: it is
    a parameter, of which `Selects` is what its callers rely on.
  * a search that runs out of set positions says how many it was short of: `selectUp_spec` and
    `selectDown_spec` read the answer as a count of the positions below or above it.
-/
import XstdBits.Container.Range

namespace XstdBits

namespace BitBlockContainer
variable {w : Nat} {V : Vehicle w}

/-! ## 1. The search -/

/-- Where a search for the n-th set position stopped: there, or, missing that many short, at the
    range's end. -/
structure SelectResult where
  position : Nat
  missing : Nat

section Search
variable (c : BitBlockContainer V) (bitSelect : BitVec w → Nat → Nat)

/-- The block `[first, last)` touches at `index`, with what lies outside it cleared. -/
def maskedBlock (index first last : Nat) : BitVec w :=
  let block := c.block index
  let block :=
    if index = first / w then block &&& ~~~(partialBlockMask (first % w)) else block
  if index = (last - 1) / w then block &&& partialBlockMask ((last - 1) % w + 1) else block

/-- The turns of `select_up`, from block `index` on. -/
def selectUpTurns (first last : Nat) : (turns index n : Nat) → SelectResult
  | 0, _, n => ⟨last, n⟩
  | turns + 1, index, n =>
      let block := c.maskedBlock index first last
      let count := popcount block
      if n ≤ count then ⟨index * w + bitSelect block (n - 1), 0⟩
      else selectUpTurns first last turns (index + 1) (n - count)

/-- `select_up`: the n-th set position of `[first, last)`, counting up from one. -/
def selectUp (first last n : Nat) : Option SelectResult :=
  if ¬ (0 < n ∧ first ≤ last ∧ last ≤ c.size) then .none
  else if first = last then some ⟨last, n⟩
  else some (c.selectUpTurns bitSelect first last ((last - 1) / w + 1 - first / w) (first / w) n)

/-- The turns of `select_down`: the block of a turn is as many past the first one as turns are left
    after it. -/
def selectDownTurns (first last : Nat) : (turns n : Nat) → SelectResult
  | 0, n => ⟨first, n⟩
  | turns + 1, n =>
      let index := first / w + turns
      let block := c.maskedBlock index first last
      let count := popcount block
      if n ≤ count then ⟨index * w + bitSelect block (count - n), 0⟩
      else selectDownTurns first last turns (n - count)

/-- `select_down`: the n-th set position of `[first, last)`, counting down from one. -/
def selectDown (first last n : Nat) : Option SelectResult :=
  if ¬ (0 < n ∧ first ≤ last ∧ last ≤ c.size) then .none
  else if first = last then some ⟨first, n⟩
  else some (c.selectDownTurns bitSelect first last ((last - 1) / w + 1 - first / w) n)

end Search

/-- **What `bit_select` answers**: where the `k`-th set bit stands, counted from nought. -/
def Selects (bitSelect : BitVec w → Nat → Nat) : Prop :=
  ∀ (block : BitVec w) (k : Nat), k < popcount block →
    block.getLsbD (bitSelect block k) = true ∧ countBits block.getLsbD (bitSelect block k) = k

/-- The bit found by looking at every one. -/
def scanSelect (block : BitVec w) (k : Nat) : Nat :=
  nextSet (fun j => block.getLsbD j && countBits block.getLsbD j == k) 0 w

theorem exists_countBits_eq {f : Nat → Bool} {k : Nat} : ∀ {n : Nat}, k < countBits f n →
    ∃ j, j < n ∧ f j = true ∧ countBits f j = k
  | 0, hk => absurd hk (Nat.not_lt_zero k)
  | n + 1, hk => by
      rw [countBits_succ] at hk
      by_cases hlt : k < countBits f n
      · obtain ⟨j, h1, h2, h3⟩ := exists_countBits_eq hlt
        exact ⟨j, by omega, h2, h3⟩
      · cases hn : f n with
        | false =>
            rw [hn, Bool.toNat_false] at hk
            omega
        | true =>
            rw [hn, Bool.toNat_true] at hk
            exact ⟨n, Nat.lt_succ_self n, hn, by omega⟩

theorem scanSelect_selects : Selects (scanSelect (w := w)) := by
  intro block k hk
  obtain ⟨j, hj, hset, hcount⟩ := exists_countBits_eq (show k < countBits block.getLsbD w from hk)
  unfold scanSelect
  rcases nextSet_spec (fun j => block.getLsbD j && countBits block.getLsbD j == k) 0 w with
    ⟨-, -, h, -⟩ | ⟨-, h⟩
  · rwa [Bool.and_eq_true, beq_iff_eq] at h
  · have hj' := h j (Nat.zero_le j) hj
    rw [hset, hcount, Bool.true_and, beq_self_eq_true] at hj'
    cases hj'

/-! ## 2. One block -/

section Select
variable {c : BitBlockContainer V} {bitSelect : BitVec w → Nat → Nat}
  {first last index n turns : Nat}

/-- The set positions of a range. -/
def ranged (c : BitBlockContainer V) (first last p : Nat) : Bool :=
  decide (first ≤ p) && (decide (p < last) && c.bit p)

theorem countBits_ranged {q : Nat} (h1 : first ≤ q) (h2 : q ≤ last) :
    countBits (c.ranged first last) q = countIn c.bit first (q - first) := by
  have hq : q = first + (q - first) := by omega
  conv_lhs => rw [hq]
  rw [countBits_add, countBits_eq_zero fun p hp => ?_, Nat.zero_add]
  · refine countIn_congr fun p hp1 hp2 => ?_
    unfold ranged
    rw [decide_eq_true hp1, decide_eq_true (by omega), Bool.true_and, Bool.true_and]
  · unfold ranged
    rw [decide_eq_false (by omega), Bool.false_and]

/-- **A masked block holds the positions of the range that are its own.** -/
theorem getLsbD_maskedBlock (hlt : first < last) (h1 : first / w ≤ index)
    (h2 : index ≤ (last - 1) / w) {j : Nat} (hj : j < w) :
    (c.maskedBlock index first last).getLsbD j = c.ranged first last (index * w + j) := by
  have hf := Nat.div_add_mod' first w
  have hl := Nat.div_add_mod' (last - 1) w
  have hfm := Nat.mod_lt first (show 0 < w by omega)
  have hlm := Nat.mod_lt (last - 1) (show 0 < w by omega)
  have hlow : (decide (first ≤ index * w + j) : Bool) =
      if index = first / w then !decide (j < first % w) else true := by
    split
    · rename_i he
      rw [← decide_not, decide_eq_decide, he]
      omega
    · have hmul := Nat.mul_le_mul_right w (show first / w + 1 ≤ index by omega)
      rw [Nat.add_mul, Nat.one_mul] at hmul
      exact decide_eq_true (by omega)
  have hhigh : (decide (index * w + j < last) : Bool) =
      if index = (last - 1) / w then decide (j < (last - 1) % w + 1) else true := by
    split
    · rename_i he
      rw [decide_eq_decide, he]
      omega
    · have hmul := Nat.mul_le_mul_right w (show index + 1 ≤ (last - 1) / w by omega)
      rw [Nat.add_mul, Nat.one_mul] at hmul
      exact decide_eq_true (by omega)
  have hfirst : ((if index = first / w then c.block index &&& ~~~(partialBlockMask (first % w))
      else c.block index) : BitVec w).getLsbD j =
      (decide (first ≤ index * w + j) && (c.block index).getLsbD j) := by
    rw [hlow]
    split
    · rw [BitVec.getLsbD_and, BitVec.getLsbD_not, getLsbD_partialBlockMask (by omega),
        decide_eq_true hj, Bool.true_and, Bool.and_comm]
    · rw [Bool.true_and]
  unfold ranged maskedBlock
  rw [bit_pos hj, Bool.and_left_comm, ← hfirst, hhigh]
  dsimp only
  split
  · rw [BitVec.getLsbD_and, getLsbD_partialBlockMask (by omega), Bool.and_comm]
  · rw [Bool.true_and]

/-- The set bits of a masked block, below bit `j`. -/
theorem countBits_maskedBlock (hlt : first < last) (h1 : first / w ≤ index)
    (h2 : index ≤ (last - 1) / w) {j : Nat} (hj : j ≤ w) :
    countBits (c.ranged first last) (index * w + j) =
      countBits (c.ranged first last) (index * w) +
        countBits (c.maskedBlock index first last).getLsbD j := by
  rw [countBits_add]
  congr 1
  exact countBits_congr fun p hp => (getLsbD_maskedBlock hlt h1 h2 (by omega)).symm

/-- **The bit selected in a block** is the set position with as many of the range below it. -/
theorem selected_in (hs : Selects bitSelect) (hlt : first < last) (h1 : first / w ≤ index)
    (h2 : index ≤ (last - 1) / w) {k : Nat} (hk : k < popcount (c.maskedBlock index first last)) :
    let q := index * w + bitSelect (c.maskedBlock index first last) k
    first ≤ q ∧ q < last ∧ c.bit q = true ∧ countIn c.bit first (q - first) =
      countBits (c.ranged first last) (index * w) + k := by
  obtain ⟨hset, hcount⟩ := hs _ k hk
  have hj := BitVec.lt_of_getLsbD hset
  have hin := getLsbD_maskedBlock (c := c) hlt h1 h2 hj
  rw [hset] at hin
  unfold ranged at hin
  have hin' := hin.symm
  rw [Bool.and_eq_true, Bool.and_eq_true, decide_eq_true_eq, decide_eq_true_eq] at hin'
  obtain ⟨h3, h4, h5⟩ := hin'
  refine ⟨h3, h4, h5, ?_⟩
  rw [← countBits_ranged h3 (Nat.le_of_lt h4), countBits_maskedBlock hlt h1 h2 (by omega), hcount]

/-! ## 3. A range of blocks -/

/-- **The n-th set position counting up**, or the end and how many short. -/
def SelectedUp (c : BitBlockContainer V) (first last n : Nat) (r : SelectResult) : Prop :=
  (r.missing = 0 ∧ first ≤ r.position ∧ r.position < last ∧ c.bit r.position = true ∧
    countIn c.bit first (r.position - first) + 1 = n) ∨
  (r.missing ≠ 0 ∧ r.position = last ∧ countIn c.bit first (last - first) + r.missing = n)

/-- **The n-th set position counting down**, or the start and how many short. -/
def SelectedDown (c : BitBlockContainer V) (first last n : Nat) (r : SelectResult) : Prop :=
  (r.missing = 0 ∧ first ≤ r.position ∧ r.position < last ∧ c.bit r.position = true ∧
    countIn c.bit (r.position + 1) (last - (r.position + 1)) + 1 = n) ∨
  (r.missing ≠ 0 ∧ r.position = first ∧ countIn c.bit first (last - first) + r.missing = n)

/-- Past the last block the whole range is counted. -/
theorem countBits_past (hw : 0 < w) (hlt : first < last) (h : (last - 1) / w < index) :
    countBits (c.ranged first last) (index * w) = countIn c.bit first (last - first) := by
  have hend : last ≤ index * w := by
    have h1 := Nat.div_add_mod' (last - 1) w
    have h2 := Nat.mod_lt (last - 1) hw
    have h3 := Nat.mul_le_mul_right w (show (last - 1) / w + 1 ≤ index from h)
    rw [Nat.add_mul, Nat.one_mul] at h3
    omega
  rw [← countBits_ranged (Nat.le_of_lt hlt) (Nat.le_refl last)]
  refine countBits_of_clear hend fun p hp _ => ?_
  unfold ranged
  rw [decide_eq_false (show ¬ p < last by omega), Bool.false_and, Bool.and_false]

/-- Before the first block nothing is. -/
theorem countBits_before (w : Nat) : countBits (c.ranged first last) (first / w * w) = 0 := by
  refine countBits_eq_zero fun p hp => ?_
  have := Nat.div_mul_le_self first w
  unfold ranged
  rw [decide_eq_false (by omega), Bool.false_and]

/-- The turns upwards: what the blocks passed hold and what is sought still is what was sought. -/
theorem selectUpTurns_spec (hs : Selects bitSelect) (hlt : first < last) {n₀ : Nat} :
    ∀ {turns index n : Nat}, 0 < n → first / w ≤ index → index + turns = (last - 1) / w + 1 →
      countBits (c.ranged first last) (index * w) + n = n₀ →
      c.SelectedUp first last n₀ (c.selectUpTurns bitSelect first last turns index n)
  | 0, index, n, hn, h1, h2, h3 => by
      rw [countBits_past V.bits_pos hlt (by omega)] at h3
      exact Or.inr ⟨Nat.ne_of_gt hn, rfl, h3⟩
  | turns + 1, index, n, hn, h1, h2, h3 => by
      unfold selectUpTurns
      dsimp only
      split
      · rename_i hle
        obtain ⟨h4, h5, h6, h7⟩ := selected_in (c := c) hs hlt h1 (by omega)
          (show n - 1 < popcount (c.maskedBlock index first last) by omega)
        refine Or.inl ⟨rfl, h4, h5, h6, ?_⟩
        dsimp only
        omega
      · rename_i hgt
        have hb := countBits_maskedBlock (c := c) hlt h1 (by omega) (Nat.le_refl w)
        have hp : popcount (c.maskedBlock index first last) =
          countBits (c.maskedBlock index first last).getLsbD w := rfl
        refine selectUpTurns_spec hs hlt (by omega) (by omega) (by omega) ?_
        rw [Nat.add_mul, Nat.one_mul, hb]
        omega

/-- The turns downwards: what is sought still is short of what was by the blocks above. -/
theorem selectDownTurns_spec (hs : Selects bitSelect) (hlt : first < last) {n₀ : Nat} :
    ∀ {turns n : Nat}, 0 < n → first / w + turns ≤ (last - 1) / w + 1 →
      countBits (c.ranged first last) ((first / w + turns) * w) + n₀ =
        countIn c.bit first (last - first) + n →
      c.SelectedDown first last n₀ (c.selectDownTurns bitSelect first last turns n)
  | 0, n, hn, h1, h2 => by
      rw [Nat.add_zero, countBits_before] at h2
      exact Or.inr ⟨Nat.ne_of_gt hn, rfl,
        show countIn c.bit first (last - first) + n = n₀ by omega⟩
  | turns + 1, n, hn, h1, h2 => by
      have hb := countBits_maskedBlock (c := c) hlt (Nat.le_add_right (first / w) turns) (by omega)
        (Nat.le_refl w)
      have hp : popcount (c.maskedBlock (first / w + turns) first last) =
        countBits (c.maskedBlock (first / w + turns) first last).getLsbD w := rfl
      rw [show first / w + (turns + 1) = first / w + turns + 1 by omega, Nat.add_mul, Nat.one_mul,
        hb] at h2
      unfold selectDownTurns
      dsimp only
      split
      · rename_i hle
        obtain ⟨h4, h5, h6, h7⟩ := selected_in (c := c) hs hlt (Nat.le_add_right (first / w) turns)
          (by omega) (show popcount (c.maskedBlock (first / w + turns) first last) - n <
            popcount (c.maskedBlock (first / w + turns) first last) by omega)
        refine Or.inl ⟨rfl, h4, h5, h6, ?_⟩
        dsimp only
        generalize (first / w + turns) * w + _ = q at h4 h5 h6 h7 ⊢
        -- what is above the position is what is neither below it nor itself
        have hsplit : countIn c.bit first (last - first) =
            countIn c.bit first (q - first) + (countIn c.bit (q + 1) (last - (q + 1)) + 1) := by
          rw [show last - first = (q - first) + ((last - (q + 1)) + 1) by omega, countIn_add,
            show first + (q - first) = q by omega, countIn_succ_left h6]
        omega
      · exact selectDownTurns_spec hs hlt (by omega) (by omega) (by omega)

/-- **`select_up` answers the n-th set position**, counting up. -/
theorem selectUp_spec (hs : Selects bitSelect) (hn : 0 < n) (hle : first ≤ last)
    (hsize : last ≤ c.size) : ∃ r, c.selectUp bitSelect first last n = some r ∧
      c.SelectedUp first last n r := by
  unfold selectUp
  rw [if_neg (not_not.mpr ⟨hn, hle, hsize⟩)]
  split
  · rename_i he
    subst he
    refine ⟨_, rfl, Or.inr ⟨Nat.ne_of_gt hn, rfl, ?_⟩⟩
    rw [Nat.sub_self]
    exact Nat.zero_add n
  · have hdiv := Nat.div_le_div_right (c := w) (show first ≤ last - 1 by omega)
    refine ⟨_, rfl, selectUpTurns_spec hs (by omega) hn (Nat.le_refl _) (by omega) ?_⟩
    rw [countBits_before, Nat.zero_add]

/-- **`select_down` answers the n-th set position**, counting down. -/
theorem selectDown_spec (hs : Selects bitSelect) (hn : 0 < n) (hle : first ≤ last)
    (hsize : last ≤ c.size) : ∃ r, c.selectDown bitSelect first last n = some r ∧
      c.SelectedDown first last n r := by
  unfold selectDown
  rw [if_neg (not_not.mpr ⟨hn, hle, hsize⟩)]
  split
  · rename_i he
    subst he
    refine ⟨_, rfl, Or.inr ⟨Nat.ne_of_gt hn, rfl, ?_⟩⟩
    rw [Nat.sub_self]
    exact Nat.zero_add n
  · have hdiv := Nat.div_le_div_right (c := w) (show first ≤ last - 1 by omega)
    refine ⟨_, rfl, selectDownTurns_spec hs (by omega) hn (by omega) ?_⟩
    rw [countBits_past V.bits_pos (by omega) (by omega)]

end Select

end BitBlockContainer

end XstdBits
