/-
  File: XstdBits/Lib/Count.lean
  Subject: counting the positions of a bit string.

  A bit string is read as a function `f : Nat → Bool`; `countBits f n` is the number of
  positions below `n` at which it holds. The file carries what a kept count needs:
  * `countBits_add`, `countBits_split`: a range counted in two or three pieces;
  * `countIn_skip`, `countIn_drop`: clear positions at either end of a range;
  * `countBits_update`: one position written;
  * `countBits_not`: the complement;
  * `countBits_rotate`, `countBits_reverse`: the two permutations of `[0, n)`.
-/
import Mathlib.Data.Nat.Count

namespace XstdBits

/-! ## 1. The count -/

/-- The number of positions below `n` at which `f` holds. -/
def countBits (f : Nat → Bool) (n : Nat) : Nat :=
  Nat.count (fun p => f p = true) n

variable {f g : Nat → Bool} {n m : Nat}

@[simp] theorem countBits_zero : countBits f 0 = 0 := Nat.count_zero _

theorem countBits_succ : countBits f (n + 1) = countBits f n + (f n).toNat := by
  unfold countBits
  rw [Nat.count_succ]
  cases f n <;> simp

theorem countBits_le : countBits f n ≤ n := Nat.count_le _

/-- As a filter: the set positions listed. -/
theorem length_filter_range : ((List.range n).filter f).length = countBits f n := by
  induction n with
  | zero => rfl
  | succ n ih =>
      rw [List.range_succ, List.filter_append, List.length_append, ih, countBits_succ]
      cases hf : f n <;> simp [hf]

/-- **A count of one is one set position.** -/
theorem countBits_eq_one_iff :
    countBits f n = 1 ↔ ∃ p, p < n ∧ ∀ q, q < n → (f q = true ↔ q = p) := by
  rw [← length_filter_range, List.length_eq_one_iff]
  constructor
  · rintro ⟨p, hp⟩
    have hmem (q : Nat) : (q < n ∧ f q = true) ↔ q = p := by
      rw [← List.mem_range, ← List.mem_filter, hp, List.mem_singleton]
    refine ⟨p, ((hmem p).mpr rfl).1, fun q hq => ⟨fun hf => (hmem q).mp ⟨hq, hf⟩, ?_⟩⟩
    rintro rfl
    exact ((hmem q).mpr rfl).2
  · rintro ⟨p, hp, hone⟩
    refine ⟨p, ?_⟩
    have hcongr : (List.range n).filter f = (List.range n).filter (· == p) :=
      List.filter_congr fun q hq => by
        rw [Bool.eq_iff_iff, beq_iff_eq]
        exact hone q (List.mem_range.mp hq)
    rw [hcongr, List.filter_beq, List.count_range, if_pos hp]
    rfl

theorem countBits_mono (h : n ≤ m) : countBits f n ≤ countBits f m := Nat.count_monotone _ h

theorem countBits_congr (h : ∀ p, p < n → f p = g p) : countBits f n = countBits g n := by
  induction n with
  | zero => rfl
  | succ n ih =>
      rw [countBits_succ, countBits_succ, ih (fun p hp => h p (by omega)), h n (by omega)]

/-! ## 2. Ranges -/

/-- The number of positions of `[n, n + l)` at which `f` holds. -/
def countIn (f : Nat → Bool) (n l : Nat) : Nat :=
  countBits (fun p => f (n + p)) l

theorem countBits_add : countBits f (n + m) = countBits f n + countIn f n m := by
  unfold countBits countIn countBits
  exact Nat.count_add _ n m

theorem countIn_zero_left {l : Nat} : countIn f 0 l = countBits f l := by
  unfold countIn
  simp

theorem countIn_add {a b : Nat} : countIn f n (a + b) = countIn f n a + countIn f (n + a) b := by
  unfold countIn
  rw [countBits_add]
  unfold countIn
  simp only [Nat.add_assoc]

theorem countIn_congr {l : Nat} (h : ∀ p, n ≤ p → p < n + l → f p = g p) :
    countIn f n l = countIn g n l := by
  unfold countIn
  exact countBits_congr fun p hp => h (n + p) (by omega) (by omega)

theorem countIn_const {l : Nat} {v : Bool} (h : ∀ p, n ≤ p → p < n + l → f p = v) :
    countIn f n l = l * v.toNat := by
  induction l with
  | zero => simp [countIn]
  | succ l ih =>
      unfold countIn at ih ⊢
      rw [countBits_succ, ih (fun p h1 h2 => h p h1 (by omega)), h (n + l) (by omega) (by omega)]
      rw [Nat.add_mul, Nat.one_mul]

/-- The positions below `s`, counted below `n`, in `[n, n + l)` and from there on. -/
theorem countBits_split {s l : Nat} (h : n + l ≤ s) :
    countBits f s = countBits f n + countIn f n l + countIn f (n + l) (s - (n + l)) := by
  have hs : s = (n + l) + (s - (n + l)) := by omega
  conv_lhs => rw [hs]
  rw [countBits_add, countBits_add]

/-- **A range written with one value moves the count by what it held and what it holds.** -/
theorem countBits_write {s l : Nat} {v : Bool} (h : n + l ≤ s)
    (hin : ∀ p, n ≤ p → p < n + l → g p = v)
    (hout : ∀ p, ¬ (n ≤ p ∧ p < n + l) → g p = f p) :
    countBits g s + countIn f n l = countBits f s + l * v.toNat := by
  rw [countBits_split (f := g) h, countBits_split (f := f) h]
  have h1 : countBits g n = countBits f n := countBits_congr fun p hp => hout p (by omega)
  have h2 : countIn g (n + l) (s - (n + l)) = countIn f (n + l) (s - (n + l)) :=
    countIn_congr fun p hp _ => hout p (by omega)
  have h3 : countIn g n l = l * v.toNat := countIn_const hin
  omega

/-- One position written: the count loses what the position held and gains what it holds. -/
theorem countBits_update {s k : Nat} (h : k < s) (hout : ∀ p, p ≠ k → g p = f p) :
    countBits g s + (f k).toNat = countBits f s + (g k).toNat := by
  have hw := countBits_write (f := f) (g := g) (v := g k) (n := k) (l := 1) h
    (fun p h1 h2 => by rw [show p = k by omega]) (fun p hp => hout p (by omega))
  unfold countIn at hw
  rw [countBits_succ, countBits_zero] at hw
  simpa using hw

/-! ## 3. The whole range -/

theorem countBits_const {v : Bool} (h : ∀ p, p < n → f p = v) : countBits f n = n * v.toNat := by
  have := countIn_const (f := f) (n := 0) (l := n) (v := v) (fun p _ hp => h p (by omega))
  rwa [countIn_zero_left] at this

theorem countBits_eq_zero (h : ∀ p, p < n → f p = false) : countBits f n = 0 := by
  rw [countBits_const h]
  simp

theorem countBits_eq_zero_iff : countBits f n = 0 ↔ ∀ p, p < n → f p = false := by
  unfold countBits
  rw [Nat.count_iff_forall_not]
  simp

theorem countIn_clear {l : Nat} (h : ∀ p, n ≤ p → p < n + l → f p = false) : countIn f n l = 0 := by
  rw [countIn_const h]
  exact Nat.mul_zero l

theorem clear_of_countIn {l : Nat} (h : countIn f n l = 0) (p : Nat) (h1 : n ≤ p) (h2 : p < n + l) :
    f p = false := by
  unfold countIn at h
  have hp := countBits_eq_zero_iff.mp h (p - n) (by omega)
  rwa [show n + (p - n) = p by omega] at hp

/-- A range whose first position is set. -/
theorem countIn_succ_left {l : Nat} (hn : f n = true) : countIn f n (l + 1) = countIn f (n + 1) l + 1 := by
  have hone : countIn f n 1 = 1 := by
    rw [countIn_const (v := true) fun p h1 h2 => by rw [show p = n by omega, hn]]
    rfl
  rw [Nat.add_comm l 1, countIn_add, hone, Nat.add_comm]

/-- A range whose last position is set. -/
theorem countIn_succ_right {l : Nat} (hn : f (n + l) = true) : countIn f n (l + 1) = countIn f n l + 1 := by
  unfold countIn
  rw [countBits_succ, hn]
  rfl

/-- Clear positions at the start are not counted. -/
theorem countIn_skip {b : Nat} (hnm : n ≤ m) (hmb : m ≤ b) (h : ∀ p, n ≤ p → p < m → f p = false) :
    countIn f n (b - n) = countIn f m (b - m) := by
  rw [show b - n = (m - n) + (b - m) by omega, countIn_add,
    countIn_clear fun p h1 h2 => h p h1 (by omega), Nat.zero_add, show n + (m - n) = m by omega]

/-- Nor are clear positions at the end. -/
theorem countIn_drop {b : Nat} (hnm : n ≤ m) (hmb : m ≤ b) (h : ∀ p, m ≤ p → p < b → f p = false) :
    countIn f n (b - n) = countIn f n (m - n) := by
  rw [show b - n = (m - n) + (b - m) by omega, countIn_add, show n + (m - n) = m by omega,
    countIn_clear fun p h1 h2 => h p h1 (by omega), Nat.add_zero]

theorem countBits_eq_iff : countBits f n = n ↔ ∀ p, p < n → f p = true := by
  unfold countBits
  exact Nat.count_iff_forall

/-- Positions past `n` that are all clear add nothing. -/
theorem countBits_of_clear {k : Nat} (h : n ≤ k) (hc : ∀ p, n ≤ p → p < k → f p = false) :
    countBits f k = countBits f n := by
  have hk : k = n + (k - n) := by omega
  rw [hk, countBits_add, countIn_const (v := false) (fun p h1 h2 => hc p h1 (by omega))]
  simp

/-- What a cut at `k` loses shows in the count. -/
theorem countBits_cut_ne_iff {k m : Nat} (hkm : k ≤ m) (hg : ∀ p, g p = (decide (p < k) && f p))
    (hf : ∀ p, n ≤ p → f p = false) :
    countBits g m ≠ countBits f n ↔ ∃ p, k ≤ p ∧ f p = true := by
  have h1 : countBits g m = countBits f k := by
    rw [countBits_of_clear hkm fun p hp _ => by rw [hg, decide_eq_false (by omega), Bool.false_and]]
    exact countBits_congr fun p hp => by rw [hg, decide_eq_true hp, Bool.true_and]
  have h2 : countBits f n = countBits f k + countIn f k (max k n - k) := by
    rw [← countBits_add, show k + (max k n - k) = max k n by omega]
    exact (countBits_of_clear (Nat.le_max_right k n) fun p hp _ => hf p hp).symm
  have h3 : countIn f k (max k n - k) = 0 ↔ ∀ p, p < max k n - k → f (k + p) = false :=
    countBits_eq_zero_iff
  constructor
  · intro hne
    by_contra hnone
    refine hne ?_
    rw [h1, h2, h3.mpr fun p _ => ?_, Nat.add_zero]
    exact Bool.eq_false_iff.mpr fun hp => hnone ⟨k + p, Nat.le_add_right _ _, hp⟩
  · intro ⟨p, hkp, hp⟩ heq
    have hpn : p < n := by
      by_contra hge
      rw [hf p (by omega)] at hp
      cases hp
    have := h3.mp (by omega) (p - k) (by omega)
    rw [show k + (p - k) = p by omega, hp] at this
    cases this

theorem countBits_not : countBits (fun p => !f p) n = n - countBits f n := by
  induction n with
  | zero => rfl
  | succ n ih =>
      have hle : countBits f n ≤ n := countBits_le
      rw [countBits_succ, countBits_succ, ih]
      cases f n
      · simp only [Bool.not_false, Bool.toNat_true, Bool.toNat_false]
        omega
      · simp only [Bool.not_true, Bool.toNat_true, Bool.toNat_false]
        omega

/-! ## 4. Permutations -/

/-- **Turning `[0, n)` by `k` keeps the count.** -/
theorem countBits_rotate {k : Nat} (hk : k ≤ n) (h : ∀ p, p < n → g p = f ((p + k) % n)) :
    countBits g n = countBits f n := by
  have hn : n = (n - k) + k := by omega
  have hg : countBits g n = countBits g (n - k) + countIn g (n - k) k := by
    conv_lhs => rw [hn]
    exact countBits_add
  have hf : countBits f n = countBits f k + countIn f k (n - k) := by
    conv_lhs => rw [show n = k + (n - k) by omega]
    exact countBits_add
  have h1 : countBits g (n - k) = countIn f k (n - k) := by
    unfold countIn
    refine countBits_congr fun p hp => ?_
    rw [h p (by omega), Nat.mod_eq_of_lt (by omega), Nat.add_comm]
  have h2 : countIn g (n - k) k = countBits f k := by
    unfold countIn
    refine countBits_congr fun p hp => ?_
    rw [h _ (by omega), show n - k + p + k = p + n by omega, Nat.add_mod_right,
      Nat.mod_eq_of_lt (by omega)]
  omega

/-- **Reading `[0, n)` from its other end keeps the count.** -/
theorem countBits_reverse (h : ∀ p, p < n → g p = f (n - 1 - p)) :
    countBits g n = countBits f n := by
  induction n generalizing f g with
  | zero => rfl
  | succ n ih =>
      have hf : countBits f (n + 1) = (f 0).toNat + countBits (fun p => f (p + 1)) n := by
        rw [Nat.add_comm n 1, countBits_add, countBits_succ, countBits_zero]
        unfold countIn
        simp only [Nat.zero_add, Nat.add_comm 1]
      have hg : countBits g n = countBits (fun p => f (p + 1)) n := by
        refine ih fun p hp => ?_
        rw [h p (by omega), show n + 1 - 1 - p = n - 1 - p + 1 by omega]
      rw [countBits_succ, hf, hg, h n (by omega), show n + 1 - 1 - n = 0 by omega, Nat.add_comm]

end XstdBits
