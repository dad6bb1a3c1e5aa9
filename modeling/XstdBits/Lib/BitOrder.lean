/-
  File: XstdBits/Lib/BitOrder.lean
  Subject: the lexicographic orders of what a string of bits holds.

  A string is read as its set positions, upwards (`ascending`) or downwards (`descending`), or as its
  values one by one (`bools`), and two readings compare as lists do. One position decides:

  * upwards the first one at which the strings differ, the string that lacks it being less unless
    it holds nothing above (`compare_ascending`);
  * downwards the last one at which they differ (`compare_descending`);
  * value by value the first one again, and the lengths where there is none (`compare_bools`).

  A reading is built one position at a time (`ascending_step`) and block by block (`selected`).
-/
import Mathlib.Order.Compare
import Mathlib.Data.List.Sort
import Mathlib.Data.Nat.Bitwise

namespace XstdBits

/-! ## 1. Lists in lexicographic order -/

section Lists
variable {α β : Type} [LinearOrder α] [LinearOrder β]

/-- What comes before the first difference does not count. -/
theorem compare_append_left (l a b : List α) : compare (l ++ a) (l ++ b) = compare a b := by
  induction l with
  | nil => rfl
  | cons x l ih =>
      rw [List.cons_append, List.cons_append, List.compare_cons_cons, ih, compare_eq_iff_eq.mpr rfl]
      rfl

theorem compare_self (l : List α) : compare l l = .eq := by
  have h := compare_append_left l [] []
  rw [List.append_nil] at h
  exact h

/-- Keys whose order is that of their images compare as those do. -/
theorem compare_map {f : α → β} : ∀ {ks ls : List α},
    (∀ a, a ∈ ks → ∀ b, b ∈ ls → compare a b = compare (f a) (f b)) →
    compare ks ls = compare (ks.map f) (ls.map f)
  | [], [], _ => rfl
  | [], _ :: _, _ => rfl
  | _ :: _, [], _ => rfl
  | a :: ks, b :: ls, h => by
      rw [List.map_cons, List.map_cons, List.compare_cons_cons, List.compare_cons_cons,
        h a List.mem_cons_self b List.mem_cons_self,
        compare_map fun x hx y hy => h x (List.mem_cons_of_mem _ hx) y (List.mem_cons_of_mem _ hy)]

theorem compare_swap (a b : List α) : compare a b = (compare b a).swap := Std.OrientedCmp.eq_swap

end Lists

/-! ## 2. Differences -/

/-- The first position at which two strings differ. -/
structure FirstDiff (f g : Nat → Bool) (p : Nat) : Prop where
  below : ∀ q, q < p → f q = g q
  here : f p ≠ g p

/-- The last position at which two strings differ. -/
structure LastDiff (f g : Nat → Bool) (p : Nat) : Prop where
  above : ∀ q, p < q → f q = g q
  here : f p ≠ g p

section Differ
variable {f g : Nat → Bool} {p : Nat}

theorem FirstDiff.swap (h : FirstDiff f g p) : FirstDiff g f p :=
  ⟨fun q hq => (h.below q hq).symm, h.here.symm⟩

theorem LastDiff.swap (h : LastDiff f g p) : LastDiff g f p :=
  ⟨fun q hq => (h.above q hq).symm, h.here.symm⟩

theorem FirstDiff.lacks (h : FirstDiff f g p) (hf : f p = true) : g p = false := by
  cases hg : g p with
  | false => rfl
  | true => exact absurd (hf.trans hg.symm) h.here

theorem LastDiff.lacks (h : LastDiff f g p) (hf : f p = true) : g p = false := by
  cases hg : g p with
  | false => rfl
  | true => exact absurd (hf.trans hg.symm) h.here

end Differ

/-! ## 3. The readings -/

/-- The set positions below `n`, upwards. -/
def ascending (f : Nat → Bool) (n : Nat) : List Nat := (List.range n).filter f

/-- The set positions below `n`, downwards. -/
def descending (f : Nat → Bool) (n : Nat) : List Nat := (ascending f n).reverse

/-- The values below `n`. -/
def bools (f : Nat → Bool) (n : Nat) : List Bool := (List.range n).map f

section Readings
variable {f g : Nat → Bool} {n m p : Nat}

theorem range_split (hp : p < n) :
    List.range n = List.range p ++ (p :: List.range' (p + 1) (n - (p + 1))) := by
  have h : List.range' 0 p ++ List.range' (0 + p) (n - (p + 1) + 1) =
      List.range' 0 (p + (n - (p + 1) + 1)) := List.range'_append_1
  rw [Nat.zero_add, show p + (n - (p + 1) + 1) = n by omega] at h
  rw [List.range_eq_range', List.range_eq_range', ← List.range'_succ, h]

theorem mem_ascending {q : Nat} : q ∈ ascending f n ↔ q < n ∧ f q = true := by
  unfold ascending
  rw [List.mem_filter, List.mem_range]

theorem ascending_congr (h : ∀ q, q < n → f q = g q) : ascending f n = ascending g n := by
  unfold ascending
  exact List.filter_congr fun q hq => h q (List.mem_range.mp hq)

/-- The set positions of `[p + 1, n)`. -/
def above (f : Nat → Bool) (p n : Nat) : List Nat := (List.range' (p + 1) (n - (p + 1))).filter f

theorem mem_above {q : Nat} : q ∈ above f p n ↔ p < q ∧ q < n ∧ f q = true := by
  unfold above
  rw [List.mem_filter, List.mem_range'_1, ← and_assoc]
  refine and_congr_left fun _ => ?_
  omega

theorem above_congr (h : ∀ q, p < q → f q = g q) : above f p n = above g p n := by
  unfold above
  refine List.filter_congr fun q hq => h q ?_
  have := (List.mem_range'_1.mp hq).1
  omega

theorem ascending_split (hp : p < n) :
    ascending f n = ascending f p ++ ((if f p = true then [p] else []) ++ above f p n) := by
  unfold ascending above
  rw [range_split hp, List.filter_append, List.filter_cons]
  split <;> rfl

/-- Clear positions past the end add nothing. -/
theorem ascending_of_clear (hf : ∀ q, n ≤ q → f q = false) (h : n ≤ m) :
    ascending f m = ascending f n := by
  obtain ⟨k, rfl⟩ := Nat.exists_eq_add_of_le h
  induction k with
  | zero => rfl
  | succ k ih =>
      have hstep : ascending f (n + (k + 1)) = ascending f (n + k) := by
        unfold ascending
        rw [← Nat.add_assoc, List.range_succ, List.filter_append,
          List.filter_cons_of_neg (by simp [hf (n + k) (by omega)])]
        simp
      rw [hstep, ih (by omega)]

/-- The two readings over one width past both. -/
theorem ascending_widen (hf : ∀ q, n ≤ q → f q = false) (hg : ∀ q, m ≤ q → g q = false) (p : Nat) :
    ∃ N, p < N ∧ ascending f n = ascending f N ∧ ascending g m = ascending g N :=
  ⟨max (max n m) (p + 1), by omega, (ascending_of_clear hf (by omega)).symm,
    (ascending_of_clear hg (by omega)).symm⟩

/-- **Upwards, the lower position decides**, for its holder unless the other string ends below. -/
theorem compare_ascending (hf : ∀ q, n ≤ q → f q = false) (hg : ∀ q, m ≤ q → g q = false)
    (h : FirstDiff f g p) (hfp : f p = true) :
    ((∃ q, p < q ∧ g q = true) → compare (ascending f n) (ascending g m) = .lt) ∧
    ((∀ q, p < q → g q = false) → compare (ascending f n) (ascending g m) = .gt) := by
  obtain ⟨N, hN, hfN, hgN⟩ := ascending_widen hf hg p
  have hgp := h.lacks hfp
  rw [hfN, hgN, ascending_split hN, ascending_split hN, ascending_congr h.below,
    compare_append_left, hfp, hgp, if_pos rfl, if_neg (by decide), List.nil_append]
  constructor
  · intro ⟨q, hpq, hq⟩
    have hqN : q ∈ above g p N := by
      rw [mem_above]
      refine ⟨hpq, ?_, hq⟩
      by_contra hge
      have hmem : q ∈ ascending g (q + 1) := mem_ascending.mpr ⟨by omega, hq⟩
      have hmq : q < m := by
        by_contra hmq
        rw [hg q (by omega)] at hq
        cases hq
      have : q ∈ ascending g m := mem_ascending.mpr ⟨hmq, hq⟩
      rw [hgN, mem_ascending] at this
      omega
    cases hl : above g p N with
    | nil =>
        rw [hl] at hqN
        exact absurd hqN List.not_mem_nil
    | cons x xs =>
        have hx : x ∈ above g p N := by
          rw [hl]
          exact List.mem_cons_self
        have hpx := (mem_above.mp hx).1
        rw [List.cons_append, List.compare_cons_cons, compare_lt_iff_lt.mpr hpx]
        rfl
  · intro hnone
    have hl : above g p N = [] := by
      rw [List.eq_nil_iff_forall_not_mem]
      intro q hq
      obtain ⟨h1, -, h3⟩ := mem_above.mp hq
      rw [hnone q h1] at h3
      cases h3
    rw [hl]
    rfl

/-- **Downwards, the higher position decides**, for its holder. -/
theorem compare_descending (hf : ∀ q, n ≤ q → f q = false) (hg : ∀ q, m ≤ q → g q = false)
    (h : LastDiff f g p) (hfp : f p = true) :
    compare (descending f n) (descending g m) = .gt := by
  obtain ⟨N, hN, hfN, hgN⟩ := ascending_widen hf hg p
  have hgp := h.lacks hfp
  unfold descending
  rw [hfN, hgN, ascending_split hN, ascending_split hN, above_congr h.above, hfp, hgp, if_pos rfl,
    if_neg (by decide), List.nil_append, List.reverse_append, List.reverse_append,
    List.reverse_append, List.append_assoc, compare_append_left]
  cases hl : (ascending g p).reverse with
  | nil => rfl
  | cons x xs =>
      have hx : x ∈ (ascending g p).reverse := by
        rw [hl]
        exact List.mem_cons_self
      have hxp := (mem_ascending.mp (List.mem_reverse.mp hx)).1
      rw [List.reverse_singleton, List.singleton_append, List.compare_cons_cons,
        compare_gt_iff_gt.mpr hxp]
      rfl

/-- The two hold the same exactly where they agree. -/
theorem ascending_eq_iff (hf : ∀ q, n ≤ q → f q = false) (hg : ∀ q, m ≤ q → g q = false) :
    ascending f n = ascending g m ↔ ∀ q, f q = g q := by
  constructor
  · intro h q
    rw [Bool.eq_iff_iff]
    have hmem : q ∈ ascending f n ↔ q ∈ ascending g m := by rw [h]
    rw [mem_ascending, mem_ascending] at hmem
    constructor
    · intro hfq
      have hn : q < n := by
        by_contra hge
        rw [hf q (by omega)] at hfq
        cases hfq
      exact (hmem.mp ⟨hn, hfq⟩).2
    · intro hgq
      have hm : q < m := by
        by_contra hge
        rw [hg q (by omega)] at hgq
        cases hgq
      exact (hmem.mpr ⟨hm, hgq⟩).2
  · intro h
    obtain ⟨N, -, hfN, hgN⟩ := ascending_widen hf hg 0
    rw [hfN, hgN]
    exact ascending_congr fun q _ => h q

theorem bools_split (hp : p < n) :
    ∃ l, bools f n = bools f p ++ f p :: l := by
  refine ⟨(List.range' (p + 1) (n - (p + 1))).map f, ?_⟩
  unfold bools
  rw [range_split hp, List.map_append, List.map_cons]

theorem bools_congr (h : ∀ q, q < n → f q = g q) : bools f n = bools g n := by
  unfold bools
  exact List.map_congr_left fun q hq => h q (List.mem_range.mp hq)

/-- **Value by value, the first difference decides.** -/
theorem compare_bools (h : FirstDiff f g p) (hn : p < n) (hm : p < m) (hfp : f p = true) :
    compare (bools f n) (bools g m) = .gt := by
  obtain ⟨l, hl⟩ := bools_split (f := f) hn
  obtain ⟨k, hk⟩ := bools_split (f := g) hm
  rw [hl, hk, bools_congr h.below, compare_append_left, List.compare_cons_cons, hfp, h.lacks hfp]
  rfl

theorem bools_eq_iff : bools f n = bools g m ↔ n = m ∧ ∀ q, q < n → f q = g q := by
  constructor
  · intro h
    have hlen : n = m := by
      have := congrArg List.length h
      unfold bools at this
      simpa using this
    subst hlen
    refine ⟨rfl, fun q hq => ?_⟩
    have := congrArg (fun l => l[q]?) h
    simpa [bools, List.getElem?_range hq] using this
  · rintro ⟨rfl, h⟩
    exact bools_congr h

/-- **Where none differ, the lengths decide.** -/
theorem compare_bools_of_agree (h : ∀ q, q < n → q < m → f q = g q) :
    compare (bools f n) (bools g m) = compare n m := by
  rcases Nat.lt_trichotomy n m with hlt | rfl | hgt
  · obtain ⟨l, hl⟩ := bools_split (f := g) hlt
    have hpre : bools f n = bools g n ++ [] := by
      rw [List.append_nil]
      exact bools_congr fun q hq => h q hq (by omega)
    rw [hl, hpre, compare_append_left, Nat.compare_eq_lt.mpr hlt]
    rfl
  · rw [bools_congr fun q hq => h q hq hq, compare_self, compare_eq_iff_eq.mpr rfl]
  · obtain ⟨l, hl⟩ := bools_split (f := f) hgt
    have hpre : bools g m = bools f m ++ [] := by
      rw [List.append_nil]
      exact bools_congr fun q hq => (h q (by omega) hq).symm
    rw [hl, hpre, compare_append_left, Nat.compare_eq_gt.mpr hgt]
    rfl

/-- **Value by value, clear past either end**: the first difference decides, in the padding too. -/
theorem compare_bools_of_clear (hf : ∀ q, n ≤ q → f q = false) (h : FirstDiff f g p)
    (hfp : f p = true) : compare (bools f n) (bools g m) = .gt := by
  have hn : p < n := by
    by_contra hge
    rw [hf p (by omega)] at hfp
    cases hfp
  by_cases hm : p < m
  · exact compare_bools h hn hm hfp
  · rw [compare_bools_of_agree fun q _ hq => h.below q (by omega)]
    exact Nat.compare_eq_gt.mpr (by omega)

/-- **The lowest set position comes first**, and the rest are the others. -/
theorem ascending_step {k : Nat} (hk : k < n) (hfk : f k = true) (hlow : ∀ q, q < k → f q = false)
    (hg : ∀ q, q < n → g q = (f q && decide (q ≠ k))) : ascending f n = k :: ascending g n := by
  have hnone {h : Nat → Bool} (hh : ∀ q, q < k → h q = false) : ascending h k = [] := by
    rw [ascending_congr hh]
    exact List.filter_false _
  have hgk : g k = false := by rw [hg k hk, decide_eq_false fun h => h rfl, Bool.and_false]
  have hglow (q : Nat) (hq : q < k) : g q = false := by
    rw [hg q (by omega), hlow q hq, Bool.false_and]
  have habove : above f k n = above g k n := by
    refine List.filter_congr fun q hq => ?_
    have hq := List.mem_range'_1.mp hq
    rw [hg q (by omega), decide_eq_true (by omega), Bool.and_true]
  rw [ascending_split hk, ascending_split hk, hnone hlow, hnone hglow, hfk, hgk, if_pos rfl,
    if_neg (by decide), habove]
  rfl

/-- The highest one comes first downwards. -/
theorem descending_step {k : Nat} (hk : k < n) (hfk : f k = true)
    (hup : ∀ q, k < q → q < n → f q = false)
    (hg : ∀ q, q < n → g q = (f q && decide (q ≠ k))) : descending f n = k :: descending g n := by
  have hnone {h : Nat → Bool} (hh : ∀ q, k < q → q < n → h q = false) : above h k n = [] := by
    unfold above
    refine List.filter_eq_nil_iff.mpr fun q hq => ?_
    have hq := List.mem_range'_1.mp hq
    rw [hh q (by omega) (by omega)]
    exact Bool.false_ne_true
  have hgk : g k = false := by rw [hg k hk, decide_eq_false fun h => h rfl, Bool.and_false]
  have hgup (q : Nat) (h1 : k < q) (h2 : q < n) : g q = false := by
    rw [hg q h2, hup q h1 h2, Bool.false_and]
  have hbelow : ascending f k = ascending g k := ascending_congr fun q hq => by
    rw [hg q (by omega), decide_eq_true (by omega), Bool.and_true]
  unfold descending
  rw [ascending_split hk, ascending_split hk, hnone hup, hnone hgup, hfk, hgk, if_pos rfl,
    if_neg (by decide), hbelow, List.append_nil, List.reverse_append, List.append_nil,
    List.append_nil]
  rfl

end Readings

/-! ## 4. Readings by blocks -/

/-- The positions of `f` in the blocks `ks`. -/
def selected (w : Nat) (f : Nat → Bool) (ks : List Nat) : List Nat :=
  ks.flatMap fun k => (ascending (fun j => f (k * w + j)) w).map (k * w + ·)

section Blocks
variable {f : Nat → Bool} {w : Nat}

/-- The positions of consecutive blocks. -/
theorem selected_range' : ∀ (n a : Nat),
    selected w f (List.range' a n) = (List.range' (a * w) (n * w)).filter f
  | 0, a => by
      rw [Nat.zero_mul]
      rfl
  | n + 1, a => by
      have hblock : (List.range w).map (a * w + ·) = List.range' (a * w) w := by
        rw [List.range'_eq_map_range]
      rw [List.range'_succ, selected, List.flatMap_cons, ← selected, selected_range' n,
        Nat.succ_mul n, Nat.add_comm (n * w) w, ← List.range'_append_1, List.filter_append,
        ← hblock, Nat.succ_mul a]
      congr 1
      rw [List.filter_map]
      rfl

theorem selected_range (n : Nat) : selected w f (List.range n) = ascending f (n * w) := by
  rw [List.range_eq_range', selected_range', Nat.zero_mul, ascending, List.range_eq_range']

end Blocks

/-! ## 5. The position that decides -/

section Decides
variable {f g : Nat → Bool} {n m p : Nat}

/-- What one string lacks at a difference the other holds. -/
theorem FirstDiff.holds (h : FirstDiff f g p) (hf : f p = false) : g p = true := by
  have hne := h.here
  rw [hf] at hne
  simpa using hne.symm

theorem LastDiff.holds (h : LastDiff f g p) (hf : f p = false) : g p = true := by
  have hne := h.here
  rw [hf] at hne
  simpa using hne.symm

/-- **The first difference orders ascending readings** once it is known whether the string that
    lacks it holds anything above. -/
theorem compare_ascending_at (hf : ∀ q, n ≤ q → f q = false) (hg : ∀ q, m ≤ q → g q = false)
    (h : FirstDiff f g p) {a b : Bool}
    (ha : f p = false → (a = true ↔ ∃ q, p < q ∧ f q = true))
    (hb : g p = false → (b = true ↔ ∃ q, p < q ∧ g q = true)) :
    (if f p = true then (if b = true then .lt else .gt) else if a = true then .gt else .lt) =
      compare (ascending f n) (ascending g m) := by
  have hnone {k : Nat → Bool} (hk : ¬ ∃ q, p < q ∧ k q = true) (q : Nat) (hq : p < q) :
      k q = false := Bool.eq_false_iff.mpr fun hc => hk ⟨q, hq, hc⟩
  cases hfp : f p with
  | true =>
      obtain ⟨h1, h2⟩ := compare_ascending hf hg h hfp
      have hiff := hb (h.lacks hfp)
      rw [if_pos rfl]
      by_cases hex : ∃ q, p < q ∧ g q = true
      · rw [if_pos (hiff.mpr hex), h1 hex]
      · rw [if_neg fun hc => hex (hiff.mp hc), h2 (hnone hex)]
  | false =>
      obtain ⟨h1, h2⟩ := compare_ascending hg hf h.swap (h.holds hfp)
      have hiff := ha hfp
      rw [if_neg (by decide), compare_swap]
      by_cases hex : ∃ q, p < q ∧ f q = true
      · rw [if_pos (hiff.mpr hex), h1 hex]
        rfl
      · rw [if_neg fun hc => hex (hiff.mp hc), h2 (hnone hex)]
        rfl

/-- **The last difference orders descending readings.** -/
theorem compare_descending_at (hf : ∀ q, n ≤ q → f q = false) (hg : ∀ q, m ≤ q → g q = false)
    (h : LastDiff f g p) :
    (if g p = true then .lt else .gt) = compare (descending f n) (descending g m) := by
  cases hfp : f p with
  | true => rw [h.lacks hfp, if_neg (by decide), compare_descending hf hg h hfp]
  | false =>
      have hgp := h.holds hfp
      rw [hgp, if_pos rfl, compare_swap, compare_descending hg hf h.swap hgp]
      rfl

/-- **The first difference orders values one by one**, where both strings reach it. -/
theorem compare_bools_at (h : FirstDiff f g p) (hn : p < n) (hm : p < m) :
    (if f p = true then .gt else .lt) = compare (bools f n) (bools g m) := by
  cases hfp : f p with
  | true => rw [if_pos rfl, compare_bools h hn hm hfp]
  | false =>
      rw [if_neg (by decide), compare_swap, compare_bools h.swap hm hn (h.holds hfp)]
      rfl

/-- In the padding too, where either string is clear past its end. -/
theorem compare_bools_at_clear (hf : ∀ q, n ≤ q → f q = false) (hg : ∀ q, m ≤ q → g q = false)
    (h : FirstDiff f g p) :
    (if f p = true then .gt else .lt) = compare (bools f n) (bools g m) := by
  cases hfp : f p with
  | true => rw [if_pos rfl, compare_bools_of_clear hf h hfp]
  | false =>
      rw [if_neg (by decide), compare_swap, compare_bools_of_clear hg h.swap (h.holds hfp)]
      rfl

end Decides

end XstdBits
