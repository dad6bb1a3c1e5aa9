/-
  File: XstdBits/Lib/Steps.lean
  Subject: single steps stopped at a bound, over the set positions of a string of bits.

  * `stepsUntil`: where `k` steps stopped at a bound end, and how many are left.
  * a step up goes to the next set position, so `k` of them lead to the one with `k` set positions
    below it from the start on (`stepsUntil_up`), or to the bound with the rest left
    (`stepsUntil_up_bound`); a step down mirrors it.
-/
import XstdBits.Lib.Count
import XstdBits.Lib.Loop

namespace XstdBits

/-! ## 1. The steps -/

/-- `k` steps from `p`, none past `bound`: where they end, and the steps not taken. -/
def stepsUntil (step : Nat → Nat) (bound : Nat) : (k p : Nat) → Nat × Nat
  | 0, p => (p, 0)
  | k + 1, p => if p = bound then (p, k + 1) else stepsUntil step bound k (step p)

section Steps
variable {step : Nat → Nat} {bound k p : Nat}

theorem stepsUntil_bound : stepsUntil step bound k bound = (bound, k) := by
  cases k with
  | zero => rfl
  | succ k => exact if_pos rfl

theorem stepsUntil_succ (hp : p ≠ bound) :
    stepsUntil step bound (k + 1) p = stepsUntil step bound k (step p) := if_neg hp

end Steps

/-! ## 2. Steps up -/

section Up
variable {f : Nat → Bool} {step : Nat → Nat} {size bound q : Nat}

/-- A step up goes no further than a set position ahead, or the end. -/
theorem nextSet_toward {a : Nat} (haq : a ≤ q) (hqs : q ≤ size) (hq : f q = true ∨ q = size) :
    a ≤ nextSet f a size ∧ nextSet f a size ≤ q ∧
      (∀ j, a ≤ j → j < nextSet f a size → f j = false) ∧
      (nextSet f a size < q → f (nextSet f a size) = true) := by
  rcases nextSet_spec f a size with ⟨h1, h2, h3, h4⟩ | ⟨h1, h2⟩
  · refine ⟨h1, ?_, h4, fun _ => h3⟩
    by_contra hlt
    rcases hq with hq | hq
    · rw [h4 q haq (by omega)] at hq
      cases hq
    · omega
  · rw [h1]
    refine ⟨by omega, ?_, h2, fun _ => by omega⟩
    by_contra hlt
    rcases hq with hq | hq
    · rw [h2 q haq (by omega)] at hq
      cases hq
    · omega

variable (hstep : ∀ p, f p = true → p < size → step p = nextSet f (p + 1) size)
  (hsize : bound ≤ size)
include hstep hsize

/-- **`k` steps up lead to the set position with `k` of them below it.** -/
theorem stepsUntil_up (hqb : q < bound) (hq : f q = true) : ∀ {k a : Nat}, a ≤ q →
    countIn f a (q - a) = k → stepsUntil step bound k (nextSet f a size) = (q, 0)
  | 0, a, haq, hk => by
      have hclear (j : Nat) (h1 : a ≤ j) (h2 : j < q) : f j = false :=
        clear_of_countIn hk j h1 (by omega)
      rw [nextSet_eq haq (by omega) hq hclear]
      rfl
  | k + 1, a, haq, hk => by
      obtain ⟨h1, h2, h3, h4⟩ := nextSet_toward haq (show q ≤ size by omega) (Or.inl hq)
      rw [countIn_skip h1 h2 h3] at hk
      generalize nextSet f a size = x at h1 h2 h4 hk ⊢
      have hne : x ≠ q := by
        intro he
        rw [he, Nat.sub_self] at hk
        cases hk
      have hx := h4 (by omega)
      rw [show q - x = (q - (x + 1)) + 1 by omega, countIn_succ_left hx] at hk
      rw [stepsUntil_succ (by omega), hstep x hx (by omega)]
      exact stepsUntil_up hqb hq (by omega) (Nat.succ.inj hk)

/-- **More steps up than there are set positions stop at the bound.** -/
theorem stepsUntil_up_bound (hb : f bound = true ∨ bound = size) : ∀ {k a t : Nat}, a ≤ bound →
    countIn f a (bound - a) = t → t ≤ k →
    stepsUntil step bound k (nextSet f a size) = (bound, k - t)
  | k, a, t, hab, ht, hk => by
      obtain ⟨h1, h2, h3, h4⟩ := nextSet_toward hab hsize hb
      rw [countIn_skip h1 h2 h3] at ht
      generalize nextSet f a size = x at h1 h2 h4 ht ⊢
      by_cases hx : x = bound
      · subst hx
        rw [Nat.sub_self] at ht
        subst ht
        exact stepsUntil_bound
      · have hfx := h4 (by omega)
        rw [show bound - x = (bound - (x + 1)) + 1 by omega, countIn_succ_left hfx] at ht
        obtain ⟨k, rfl⟩ : ∃ m, k = m + 1 := ⟨k - 1, by omega⟩
        rw [stepsUntil_succ hx, hstep x hfx (by omega),
          stepsUntil_up_bound hb (k := k) (t := t - 1) (by omega) (by omega) (by omega)]
        congr 1
        omega
  termination_by _ a => bound - a

end Up

/-! ## 3. Steps down -/

section Down
variable {f : Nat → Bool} {step : Nat → Nat} {size bound lo q : Nat}

variable (hstep : ∀ p, lo ≤ p → f p = true → p < size → step p = prevSet f p size)
include hstep

/-- **`k` steps down lead to the set position with `k` of them above it.** -/
theorem stepsUntil_down (hlo : lo ≤ q) (hbound : bound < lo ∨ bound = size) (hq : f q = true) :
    ∀ {k b : Nat}, q < b → b ≤ size → countIn f (q + 1) (b - (q + 1)) = k →
      stepsUntil step bound k (prevSet f b size) = (q, 0)
  | 0, b, hqb, hbs, hk => by
      have hclear (j : Nat) (h1 : q < j) (h2 : j < b) : f j = false :=
        clear_of_countIn hk j h1 (by omega)
      rw [prevSet_eq hqb hq hclear]
      rfl
  | k + 1, b, hqb, hbs, hk => by
      rcases prevSet_spec f b size with ⟨h1, h2, h3⟩ | ⟨-, h2⟩
      · generalize prevSet f b size = x at h1 h2 h3 ⊢
        have hne : x ≠ q := by
          intro he
          rw [countIn_clear fun j hj1 hj2 => h3 j (by omega) (by omega)] at hk
          cases hk
        have hgt : q < x := by
          by_contra hle
          rw [h3 q (by omega) hqb] at hq
          cases hq
        rw [countIn_drop (m := x + 1) (by omega) (by omega) fun j hj1 hj2 => h3 j (by omega) hj2,
          show x + 1 - (q + 1) = (x - (q + 1)) + 1 by omega, countIn_succ_right (by
            rw [show q + 1 + (x - (q + 1)) = x by omega]
            exact h2)] at hk
        rw [stepsUntil_succ (by omega), hstep x (by omega) h2 (by omega)]
        exact stepsUntil_down hlo hbound hq hgt (by omega) (Nat.succ.inj hk)
      · rw [h2 q hqb] at hq
        cases hq

/-- **More steps down than there are set positions stop at the bound**: below it no set position is
    asked for, the end, `size`, being below them all. -/
theorem stepsUntil_down_bound
    (hbound : (f bound = true ∧ bound + 1 = lo) ∨ (bound = size ∧ lo = 0)) :
    ∀ {k b t : Nat}, lo ≤ b → b ≤ size → countIn f lo (b - lo) = t → t ≤ k →
      stepsUntil step bound k (prevSet f b size) = (bound, k - t)
  | k, b, t, hlb, hbs, ht, hk => by
      -- the step lands at or above the limit, or at the bound
      have hland : (lo ≤ prevSet f b size ∧ prevSet f b size < b ∧
            f (prevSet f b size) = true ∧ ∀ j, prevSet f b size < j → j < b → f j = false) ∨
          (prevSet f b size = bound ∧ ∀ j, lo ≤ j → j < b → f j = false) := by
        rcases prevSet_spec f b size with ⟨h1, h2, h3⟩ | ⟨h1, h2⟩
        · by_cases hle : lo ≤ prevSet f b size
          · exact Or.inl ⟨hle, h1, h2, h3⟩
          · rcases hbound with ⟨hb, hbl⟩ | ⟨-, h0⟩
            · refine Or.inr ⟨prevSet_eq (by omega) hb fun j hj1 hj2 => ?_,
                fun j hj1 hj2 => h3 j (by omega) hj2⟩
              exact h3 j (by omega) hj2
            · omega
        · rcases hbound with ⟨hb, hbl⟩ | ⟨hb, -⟩
          · rw [h2 bound (by omega)] at hb
            cases hb
          · exact Or.inr ⟨h1.trans hb.symm, fun j _ hj => h2 j hj⟩
      rcases hland with ⟨h1, h2, h3, h4⟩ | ⟨h1, h2⟩
      · generalize prevSet f b size = x at h1 h2 h3 h4 ⊢
        rw [countIn_drop (m := x + 1) (by omega) (by omega) fun j hj1 hj2 => h4 j (by omega) hj2,
          show x + 1 - lo = (x - lo) + 1 by omega, countIn_succ_right (by
            rw [show lo + (x - lo) = x by omega]
            exact h3)] at ht
        obtain ⟨k, rfl⟩ : ∃ m, k = m + 1 := ⟨k - 1, by omega⟩
        have hne : x ≠ bound := by omega
        rw [stepsUntil_succ hne, hstep x h1 h3 (by omega),
          stepsUntil_down_bound hbound (k := k) (t := t - 1) h1 (by omega) (by omega) (by omega)]
        congr 1
        omega
      · rw [countIn_clear fun j hj1 hj2 => h2 j hj1 (by omega)] at ht
        subst ht
        rw [h1]
        exact stepsUntil_bound
  termination_by _ b => b

end Down

end XstdBits
