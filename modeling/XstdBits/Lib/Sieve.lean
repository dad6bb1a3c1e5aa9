/-
  File: XstdBits/Lib/Sieve.lean
  Subject: sieving by primes, and the square root where a sieve may stop.

  * a prime strikes its multiples from its square on. `Unstruck q k` says that no prime below `q`
    strikes `k`; the next prime narrows it by its own multiples (`unstruck_succ`), a composite by
    nothing, and below `q * q` it is primality (`unstruck_iff_prime`).
  * `strides` is what one walk over the multiples of a prime visits.
  * `newton n` is one step of Newton's iteration on `x * x - n`, rounded down: it never falls below
    the root and falls as long as it is above.
-/
import Mathlib.Data.Nat.Prime.Basic
import Mathlib.Data.Nat.Sqrt
import Mathlib.Algebra.Order.Ring.Nat
import Mathlib.Algebra.Order.Ring.Unbundled.Basic

namespace XstdBits

/-! ## 1. What the primes below a bound strike -/

/-- A number strikes its multiples from its square on. -/
def Strikes (p k : Nat) : Prop := p * p ≤ k ∧ p ∣ k

instance (p k : Nat) : Decidable (Strikes p k) := inferInstanceAs (Decidable (_ ∧ _))

/-- **No prime below `q` strikes `k`.** -/
def Unstruck (q k : Nat) : Prop := ∀ r, r.Prime → r < q → ¬ Strikes r k

variable {k n p q x : Nat}

theorem unstruck_two : Unstruck 2 k := by
  intro r hr hlt
  have := hr.two_le
  omega

/-- **One more number to sieve by**: a prime takes its multiples away, a composite nothing. -/
theorem unstruck_succ : Unstruck (q + 1) k ↔ Unstruck q k ∧ (q.Prime → ¬ Strikes q k) := by
  unfold Unstruck
  constructor
  · intro h
    exact ⟨fun r hr hlt => h r hr (by omega), fun hq => h q hq (by omega)⟩
  · rintro ⟨h, hq⟩ r hr hlt
    rcases Nat.lt_succ_iff_lt_or_eq.mp hlt with hlt | rfl
    · exact h r hr hlt
    · exact hq hr

/-- **A composite is struck by a prime whose square it reaches.** -/
theorem exists_strikes (hk : 2 ≤ k) (hc : ¬ k.Prime) : ∃ r, r.Prime ∧ r < k ∧ Strikes r k := by
  have hsq := Nat.minFac_sq_le_self (by omega) hc
  rw [Nat.pow_two] at hsq
  have hp := Nat.minFac_prime (show k ≠ 1 by omega)
  have h2 := Nat.mul_le_mul_right k.minFac hp.two_le
  have h1 := hp.two_le
  exact ⟨k.minFac, hp, by omega, hsq, Nat.minFac_dvd k⟩

/-- What a smaller prime divides is no prime. -/
theorem not_prime_of_strikes (hp : p.Prime) (h : Strikes p k) : ¬ k.Prime := by
  intro hk
  rcases (Nat.dvd_prime hk).mp h.2 with rfl | rfl
  · exact absurd hp Nat.not_prime_one
  · have h1 := h.1
    have h2 := Nat.mul_le_mul_right p hp.two_le
    have := hp.two_le
    omega

/-- **Where sieving is over**: below the square of what the sieve has come to. -/
theorem unstruck_iff_prime (hk : 2 ≤ k) (hq : k < q * q) : Unstruck q k ↔ k.Prime := by
  constructor
  · intro h
    by_contra hc
    obtain ⟨r, hr, -, hs⟩ := exists_strikes hk hc
    refine h r hr ?_ hs
    by_contra hge
    have := Nat.mul_le_mul (Nat.le_of_not_lt hge) (Nat.le_of_not_lt hge)
    have := hs.1
    omega
  · intro hk r hr _ hs
    exact not_prime_of_strikes hr hs hk

/-- A number is prime where nothing below it strikes it. -/
theorem unstruck_self (hq : 2 ≤ q) : Unstruck q q ↔ q.Prime :=
  unstruck_iff_prime hq (by have := Nat.mul_le_mul_right q hq; omega)

/-! ## 2. The multiples that one walk visits -/

/-- **The numbers from `m` below `n`, `p` apart.** -/
def Stride (p m n k : Nat) : Prop := m ≤ k ∧ k < n ∧ p ∣ k - m

theorem stride_step (hp : 0 < p) (hm : q < n) :
    Stride p q n k ↔ k = q ∨ Stride p (q + p) n k := by
  unfold Stride
  constructor
  · rintro ⟨h1, h2, h3⟩
    by_cases hk : k = q
    · exact Or.inl hk
    · have hle := Nat.le_of_dvd (by omega) h3
      refine Or.inr ⟨by omega, h2, ?_⟩
      have := Nat.dvd_sub h3 (Nat.dvd_refl p)
      rwa [Nat.sub_sub] at this
  · rintro (rfl | ⟨h1, h2, h3⟩)
    · exact ⟨Nat.le_refl _, hm, by rw [Nat.sub_self]; exact Nat.dvd_zero p⟩
    · refine ⟨by omega, h2, ?_⟩
      have := Nat.dvd_add h3 (Nat.dvd_refl p)
      rwa [show k - (q + p) + p = k - q by omega] at this

/-- From a multiple on, the walk visits the multiples. -/
theorem stride_of_dvd (hm : p ∣ q) : Stride p q n k ↔ q ≤ k ∧ k < n ∧ p ∣ k := by
  unfold Stride
  refine and_congr_right fun hle => and_congr_right fun _ => ?_
  exact (Nat.dvd_sub_iff_left hle hm)

/-- The first multiple of `p` that is not below `lo`. -/
theorem roundUp_spec (hp : 0 < p) (lo : Nat) : p ∣ (lo + p - 1) / p * p ∧ lo ≤ (lo + p - 1) / p * p ∧
    ∀ k, lo ≤ k → p ∣ k → (lo + p - 1) / p * p ≤ k := by
  have hdm := Nat.div_add_mod' (lo + p - 1) p
  have hmod := Nat.mod_lt (lo + p - 1) hp
  refine ⟨Nat.dvd_mul_left p _, by omega, ?_⟩
  rintro k hk ⟨j, rfl⟩
  rw [Nat.mul_comm p j]
  refine Nat.mul_le_mul_right p (Nat.le_of_lt_succ ?_)
  rw [Nat.div_lt_iff_lt_mul hp, Nat.succ_mul, Nat.mul_comm j p]
  omega

/-! ## 3. Newton's iteration for the square root -/

/-- One step of Newton's iteration on `x * x - n`. -/
def newton (n x : Nat) : Nat := (x + n / x) / 2

/-- **A step never falls below the root.** -/
theorem sqrt_le_newton (hx : 0 < x) : Nat.sqrt n ≤ newton n x := by
  have hroot : (2 * Nat.sqrt n - x) * x ≤ n := by
    have hsq := Nat.sqrt_le n
    refine Nat.le_trans ?_ hsq
    rcases Nat.le_total (2 * Nat.sqrt n) x with hle | hle
    · rw [Nat.sub_eq_zero_of_le hle, Nat.zero_mul]
      exact Nat.zero_le _
    · obtain ⟨d, hd⟩ := Nat.exists_eq_add_of_le hle
      rw [hd, Nat.add_sub_cancel_left]
      have hmean := four_mul_le_sq_add x d
      rw [← hd, Nat.pow_two, Nat.mul_mul_mul_comm, Nat.mul_assoc, Nat.mul_comm x d] at hmean
      omega
  have hle := (Nat.le_div_iff_mul_le hx).mpr hroot
  unfold newton
  omega

/-- **A step from above the root falls.** -/
theorem newton_lt (h : Nat.sqrt n < x) : newton n x < x := by
  have hlt : n < x * x := Nat.sqrt_lt.mp h
  have := Nat.div_lt_of_lt_mul hlt
  unfold newton
  omega

end XstdBits
