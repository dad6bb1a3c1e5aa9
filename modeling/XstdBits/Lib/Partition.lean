/-
  File: XstdBits/Lib/Partition.lean
  Subject: the partition point of a predicate over consecutive positions, found by halving.

  * the predicate may have no answer: `partitionPoint` then has none either.
  * where every answer is that of a cut at `r`, a result is `r` (`partitionPoint_sound`), and the
    positions asked lie at or below the midpoint of `r` and the end (`partitionPoint_eq`).
  * a string of bits that is set up to some point is set below its own count
    (`lt_countBits_iff`).
-/
import XstdBits.Lib.Count

namespace XstdBits

/-! ## 1. Halving -/

/-- The positions `[first, first + len)` halved until none is left. -/
def halving (pred : Nat → Option Bool) : (fuel first len : Nat) → Option Nat
  | 0, first, _ => some first
  | fuel + 1, first, len =>
      if len = 0 then some first
      else
        let half := len / 2
        let middle := first + half
        match pred middle with
        | .none => none
        | .some true => halving pred fuel (middle + 1) (len - half - 1)
        | .some false => halving pred fuel first half

/-- `ranges::partition_point` over `[first, last)`; a half is shorter than its whole. -/
def partitionPoint (pred : Nat → Option Bool) (first last : Nat) : Option Nat :=
  halving pred (last - first) first (last - first)

section Partition
variable {pred : Nat → Option Bool} {r : Nat}

theorem halving_sound (h : ∀ q b, pred q = some b → b = decide (q < r)) :
    ∀ {fuel first len x : Nat}, len ≤ fuel → first ≤ r → r ≤ first + len →
      halving pred fuel first len = some x → x = r
  | 0, first, len, x, hf, h1, h2, hx => by
      have := Option.some.inj hx
      omega
  | fuel + 1, first, len, x, hf, h1, h2, hx => by
      unfold halving at hx
      split at hx
      · have := Option.some.inj hx
        omega
      · dsimp only at hx
        split at hx
        · cases hx
        · rename_i hp
          have hlt := of_decide_eq_true (h _ _ hp).symm
          exact halving_sound h (by omega) (by omega) (by omega) hx
        · rename_i hp
          have hge := of_decide_eq_false (h _ _ hp).symm
          exact halving_sound h (by omega) h1 (by omega) hx

/-- **A result is the cut.** -/
theorem partitionPoint_sound (h : ∀ q b, pred q = some b → b = decide (q < r)) {first last x : Nat}
    (h1 : first ≤ r) (h2 : r ≤ last) (hx : partitionPoint pred first last = some x) : x = r :=
  halving_sound h (Nat.le_refl _) h1 (by omega) hx

theorem halving_eq {last : Nat}
    (h : ∀ q, q < last → q ≤ (r + last) / 2 → pred q = some (decide (q < r))) :
    ∀ {fuel first len : Nat}, len ≤ fuel → first ≤ r → r ≤ first + len → first + len ≤ last →
      halving pred fuel first len = some r
  | 0, first, len, hf, h1, h2, h3 => by
      unfold halving
      congr 1
      omega
  | fuel + 1, first, len, hf, h1, h2, h3 => by
      unfold halving
      split
      · congr 1
        omega
      · dsimp only
        rw [h (first + len / 2) (by omega) (by omega)]
        by_cases hlt : first + len / 2 < r
        · rw [decide_eq_true hlt]
          exact halving_eq h (by omega) (by omega) (by omega) (by omega)
        · rw [decide_eq_false hlt]
          exact halving_eq h (by omega) h1 (by omega) (by omega)

/-- **The cut is found from the answers up to the midpoint of it and the end.** -/
theorem partitionPoint_eq {first last : Nat} (h1 : first ≤ r) (h2 : r ≤ last)
    (h : ∀ q, q < last → q ≤ (r + last) / 2 → pred q = some (decide (q < r))) :
    partitionPoint pred first last = some r :=
  halving_eq h (Nat.le_refl _) h1 (by omega) (by omega)

/-- The midpoint is the first position asked. -/
theorem partitionPoint_none {first last : Nat} (hlt : first < last)
    (h : pred ((first + last) / 2) = none) : partitionPoint pred first last = none := by
  unfold partitionPoint
  obtain ⟨k, hk⟩ : ∃ k, last - first = k + 1 := ⟨last - first - 1, by omega⟩
  rw [hk]
  unfold halving
  rw [if_neg (by omega)]
  dsimp only
  rw [show first + (k + 1) / 2 = (first + last) / 2 by omega, h]

end Partition

/-! ## 2. The cut of a string of bits -/

/-- **Bits set up to some point are set below their count.** -/
theorem lt_countBits_iff {f : Nat → Bool} :
    ∀ {n : Nat}, (∀ p q, p < q → q < n → f q = true → f p = true) →
      ∀ {p : Nat}, p < n → (f p = true ↔ p < countBits f n)
  | 0, _, p, hp => absurd hp (Nat.not_lt_zero p)
  | n + 1, h, p, hp => by
      have ih := @lt_countBits_iff f n fun p q hpq hq => h p q hpq (by omega)
      rw [countBits_succ]
      cases hn : f n with
      | true =>
          have hall : countBits f n = n :=
            countBits_eq_iff.mpr fun q hq => h q n hq (by omega) hn
          have hset : f p = true := by
            rcases Nat.lt_or_ge p n with hlt | hge
            · exact h p n hlt (by omega) hn
            · rw [show p = n by omega]
              exact hn
          rw [hall, Bool.toNat_true]
          exact iff_of_true hset hp
      | false =>
          rw [Bool.toNat_false, Nat.add_zero]
          rcases Nat.lt_or_ge p n with hlt | hge
          · exact ih hlt
          · have hle := countBits_le (f := f) (n := n)
            rw [show p = n by omega, hn]
            exact iff_of_false (by decide) (by omega)

end XstdBits
