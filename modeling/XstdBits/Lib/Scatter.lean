/-
  File: XstdBits/Lib/Scatter.lean
  Subject: values written through a list of positions, one at a time and in order.

  * `scatterLoop f read ps j s`: the `i`-th position of `ps` takes what `f` makes of its value and
    of value `j + i`, which `read` finds in the state of that moment: it may be the state itself.
  * values that do not move are written all at once where the positions are distinct
    (`scatterLoop_get`, `scatterLoop_other`), and nothing else is (`eq_scatterLoop`).
  * a state read into itself in place is read as it was (`scatterLoop_self`).
-/
import Mathlib.Data.List.GetD
import Mathlib.Data.List.Nodup
import Mathlib.Logic.Function.Basic

namespace XstdBits

section Scatter
variable {P α β : Type} [DecidableEq P]

/-- The loop `for (i...) s[ps[i]] = f(s[ps[i]], read(j + i))`. -/
def scatterLoop (f : β → α → β) (read : (P → β) → Nat → α) : List P → Nat → (P → β) → P → β
  | [], _, s => s
  | p :: ps, j, s => scatterLoop f read ps (j + 1) (Function.update s p (f (s p) (read s j)))

variable {f : β → α → β} {read : (P → β) → Nat → α} {g : Nat → α} {ps qs : List P} {s t : P → β}
  {j : Nat} {p : P}

/-- A list in two parts. -/
theorem scatterLoop_append : scatterLoop f read (ps ++ qs) j s =
    scatterLoop f read qs (j + ps.length) (scatterLoop f read ps j s) := by
  induction ps generalizing j s with
  | nil => rfl
  | cons p ps ih =>
      rw [List.cons_append, scatterLoop, ih, List.length_cons]
      congr 1
      omega

/-- **A position that is not listed keeps its value.** -/
theorem scatterLoop_other (h : p ∉ ps) : scatterLoop f read ps j s p = s p := by
  induction ps generalizing j s with
  | nil => rfl
  | cons q ps ih =>
      rw [List.mem_cons, not_or] at h
      rw [scatterLoop, ih h.2, Function.update_of_ne h.1]

/-- **A listed position takes its own value**, where none is listed twice. -/
theorem scatterLoop_get (hps : ps.Nodup) {i : Nat} (h : ps[i]? = some p) :
    scatterLoop f (fun _ => g) ps j s p = f (s p) (g (j + i)) := by
  induction ps generalizing j s i with
  | nil => cases h
  | cons q ps ih =>
      obtain ⟨hq, hps⟩ := List.nodup_cons.mp hps
      rw [scatterLoop]
      cases i with
      | zero =>
          cases h
          rw [scatterLoop_other hq, Function.update_self, Nat.add_zero]
      | succ i =>
          have hp : p ∈ ps := List.mem_of_getElem? h
          have hne : p ≠ q := fun he => hq (he ▸ hp)
          rw [ih hps h, Function.update_of_ne hne]
          congr 2
          omega

/-- **What the loop leaves, said of every position.** -/
theorem eq_scatterLoop (hps : ps.Nodup) (hin : ∀ i p, ps[i]? = some p → t p = f (s p) (g (j + i)))
    (hout : ∀ p, p ∉ ps → t p = s p) : t = scatterLoop f (fun _ => g) ps j s := by
  funext p
  by_cases hp : p ∈ ps
  · obtain ⟨i, hi⟩ := List.mem_iff_getElem?.mp hp
    rw [hin i p hi, scatterLoop_get hps hi]
  · rw [hout p hp, scatterLoop_other hp]

/-- **A state read into itself in place** is read as it was: no position is read once written. -/
theorem scatterLoop_self {f : β → β → β} {s t : Nat → β} {n : Nat}
    (h : ∀ i, j ≤ i → t i = s i) :
    scatterLoop f (fun s i => s i) (List.range' j n) j t =
      scatterLoop f (fun _ => s) (List.range' j n) j t := by
  induction n generalizing j t with
  | zero => rfl
  | succ n ih =>
      rw [List.range'_succ, scatterLoop, scatterLoop, h j (Nat.le_refl j)]
      refine ih fun i hi => ?_
      rw [Function.update_of_ne (by omega), h i (by omega)]

end Scatter

end XstdBits
