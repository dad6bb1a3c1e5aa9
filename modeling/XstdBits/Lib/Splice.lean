/-
  File: XstdBits/Lib/Splice.lean
  Subject: a part of a list read, and written over.

  * `slice xs d n` is what stands at `[d, d + n)`.
  * `splice xs d l` is `xs` with `l` written over it from `d` on: what stands inside is `l`, and
    elsewhere what stood there (`getElem?_splice`), and it is the only such list (`eq_splice`).
-/
import Mathlib.Data.List.Basic

namespace XstdBits

section Splice
variable {α : Type} {xs l m : List α} {d e n k i : Nat}

/-- The elements at `[d, d + n)`. -/
def slice (xs : List α) (d n : Nat) : List α := (xs.drop d).take n

/-- `l` written over `xs` from position `d` on. -/
def splice (xs : List α) (d : Nat) (l : List α) : List α :=
  xs.take d ++ l ++ xs.drop (d + l.length)

theorem length_slice (h : d + n ≤ xs.length) : (slice xs d n).length = n := by
  unfold slice
  rw [List.length_take, List.length_drop]
  omega

theorem length_splice (h : d + l.length ≤ xs.length) : (splice xs d l).length = xs.length := by
  unfold splice
  rw [List.length_append, List.length_append, List.length_take, List.length_drop]
  omega

theorem getElem?_slice : (slice xs d n)[i]? = if i < n then xs[d + i]? else none := by
  unfold slice
  rw [List.getElem?_take, List.getElem?_drop]

theorem getElem?_splice (h : d + l.length ≤ xs.length) : (splice xs d l)[i]? =
    if d ≤ i ∧ i < d + l.length then l[i - d]? else xs[i]? := by
  have hlen : (xs.take d).length = d := by
    rw [List.length_take]
    omega
  unfold splice
  rw [List.append_assoc, List.getElem?_append, hlen, List.getElem?_append]
  split
  · rw [if_neg (by omega), List.getElem?_take_of_lt (by omega)]
  · split
    · rw [if_pos (by omega)]
    · rw [if_neg (by omega), List.getElem?_drop]
      congr 1
      omega

theorem slice_all : slice xs 0 xs.length = xs := by
  unfold slice
  rw [List.drop_zero, List.take_length]

theorem take_slice (h : k ≤ n) : (slice xs d n).take k = slice xs d k := by
  unfold slice
  rw [List.take_take, Nat.min_eq_left h]

theorem drop_slice : (slice xs d n).drop k = slice xs (d + k) (n - k) := by
  unfold slice
  rw [List.drop_take, List.drop_drop]

/-- **A list that holds `l` from `d` on and is `xs` elsewhere.** -/
theorem eq_splice (h : d + l.length ≤ xs.length) (hin : slice m d l.length = l)
    (hout : ∀ i, i < d ∨ d + l.length ≤ i → m[i]? = xs[i]?) : m = splice xs d l := by
  refine List.ext_getElem? fun i => ?_
  rw [getElem?_splice h]
  split
  · rename_i hi
    have := congrArg (fun l => l[i - d]?) hin
    rwa [getElem?_slice, if_pos (by omega), show d + (i - d) = i by omega] at this
  · exact hout i (by omega)

end Splice

end XstdBits
