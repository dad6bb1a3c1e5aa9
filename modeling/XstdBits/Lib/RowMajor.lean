/-
  File: XstdBits/Lib/RowMajor.lean
  Subject: positions in row-major order, the last counter varying fastest.

  Lengths `ls` and strides `ss` name the positions `start + Σ cᵢ * sᵢ` over all counters `c` below
  the lengths. The file carries
  * `rowMajor`, their list, and the counter as its index (`getElem?_rowMajor`, `mem_rowMajor`);
  * `dot` under a write to one counter (`dot_set`), which is what an odometer's carry is made of;
  * over the naturals, when the list ascends (`Clears`, `rowMajor_ascends`);
  * over `w`-bit words, that the list ascends only if no sum wraps (`reach_lt_of_ascends`).
-/
import Mathlib.Data.BitVec
import Mathlib.Data.List.Forall2
import Mathlib.Data.List.GetD
import Mathlib.Algebra.BigOperators.Group.List.Basic
import Mathlib.Tactic.Ring

namespace XstdBits

/-! ## 1. Counters -/

section Counters
variable {R : Type} [CommSemiring R]

/-- `Σ cᵢ * sᵢ`. -/
def dot : List R → List R → R
  | c :: cs, s :: ss => c * s + dot cs ss
  | _, _ => 0

@[simp] theorem dot_nil {ss : List R} : dot ([] : List R) ss = 0 := by
  cases ss <;> rfl

/-- What one step of each counter is worth: the product of the lengths after it. -/
def places : List Nat → List Nat
  | [] => []
  | _ :: ls => ls.prod :: places ls

@[simp] theorem length_places : ∀ ls : List Nat, (places ls).length = ls.length
  | [] => rfl
  | _ :: ls => by
      unfold places
      rw [List.length_cons, List.length_cons, length_places ls]

/-- A place is worth a whole round of the next one. -/
theorem getD_places_succ : ∀ (ls : List Nat) (d : Nat), d + 1 < ls.length →
    (places ls).getD d 0 = ls.getD (d + 1) 0 * (places ls).getD (d + 1) 0
  | _ :: _ :: _, 0, _ => by
      simp [places]
  | _ :: ls, d + 1, h => by
      unfold places
      rw [List.getD_cons_succ, List.getD_cons_succ, List.getD_cons_succ]
      exact getD_places_succ ls d (by simpa using h)

theorem getD_places_last : ∀ (ls : List Nat), ls ≠ [] → (places ls).getD (ls.length - 1) 0 = 1
  | [_], _ => rfl
  | _ :: l :: ls, _ => by
      unfold places
      rw [List.length_cons, Nat.add_sub_cancel, List.length_cons, List.getD_cons_succ]
      exact getD_places_last (l :: ls) (List.cons_ne_nil _ _)

/-- **One counter written** trades its old product for the new one. -/
theorem dot_set : ∀ (cs ss : List R) (d : Nat) (x : R), d < cs.length → d < ss.length →
    dot (cs.set d x) ss + cs.getD d 0 * ss.getD d 0 = dot cs ss + x * ss.getD d 0
  | c :: cs, s :: ss, 0, x, _, _ => by
      simp only [List.set_cons_zero, List.getD_cons_zero, dot]
      ring
  | c :: cs, s :: ss, d + 1, x, hc, hs => by
      have ih := dot_set cs ss d x (by simpa using hc) (by simpa using hs)
      simp only [List.set_cons_succ, List.getD_cons_succ, dot]
      rw [add_assoc, ih]
      ring

theorem dot_zeros (n : Nat) : ∀ ss : List R, dot (List.replicate n 0) ss = 0 := by
  induction n with
  | zero =>
      intro ss
      rfl
  | succ n ih =>
      intro ss
      cases ss with
      | nil => rfl
      | cons s ss => rw [List.replicate_succ, dot, ih ss, zero_mul, zero_add]

/-- **Counters below their lengths.** -/
abbrev Digits (cs ls : List Nat) : Prop := List.Forall₂ (· < ·) cs ls

theorem digits_iff {cs ls : List Nat} :
    Digits cs ls ↔ cs.length = ls.length ∧ ∀ d, d < ls.length → cs.getD d 0 < ls.getD d 0 := by
  rw [Digits, List.forall₂_iff_get]
  refine and_congr_right fun hl => ⟨fun h d hd => ?_, fun h d h1 h2 => ?_⟩
  · have := h d (hl ▸ hd) hd
    rwa [List.getD_eq_getElem _ _ (hl ▸ hd), List.getD_eq_getElem _ _ hd]
  · have := h d h2
    rwa [List.getD_eq_getElem _ _ h1, List.getD_eq_getElem _ _ h2] at this

theorem dot_places_lt {cs ls : List Nat} (h : Digits cs ls) : dot cs (places ls) < ls.prod := by
  induction h with
  | nil => decide
  | @cons c l cs ls hc _ ih =>
      rw [places, dot, List.prod_cons]
      have := Nat.mul_le_mul_right ls.prod (show c + 1 ≤ l from hc)
      rw [Nat.succ_mul] at this
      omega

end Counters

/-! ## 2. The list -/

section RowMajor
variable {α : Type} {f : Nat → List α} {n m : Nat}

theorem length_flatMap_range (hf : ∀ i, (f i).length = m) :
    ((List.range n).flatMap f).length = n * m := by
  induction n with
  | zero => rw [Nat.zero_mul]; rfl
  | succ n ih =>
      rw [List.range_succ, List.flatMap_append, List.length_append, ih, List.flatMap_singleton, hf,
        Nat.succ_mul]

/-- Blocks of one length: block `i` starts at `i * m`. -/
theorem getElem?_flatMap_range (hf : ∀ i, (f i).length = m) {i j : Nat} (hi : i < n) (hj : j < m) :
    ((List.range n).flatMap f)[i * m + j]? = (f i)[j]? := by
  induction n with
  | zero => exact absurd hi (Nat.not_lt_zero i)
  | succ n ih =>
      rw [List.range_succ, List.flatMap_append, List.flatMap_singleton]
      have hlen := length_flatMap_range (n := n) hf
      by_cases h : i < n
      · have hle := Nat.mul_le_mul_right m (show i + 1 ≤ n from h)
        rw [Nat.succ_mul] at hle
        rw [List.getElem?_append_left (by omega), ih h]
      · obtain rfl : i = n := by omega
        rw [List.getElem?_append_right (by omega), hlen, Nat.add_sub_cancel_left]

variable {R : Type} [CommSemiring R]

/-- **The positions in row-major order.** -/
def rowMajor (start : R) : List Nat → List R → List R
  | l :: ls, s :: ss => (List.range l).flatMap fun i : Nat => rowMajor (start + i * s) ls ss
  | _, _ => [start]

theorem length_rowMajor : ∀ (ls : List Nat) (ss : List R) (start : R), ls.length = ss.length →
    (rowMajor start ls ss).length = ls.prod
  | [], [], _, _ => by simp [rowMajor]
  | l :: ls, s :: ss, start, h => by
      rw [rowMajor, length_flatMap_range fun i => length_rowMajor ls ss _ (by simpa using h),
        List.prod_cons]

/-- **The counter is the index**: place by place it counts the positions before its own. -/
theorem getElem?_rowMajor {cs ls : List Nat} (h : Digits cs ls) :
    ∀ (ss : List R) (start : R), ls.length = ss.length →
      (rowMajor start ls ss)[dot cs (places ls)]? = some (start + dot (cs.map Nat.cast) ss) := by
  induction h with
  | nil =>
      intro ss start hl
      cases ss with
      | nil => simp [rowMajor, dot]
      | cons s ss => cases hl
  | @cons c l cs ls hc hcs ih =>
      intro ss start hl
      cases ss with
      | nil => cases hl
      | cons s ss =>
          have hlen : ls.length = ss.length := by simpa using hl
          rw [rowMajor, places, dot, List.map_cons, dot,
            getElem?_flatMap_range (fun i => length_rowMajor ls ss _ hlen) hc (dot_places_lt hcs),
            ih ss _ hlen, add_assoc]

/-- **The positions are the sums** over the counters below the lengths. -/
theorem mem_rowMajor {p : R} : ∀ (ls : List Nat) (ss : List R) (start : R), ls.length = ss.length →
    (p ∈ rowMajor start ls ss ↔ ∃ cs, Digits cs ls ∧ p = start + dot (cs.map Nat.cast) ss)
  | [], [], start, _ => by
      show p ∈ [start] ↔ _
      rw [List.mem_singleton]
      constructor
      · intro h
        exact ⟨[], .nil, by rw [h, List.map_nil, dot_nil, add_zero]⟩
      · intro ⟨cs, hcs, hp⟩
        cases hcs
        rw [hp, List.map_nil, dot_nil, add_zero]
  | l :: ls, s :: ss, start, h => by
      have ih := fun i : Nat => mem_rowMajor ls ss (start + i * s) (p := p) (by simpa using h)
      rw [rowMajor, List.mem_flatMap]
      constructor
      · intro ⟨i, hi, hp⟩
        obtain ⟨cs, hcs, rfl⟩ := (ih i).mp hp
        exact ⟨i :: cs, .cons (List.mem_range.mp hi) hcs, by rw [List.map_cons, dot, add_assoc]⟩
      · intro ⟨cs, hcs, hp⟩
        cases hcs with
        | @cons c _ cs _ hc hcs =>
            refine ⟨c, List.mem_range.mpr hc, (ih c).mpr ⟨cs, hcs, ?_⟩⟩
            rw [hp, List.map_cons, dot, add_assoc]

/-- Where no length is zero, the start comes first. -/
theorem start_mem_rowMajor : ∀ (ls : List Nat) (ss : List R) (start : R), (∀ l, l ∈ ls → 0 < l) →
    start ∈ rowMajor start ls ss
  | [], _, start, _ => List.mem_singleton_self start
  | _ :: _, [], start, _ => List.mem_singleton_self start
  | l :: ls, s :: ss, start, h => by
      rw [rowMajor, List.mem_flatMap]
      refine ⟨0, List.mem_range.mpr (h l List.mem_cons_self), ?_⟩
      have := start_mem_rowMajor ls ss start fun l hl => h l (List.mem_cons_of_mem _ hl)
      rwa [Nat.cast_zero, zero_mul, add_zero]

end RowMajor

/-! ## 3. Ascending lists -/

section Ascends

theorem pairwise_range {P : Nat → Nat → Prop} {n : Nat} :
    (List.range n).Pairwise P ↔ ∀ i j, i < j → j < n → P i j := by
  rw [List.pairwise_iff_getElem]
  constructor
  · intro h i j hij hj
    have := h i j (by rw [List.length_range]; omega) (by rw [List.length_range]; omega) hij
    rwa [List.getElem_range, List.getElem_range] at this
  · intro h i j hi hj hij
    rw [List.length_range] at hj
    rw [List.getElem_range, List.getElem_range]
    exact h i j hij hj

/-- How far above its start the last position lies. -/
def reach : List Nat → List Nat → Nat
  | l :: ls, s :: ss => (l - 1) * s + reach ls ss
  | _, _ => 0

/-- **Each stride clears what the dimensions inside it cover**; a length below two takes no step. -/
def Clears : List Nat → List Nat → Prop
  | l :: ls, s :: ss => (2 ≤ l → reach ls ss < s) ∧ Clears ls ss
  | _, _ => True

variable {p : Nat}

theorem mem_rowMajor_bounds : ∀ (ls ss : List Nat) (start : Nat), p ∈ rowMajor start ls ss →
    start ≤ p ∧ p ≤ start + reach ls ss
  | [], _, start, h => by
      rw [List.mem_singleton.mp h]
      exact ⟨Nat.le_refl _, Nat.le_add_right _ _⟩
  | _ :: _, [], start, h => by
      rw [List.mem_singleton.mp h]
      exact ⟨Nat.le_refl _, Nat.le_add_right _ _⟩
  | l :: ls, s :: ss, start, h => by
      rw [rowMajor, List.mem_flatMap] at h
      obtain ⟨i, hi, hp⟩ := h
      rw [List.mem_range] at hi
      obtain ⟨h1, h2⟩ := mem_rowMajor_bounds ls ss _ hp
      have hle : i * s ≤ (l - 1) * s := Nat.mul_le_mul_right s (by omega)
      rw [Nat.cast_id] at h1 h2
      rw [reach]
      omega

/-- **Where each stride clears what lies inside it, the positions ascend.** -/
theorem rowMajor_ascends : ∀ (ls ss : List Nat) (start : Nat), Clears ls ss →
    (rowMajor start ls ss).Pairwise (· < ·)
  | [], _, start, _ => List.pairwise_singleton _ start
  | _ :: _, [], start, _ => List.pairwise_singleton _ start
  | l :: ls, s :: ss, start, h => by
      rw [rowMajor, List.pairwise_flatMap, pairwise_range]
      refine ⟨fun i _ => rowMajor_ascends ls ss _ h.2, ?_⟩
      intro i j hij hj x hx y hy
      have h1 := (mem_rowMajor_bounds ls ss _ hx).2
      have h2 := (mem_rowMajor_bounds ls ss _ hy).1
      have hs : reach ls ss < s := h.1 (by omega)
      have hle : (i + 1) * s ≤ j * s := Nat.mul_le_mul_right s hij
      rw [Nat.succ_mul] at hle
      rw [Nat.cast_id] at h1 h2
      omega

end Ascends

/-! ## 4. Positions that wrap -/

section Wrap
variable {w : Nat}

theorem toNat_add_mul {a s : BitVec w} {i : Nat} (h : a.toNat + i * s.toNat < 2 ^ w) :
    (a + (i : BitVec w) * s).toNat = a.toNat + i * s.toNat := by
  rw [BitVec.toNat_add, BitVec.toNat_mul, BitVec.natCast_eq_ofNat, BitVec.toNat_ofNat,
    Nat.mod_mul_mod, Nat.add_mod_mod, Nat.mod_eq_of_lt h]

/-- Below the wrap, the words are the naturals. -/
theorem toNat_rowMajor : ∀ (ls : List Nat) (ss : List (BitVec w)) (start : BitVec w),
    start.toNat + reach ls (ss.map BitVec.toNat) < 2 ^ w →
    (rowMajor start ls ss).map BitVec.toNat = rowMajor start.toNat ls (ss.map BitVec.toNat)
  | [], _, _, _ => rfl
  | _ :: _, [], _, _ => rfl
  | l :: ls, s :: ss, start, h => by
      rw [List.map_cons, reach] at h
      rw [rowMajor, List.map_cons, rowMajor, List.map_flatMap]
      refine List.flatMap_congr fun i hi => ?_
      have hle : i * s.toNat ≤ (l - 1) * s.toNat :=
        Nat.mul_le_mul_right _ (by have := List.mem_range.mp hi; omega)
      have hi' := toNat_add_mul (a := start) (s := s) (i := i) (by omega)
      rw [toNat_rowMajor ls ss _ (by omega), hi', Nat.cast_id]

/-- **Words that ascend do not wrap**: each step up is a true one. -/
theorem reach_lt_of_ascends : ∀ (ls : List Nat) (ss : List (BitVec w)) (start : BitVec w),
    (∀ l, l ∈ ls → 0 < l) → ((rowMajor start ls ss).map BitVec.toNat).Pairwise (· < ·) →
    start.toNat + reach ls (ss.map BitVec.toNat) < 2 ^ w
  | [], _, start, _, _ => start.isLt
  | _ :: _, [], start, _, _ => start.isLt
  | l :: ls, s :: ss, start, hpos, h => by
      have hls : ∀ l, l ∈ ls → 0 < l := fun l hl => hpos l (List.mem_cons_of_mem _ hl)
      rw [rowMajor, List.map_flatMap, List.pairwise_flatMap, pairwise_range] at h
      obtain ⟨hin, hout⟩ := h
      have hhead : ∀ i : Nat, (start + (i : BitVec w) * s).toNat ∈
          (rowMajor (start + (i : BitVec w) * s) ls ss).map BitVec.toNat := fun i =>
        List.mem_map_of_mem (start_mem_rowMajor ls ss _ hls)
      -- The starts of the blocks ascend, so none of the strides between them wraps.
      have hexact : ∀ i, i < l → start.toNat + i * s.toNat < 2 ^ w := by
        intro i hi
        induction i with
        | zero =>
            rw [Nat.zero_mul]
            exact start.isLt
        | succ i ih =>
            have hlt := hout i (i + 1) (Nat.lt_succ_self i) hi _ (hhead i) _ (hhead (i + 1))
            have hi' := ih (by omega)
            rw [toNat_add_mul hi', Nat.cast_succ, add_mul, one_mul, ← add_assoc, BitVec.toNat_add,
              toNat_add_mul hi'] at hlt
            rw [Nat.succ_mul, ← Nat.add_assoc]
            by_contra hge
            have hs := s.isLt
            have hm : (start.toNat + i * s.toNat + s.toNat) % 2 ^ w =
                start.toNat + i * s.toNat + s.toNat - 2 ^ w := by
              rw [Nat.mod_eq_sub_mod (by omega), Nat.mod_eq_of_lt (by omega)]
            omega
      have hl := hpos l List.mem_cons_self
      have hlast := hexact (l - 1) (by omega)
      have := reach_lt_of_ascends ls ss _ hls (hin (l - 1) (List.mem_range.mpr (by omega)))
      rw [toNat_add_mul hlast] at this
      rw [List.map_cons, reach, ← Nat.add_assoc]
      exact this

end Wrap

end XstdBits
