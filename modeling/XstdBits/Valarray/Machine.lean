/-
  File: XstdBits/Valarray/Machine.lean
  Subject: a bank of valarrays refines lists of bools, over every program.

  * `Carries c xs` relates a valarray to the list it stands for; an expression makes its value
    (`Expr.makes`), and a proxy's loop over blocks is the loop over the list (`written_eq`).
  * `Stmt.step` is the simulation of one statement, whatever throws in it; `ValarrayRun.carries`
    carries it over every run, refused allocations included.
-/
import Mathlib.Data.List.Rotate
import XstdBits.Valarray.Program

namespace XstdBits

namespace Valarray

open BitBlockContainer

/-! ## 1. Lists, element by element -/

section Elements
variable {xs ys : List Bool} {n p i : Nat}

theorem elemAt_of_lt (h : i < xs.length) : elemAt xs i = xs[i] := List.getD_eq_getElem _ _ h

theorem elemAt_of_le (h : xs.length ≤ i) : elemAt xs i = false := List.getD_eq_default _ _ h

theorem elemAt_replicate {v : Bool} (h : i < n) : elemAt (List.replicate n v) i = v := by
  rw [elemAt_of_lt (by rwa [List.length_replicate]), List.getElem_replicate]

theorem elemAt_map {g : Bool → Bool} (h : i < xs.length) : elemAt (xs.map g) i = g (elemAt xs i) := by
  rw [elemAt_of_lt (by rwa [List.length_map]), elemAt_of_lt h, List.getElem_map]

theorem elemAt_zipWith {o : Bool → Bool → Bool} (hx : i < xs.length) (hy : i < ys.length) :
    elemAt (List.zipWith o xs ys) i = o (elemAt xs i) (elemAt ys i) := by
  rw [elemAt_of_lt (by rw [List.length_zipWith]; omega), elemAt_of_lt hx, elemAt_of_lt hy,
    List.getElem_zipWith]

theorem elemAt_set {v : Bool} (hn : n < xs.length) :
    elemAt (xs.set n v) i = if i = n then v else elemAt xs i := by
  by_cases h : i = n
  · rw [if_pos h, h, elemAt_of_lt (by rwa [List.length_set]), List.getElem_set_self]
  · rw [if_neg h]
    exact getD_set_ne (Ne.symm h)

theorem length_lowered : (lowered n xs).length = xs.length := by
  unfold lowered
  rw [List.length_drop, List.length_append, List.length_replicate]
  omega

theorem elemAt_lowered : elemAt (lowered n xs) i = elemAt xs (i + n) := by
  unfold elemAt lowered
  rw [List.getD_eq_getElem?_getD, List.getElem?_drop, List.getElem?_append,
    List.getD_eq_getElem?_getD, Nat.add_comm n i]
  split
  · rfl
  · rw [List.getElem?_eq_none (l := xs) (by omega), List.getElem?_replicate]
    split <;> rfl

theorem length_raised : (raised n xs).length = xs.length := by
  unfold raised
  rw [List.length_take, List.length_append, List.length_replicate]
  omega

theorem elemAt_raised (h : i < xs.length) :
    elemAt (raised n xs) i = if i < n then false else elemAt xs (i - n) := by
  unfold elemAt raised
  rw [List.getD_eq_getElem?_getD, List.getElem?_take_of_lt h, List.getElem?_append,
    List.length_replicate]
  split
  · rename_i hn
    rw [List.getElem?_replicate_of_lt hn]
    rfl
  · rw [List.getD_eq_getElem?_getD]

theorem elemAt_rotate {k : Nat} (h : i < xs.length) :
    elemAt (xs.rotate k) i = elemAt xs ((i + k) % xs.length) := by
  rw [elemAt_of_lt (by rwa [List.length_rotate]), List.getElem_rotate,
    elemAt_of_lt (Nat.mod_lt _ (by omega))]

variable {f : Bool → Bool → Bool} {read : List Bool → Nat → Bool} {ps : List Nat} {k : Nat}

theorem length_written : (written f read ps k xs).length = xs.length := by
  induction ps generalizing k xs with
  | nil => rfl
  | cons p ps ih =>
      rw [written, ih, List.length_set]

/-- **The loop over a list is the loop over its elements**, where both read alike. -/
theorem written_eq {readAt : (Nat → Bool) → Nat → Bool}
    (hread : ∀ ys j, ys.length = xs.length → readAt (elemAt ys) j = read ys j)
    (hin : ∀ p, p ∈ ps → p < xs.length) :
    elemAt (written f read ps k xs) = scatterLoop f readAt ps k (elemAt xs) := by
  induction ps generalizing k xs with
  | nil => rfl
  | cons p ps ih =>
      have hp : p < xs.length := hin p List.mem_cons_self
      rw [written, scatterLoop, ih (fun ys j hys => hread ys j (hys.trans List.length_set)) fun q hq => by
        rw [List.length_set]
        exact hin q (List.mem_cons_of_mem p hq), hread xs k rfl]
      congr 1
      funext i
      rw [elemAt_set hp, Function.update_apply]

end Elements

/-! ## 2. The list a valarray stands for -/

/-- **The valarray of the list.** -/
def Carries {w : Nat} {V : Vehicle w} (c : BitBlockContainer V) (xs : List Bool) : Prop :=
  Holds c xs.length (elemAt xs)

section Carries
variable {w : Nat} {V : Vehicle w} {c d r : BitBlockContainer V} {xs ys : List Bool} {n : Nat}
  {f : Nat → Bool}

/-- A list of the elements it holds. -/
theorem Holds.carries (h : Holds r n f) (hlen : ys.length = n)
    (hf : ∀ i, i < n → elemAt ys i = f i) : Carries r ys := by
  subst hlen
  exact h.congr fun i hi => (hf i hi).symm

theorem Carries.get (h : Carries c xs) (p : Nat) : c.bit p = elemAt xs p := by
  rw [h.bit]
  by_cases hp : p < xs.length
  · rw [decide_eq_true hp, Bool.true_and]
  · rw [decide_eq_false hp, Bool.false_and, elemAt_of_le (by omega)]

/-- What is read back, one element at a time. -/
theorem Carries.read (h : Carries c xs) : (List.range c.size).map c.test = xs := by
  refine List.ext_getElem ?_ fun p hp _ => ?_
  · rw [List.length_map, List.length_range, h.size]
  · rw [List.length_map, List.length_range] at hp
    rw [List.getElem_map, List.getElem_range, test_eq h.inv.shape hp, h.get,
      elemAt_of_lt (by rwa [← h.size])]

theorem Carries.transferred (h : Carries c xs) (hd : SameValue c d) : Carries d xs where
  inv := h.inv.transferred hd
  size := by rw [hd.size, h.size]
  bit p := by rw [hd.bit, h.bit]

theorem Carries.assign (h : Carries c xs) (hn : n < xs.length) (v : Bool) :
    Carries (c.assign n v) (xs.set n v) where
  inv := h.inv.assign (by rwa [h.size])
  size := by rw [List.length_set, sameWidth_assign.size, h.size]
  bit p := by
    rw [List.length_set, bit_assign h.inv.shape (by rwa [h.size]), elemAt_set hn, h.get]
    by_cases hp : p < xs.length
    · rw [decide_eq_true hp, Bool.true_and]
    · rw [decide_eq_false hp, Bool.false_and, if_neg (by omega), elemAt_of_le (by omega)]

theorem Carries.fill (h : Carries c xs) (v : Bool) :
    Carries (c.fill v) (List.replicate xs.length v) :=
  (Holds.fill h v).carries List.length_replicate fun _ hi => elemAt_replicate hi

theorem Carries.shl (h : Carries c xs) (n : Nat) : Carries (shlAssign c n) (raised n xs) := by
  unfold shlAssign
  split
  · rename_i hn
    refine Holds.carries (n := xs.length) (f := elemAt (raised n xs)) ⟨h.inv.shlAssign hn,
      (sameWidth_shlAssign h.inv.shape hn).size.trans h.size, fun p => ?_⟩ length_raised fun _ _ => rfl
    rw [bit_shlAssign h.inv.shape hn, h.size, h.get]
    by_cases hp : p < xs.length
    · rw [elemAt_raised hp, decide_eq_true hp, Bool.true_and]
      by_cases hnp : n ≤ p
      · rw [decide_eq_true ⟨hnp, hp⟩, Bool.true_and, if_neg (by omega)]
      · rw [decide_eq_false (by omega), Bool.false_and, if_pos (by omega)]
    · rw [decide_eq_false (by omega), decide_eq_false hp, Bool.false_and, Bool.false_and]
  · rename_i hn
    rw [h.size] at hn
    refine (Holds.fill h false).carries length_raised fun i hi => ?_
    rw [elemAt_raised hi, if_pos (by omega)]

theorem Carries.shr (h : Carries c xs) (n : Nat) : Carries (shrAssign c n) (lowered n xs) := by
  unfold shrAssign
  split
  · rename_i hn
    refine Holds.carries (n := xs.length) (f := elemAt (lowered n xs)) ⟨h.inv.shrAssign hn,
      (sameWidth_shrAssign h.inv.shape hn).size.trans h.size, fun p => ?_⟩ length_lowered fun _ _ => rfl
    rw [bit_shrAssign h.inv.shape hn, h.get, elemAt_lowered]
    by_cases hp : p < xs.length
    · rw [decide_eq_true hp, Bool.true_and]
    · rw [decide_eq_false hp, Bool.false_and, elemAt_of_le (by omega)]
  · rename_i hn
    rw [h.size] at hn
    refine (Holds.fill h false).carries length_lowered fun i hi => ?_
    rw [elemAt_lowered, elemAt_of_le (by omega)]

/-- `shift(n)` moves the elements by `n` places, towards the front where `n` is positive. -/
theorem Carries.shift (h : Carries c xs) (n : BitVec 32) : Carries (Valarray.shift c n)
    (if 0 ≤ n.toInt then lowered n.toInt.natAbs xs else raised n.toInt.natAbs xs) := by
  obtain ⟨hinv, hsize, hbit⟩ := shift_spec h.inv n
  rw [h.size] at hsize hbit
  refine Holds.carries (hsize ▸ holds_self hinv) ?_ fun i hi => ?_
  · split
    · exact length_lowered
    · exact length_raised
  · rw [hbit i hi]
    simp only [h.get]
    by_cases h0 : 0 ≤ n.toInt
    · rw [if_pos h0, elemAt_lowered]
      split
      · congr 1
        omega
      · exact elemAt_of_le (by omega)
    · rw [if_neg h0, elemAt_raised hi]
      by_cases hin : i < n.toInt.natAbs
      · rw [if_pos hin, if_neg (by omega)]
      · rw [if_neg hin, if_pos (by omega)]
        congr 1
        omega

/-- `cshift(n)` turns them. -/
theorem Carries.cshift (h : Carries c xs) (n : BitVec 32) :
    Carries (Valarray.cshift c n) (xs.rotate (n.toInt % xs.length).toNat) := by
  obtain ⟨hinv, hsize, hbit⟩ := cshift_spec h.inv n
  rw [h.size] at hsize hbit
  refine Holds.carries (hsize ▸ holds_self hinv) (List.length_rotate ..) fun i hi => ?_
  rw [hbit i hi, h.get, elemAt_rotate hi]
  have hnonneg := Int.emod_nonneg n.toInt (show (xs.length : Int) ≠ 0 by omega)
  have hcast : (((i + (n.toInt % xs.length).toNat) % xs.length : Nat) : Int) =
      (i + n.toInt) % xs.length := by
    rw [Int.natCast_emod, Int.natCast_add, Int.toNat_of_nonneg hnonneg, Int.add_emod_emod]
  rw [← hcast, Int.toNat_natCast]

/-- Blocks of the same number, clear past the list. -/
theorem Carries.withElems (h : Carries c xs) (hu : V.hasStoredCount = false)
    {out : List (BitVec w)} (hlen : out.length = c.mBlocks.elems.length)
    (hys : ys.length = xs.length) (hbit : ∀ p, bitAt out p = elemAt ys p) :
    Carries (c.withElems fun _ => out) ys := by
  refine (Holds.withElems h hu hlen fun p => ?_).carries hys fun _ _ => rfl
  rw [hbit]
  by_cases hp : p < xs.length
  · rw [decide_eq_true hp, Bool.true_and]
  · rw [decide_eq_false hp, Bool.false_and, elemAt_of_le (by omega)]

end Carries

/-! ## 3. Subscripts -/

section Subscripts
variable {w : Nat} {V : Vehicle w} {S : Bank V} {L : Values} {h : ∀ k, (S k).Inv}
  {hV : V.storage ≠ .lent} {i j : Nat} {sub : Subscript}

/-- Whichever it is, it is valarray `j`. -/
theorem get_arrayRef : (arrayRef S h hV i j).get (.ofContainer (S i) (h i) hV) =
    .ofContainer (S j) (h j) hV := by
  unfold arrayRef
  split
  · rename_i hij
    subst hij
    rfl
  · rfl

variable (hC : ∀ k, Carries (S k) (L k))
include hC

theorem size_ofContainer (j : Nat) :
    (BitValarray.ofContainer (S j) (h j) hV).size.toNat = (L j).length := by
  rw [BitValarray.size_ofContainer, (hC j).size]

theorem bits_ofContainer (j : Nat) :
    bitAt (BitValarray.ofContainer (S j) (h j) hV).blocks = elemAt (L j) := funext (hC j).get

/-- **A subscript names the positions of its list.** -/
theorem positions_selection :
    (sub.selection S h hV i).positions (.ofContainer (S i) (h i) hV) = sub.positions L := by
  cases sub with
  | mask k =>
      show ascending (bitAt ((arrayRef S h hV i k).get (.ofContainer (S i) (h i) hV)).blocks)
        ((arrayRef S h hV i k).get (.ofContainer (S i) (h i) hV)).size.toNat = _
      rw [get_arrayRef, size_ofContainer hC, bits_ofContainer hC]
      rfl
  | _ => rfl

variable (hw : sub.Within L i)
include hw

theorem wellFormed_selection :
    (sub.selection S h hV i).WellFormed (.ofContainer (S i) (h i) hV) := by
  cases sub with
  | gslice g x built => exact hw.noWrap g x built rfl
  | mask k =>
      show ((arrayRef S h hV i k).get (.ofContainer (S i) (h i) hV)).size = _
      refine BitVec.eq_of_toNat_eq ?_
      rw [get_arrayRef, size_ofContainer hC, size_ofContainer hC, hw.sameSize k rfl]
  | _ => exact trivial

theorem within_selection : (sub.selection S h hV i).Within (.ofContainer (S i) (h i) hV) := by
  intro p hp
  rw [positions_selection hC] at hp
  rw [size_ofContainer hC]
  exact hw.below p hp

omit hw in
theorem not_pastEnd_selection (hr : sub.InReach w L i) :
    ¬ (sub.selection S h hV i).PastEnd (.ofContainer (S i) (h i) hV) := by
  cases sub with
  | slice s =>
      intro ⟨hempty, hone, hpast⟩
      have hreach := hr s rfl hempty hone
      rw [(BitValarray.ofContainer (S i) (h i) hV).length, size_ofContainer hC] at hpast
      omega
  | _ => exact id

omit hw in
/-- The elements it selects are those of the list. -/
theorem element_selection (q : Nat) :
    (sub.selection S h hV i).element (.ofContainer (S i) (h i) hV) q =
      elemAt (sub.elements L i) q := by
  unfold Selection.element
  rw [positions_selection hC, bits_ofContainer hC]
  rfl

end Subscripts

/-! ## 4. Expressions -/

/-- The memory has room for `n` positions, where a width is taken at run time. -/
def Room {w : Nat} (V : Vehicle w) (mem : Memory) (n : Nat) : Prop :=
  V.hasStoredSize = true → HasRoom V mem n

/-- **Whatever it makes carries the list**, and it makes it where there is room. -/
structure Makes {w : Nat} {V : Vehicle w} (mem : Memory) (x : Except Exn (BitBlockContainer V))
    (ys : List Bool) : Prop where
  carries : ∀ r, x = .ok r → Carries r ys
  completes : Room V mem ys.length → ∃ r, x = .ok r

section Expressions
variable {w : Nat} {V : Vehicle w} {mem : Memory} {alloc : Nat} {c : BitBlockContainer V}
  {xs ys : List Bool} {n : Nat}

theorem makes_bind {x : Except Exn (BitBlockContainer V)}
    {f : BitBlockContainer V → Except Exn (BitBlockContainer V)} (hx : Makes mem x xs)
    (hlen : xs.length = ys.length) (hf : ∀ r, Carries r xs → Makes mem (f r) ys) :
    Makes mem (x >>= f) ys := by
  cases x with
  | error e =>
      refine ⟨fun r hr => (nomatch hr), fun hroom => ?_⟩
      obtain ⟨r, hr⟩ := hx.completes (hlen ▸ hroom)
      cases hr
  | ok r => exact hf r (hx.carries r rfl)

theorem makes_ok (hc : Carries c xs) : Makes mem (.ok c) xs where
  carries := by
    rintro r ⟨⟩
    exact hc
  completes _ := ⟨c, rfl⟩

/-- A valarray made of elements, all of them the list's. -/
theorem makes_of_holds {x : Except Exn (BitBlockContainer V)} {f : Nat → Bool}
    (hlen : ys.length = n) (hf : ∀ i, i < n → elemAt ys i = f i) (hholds : ∀ r, x = .ok r → Holds r n f)
    (hroom : Room V mem n → ∃ r, x = .ok r) : Makes mem x ys where
  carries r hr := (hholds r hr).carries hlen hf
  completes h := hroom (hlen ▸ h)

theorem makes_ofCount (hs : V.hasStoredSize = true) :
    Makes mem (ofCount mem alloc n : Except Exn (BitBlockContainer V)) (List.replicate n false) :=
  makes_of_holds List.length_replicate (fun _ hi => elemAt_replicate hi)
    (fun _ hr => ofCount_holds hs hr) fun hroom => (ofCount_iff alloc).mpr (hroom hs).roomFor

/-- **Clear positions, as many as are asked for** or as a fixed size has. -/
theorem makes_cleared (hV : V.storage ≠ .lent) (n : Nat) (fits : Nat → Bool)
    (hfits : V.hasStaticSize = true → fits V.extent = true) :
    Makes mem (cleared mem alloc n fits : Except Exn (BitBlockContainer V))
      (List.replicate (if V.hasStaticSize then V.extent else n) false) := by
  refine makes_of_holds List.length_replicate (fun _ hi => elemAt_replicate hi)
    (fun _ hr => cleared_holds hV hr) fun hroom => (cleared_iff hV alloc fits).mpr ?_
  by_cases hs : V.hasStaticSize = true
  · rw [if_pos hs]
    exact hfits hs
  · rw [if_neg hs] at hroom ⊢
    exact (hroom ((V.owned_of_not_lent hV).resolve_right hs)).roomFor

/-- A fixed size of as many, or room for them. -/
theorem sized_of_room (hV : V.storage ≠ .lent) (hfixed : V.hasStaticSize = true → n = V.extent)
    (hroom : Room V mem n) : Sized V mem n := by
  unfold Sized
  split
  · rename_i hs
    exact hfixed hs
  · rename_i hs
    exact (hroom ((V.owned_of_not_lent hV).resolve_right hs)).roomFor

/-- **Values copied in**, one after the other. -/
theorem Carries.copyInto (values : List Bool) (hc : Carries c xs)
    (hn : n + values.length ≤ xs.length) :
    Carries (Valarray.copyInto values n c) (xs.take n ++ values ++ xs.drop (n + values.length)) := by
  induction values generalizing n c xs with
  | nil =>
      rw [List.append_nil, List.length_nil, Nat.add_zero, List.take_append_drop]
      exact hc
  | cons value values ih =>
      rw [List.length_cons] at hn
      have hlt : n < xs.length := by omega
      have hset := hc.assign hlt value
      have htail := ih (n := n + 1) hset (by rw [List.length_set]; omega)
      have htake : (xs.set n value).take (n + 1) = xs.take n ++ [value] := by
        rw [List.take_add_one, List.take_set_of_le (Nat.le_refl n), List.getElem?_set_self hlt]
        rfl
      rw [htake, List.drop_set_of_lt (by omega), List.append_assoc (xs.take n),
        List.singleton_append] at htail
      rw [List.length_cons, show n + (values.length + 1) = n + 1 + values.length by omega]
      exact htail

/-- A copy of a valarray completes where its width fits. -/
theorem copyOf_completes (hc : Carries c xs) (hroom : Room V mem xs.length) (alloc : Nat) :
    ∃ d, copyOf mem c alloc = .ok d := by
  by_cases hs : V.hasStoredSize = true
  · have hgrants := (hroom hs).grants
    rw [← hc.size] at hgrants
    exact copyOf_of_grants hc.inv (hgrants _ (Nat.le_of_eq hc.inv.shape))
  · unfold copyOf
    rw [if_neg hs]
    exact ⟨_, rfl⟩

/-- **A copy changed in place.** -/
theorem makes_onCopy {step : BitBlockContainer V → BitBlockContainer V} (hc : Carries c xs)
    (hlen : ys.length = xs.length) (hstep : ∀ d, Carries d xs → Carries (step d) ys) :
    Makes mem (onCopy mem c step) ys where
  carries r hr := by
    unfold onCopy at hr
    cases hd : copyOf mem c c.mBlocks.alloc with
    | error e =>
        rw [hd] at hr
        cases hr
    | ok d =>
        rw [hd] at hr
        cases hr
        exact hstep d (hc.transferred (copyOf_sameValue hd))
  completes hroom := by
    obtain ⟨d, hd⟩ := copyOf_completes hc (hlen ▸ hroom) c.mBlocks.alloc
    unfold onCopy
    rw [hd]
    exact ⟨_, rfl⟩

/-- An operator that returns its elements, all of them the list's. -/
theorem makes_returns {step : BitBlockContainer V → BitBlockContainer V} {f : Nat → Bool}
    (hc : Carries c xs) (hr : Returns mem c (onCopy mem c step) c.size f)
    (hlen : ys.length = xs.length) (hf : ∀ i, i < xs.length → elemAt ys i = f i) :
    Makes mem (onCopy mem c step) ys where
  carries r hok := by
    refine (hr.holds r hok).carries (hlen.trans hc.size.symm) ?_
    rw [hc.size]
    exact hf
  completes hroom := by
    obtain ⟨d, hd⟩ := copyOf_completes hc (hlen ▸ hroom) c.mBlocks.alloc
    unfold onCopy
    rw [hd]
    exact ⟨_, rfl⟩

end Expressions

section Evaluation
variable {w : Nat} {V : Vehicle w} {I : Intrinsics w} {B : Vehicle w} {mem : Memory} {alloc : Nat}
  {S : Bank V} {L : Values} {h : ∀ k, (S k).Inv} {hV : V.storage ≠ .lent}
  (hI : I.Lawful) (hB : B.storage = .lent) (hu : V.hasStoredCount = false)
  (hC : ∀ k, Carries (S k) (L k))
include hI hB hu hC

/-- **An expression makes its value**, whichever it is. -/
theorem Expr.makes {e : Expr} (hp : e.Pre V L) :
    Makes mem (e.eval I B mem alloc S h hV) (e.value V L) := by
  cases e with
  | sized n => exact makes_ofCount hp
  | filled value n =>
      refine makes_bind (makes_ofCount hp) (by simp [Expr.value]) fun r hr => ?_
      have hfill := hr.fill value
      rw [List.length_replicate] at hfill
      exact makes_ok hfill
  | listed values =>
      have hcleared : Makes mem (cleared mem alloc _ _) _ := makes_cleared hV values.length
        (fun n => decide (values.length ≤ n)) fun hs => decide_eq_true (hp hs)
      have hle : values.length ≤ if V.hasStaticSize then V.extent else values.length := by
        split
        · rename_i hs
          exact hp hs
        · exact Nat.le_refl _
      have hvalue : (listed values).value V L = values ++
          List.replicate ((if V.hasStaticSize then V.extent else values.length) - values.length)
            false := by
        show values ++ List.replicate ((if V.hasStaticSize then V.extent else 0) - values.length)
          false = _
        split
        · rfl
        · rw [Nat.zero_sub, Nat.sub_self]
      rw [hvalue]
      refine makes_bind hcleared ?_ fun r hr => ?_
      · rw [List.length_replicate, List.length_append, List.length_replicate]
        omega
      · have hcopied := hr.copyInto (n := 0) values (by rw [List.length_replicate]; omega)
        rw [List.take_zero, List.nil_append, Nat.zero_add, List.drop_replicate] at hcopied
        exact makes_ok hcopied
  | proxy sub j =>
      obtain ⟨hw, hr, hfixed⟩ := hp
      have hlen : (sub.elements L j).length = ((sub.selection S h hV j).positions
          (.ofContainer (S j) (h j) hV)).length := by
        rw [positions_selection hC]
        exact List.length_map ..
      refine makes_of_holds hlen (fun i _ => (element_selection hC i).symm) (fun r hr =>
        BitValarray.ofProxy_holds hI hB (wellFormed_selection hC hw) (within_selection hC hw) hu hV hr)
        fun hroom => ?_
      obtain ⟨r, hmade, -⟩ := (BitValarray.ofProxy_iff hI hB (wellFormed_selection hC hw)
        (within_selection hC hw) hu hV alloc).mpr ⟨not_pastEnd_selection hC hr, sized_of_room hV
          (fun hs => by rw [positions_selection hC]; exact hfixed hs) hroom⟩
      exact ⟨r, hmade⟩
  | gathered sub j =>
      obtain ⟨hs, hw, hr⟩ := hp
      have hlen : (sub.elements L j).length = ((sub.selection S h hV j).positions
          (.ofContainer (S j) (h j) hV)).length := by
        rw [positions_selection hC]
        exact List.length_map ..
      refine makes_of_holds hlen (fun i _ => (element_selection hC i).symm) (fun r hr =>
        BitValarray.gather_holds hI hB (wellFormed_selection hC hw) (within_selection hC hw) hu hs hr)
        fun hroom => ?_
      obtain ⟨r, hmade, -⟩ := (BitValarray.gather_iff hI hB (wellFormed_selection hC hw)
        (within_selection hC hw) hu hs alloc).mpr
          ⟨not_pastEnd_selection hC hr, (hroom hs).roomFor⟩
      exact ⟨r, hmade⟩
  | zip op j k =>
      have hjk : (L j).length = (L k).length := hp
      have hlen : (List.zipWith op.onBools (L j) (L k)).length = (L j).length := by
        rw [List.length_zipWith]
        omega
      refine makes_returns (hC j) (zip_returns (hC j).inv hu (S k) op) hlen fun i hi => ?_
      rw [(hC j).get, (hC k).get]
      exact elemAt_zipWith hi (hjk ▸ hi)
  | zipRight op j value =>
      refine makes_returns (hC j) (zipRight_returns (hC j).inv hu value op) (List.length_map ..)
        fun i hi => ?_
      rw [(hC j).get]
      exact elemAt_map hi
  | zipLeft op value k =>
      refine makes_returns (hC k) (zipLeft_returns (hC k).inv hu value op) (List.length_map ..)
        fun i hi => ?_
      rw [(hC k).get]
      exact elemAt_map hi
  | logicalNot j =>
      refine makes_returns (hC j) (logicalNot_returns (hC j).inv) (List.length_map ..)
        fun i hi => ?_
      rw [(hC j).get]
      exact elemAt_map hi
  | bitNot j =>
      refine makes_returns (hC j) (logicalNot_returns (hC j).inv) (List.length_map ..)
        fun i hi => ?_
      rw [(hC j).get]
      exact elemAt_map hi
  | apply func j =>
      refine makes_returns (hC j) (apply_returns (hC j).inv func) (List.length_map ..) fun i hi => ?_
      rw [(hC j).get]
      exact elemAt_map hi
  | shift n j =>
      refine makes_onCopy (hC j) ?_ fun d hd => hd.shift n
      show (if 0 ≤ n.toInt then lowered n.toInt.natAbs (L j)
        else raised n.toInt.natAbs (L j)).length = (L j).length
      split
      · exact length_lowered
      · exact length_raised
  | cshift n j => exact makes_onCopy (hC j) (List.length_rotate ..) fun d hd => hd.cshift n
  | shl j n => exact makes_onCopy (hC j) length_raised fun d hd => hd.shl n
  | shr j n => exact makes_onCopy (hC j) length_lowered fun d hd => hd.shr n

end Evaluation

/-! ## 5. Statements -/

section Actions
variable {w : Nat} {V : Vehicle w} {mem : Memory} {S : Bank V} {L : Values} {i : Nat}
  {c made : BitBlockContainer V} {xs ys : List Bool}

/-- **A value moved in**, or refused with nothing changed. -/
theorem moveAssign_ends (hm : Carries made ys) :
    Ends (moveAssign mem made >>= fun _ => pure ()) c (fun _ d => Carries d ys)
      fun _ t => t = c ∧ ¬ Room V mem ys.length := by
  refine ends_bind (P := fun _ d => Carries d ys) (ends_iff.mpr ⟨fun e d hd => ?_,
    fun e t he => ⟨moveAssign_strong e t he, fun hroom => ?_⟩⟩) fun _ _ hd => ends_pure hd
  · exact hm.transferred (moveAssign_ok hm.inv hd).1
  · by_cases hs : V.hasStoredSize = true
    · have hroom := hroom hs
      rw [← hm.size] at hroom
      obtain ⟨_, _, hok⟩ := hroom.moveAssign (c := c) hm.inv.shape
      rw [hok] at he
      cases he
    · unfold BitBlockContainer.moveAssign at he
      rw [if_neg fun hboth => hs hboth.1] at he
      cases he

/-- **A copy assigned**, or refused with nothing changed. -/
theorem copyAssign_ends (hi : InstallsWithoutThrowing V) {o : Operand V}
    (ho : Carries (o.get c) ys) : Ends (copyAssign mem o) c (fun _ d => Carries d ys)
      fun _ t => t = c ∧ ¬ Room V mem ys.length := by
  refine ends_iff.mpr ⟨fun _ d hd => ho.transferred (copyAssign_ok hd), fun e t he =>
    ⟨copyAssign_strong hi e t he, fun hroom => ?_⟩⟩
  by_cases hs : V.hasStoredSize = true
  · have hroom := hroom hs
    rw [← ho.size] at hroom
    obtain ⟨_, _, hok⟩ := hroom.copyAssign ho.inv.shape
    rw [hok] at he
    cases he
  · unfold BitBlockContainer.copyAssign at he
    rw [if_neg fun hboth => hs hboth.1] at he
    cases he

/-- **Resized and filled**, or refused with nothing changed. -/
theorem resize_ends (hc : Carries c xs) (hs : V.hasStoredSize = true) {n : Nat} {v : Bool} :
    Ends (do
      SequenceAdaptor.resize mem n v
      modify (·.fill v) : Action V Unit) c (fun _ d => Carries d (List.replicate n v))
      fun _ t => t = c ∧ ¬ HasRoom V mem n := by
  have hchecked : Ends (SequenceAdaptor.resize mem n v) c (fun _ d => Resized c d n v)
      fun _ t => t = c ∧ ¬ HasRoom V mem n := by
    refine ends_bind (P := fun a d => c = d ∧ n = a) ?_ ?_
    · unfold SequenceAdaptor.checkedWidth Ends
      cases hn : checkAddressableWidth V n with
      | error e =>
          refine ⟨rfl, fun hroom => ?_⟩
          rw [hroom.checked] at hn
          cases hn
      | ok a =>
          unfold checkAddressableWidth at hn
          split at hn
          · cases hn
          · cases hn
            exact ⟨rfl, rfl⟩
    · rintro _ _ ⟨rfl, rfl⟩
      exact (resizeTo_ends hc.inv hs).mono (fun _ _ hd => hd) fun _ _ ht => ⟨ht.1, ht.2.2⟩
  refine ends_bind hchecked fun _ d hd => ends_modify ?_
  obtain ⟨hsame, hbit, hinv⟩ := fill_spec hd.inv (v := v)
  have hsize : (d.fill v).size = n := hsame.size.trans hd.size
  refine ⟨hinv, hsize.trans List.length_replicate.symm, fun p => ?_⟩
  rw [hbit, hd.size, List.length_replicate]
  by_cases hp : p < n
  · rw [elemAt_replicate hp]
  · rw [decide_eq_false hp, Bool.false_and, Bool.false_and]

variable (hC : ∀ k, Carries (S k) (L k))
include hC

theorem carries_put {d : BitBlockContainer V} (hd : Carries d ys) (k : Nat) :
    Carries (S.put i d k) (Function.update L i ys k) := by
  unfold Bank.put
  rw [Function.update_apply]
  split
  · exact hd
  · exact hC k

omit hC in
/-- A valarray put back where it was. -/
theorem put_self : S.put i (S i) = S := by
  funext k
  unfold Bank.put
  split
  · rename_i hk
    rw [hk]
  · rfl

/-- One valarray of the bank changed, or none. -/
theorem attempt_ends {a : Bank V → Action V Unit} {F : Prop}
    (ha : Ends (a S) (S i) (fun _ d => Carries d ys) fun _ t => t = S i ∧ F) :
    Ends (fun _ => Bank.attempt i a S) S
      (fun _ T => ∀ k, Carries (T k) (Function.update L i ys k)) fun _ T => T = S ∧ F := by
  unfold Ends Bank.attempt at *
  cases hrun : a S (S i) with
  | ok q d =>
      rw [hrun] at ha
      exact carries_put hC ha
  | error e d =>
      rw [hrun] at ha
      obtain ⟨rfl, hF⟩ := ha
      exact ⟨put_self, hF⟩

/-- Two arrays of one size, element by element. -/
theorem carries_transform2 (hu : V.hasStoredCount = false) {j : Nat}
    (hsize : (L i).length = (L j).length) {F : BitVec w → BitVec w → BitVec w}
    {o : Bool → Bool → Bool} (hF : ActsBitwise F o) :
    Carries ((S i).transform2 (S.operand i j) F) (List.zipWith o (L i) (L j)) := by
  refine (Holds.transform2 (hC i) hu (S.operand i j) hF).carries ?_ fun p hp => ?_
  · rw [List.length_zipWith]
    omega
  · rw [Bank.get_operand, (hC j).get]
    exact elemAt_zipWith hp (by omega)

end Actions

section Step
variable {w : Nat} {V : Vehicle w} {I : Intrinsics w} {B : Vehicle w} {mem : Memory} {alloc : Nat}
  {S : Bank V} {L : Values} {h : ∀ k, (S k).Inv} {hV : V.storage ≠ .lent} {i : Nat}
  (hI : I.Lawful) (hB : B.storage = .lent) (hu : V.hasStoredCount = false)
  (hC : ∀ k, Carries (S k) (L k))

section Scattered
include hC

/-- What an argument reads, while the elements written are `ys`. -/
theorem read_operand {a : Argument} {ys : List Bool} {k : Nat} :
    (a.operand S h hV i).read (.ofContainer (S i) (h i) hV) (elemAt ys) k = a.read L i ys k := by
  cases a with
  | array j =>
      show (arrayRef S h hV i j).lent.bits (elemAt ys) k =
        (if i = j then elemAt else fun _ => elemAt (L j)) ys k
      unfold arrayRef
      split
      · rfl
      · exact (hC j).get k
  | proxy sub j =>
      show ((Selection.positions (sub.selection S h hV j)
        ((arrayRef S h hV i j).get (.ofContainer (S i) (h i) hV))).map
          (bitAt ((arrayRef S h hV i j).get (.ofContainer (S i) (h i) hV)).blocks)).getD k false = _
      rw [get_arrayRef, positions_selection hC, bits_ofContainer hC]
      rfl

theorem fits_operand {a : Argument} {sub : Subscript}
    (ha : a.Fits w L (sub.positions L).length) :
    (a.operand S h hV i).Fits (.ofContainer (S i) (h i) hV) (sub.selection S h hV i) ∧
      ¬ (a.operand S h hV i).PastEnd (.ofContainer (S i) (h i) hV) := by
  cases a with
  | array j =>
      refine ⟨?_, id⟩
      show ((arrayRef S h hV i j).get (.ofContainer (S i) (h i) hV)).size.toNat = _
      rw [get_arrayRef, size_ofContainer hC, positions_selection hC]
      exact ha
  | proxy t j =>
      obtain ⟨hw, hr, hlen⟩ := ha
      unfold Argument.operand ArrayOperand.Fits ArrayOperand.PastEnd
      dsimp only
      rw [get_arrayRef]
      refine ⟨⟨wellFormed_selection hC hw, within_selection hC hw, ?_⟩,
        not_pastEnd_selection hC hr⟩
      rw [positions_selection hC, positions_selection hC, hlen]

/-- The vector of a proxy's elements is granted or not. -/
theorem granted_operand {a : Argument} (ha : a.Granted w L mem) :
    (a.operand S h hV i).Granted (.ofContainer (S i) (h i) hV) mem := by
  cases a with
  | array j => trivial
  | proxy t j =>
      unfold Argument.operand ArrayOperand.Granted
      dsimp only
      rw [get_arrayRef, positions_selection hC]
      exact ha

/-- **A loop over the blocks of valarray `i` leaves what the loop over its list does.** -/
theorem looped_carries (hu : V.hasStoredCount = false) {sub : Subscript} (hw : sub.Within L i)
    {f : Combine} {read : List Bool → Nat → Bool} {readAt : (Nat → Bool) → Nat → Bool}
    (hread : ∀ ys k, readAt (elemAt ys) k = read ys k) {out : List (BitVec w)}
    (hl : (BitValarray.ofContainer (S i) (h i) hV).Looped (sub.selection S h hV i) f readAt out)
    (k : Nat) : Carries (S.put i ((S i).withElems fun _ => out) k)
      (Function.update L i (written f.bit read (sub.positions L) 0 (L i)) k) := by
  refine carries_put hC ((hC i).withElems hu hl.length length_written fun p => ?_) k
  rw [hl.loop, positions_selection hC, bits_ofContainer hC,
    written_eq (fun ys j _ => hread ys j) hw.below]

end Scattered

include hI hB hu hC

/-- **One step of the simulation**: a completed statement leaves what it means of the lists; one
    refused leaves the bank as it was, and lacked room. -/
theorem Stmt.step (hi : InstallsWithoutThrowing V) {st : Stmt} (hp : st.Pre V L i) :
    Ends (fun _ => st.run I B mem alloc S h hV i) S
      (fun _ T => ∀ k, Carries (T k) (st.spec V L i k)) fun _ T => T = S ∧ ¬ st.Fits V L i mem := by
  have hput {d : BitBlockContainer V} {ys : List Bool} (hd : Carries d ys) :
      ∀ k, Carries (S.put i d k) (Function.update L i ys k) := carries_put hC hd
  cases st with
  | assign e =>
      have hmakes : Makes mem (e.eval I B mem alloc S h hV) (e.value V L) :=
        Expr.makes hI hB hu hC hp
      unfold Stmt.run
      dsimp only
      cases hmade : e.eval I B mem alloc S h hV with
      | error e' =>
          refine show S = S ∧ _ from ⟨rfl, fun hroom => ?_⟩
          obtain ⟨r, hr⟩ := hmakes.completes hroom
          rw [hmade] at hr
          cases hr
      | ok made =>
          exact attempt_ends (a := fun _ => moveAssign mem made >>= fun _ => pure ()) hC
            (moveAssign_ends (hmakes.carries made hmade))
  | assignValue value => exact hput ((hC i).fill value)
  | copyAssign j =>
      refine attempt_ends (a := fun S => BitBlockContainer.copyAssign mem (S.operand i j)) hC
        (copyAssign_ends hi ?_)
      rw [Bank.get_operand]
      exact hC j
  | swap j =>
      show Ends (fun _ => if i = j then .ok () S
        else .ok () ((S.put i ((S i).swap (S j)).1).put j ((S i).swap (S j)).2)) S
        (fun _ T => ∀ k, Carries (T k)
          (Function.update (Function.update L i (L j)) j (L i) k)) _
      by_cases hij : i = j
      · subst hij
        rw [Function.update_eq_self, Function.update_eq_self, if_pos rfl]
        exact hC
      · rw [if_neg hij]
        obtain ⟨h1, h2⟩ := swap_spec (S i) (S j)
        exact carries_put (hput ((hC j).transferred h1)) ((hC i).transferred h2)
  | resize n value =>
      exact attempt_ends (a := fun _ => do
        SequenceAdaptor.resize mem n value
        modify (·.fill value)) hC (resize_ends (hC i) hp)
  | write n value => exact hput ((hC i).assign hp value)
  | scatter sub f a =>
      obtain ⟨hw, hr, hnodup, hfits⟩ := hp
      have hwell : (sub.selection S h hV i).WellFormed (.ofContainer (S i) (h i) hV) :=
        wellFormed_selection hC hw
      obtain ⟨hoperand, hpast⟩ : (a.operand S h hV i).Fits (.ofContainer (S i) (h i) hV)
          (sub.selection S h hV i) ∧ ¬ (a.operand S h hV i).PastEnd (.ofContainer (S i) (h i) hV) :=
        fits_operand hC hfits
      show Ends (fun _ => writtenBack S i ((BitValarray.ofContainer (S i) (h i) hV).scatter I B
        (sub.selection S h hV i) mem f (a.operand S h hV i))) S _ _
      have hdistinct : ((sub.selection S h hV i).positions (.ofContainer (S i) (h i) hV)).Nodup := by
        rwa [positions_selection hC]
      cases hrun : (BitValarray.ofContainer (S i) (h i) hV).scatter I B (sub.selection S h hV i) mem f
          (a.operand S h hV i) with
      | ok out =>
          exact looped_carries hC hu hw (fun ys k => read_operand hC) (BitValarray.scatter_looped hI hB
            hwell (within_selection hC hw) hdistinct hoperand hrun)
      | error e =>
          refine show S = S ∧ _ from ⟨rfl, fun hgranted => ?_⟩
          obtain ⟨out, hout, -⟩ := BitValarray.scatter_exact (f := f) hI hB hwell
            (within_selection hC hw) (not_pastEnd_selection hC hr) hdistinct hoperand hpast
            (granted_operand hC hgranted)
          rw [hrun] at hout
          cases hout
  | fill sub f value =>
      obtain ⟨hw, hnodup⟩ := hp
      have hwell : (sub.selection S h hV i).WellFormed (.ofContainer (S i) (h i) hV) :=
        wellFormed_selection hC hw
      obtain ⟨out, hout, hl⟩ := BitValarray.fill_exact (f := f) hI hB
        hwell (within_selection hC hw) ((positions_selection hC).symm ▸ hnodup) value
      show Ends (fun _ => writtenBack S i (orAbort ((BitValarray.ofContainer (S i) (h i) hV).fill I B
        (sub.selection S h hV i) f value))) S _ _
      rw [hout]
      exact looped_carries hC hu hw (fun ys k => rfl) hl
  | andAssign j => exact hput (carries_transform2 hC hu hp (Operator.actsBitwise .and))
  | orAssign j => exact hput (carries_transform2 hC hu hp (Operator.actsBitwise .or))
  | xorAssign j => exact hput (carries_transform2 hC hu hp (Operator.actsBitwise .xor))
  | andAssignValue value =>
      have hheld := andAssignValue_holds (hC i).inv value
      rw [(hC i).size] at hheld
      exact hput (hheld.carries (List.length_map ..) fun p hlt => by
        rw [(hC i).get]
        exact elemAt_map hlt)
  | orAssignValue value =>
      have hheld := orAssignValue_holds (hC i).inv value
      rw [(hC i).size] at hheld
      exact hput (hheld.carries (List.length_map ..) fun p hlt => by
        rw [(hC i).get]
        exact elemAt_map hlt)
  | xorAssignValue value =>
      have hheld := xorAssignValue_holds (hC i).inv value
      rw [(hC i).size] at hheld
      exact hput (hheld.carries (List.length_map ..) fun p hlt => by
        rw [(hC i).get]
        exact elemAt_map hlt)
  | shlAssign n => exact hput ((hC i).shl n)
  | shrAssign n => exact hput ((hC i).shr n)

end Step

/-! ## 6. Runs -/

section Run
variable {w : Nat} {V : Vehicle w}

/-- The elements read, as a const valarray's subscript gives them. -/
def elements (c : BitBlockContainer V) : List Bool := (List.range c.size).map c.test

/-- A bank that a run of statements reaches from default-constructed valarrays, and what its lists
    have become; a statement refused is one that did not happen. -/
inductive ValarrayRun (I : Intrinsics w) (B : Vehicle w) (hV : V.storage ≠ .lent) :
    Bank V → Values → Prop where
  | start (alloc : Nat → Nat) : ValarrayRun I B hV (fun k => default V (alloc k)) fun _ =>
      List.replicate (if V.hasStaticSize then V.extent else 0) false
  | step {S T : Bank V} {L : Values} (mem : Memory) (alloc i : Nat) (st : Stmt)
      (h : ∀ k, (S k).Inv) (hS : ValarrayRun I B hV S L) (hp : st.Pre V L i)
      (hrun : st.run I B mem alloc S h hV i = .ok () T) : ValarrayRun I B hV T (st.spec V L i)
  | refused {S T : Bank V} {L : Values} {e : Exn} (mem : Memory) (alloc i : Nat) (st : Stmt)
      (h : ∀ k, (S k).Inv) (hS : ValarrayRun I B hV S L) (hp : st.Pre V L i)
      (hrun : st.run I B mem alloc S h hV i = .error e T) : ValarrayRun I B hV T L

variable {I : Intrinsics w} {B : Vehicle w} {hV : V.storage ≠ .lent} {S : Bank V} {L : Values}
  (hI : I.Lawful) (hB : B.storage = .lent) (hu : V.hasStoredCount = false)
  (hi : InstallsWithoutThrowing V) (hrun : ValarrayRun I B hV S L)
include hI hB hu hi hrun

/-- **Every valarray carries its list**, over every run. -/
theorem ValarrayRun.carries : ∀ k, Carries (S k) (L k) := by
  induction hrun with
  | start alloc =>
      intro k
      obtain ⟨hinv, hbit⟩ := default_spec (V.owned_of_not_lent hV) (alloc k)
      have hsize := (resetAll_spec hinv.shape).1.size
      exact (holds_clear hinv (hsize ▸ (default_cleared hV (alloc k)).size) hbit).carries
        List.length_replicate fun i hi => elemAt_replicate hi
  | step mem alloc i st h _ hp hrun ih => exact (Stmt.step hI hB hu ih hi hp).ok hrun
  | refused mem alloc i st h _ hp hrun ih =>
      obtain ⟨rfl, -⟩ := (Stmt.step hI hB hu ih hi hp).error hrun
      exact ih

/-- **The bank of valarrays refines its lists**, over every program: after any run, refused
    allocations included, each valarray reads its list and sums it; the next statement leaves what it
    means, or is refused with nothing changed, which it is not where there is room. -/
theorem valarray_refines :
    (∀ k, (S k).Inv ∧ elements (S k) = L k ∧ sum (S k) = (L k).any id ∧
      max (S k) = (L k).any id ∧ min (S k) = (L k).all id) ∧
    ∀ (mem : Memory) (alloc i : Nat) (st : Stmt) (h : ∀ k, (S k).Inv), st.Pre V L i →
      (∀ T, st.run I B mem alloc S h hV i = .ok () T →
        ∀ k, elements (T k) = st.spec V L i k) ∧
      (∀ e T, st.run I B mem alloc S h hV i = .error e T → T = S) ∧
      (st.Fits V L i mem → ∃ T, st.run I B mem alloc S h hV i = .ok () T) := by
  have hC := hrun.carries hI hB hu hi
  have hsum (k : Nat) : sum (S k) = (L k).any id := by
    rw [Bool.eq_iff_iff, List.any_eq_true]
    show (S k).any = true ↔ _
    rw [(hC k).sum_iff]
    constructor
    · rintro ⟨p, hp, hb⟩
      rw [elemAt_of_lt hp] at hb
      exact ⟨_, List.getElem_mem hp, hb⟩
    · rintro ⟨b, hb, htrue⟩
      obtain ⟨p, hp, rfl⟩ := List.getElem_of_mem hb
      exact ⟨p, hp, (elemAt_of_lt hp).trans htrue⟩
  have hmin (k : Nat) : min (S k) = (L k).all id := by
    rw [Bool.eq_iff_iff, List.all_eq_true]
    show (S k).all = true ↔ _
    rw [(hC k).min_iff]
    constructor
    · intro hall b hb
      obtain ⟨p, hp, rfl⟩ := List.getElem_of_mem hb
      exact (elemAt_of_lt hp).symm.trans (hall p hp)
    · intro hall p hp
      rw [elemAt_of_lt hp]
      exact hall _ (List.getElem_mem hp)
  refine ⟨fun k => ⟨(hC k).inv, (hC k).read, hsum k, hsum k, hmin k⟩,
    fun mem alloc i st h hp => ?_⟩
  have hstep : Ends (fun _ => st.run I B mem alloc S h hV i) S _ _ := Stmt.step hI hB hu hC hi hp
  refine ⟨fun T hT k => (hstep.ok hT k).read, fun e T hT => (hstep.error hT).1, fun hfits => ?_⟩
  obtain ⟨_, T, hT⟩ := hstep.completes fun _ _ hnot => hnot.2 hfits
  exact ⟨T, hT⟩

end Run

theorem owned_byteVector : (byteVector false).storage ≠ .lent := by decide

def twelveBools : List Bool :=
  [true, false, false, true, false, true, false, false, false, false, true, false]

/-- Twelve bools assigned to one of many valarrays, and every other of the first six flipped by the
    first three. -/
theorem valarray_refines_overlapping : ∃ (S : Bank (byteVector false)) (L : Values),
    ValarrayRun (BitValarray.bitwise 8) BitValarray.lentBytes owned_byteVector S L ∧
    elements (S 0) = twelveBools ∧
    ∃ (h : ∀ k, (S k).Inv) (T : Bank (byteVector false)),
      (Stmt.scatter (.slice ⟨1, 3, 2⟩) .xor (.proxy (.slice ⟨0, 3, 1⟩) 0)).run
        (BitValarray.bitwise 8) BitValarray.lentBytes .ample 0 S h owned_byteVector 0 = .ok () T ∧
      elements (T 0) =
        [true, true, false, true, false, true, false, false, false, false, true, false] := by
  have hinstalls : InstallsWithoutThrowing (byteVector false) := fun _ => Or.inl rfl
  have hstart : ValarrayRun (BitValarray.bitwise 8) BitValarray.lentBytes owned_byteVector _ _ :=
    .start fun _ => 0
  obtain ⟨hdefault, hfirst⟩ :=
    valarray_refines BitValarray.lawful_bitwise rfl rfl hinstalls hstart
  have h0 (k : Nat) := (hdefault k).1
  have hp (L : Values) : (Stmt.assign (.listed twelveBools)).Pre (byteVector false) L 0 :=
    fun hs => absurd hs (by decide)
  obtain ⟨hlisted, -, hcompletes⟩ := hfirst .ample 0 0 _ h0 (hp _)
  obtain ⟨S, hS⟩ := hcompletes fun _ => hasRoom_byteVector (n := 12) (by decide)
  have hrun := hstart.step .ample 0 0 _ h0 (hp _) hS
  obtain ⟨hread, hnext⟩ := valarray_refines BitValarray.lawful_bitwise rfl rfl hinstalls hrun
  have hinv (k : Nat) : (S k).Inv := (hread k).1
  have hreach (L : Values) (start stride : SizeT) :
      (Subscript.slice ⟨start, 3, stride⟩).InReach 8 L 0 := by
    rintro s ⟨⟩ h0
    cases h0
  obtain ⟨hok, -, hcompletes⟩ := hnext .ample 0 0
    (.scatter (.slice ⟨1, 3, 2⟩) .xor (.proxy (.slice ⟨0, 3, 1⟩) 0)) hinv
    ⟨⟨by decide +kernel, nofun, nofun⟩, hreach _ _ _, by decide +kernel,
      ⟨by decide +kernel, nofun, nofun⟩, hreach _ _ _, by decide +kernel⟩
  obtain ⟨T, hT⟩ := hcompletes (Or.inr ⟨_, rfl⟩)
  exact ⟨S, _, hrun, (hlisted S hS 0).trans (by decide +kernel), hinv, T, hT,
    (hok T hT 0).trans (by decide +kernel)⟩

end Valarray

end XstdBits
