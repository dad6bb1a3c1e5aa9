/-
  File: XstdBits/Valarray/Positions.lean
  Subject: what the constructor of `gslice_index` leaves in its index.

  * `toNat_countOf`: the count is the number of positions modulo `2 ^ 64`.
  * `span_spec`: an ascending span that did not wrap is one more than the reach, and each stride
    clears what lies inside it; `span_eq`: wrapped or not, it ends at the last position.
  * `gsliceIndex_masked`, `gsliceIndex_listed`: which bits the words hold, which positions the list does, and
    when a write falls outside the words.
-/
import XstdBits.Valarray.Gslice
import XstdBits.Container.Storage
import Mathlib.Algebra.BigOperators.Ring.List

namespace XstdBits

/-! ## 1. The count -/

section Count
variable {g : Gslice}

theorem toNat_pred {l : SizeT} (h : 0 < l.toNat) : (l - 1).toNat = l.toNat - 1 := by
  rw [BitVec.toNat_sub_of_le h]
  rfl

theorem toNat_foldl_mul : ∀ (ls : List SizeT) (a : SizeT),
    (ls.foldl (· * ·) a).toNat = (a.toNat * (ls.map BitVec.toNat).prod) % 2 ^ 64
  | [], a => by
      rw [List.foldl_nil, List.map_nil, List.prod_nil, Nat.mul_one, Nat.mod_eq_of_lt a.isLt]
  | l :: ls, a => by
      rw [List.foldl_cons, toNat_foldl_mul ls, BitVec.toNat_mul, Nat.mod_mul_mod, List.map_cons,
        List.prod_cons, Nat.mul_assoc]

/-- **The count is the number of positions**, modulo `2 ^ 64`. -/
theorem toNat_countOf (g : Gslice) : (countOf g.lengths).toNat = g.extent % 2 ^ 64 := by
  unfold countOf Gslice.extent Gslice.sizes
  rw [toNat_foldl_mul]
  by_cases h : g.lengths = []
  · rw [if_pos h, h]
    rfl
  · rw [if_neg h, if_neg (by simpa using h), show (1 : SizeT).toNat = 1 from rfl, Nat.one_mul]

theorem Gslice.extent_ne_zero (h : g.extent ≠ 0) :
    g.lengths ≠ [] ∧ ∀ i, i < g.lengths.length → 0 < (g.lengths.getD i 0).toNat := by
  unfold Gslice.extent at h
  by_cases he : g.lengths = []
  · rw [if_pos he] at h
    exact absurd rfl h
  · rw [if_neg he] at h
    refine ⟨he, fun i hi => Nat.pos_of_ne_zero fun hz => h (List.prod_eq_zero ?_)⟩
    rw [← hz, List.getD_eq_getElem _ _ hi]
    exact List.mem_map_of_mem (List.getElem_mem hi)

theorem Gslice.extent_of_count (h : countOf g.lengths ≠ 0) : g.extent ≠ 0 := by
  intro he
  refine h (BitVec.eq_of_toNat_eq ?_)
  rw [toNat_countOf, he]
  rfl

theorem Gslice.sizes_pos (h : g.extent ≠ 0) : ∀ l, l ∈ g.sizes → 0 < l := by
  intro l hl
  obtain ⟨i, hi, rfl⟩ := List.mem_iff_getElem.mp hl
  have hi' : i < g.lengths.length := by simpa [Gslice.sizes] using hi
  have := (Gslice.extent_ne_zero h).2 i hi'
  rw [List.getD_eq_getElem _ _ hi'] at this
  simpa [Gslice.sizes] using this

theorem Gslice.positions_eq (h : g.extent ≠ 0) :
    g.positions = rowMajor g.start g.sizes g.strides := by
  unfold Gslice.positions
  rw [if_neg (Gslice.extent_ne_zero h).1]

/-- The walk as often as counted comes to the first positions, all of them where nothing wrapped. -/
theorem Gslice.visitedFrom_eq (h : countOf g.lengths ≠ 0) :
    visitedFrom g.lengths g.strides (countOf g.lengths).toNat (Odometer.init g.lengths g.start) =
      g.visited := by
  have he := Gslice.extent_of_count h
  obtain ⟨hne, hpos⟩ := Gslice.extent_ne_zero he
  have hle : (countOf g.lengths).toNat ≤ (g.lengths.map BitVec.toNat).prod := by
    have : g.extent = (g.lengths.map BitVec.toNat).prod := if_neg hne
    rw [toNat_countOf, this]
    exact Nat.mod_le _ _
  rw [visited_eq g.sameLength hne hpos hle, Gslice.visited, Gslice.positions_eq he]
  rfl

theorem Gslice.visited_eq (h : g.extent < 2 ^ 64) : g.visited = g.positions := by
  unfold Gslice.visited
  rw [toNat_countOf, Nat.mod_eq_of_lt h, ← g.length_positions, List.take_length]

theorem Gslice.mem_of_visited {p : SizeT} (h : p ∈ g.visited) : p ∈ g.positions :=
  List.mem_of_mem_take h

/-- The last position is one of them. -/
theorem Gslice.last_mem (h : g.extent ≠ 0) : g.last ∈ g.positions := by
  rw [Gslice.positions_eq h, mem_rowMajor _ _ _ g.sizes_length]
  refine ⟨(g.lengths.map (· - 1)).map BitVec.toNat, ?_, ?_⟩
  · rw [digits_iff]
    refine ⟨by simp [Gslice.sizes], fun d hd => ?_⟩
    have hd' : d < g.lengths.length := by simpa [Gslice.sizes] using hd
    have hpos := (Gslice.extent_ne_zero h).2 d hd'
    have hone := toNat_pred hpos
    unfold Gslice.sizes
    rw [getD_map_toNat, getD_map_toNat, List.getD_eq_getElem _ _ (by simpa using hd'),
      List.getElem_map, ← List.getD_eq_getElem _ 0 hd', hone]
    omega
  · unfold Gslice.last
    rw [List.map_map]
    congr 2
    symm
    refine List.map_id'' (fun x => ?_) _
    rw [Function.comp_apply, BitVec.natCast_eq_ofNat, BitVec.ofNat_toNat, BitVec.setWidth_eq]

end Count

/-! ## 2. The span -/

section Span
variable {lengths strides : List SizeT}

theorem reach_drop_le : ∀ (ls ss : List Nat) (d : Nat),
    reach (ls.drop d) (ss.drop d) ≤ reach ls ss
  | _, _, 0 => Nat.le_refl _
  | [], _, d + 1 => by
      rw [List.drop_nil]
      exact Nat.le_refl _
  | _ :: _, [], d + 1 => by
      rw [List.drop_nil]
      unfold reach
      split <;> simp_all
  | l :: ls, s :: ss, d + 1 => by
      rw [List.drop_succ_cons, List.drop_succ_cons, reach]
      have := reach_drop_le ls ss d
      omega

theorem reach_cons_small {l s : Nat} {ls ss : List Nat} (h : l < 2) :
    reach (l :: ls) (s :: ss) = reach ls ss := by
  rw [reach, show l - 1 = 0 by omega, Nat.zero_mul, Nat.zero_add]

theorem drop_map_toNat {l : List SizeT} {d : Nat} (h : d < l.length) :
    (l.map BitVec.toNat).drop d =
      (l.getD d 0).toNat :: (l.map BitVec.toNat).drop (d + 1) := by
  rw [List.drop_eq_getElem_cons (by simpa using h), List.getElem_map, List.getD_eq_getElem _ _ h]

/-- The loop over the dimensions below `d`, from the span of those above. -/
theorem spanFrom_spec (hs : lengths.length = strides.length)
    (hno : reach (lengths.map BitVec.toNat) (strides.map BitVec.toNat) + 1 < 2 ^ 64) :
    ∀ (d : Nat) (span : SizeT), d ≤ lengths.length →
      span.toNat = reach ((lengths.map BitVec.toNat).drop d) ((strides.map BitVec.toNat).drop d) + 1 →
      Clears ((lengths.map BitVec.toNat).drop d) ((strides.map BitVec.toNat).drop d) →
      spanFrom lengths strides d span ≠ 0 →
      (spanFrom lengths strides d span).toNat =
          reach (lengths.map BitVec.toNat) (strides.map BitVec.toNat) + 1 ∧
        Clears (lengths.map BitVec.toNat) (strides.map BitVec.toNat)
  | 0, span, _, hspan, hclear, _ => ⟨hspan, hclear⟩
  | d + 1, span, hd, hspan, hclear, h => by
      have hls := drop_map_toNat (l := lengths) hd
      have hss := drop_map_toNat (l := strides) (hs ▸ hd)
      have hle := reach_drop_le (lengths.map BitVec.toNat) (strides.map BitVec.toNat) d
      unfold spanFrom at h ⊢
      by_cases hsmall : lengths.getD d 0 < 2
      · have hsmall' : (lengths.getD d 0).toNat < 2 := hsmall
        rw [if_pos hsmall] at h ⊢
        refine spanFrom_spec hs hno d span (Nat.le_of_succ_le hd) ?_ ?_ h
        · rw [hls, hss, reach_cons_small hsmall', hspan]
        · rw [hls, hss]
          exact ⟨fun hc => absurd hsmall' (Nat.not_lt.mpr hc), hclear⟩
      · have hbig : 2 ≤ (lengths.getD d 0).toNat := Nat.le_of_not_lt hsmall
        rw [if_neg hsmall] at h ⊢
        by_cases hstride : strides.getD d 0 < span
        · rw [if_pos hstride] at h
          exact absurd rfl h
        · have hge : span.toNat ≤ (strides.getD d 0).toNat := Nat.le_of_not_lt hstride
          rw [if_neg hstride] at h ⊢
          refine spanFrom_spec hs hno d _ (Nat.le_of_succ_le hd) ?_ ?_ h
          · rw [hls, hss, reach] at hle ⊢
            have hone := toNat_pred (l := lengths.getD d 0) (by omega)
            rw [BitVec.toNat_add, BitVec.toNat_mul, hone, Nat.add_mod_mod, hspan,
              Nat.mod_eq_of_lt (by omega)]
            omega
          · rw [hls, hss]
            exact ⟨fun _ => by omega, hclear⟩

/-- Wrapped or not, a span that is not refused is one more than the way to the last position. -/
theorem spanFrom_eq (hs : lengths.length = strides.length)
    (hpos : ∀ i, i < lengths.length → 0 < (lengths.getD i 0).toNat) :
    ∀ (d : Nat) (span : SizeT), d ≤ lengths.length →
      span = 1 + dot ((lengths.drop d).map (· - 1)) (strides.drop d) →
      spanFrom lengths strides d span ≠ 0 →
      spanFrom lengths strides d span = 1 + dot (lengths.map (· - 1)) strides
  | 0, span, _, hspan, _ => hspan
  | d + 1, span, hd, hspan, h => by
      have hls : lengths.drop d = lengths.getD d 0 :: lengths.drop (d + 1) := by
        rw [List.drop_eq_getElem_cons hd, List.getD_eq_getElem _ _ hd]
      have hd' : d < strides.length := hs ▸ hd
      have hss : strides.drop d = strides.getD d 0 :: strides.drop (d + 1) := by
        rw [List.drop_eq_getElem_cons hd', List.getD_eq_getElem _ _ hd']
      have hsum : 1 + dot ((lengths.drop d).map (· - 1)) (strides.drop d) =
          span + (lengths.getD d 0 - 1) * strides.getD d 0 := by
        rw [hls, hss, List.map_cons, dot, hspan]
        ring
      unfold spanFrom at h ⊢
      by_cases hsmall : lengths.getD d 0 < 2
      · have hsmall' : (lengths.getD d 0).toNat < 2 := hsmall
        have hone : lengths.getD d 0 = 1 := by
          have := hpos d hd
          exact BitVec.eq_of_toNat_eq (show _ = 1 by omega)
        rw [if_pos hsmall] at h ⊢
        refine spanFrom_eq hs hpos d span (Nat.le_of_succ_le hd) ?_ h
        rw [hsum, hone, sub_self, zero_mul, add_zero]
      · rw [if_neg hsmall] at h ⊢
        by_cases hstride : strides.getD d 0 < span
        · rw [if_pos hstride] at h
          exact absurd rfl h
        · rw [if_neg hstride] at h ⊢
          exact spanFrom_eq hs hpos d _ (Nat.le_of_succ_le hd) hsum.symm h

variable {g : Gslice}

/-- The strides as numbers. -/
def Gslice.steps (g : Gslice) : List Nat := g.strides.map BitVec.toNat

/-- **Where nothing wraps, a span says that every stride clears what lies inside it.** -/
theorem span_spec (hno : reach g.sizes g.steps + 1 < 2 ^ 64)
    (h : ascendingSpan g.lengths g.strides ≠ 0) :
    (ascendingSpan g.lengths g.strides).toNat = reach g.sizes g.steps + 1 ∧
      Clears g.sizes g.steps := by
  refine spanFrom_spec g.sameLength hno _ _ (Nat.le_refl _) ?_ ?_ h
  · rw [List.drop_eq_nil_of_le (by simp), List.drop_eq_nil_of_le (by simp [g.sameLength])]
    rfl
  · rw [List.drop_eq_nil_of_le (by simp)]
    trivial

/-- **The masked width is one past the last position.** -/
theorem span_eq (he : g.extent ≠ 0) (h : ascendingSpan g.lengths g.strides ≠ 0) :
    g.start + ascendingSpan g.lengths g.strides = g.last + 1 := by
  have := spanFrom_eq g.sameLength (Gslice.extent_ne_zero he).2 _ 1 (Nat.le_refl _)
    (by rw [List.drop_length, List.map_nil, dot_nil, add_zero]) h
  show g.start + spanFrom g.lengths g.strides g.lengths.length 1 = _
  rw [this, Gslice.last]
  ring

/-- Below the wrap, the way to the last position is the reach. -/
theorem toNat_dot_pred : ∀ (ls ss : List SizeT), (∀ l, l ∈ ls → 0 < l.toNat) →
    reach (ls.map BitVec.toNat) (ss.map BitVec.toNat) < 2 ^ 64 →
    (dot (ls.map (· - 1)) ss).toNat = reach (ls.map BitVec.toNat) (ss.map BitVec.toNat)
  | [], _, _, _ => by
      rw [List.map_nil, dot_nil]
      rfl
  | _ :: _, [], _, _ => rfl
  | l :: ls, s :: ss, hpos, h => by
      rw [List.map_cons, List.map_cons, reach] at h
      have ih := toNat_dot_pred ls ss (fun l hl => hpos l (List.mem_cons_of_mem _ hl)) (by omega)
      rw [List.map_cons, List.map_cons, List.map_cons, reach, dot, BitVec.toNat_add,
        BitVec.toNat_mul, toNat_pred (hpos l List.mem_cons_self), ih, Nat.mod_add_mod,
        Nat.mod_eq_of_lt h]

/-- **Where nothing wraps, the positions are those over the naturals**, the last one the largest. -/
theorem positions_of_noWrap (he : g.extent ≠ 0)
    (h : g.start.toNat + reach g.sizes g.steps < 2 ^ 64) :
    g.positions.map BitVec.toNat = rowMajor g.start.toNat g.sizes g.steps ∧
      g.last.toNat = g.start.toNat + reach g.sizes g.steps := by
  constructor
  · rw [Gslice.positions_eq he]
    exact toNat_rowMajor _ _ _ h
  · have hpos : ∀ l, l ∈ g.lengths → 0 < l.toNat := fun l hl =>
      Gslice.sizes_pos he _ (List.mem_map_of_mem hl)
    unfold Gslice.sizes Gslice.steps at h ⊢
    unfold Gslice.last
    rw [BitVec.toNat_add, toNat_dot_pred _ _ hpos (by omega), Nat.mod_eq_of_lt h]

theorem le_last_of_noWrap (he : g.extent ≠ 0)
    (h : g.start.toNat + reach g.sizes g.steps < 2 ^ 64) {p : SizeT} (hp : p ∈ g.positions) :
    p.toNat ≤ g.last.toNat := by
  obtain ⟨hps, hlast⟩ := positions_of_noWrap he h
  have hmem : p.toNat ∈ rowMajor g.start.toNat g.sizes g.steps := by
    rw [← hps]
    exact List.mem_map_of_mem hp
  rw [hlast]
  exact (mem_rowMajor_bounds _ _ _ hmem).2

end Span

/-! ## 3. The tables -/

section Tables
variable {words out : List (BitVec 64)} {p q : SizeT}

theorem markPosition_some (h : p.toNat / 64 < words.length) :
    ∃ out, markPosition words p = some out ∧ out.length = words.length ∧
      ∀ k, bitAt out k = (bitAt words k || decide (k = p.toNat)) := by
  refine ⟨_, if_pos h, List.length_set, fun k => ?_⟩
  rw [bitAt_set h]
  by_cases hk : k / 64 = p.toNat / 64
  · rw [if_pos hk, BitVec.getLsbD_or, getLsbD_unit_shl (Nat.mod_lt k (by decide)), ← hk]
    unfold bitAt
    have hiff : k % 64 = p.toNat % 64 ↔ k = p.toNat := by omega
    rw [decide_eq_decide.mpr hiff]
    rfl
  · have hne : k ≠ p.toNat := fun hc => hk (by rw [hc])
    rw [if_neg hk, decide_eq_false hne, Bool.or_false]

/-- **The words hold what is marked in them**, as long as it lies inside. -/
theorem foldlM_mark : ∀ (ps : List SizeT) (words : List (BitVec 64)),
    (∀ p, p ∈ ps → p.toNat / 64 < words.length) →
    ∃ out, ps.foldlM markPosition words = some out ∧ out.length = words.length ∧
      ∀ k, bitAt out k = (bitAt words k || decide (k ∈ ps.map BitVec.toNat))
  | [], words, _ => ⟨words, rfl, rfl, fun k => by simp⟩
  | p :: ps, words, h => by
      obtain ⟨mid, hmid, hlen, hbits⟩ := markPosition_some (h p List.mem_cons_self)
      obtain ⟨out, hout, hlen', hbits'⟩ := foldlM_mark ps mid fun q hq => by
        rw [hlen]
        exact h q (List.mem_cons_of_mem _ hq)
      refine ⟨out, ?_, hlen'.trans hlen, fun k => ?_⟩
      · rw [List.foldlM_cons, hmid]
        exact hout
      · rw [hbits', hbits, Bool.or_assoc, List.map_cons]
        congr 1
        rw [← Bool.decide_or]
        exact decide_eq_decide.mpr List.mem_cons.symm

/-- A walk that marks them all stayed inside. -/
theorem inside_of_foldlM_mark : ∀ (ps : List SizeT) (words : List (BitVec 64)),
    ps.foldlM markPosition words = some out → ∀ p, p ∈ ps → p.toNat / 64 < words.length
  | [], _, _, p, hp => absurd hp List.not_mem_nil
  | q :: ps, words, h, p, hp => by
      rw [List.foldlM_cons] at h
      by_cases hq : q.toNat / 64 < words.length
      · obtain ⟨mid, hmid, hlen, -⟩ := markPosition_some hq
        rw [hmid] at h
        rcases List.mem_cons.mp hp with rfl | hp
        · exact hq
        · have := inside_of_foldlM_mark ps mid h p hp
          rwa [hlen] at this
      · unfold markPosition at h
        rw [if_neg hq] at h
        cases h

/-- The list takes every position; its width is at most `n` where each of them, one on, is. -/
theorem foldlM_push : ∀ (ps : List SizeT) (table : List SizeT × SizeT),
    ∃ width, ps.foldlM pushPosition table = some (table.1 ++ ps, width) ∧
      ∀ n : SizeT, width ≤ n ↔ table.2 ≤ n ∧ ∀ p, p ∈ ps → p + 1 ≤ n
  | [], table => ⟨table.2, by rw [List.append_nil]; rfl, fun n => by simp⟩
  | p :: ps, table => by
      obtain ⟨width, hw, hle⟩ := foldlM_push ps
        (table.1 ++ [p], if table.2 < p + 1 then p + 1 else table.2)
      refine ⟨width, ?_, fun n => ?_⟩
      · rw [List.foldlM_cons]
        show ps.foldlM pushPosition (table.1 ++ [p], _) = _
        rw [hw, List.append_assoc]
        rfl
      · have hmax : (if table.2 < p + 1 then p + 1 else table.2) ≤ n ↔
            table.2 ≤ n ∧ p + 1 ≤ n := by
          simp only [BitVec.le_def, BitVec.lt_def]
          split <;> omega
        rw [hle, hmax, and_assoc]
        refine and_congr_right fun _ => ?_
        constructor
        · intro ⟨h1, h2⟩ q hq
          rcases List.mem_cons.mp hq with rfl | hq
          · exact h1
          · exact h2 q hq
        · intro h
          exact ⟨h p List.mem_cons_self, fun q hq => h q (List.mem_cons_of_mem _ hq)⟩

end Tables

/-! ## 4. The index -/

section Index
variable {g : Gslice} {x : GsliceIndex}

/-- How many words the masked form is given. -/
def Gslice.tableSize (g : Gslice) : Nat := ((g.last + 1 + 63) / 64).toNat

/-- A count of zero leaves the index empty. -/
theorem gsliceIndex_zero (h : countOf g.lengths = 0) :
    gsliceIndex g = some ⟨g.start, g.lengths, g.strides, countOf g.lengths, 0, [], []⟩ := by
  unfold gsliceIndex
  exact if_pos h

/-- **The masked form** is built exactly where every position it comes to lies inside its words. -/
theorem gsliceIndex_masked (hc : countOf g.lengths ≠ 0)
    (hspan : ascendingSpan g.lengths g.strides ≠ 0) :
    (∀ x, gsliceIndex g = some x → ∀ p, p ∈ g.visited → p.toNat / 64 < g.tableSize) ∧
    ((∀ p, p ∈ g.visited → p.toNat / 64 < g.tableSize) →
      ∃ words, gsliceIndex g =
          some ⟨g.start, g.lengths, g.strides, countOf g.lengths, g.last + 1, words, []⟩ ∧
        words.length = g.tableSize ∧
        ∀ k, bitAt words k = decide (k ∈ g.visited.map BitVec.toNat)) := by
  have he := Gslice.extent_of_count hc
  have hindex : gsliceIndex g =
      (g.visited.foldlM markPosition (List.replicate g.tableSize zero)).map fun words =>
        ⟨g.start, g.lengths, g.strides, countOf g.lengths, g.last + 1, words, []⟩ := by
    unfold gsliceIndex
    rw [if_neg hc, if_pos hspan]
    dsimp only
    rw [forEachPosition, eachPosition_eq, Gslice.visitedFrom_eq hc, span_eq he hspan]
    rfl
  constructor
  · intro x hx p hp
    rw [hindex, Option.map_eq_some_iff] at hx
    obtain ⟨words, hw, -⟩ := hx
    have := inside_of_foldlM_mark _ _ hw p hp
    rwa [List.length_replicate] at this
  · intro hin
    obtain ⟨words, hw, hlen, hbits⟩ := foldlM_mark g.visited (List.replicate g.tableSize zero)
      fun p hp => by
        rw [List.length_replicate]
        exact hin p hp
    refine ⟨words, by rw [hindex, hw]; rfl, by rw [hlen, List.length_replicate], fun k => ?_⟩
    rw [hbits, bitAt_replicate (by decide)]
    split <;> simp

/-- **The listed form** is always built, and its width looks at every position it comes to. -/
theorem gsliceIndex_listed (hc : countOf g.lengths ≠ 0)
    (hspan : ascendingSpan g.lengths g.strides = 0) :
    ∃ width, gsliceIndex g =
        some ⟨g.start, g.lengths, g.strides, countOf g.lengths, width, [], g.visited⟩ ∧
      ∀ n : SizeT, width ≤ n ↔ ∀ p, p ∈ g.visited → p + 1 ≤ n := by
  obtain ⟨width, hw, hle⟩ := foldlM_push g.visited ([], 0)
  refine ⟨width, ?_, fun n => ?_⟩
  · unfold gsliceIndex
    rw [if_neg hc, if_neg (not_not.mpr hspan)]
    dsimp only
    rw [forEachPosition, eachPosition_eq, Gslice.visitedFrom_eq hc, hw]
    rfl
  · rw [hle]
    exact and_iff_right (Nat.zero_le n.toNat)

end Index

end XstdBits
