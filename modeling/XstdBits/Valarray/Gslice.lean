/-
  File: XstdBits/Valarray/Gslice.lean
  Subject: `gslice_index.hpp`, the positions of a gslice worked out once.

  The arithmetic is that of `std::size_t`, so every sum and product wraps at 64 bits.
  * `Odometer` and `forEachPosition` are the walk, `countOf` and `ascendingSpan` the two decisions
    made before it, `gsliceIndex` the constructor; a write past a table has no outcome.
  * `Gslice.positions` is what a gslice names, apart from any of this: the sums
    `start + Σ iₔ * strideₔ` in row-major order.
  * The walk visits those, in that order, from the first on (`visited_eq`).
-/
import XstdBits.Lib.RowMajor
import XstdBits.Lib.BitOrder
import XstdBits.Container.Block

namespace XstdBits

abbrev SizeT : Type := BitVec 64

/-- A start and as many strides as lengths, which the index's constructor asserts. -/
structure Gslice where
  start : SizeT
  lengths : List SizeT
  strides : List SizeT
  sameLength : lengths.length = strides.length

/-! ## 1. The walk -/

/-- The counters of `for_each_position` and the position they stand for. -/
structure Odometer where
  counter : List SizeT
  pos : SizeT

namespace Odometer
variable (lengths strides : List SizeT)

/-- `++counter[d]; pos += strides[d]`. -/
def tick (o : Odometer) (d : Nat) : Odometer where
  counter := o.counter.set d (o.counter.getD d 0 + 1)
  pos := o.pos + strides.getD d 0

/-- `pos -= lengths[d] * strides[d]; counter[d] = 0`. -/
def rewind (o : Odometer) (d : Nat) : Odometer where
  counter := o.counter.set d 0
  pos := o.pos - lengths.getD d 0 * strides.getD d 0

/-- A counter that runs out carries into the one before it; the first one is left as it is. -/
def carry : Nat → Odometer → Odometer
  | 0, o => o
  | d + 1, o =>
      if o.counter.getD (d + 1) 0 = lengths.getD (d + 1) 0 then
        carry d ((o.rewind lengths strides (d + 1)).tick strides d)
      else o

/-- The last counter steps. -/
def step (o : Odometer) : Odometer :=
  carry lengths strides (lengths.length - 1) (o.tick strides (lengths.length - 1))

def init (start : SizeT) : Odometer where
  counter := List.replicate lengths.length 0
  pos := start

end Odometer

section Walk
variable {σ : Type} (lengths strides : List SizeT)

/-- `f(pos)` and a step, as many times as there are positions left. -/
def eachPosition (f : σ → SizeT → Option σ) : Nat → Odometer → σ → Option σ
  | 0, _, s => some s
  | n + 1, o, s => (f s o.pos).bind (eachPosition f n (o.step lengths strides))

def forEachPosition (start : SizeT) (count : SizeT) (f : σ → SizeT → Option σ) (s : σ) : Option σ :=
  eachPosition lengths strides f count.toNat (Odometer.init lengths start) s

/-- The positions the walk hands out, in its order. -/
def visitedFrom : Nat → Odometer → List SizeT
  | 0, _ => []
  | n + 1, o => o.pos :: visitedFrom n (o.step lengths strides)

theorem eachPosition_eq (f : σ → SizeT → Option σ) : ∀ (n : Nat) (o : Odometer) (s : σ),
    eachPosition lengths strides f n o s = (visitedFrom lengths strides n o).foldlM f s
  | 0, _, _ => rfl
  | n + 1, o, s => by
      rw [eachPosition, visitedFrom, List.foldlM_cons]
      exact congrArg _ (funext fun t => eachPosition_eq f n _ t)

end Walk

/-! ## 2. The index -/

/-- No lengths at all select nothing. -/
def countOf (lengths : List SizeT) : SizeT :=
  lengths.foldl (· * ·) (if lengths.isEmpty then 0 else 1)

/-- The loop of `ascending_span` over the dimensions below `d`, the last one first. -/
def spanFrom (lengths strides : List SizeT) : Nat → SizeT → SizeT
  | 0, span => span
  | d + 1, span =>
      if lengths.getD d 0 < 2 then spanFrom lengths strides d span
      else if strides.getD d 0 < span then 0
      else spanFrom lengths strides d (span + (lengths.getD d 0 - 1) * strides.getD d 0)

def ascendingSpan (lengths strides : List SizeT) : SizeT := spanFrom lengths strides lengths.length 1

/-- `gslice_index`. -/
structure GsliceIndex where
  start : SizeT
  lengths : List SizeT
  strides : List SizeT
  count : SizeT
  /-- one past the last position -/
  width : SizeT
  /-- one bit per position, where they ascend -/
  words : List (BitVec 64)
  /-- the positions in row-major order, where they repeat or turn back -/
  positions : List SizeT

/-- `words[pos / 64] |= 1 << pos % 64`. -/
def markPosition (words : List (BitVec 64)) (pos : SizeT) : Option (List (BitVec 64)) :=
  if pos.toNat / 64 < words.length then
    some (words.set (pos.toNat / 64) (words.getD (pos.toNat / 64) 0 ||| shl unit (pos.toNat % 64)))
  else none

/-- `positions.push_back(pos); width = max(width, pos + 1)`. -/
def pushPosition (table : List SizeT × SizeT) (pos : SizeT) : Option (List SizeT × SizeT) :=
  some (table.1 ++ [pos], if table.2 < pos + 1 then pos + 1 else table.2)

/-- **The constructor of `gslice_index`**, without outcome where it writes outside its words. -/
def gsliceIndex (g : Gslice) : Option GsliceIndex :=
  let index : GsliceIndex :=
    ⟨g.start, g.lengths, g.strides, countOf g.lengths, 0, [], []⟩
  if index.count = 0 then some index
  else if ascendingSpan g.lengths g.strides ≠ 0 then
    let width := g.start + ascendingSpan g.lengths g.strides
    (forEachPosition g.lengths g.strides g.start index.count markPosition
      (List.replicate ((width + 63) / 64).toNat zero)).map fun words =>
        { index with width := width, words := words }
  else
    (forEachPosition g.lengths g.strides g.start index.count pushPosition ([], 0)).map fun table =>
      { index with width := table.2, positions := table.1 }

def GsliceIndex.isMasked (x : GsliceIndex) : Bool := x.positions.isEmpty

/-- The positions an index selects, in the order it hands them out: a mask's upwards. -/
def GsliceIndex.selected (x : GsliceIndex) : List Nat :=
  if x.isMasked then ascending (bitAt x.words) (x.words.length * 64)
  else x.positions.map BitVec.toNat

/-! ## 3. What a gslice names -/

/-- The lengths as numbers. -/
def Gslice.sizes (g : Gslice) : List Nat := g.lengths.map BitVec.toNat

/-- **The positions of a gslice**: `start + Σ iₔ * strideₔ` modulo `2 ^ 64` in row-major order. No
    lengths select nothing, as `std::gslice` has it. -/
def Gslice.positions (g : Gslice) : List SizeT :=
  if g.lengths = [] then [] else rowMajor g.start g.sizes g.strides

/-- How many there are. -/
def Gslice.extent (g : Gslice) : Nat := if g.lengths = [] then 0 else g.sizes.prod

/-- The position the counters end on, each at one less than its length. -/
def Gslice.last (g : Gslice) : SizeT := g.start + dot (g.lengths.map (· - 1)) g.strides

/-- The positions the walk comes to, as many as the counted product. -/
def Gslice.visited (g : Gslice) : List SizeT := g.positions.take (countOf g.lengths).toNat

theorem Gslice.sizes_length (g : Gslice) : g.sizes.length = g.strides.length := by
  unfold Gslice.sizes
  rw [List.length_map, g.sameLength]

theorem Gslice.length_positions (g : Gslice) : g.positions.length = g.extent := by
  unfold Gslice.positions Gslice.extent
  split
  · rfl
  · exact length_rowMajor _ _ _ g.sizes_length

/-! ## 4. The walk visits them -/

section Visits
variable {lengths strides : List SizeT} {start : SizeT} {o : Odometer} {t d : Nat}

/-- The counters as numbers. -/
def Odometer.digits (o : Odometer) : List Nat := o.counter.map BitVec.toNat

theorem getD_map_toNat (l : List SizeT) (i : Nat) :
    (l.map BitVec.toNat).getD i 0 = (l.getD i 0).toNat := List.getD_map l 0 BitVec.toNat

/-- The counters stand for the position and count `t` positions before it. -/
structure Odometer.Reads (lengths strides : List SizeT) (start : SizeT) (t : Nat) (o : Odometer) :
    Prop where
  length : o.counter.length = lengths.length
  pos : o.pos = start + dot o.counter strides
  value : dot o.digits (places (lengths.map BitVec.toNat)) = t

/-- Every counter but `d` is below its length. -/
def Odometer.Below (lengths : List SizeT) (d : Nat) (o : Odometer) : Prop :=
  ∀ i, i < lengths.length → i ≠ d → (o.counter.getD i 0).toNat < (lengths.getD i 0).toNat

/-- A counter below its length, one up: one stride on, and one place worth more. -/
theorem Odometer.Reads.tick (h : o.Reads lengths strides start t)
    (hs : lengths.length = strides.length) (hd : d < lengths.length)
    (hlt : (o.counter.getD d 0).toNat < (lengths.getD d 0).toNat) :
    (o.tick strides d).Reads lengths strides start
      (t + (places (lengths.map BitVec.toNat)).getD d 0) := by
  have hone : (o.counter.getD d 0 + 1).toNat = (o.counter.getD d 0).toNat + 1 := by
    have := (lengths.getD d 0).isLt
    rw [BitVec.toNat_add, show (1 : SizeT).toNat = 1 from rfl, Nat.mod_eq_of_lt (by omega)]
  refine ⟨?_, ?_, ?_⟩
  · show (o.counter.set d _).length = _
    rw [List.length_set, h.length]
  · have hset := dot_set o.counter strides d (o.counter.getD d 0 + 1) (h.length ▸ hd) (hs ▸ hd)
    rw [add_mul, one_mul, ← add_assoc, add_right_comm, add_left_inj] at hset
    show o.pos + strides.getD d 0 = start + dot (o.counter.set d (o.counter.getD d 0 + 1)) strides
    rw [hset, h.pos, add_assoc]
  · have hset := dot_set o.digits (places (lengths.map BitVec.toNat)) d
      (o.counter.getD d 0 + 1).toNat (by simpa [digits, h.length] using hd) (by simpa using hd)
    have hdig : (o.tick strides d).digits = o.digits.set d (o.counter.getD d 0 + 1).toNat := by
      unfold Odometer.digits
      exact List.map_set
    have hget : o.digits.getD d 0 = (o.counter.getD d 0).toNat := getD_map_toNat o.counter d
    rw [h.value, hget, hone, Nat.succ_mul] at hset
    rw [hdig, hone]
    omega

/-- A counter that has run out, taken back to zero: the whole round goes. -/
theorem Odometer.Reads.rewind (h : o.Reads lengths strides start t)
    (hs : lengths.length = strides.length) (hd : d < lengths.length)
    (hout : o.counter.getD d 0 = lengths.getD d 0) :
    (o.rewind lengths strides d).Reads lengths strides start
        (t - (lengths.getD d 0).toNat * (places (lengths.map BitVec.toNat)).getD d 0) ∧
      (lengths.getD d 0).toNat * (places (lengths.map BitVec.toNat)).getD d 0 ≤ t := by
  have hset := dot_set o.digits (places (lengths.map BitVec.toNat)) d 0
    (by simpa [digits, h.length] using hd) (by simpa using hd)
  have hdig : (o.rewind lengths strides d).digits = o.digits.set d 0 := by
    unfold Odometer.digits
    exact List.map_set
  have hget : o.digits.getD d 0 = (lengths.getD d 0).toNat := by
    rw [← hout]
    exact getD_map_toNat o.counter d
  rw [h.value, hget, zero_mul, Nat.add_zero] at hset
  refine ⟨⟨?_, ?_, ?_⟩, by omega⟩
  · show (o.counter.set d _).length = _
    rw [List.length_set, h.length]
  · have hpos := dot_set o.counter strides d 0 (h.length ▸ hd) (hs ▸ hd)
    rw [hout, zero_mul, add_zero] at hpos
    show o.pos - lengths.getD d 0 * strides.getD d 0 = start + dot (o.counter.set d 0) strides
    rw [h.pos, ← hpos, ← add_assoc, add_sub_cancel_right]
  · rw [hdig]
    omega

theorem getD_tick_ne {i : Nat} (h : i ≠ d) :
    (o.tick strides d).counter.getD i 0 = o.counter.getD i 0 := getD_set_ne (Ne.symm h)

theorem getD_rewind_ne {i : Nat} (h : i ≠ d) :
    (o.rewind lengths strides d).counter.getD i 0 = o.counter.getD i 0 := getD_set_ne (Ne.symm h)

/-- **The carry changes what the counters are, not what they stand for**; it ends with all of them
    below their lengths, or with the first one run out. -/
theorem Odometer.Reads.carry (hs : lengths.length = strides.length)
    (hpos : ∀ i, i < lengths.length → 0 < (lengths.getD i 0).toNat) :
    ∀ (d : Nat) (o : Odometer), d < lengths.length → o.Reads lengths strides start t →
      o.Below lengths d → (o.counter.getD d 0).toNat ≤ (lengths.getD d 0).toNat →
      (carry lengths strides d o).Reads lengths strides start t ∧
        ((∀ i, i < lengths.length →
            ((carry lengths strides d o).counter.getD i 0).toNat < (lengths.getD i 0).toNat) ∨
          (carry lengths strides d o).counter.getD 0 0 = lengths.getD 0 0)
  | 0, o, hd, h, hb, hle => by
      refine ⟨h, ?_⟩
      rcases Nat.lt_or_eq_of_le hle with hlt | heq
      · refine Or.inl fun i hi => ?_
        by_cases hi0 : i = 0
        · rw [hi0]
          exact hlt
        · exact hb i hi hi0
      · exact Or.inr (BitVec.eq_of_toNat_eq heq)
  | d + 1, o, hd, h, hb, hle => by
      unfold Odometer.carry
      by_cases hout : o.counter.getD (d + 1) 0 = lengths.getD (d + 1) 0
      · rw [if_pos hout]
        obtain ⟨hr, hround⟩ := h.rewind hs hd hout
        have hd' : d < lengths.length := Nat.lt_of_succ_lt hd
        have hne : d ≠ d + 1 := Nat.ne_of_lt (Nat.lt_succ_self d)
        have hlt : ((o.rewind lengths strides (d + 1)).counter.getD d 0).toNat <
            (lengths.getD d 0).toNat := by
          rw [getD_rewind_ne hne]
          exact hb d hd' hne
        -- The place before is worth exactly the round that was taken back.
        have hplace : (places (lengths.map BitVec.toNat)).getD d 0 =
            (lengths.getD (d + 1) 0).toNat *
              (places (lengths.map BitVec.toNat)).getD (d + 1) 0 := by
          rw [getD_places_succ _ d (by simpa using hd), getD_map_toNat]
        have hr' := hr.tick hs hd' hlt
        rw [hplace, Nat.sub_add_cancel hround] at hr'
        refine Odometer.Reads.carry hs hpos d _ hd' hr' ?_ ?_
        · intro i hi hid
          rw [getD_tick_ne hid]
          by_cases hi1 : i = d + 1
          · have hzero : (o.rewind lengths strides (d + 1)).counter.getD (d + 1) 0 = 0 :=
              getD_set_self (h.length ▸ hd)
            rw [hi1, hzero]
            exact hpos (d + 1) hd
          · rw [getD_rewind_ne hi1]
            exact hb i hi hi1
        · have hself : ((o.rewind lengths strides (d + 1)).tick strides d).counter.getD d 0 =
              (o.rewind lengths strides (d + 1)).counter.getD d 0 + 1 :=
            getD_set_self (by rw [hr.length]; exact hd')
          have := (lengths.getD d 0).isLt
          rw [hself, BitVec.toNat_add, show (1 : SizeT).toNat = 1 from rfl,
            Nat.mod_eq_of_lt (by omega)]
          omega
      · rw [if_neg hout]
        refine ⟨h, Or.inl fun i hi => ?_⟩
        by_cases hid : i = d + 1
        · rw [hid]
          exact Nat.lt_of_le_of_ne hle fun hc => hout (BitVec.eq_of_toNat_eq hc)
        · exact hb i hi hid

/-- The first counter run out has counted every position. -/
theorem Odometer.Reads.prod_le (h : o.Reads lengths strides start t) (hne : lengths ≠ [])
    (hout : o.counter.getD 0 0 = lengths.getD 0 0) : (lengths.map BitVec.toNat).prod ≤ t := by
  cases hl : lengths with
  | nil => exact absurd hl hne
  | cons l ls =>
      cases hc : o.counter with
      | nil =>
          have := h.length
          rw [hc, hl] at this
          cases this
      | cons c cs =>
          rw [hc, hl] at hout
          have hcl : c = l := hout
          have hv := h.value
          unfold Odometer.digits at hv
          rw [hc, hl, List.map_cons, List.map_cons, places, dot, hcl] at hv
          rw [List.map_cons, List.prod_cons]
          omega

/-- **One step**: the counters stand for the next position, or all have been handed out. -/
theorem Odometer.Reads.step (hs : lengths.length = strides.length) (hne : lengths ≠ [])
    (hpos : ∀ i, i < lengths.length → 0 < (lengths.getD i 0).toNat)
    (h : o.Reads lengths strides start t)
    (hb : ∀ i, i < lengths.length → (o.counter.getD i 0).toNat < (lengths.getD i 0).toNat) :
    (o.step lengths strides).Reads lengths strides start (t + 1) ∧
      (t + 1 < (lengths.map BitVec.toNat).prod → ∀ i, i < lengths.length →
        ((o.step lengths strides).counter.getD i 0).toNat < (lengths.getD i 0).toNat) := by
  have hlen := List.length_pos_iff.mpr hne
  have hd : lengths.length - 1 < lengths.length := Nat.sub_one_lt_of_lt hlen
  have hlast : (places (lengths.map BitVec.toNat)).getD (lengths.length - 1) 0 = 1 := by
    have := getD_places_last (lengths.map BitVec.toNat) (by simpa using hne)
    rwa [List.length_map] at this
  have htick := h.tick hs hd (hb _ hd)
  rw [hlast] at htick
  have hself : (o.tick strides (lengths.length - 1)).counter.getD (lengths.length - 1) 0 =
      o.counter.getD (lengths.length - 1) 0 + 1 := getD_set_self (by rw [h.length]; exact hd)
  have hle : ((o.tick strides (lengths.length - 1)).counter.getD (lengths.length - 1) 0).toNat ≤
      (lengths.getD (lengths.length - 1) 0).toNat := by
    have h1 := hb _ hd
    have h2 := (lengths.getD (lengths.length - 1) 0).isLt
    rw [hself, BitVec.toNat_add, show (1 : SizeT).toNat = 1 from rfl, Nat.mod_eq_of_lt (by omega)]
    omega
  obtain ⟨hr, hend⟩ := Odometer.Reads.carry hs hpos _ _ hd htick
    (fun i hi hid => by rw [getD_tick_ne hid]; exact hb i hi) hle
  refine ⟨hr, fun ht => ?_⟩
  rcases hend with hbelow | hout
  · exact hbelow
  · have := hr.prod_le hne hout
    omega

/-- The position the counters stand for is the one they count to. -/
theorem Odometer.Reads.getElem? (h : o.Reads lengths strides start t)
    (hs : lengths.length = strides.length)
    (hb : ∀ i, i < lengths.length → (o.counter.getD i 0).toNat < (lengths.getD i 0).toNat) :
    (rowMajor start (lengths.map BitVec.toNat) strides)[t]? = some o.pos := by
  have hdig : Digits o.digits (lengths.map BitVec.toNat) := by
    rw [digits_iff]
    unfold Odometer.digits
    refine ⟨by rw [List.length_map, List.length_map, h.length], fun d hd => ?_⟩
    rw [getD_map_toNat, getD_map_toNat]
    exact hb d (by simpa using hd)
  have hcast : o.digits.map (Nat.cast : Nat → SizeT) = o.counter := by
    unfold Odometer.digits
    rw [List.map_map]
    refine List.map_id'' (fun x => ?_) o.counter
    rw [Function.comp_apply, BitVec.natCast_eq_ofNat, BitVec.ofNat_toNat, BitVec.setWidth_eq]
  have := getElem?_rowMajor hdig strides start (by rw [List.length_map, hs])
  rw [h.value, hcast, ← h.pos] at this
  exact this

/-- The rest of the walk visits the rest of the positions. -/
theorem visitedFrom_eq (hs : lengths.length = strides.length) (hne : lengths ≠ [])
    (hpos : ∀ i, i < lengths.length → 0 < (lengths.getD i 0).toNat) :
    ∀ (n t : Nat) (o : Odometer), t + n ≤ (lengths.map BitVec.toNat).prod →
      o.Reads lengths strides start t →
      (0 < n → ∀ i, i < lengths.length →
        (o.counter.getD i 0).toNat < (lengths.getD i 0).toNat) →
      visitedFrom lengths strides n o =
        ((rowMajor start (lengths.map BitVec.toNat) strides).drop t).take n
  | 0, _, _, _, _, _ => by rw [visitedFrom, List.take_zero]
  | n + 1, t, o, hn, h, hb => by
      have hb := hb (Nat.succ_pos n)
      obtain ⟨hr, hnext⟩ := h.step hs hne hpos hb
      have hget := h.getElem? hs hb
      have hlen := length_rowMajor (lengths.map BitVec.toNat) strides start
        (by rw [List.length_map, hs])
      rw [visitedFrom, visitedFrom_eq hs hne hpos n (t + 1) _ (by omega) hr
        fun hn0 => hnext (by omega)]
      obtain ⟨ht, hval⟩ := List.getElem?_eq_some_iff.mp hget
      rw [List.drop_eq_getElem_cons ht, List.take_succ_cons, hval]

/-- **The walk visits the positions in row-major order**, from the first on. -/
theorem visited_eq (hs : lengths.length = strides.length) (hne : lengths ≠ [])
    (hpos : ∀ i, i < lengths.length → 0 < (lengths.getD i 0).toNat) {n : Nat}
    (hn : n ≤ (lengths.map BitVec.toNat).prod) :
    visitedFrom lengths strides n (Odometer.init lengths start) =
      (rowMajor start (lengths.map BitVec.toNat) strides).take n := by
  have hdig : (Odometer.init lengths start).digits = List.replicate lengths.length 0 := by
    unfold Odometer.digits Odometer.init
    exact List.map_replicate
  have h : (Odometer.init lengths start).Reads lengths strides start 0 :=
    ⟨List.length_replicate, by rw [Odometer.init, dot_zeros, add_zero], by rw [hdig, dot_zeros]⟩
  have hb : ∀ i, i < lengths.length →
      ((Odometer.init lengths start).counter.getD i 0).toNat < (lengths.getD i 0).toNat := by
    intro i hi
    unfold Odometer.init
    rw [getD_replicate, if_pos hi]
    exact hpos i hi
  have := visitedFrom_eq hs hne hpos n 0 _ (by omega) h fun _ => hb
  rwa [List.drop_zero] at this

end Visits

end XstdBits
