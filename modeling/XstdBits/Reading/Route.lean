/-
  File: XstdBits/Reading/Route.lean
  Subject: conversions one after another, through the library's containers and the types it meets.

  * `Route src ts dst`: a chain of `bit_convert`, from `src` into each target of `ts` in turn, every
    result held as the source of the next;
  * `keepsWidth`: the targets that take their source's width, a run-time sequence and a
    `dynamic_bitset`.

  Positions stay where they are along every route, so that two routes into one type end in values
  `==` and the hash cannot tell apart (`routes_agree`).
-/
import XstdBits.Reading.Foreign

namespace XstdBits

/-! ## 1. Routes -/

/-- Whether a target takes the width of its source. -/
def BitTarget.keepsWidth : BitTarget → Bool
  | owner V reading => !V.hasStaticSize && decide (reading = .sequence)
  | plain _ => false
  | dynamic _ => true

/-- A result as the next source: an owner or a whole view of it, a value, a `dynamic_bitset`. -/
inductive Kept {D : DynamicBitset} : (t : BitTarget) → t.Result D → BitEnd D → Prop where
  | owner {w : Nat} {V : Vehicle w} {reading : Reading} (s : Source V) (whole : s.window = none)
      (reads : s.reading = reading) : Kept (.owner V reading) s.bits (.held s)
  | plain (t : PlainType) (x : t.Value) : Kept (.plain t) x (.plain t x)
  | dynamic {w : Nat} (tiles : tilingBlock w = true) (b : D.Bitset w)
      (resident : D.numBlocks b * w < 2 ^ 63) : Kept (.dynamic w) b (.dynamic tiles b resident)

/-- Completed conversions, each from what the one before made. -/
inductive Route {D : DynamicBitset} : BitEnd D → List BitTarget → BitEnd D → Prop where
  | nil (src : BitEnd D) : Route src [] src
  | cons {src mid dst : BitEnd D} {t : BitTarget} {ts : List BitTarget} {x : t.Result D}
      (o same : Nat → Nat → Bool) (mem : Memory) (convertible : src.Convertible t)
      (converts : Converts o same mem src t (.ok x)) (kept : Kept t x mid)
      (rest : Route mid ts dst) :
      Route src (t :: ts) dst

/-! ## 2. What a route keeps -/

section Keeps
variable {D : DynamicBitset} {src mid dst : BitEnd D} {t : BitTarget} {ts : List BitTarget}

/-- A result that becomes a source reads as it was made. -/
theorem Kept.bit {x : t.Result D} (hD : D.Documented) (h : Kept t x dst) (hx : src.Becomes t x)
    (i : Nat) : dst.bit i = src.bit i := by
  cases h with
  | owner s whole reads =>
      refine Eq.trans ?_ (hx.2.1 i)
      show s.bit i = s.bits.bit i
      unfold Source.bit
      rw [whole]
  | plain t x => exact hx i
  | dynamic tiles b resident =>
      show (decide (i < D.size b) && D.test b i) = src.bit i
      by_cases hi : i < D.size b
      · rw [decide_eq_true hi, Bool.true_and, hx.2 i hi]
      · have hsize : D.size b = src.width := hx.1
        rw [decide_eq_false hi, Bool.false_and, src.bit_of_width hD (by omega)]

/-- A whole sequence of a run-time width is as wide as its container. -/
theorem Source.width_of_sequence {w : Nat} {V : Vehicle w} {s : Source V} (hwin : s.window = none)
    (hseq : s.reading = .sequence) (hs : V.hasStaticSize = false) : s.width = s.bits.size := by
  unfold width
  rw [hwin, hs, hseq]
  rfl

theorem Kept.width {x : t.Result D} (h : Kept t x dst) (hx : src.Becomes t x)
    (hk : t.keepsWidth = true) : dst.width = src.width ∧ dst.fixedWidth = none := by
  cases h with
  | @owner w V reading s whole reads =>
      unfold BitTarget.keepsWidth at hk
      dsimp only at hk
      rw [Bool.and_eq_true, Bool.not_eq_true', decide_eq_true_eq] at hk
      obtain ⟨hns, hseq⟩ := hk
      refine ⟨(s.width_of_sequence whole (reads.trans hseq) hns).trans (hx.2.2 hseq hns), if_neg ?_⟩
      unfold Source.isFixed
      rw [hns, Bool.and_false]
      exact Bool.false_ne_true
  | plain t x => cases hk
  | dynamic tiles b resident => exact ⟨hx.1, rfl⟩

/-- **Along a route every position stays where it is.** -/
theorem Route.bit (hD : D.Documented) (h : Route src ts dst) (i : Nat) : dst.bit i = src.bit i := by
  induction h with
  | nil => rfl
  | cons o same mem convertible converts kept _ ih =>
      exact ih.trans (kept.bit hD ((convert_ends hD convertible converts).exact _ rfl) i)

/-- **A route through targets that take the width keeps it**, and a width carried at run time. -/
theorem Route.width (hD : D.Documented) (h : Route src ts dst)
    (hk : ∀ t ∈ ts, BitTarget.keepsWidth t = true) :
    dst.width = src.width ∧ (src.fixedWidth = none → dst.fixedWidth = none) := by
  induction h with
  | nil => exact ⟨rfl, id⟩
  | cons o same mem convertible converts kept _ ih =>
      obtain ⟨hwidth, hrun⟩ := kept.width ((convert_ends hD convertible converts).exact _ rfl)
        (hk _ List.mem_cons_self)
      obtain ⟨hrest, hkept⟩ := ih fun t ht => hk t (List.mem_cons_of_mem _ ht)
      exact ⟨hrest.trans hwidth, fun _ => hkept hrun⟩

/-- What a target refuses is told by the positions and, where both are carried at run time, the
    width. -/
theorem refused_congr (hbit : ∀ i, dst.bit i = src.bit i) (hwidth : dst.width = src.width)
    (hs : src.fixedWidth = none) (hd : dst.fixedWidth = none) (t : BitTarget) :
    dst.Refused t ↔ src.Refused t := by
  unfold BitEnd.Refused
  simp only [hbit, hwidth, hs, hd]

end Keeps

/-! ## 3. Where two routes meet -/

section Meet
variable {D : DynamicBitset} {src a b : BitEnd D} {ts us : List BitTarget}

/-- **A plain value is its positions.** -/
theorem PlainType.ext {t : PlainType} {x y : t.Value} (h : ∀ i, t.bit x i = t.bit y i) : x = y := by
  cases t with
  | blocks w count pos whole resident =>
      exact Subtype.ext (bitAt_ext (x.property.trans y.property.symm) fun p _ => h p)
  | bitset n resident => exact BitVec.eq_of_getLsbD_eq fun i _ => h i

/-- What two ends of one kind are told apart by: plain values of one type by their own `==`; whole
    containers of one reading and one static width, sequences of one size, by `bit_equal` and by what
    they send a hash; `dynamic_bitset`s of one size by their positions. Ends of two kinds are not
    compared. -/
def BitEnd.Alike : BitEnd D → BitEnd D → Prop
  | .plain t x, .plain u y => ∀ h : t = u, h ▸ x = y
  | @BitEnd.held _ w V s, @BitEnd.held _ w' V' s' =>
      s.window = none → s'.window = none → s.reading = s'.reading →
        V.staticWidth = V'.staticWidth → (s.reading = .sequence → s.width = s'.width) →
        bitEqualWords s.reading s.bits s'.bits s.inv s'.inv = true ∧
        ∀ (digits : Nat) (appendSize : Nat → List Byte) (o o' : Bool),
          SizeAppends digits appendSize → (o = true → 8 ∣ w) → (o' = true → 8 ∣ w') →
          (hashAppendBitString appendSize o s.reading s.bits).flatten =
            (hashAppendBitString appendSize o' s.reading s'.bits).flatten
  | .dynamic _ x _, .dynamic _ y _ =>
      D.size x = D.size y → ∀ i, i < D.size x → D.test x i = D.test y i
  | _, _ => True

theorem sameReading_of_bits {w w' : Nat} {V : Vehicle w} {V' : Vehicle w'} {s : Source V}
    {s' : Source V'} (hwin : s.window = none) (hwin' : s'.window = none)
    (hread : s.reading = s'.reading) (hstatic : V.staticWidth = V'.staticWidth)
    (hwidth : s.reading = .sequence → s.width = s'.width)
    (hbits : ∀ i, s.bits.bit i = s'.bits.bit i) : SameReading s.reading s.bits s'.bits := by
  obtain ⟨hsize, hextent⟩ := hasStaticSize_eq hstatic
  cases hr : s.reading with
  | sets => exact hbits
  | sequence =>
      refine bools_eq_iff.mpr ⟨?_, fun p _ => hbits p⟩
      cases hs : V.hasStaticSize with
      | true =>
          rw [BitBlockContainer.size_of_static hs,
            BitBlockContainer.size_of_static (hsize.symm.trans hs), hextent hs]
      | false =>
          rw [← s.width_of_sequence hwin hr hs,
            ← s'.width_of_sequence hwin' (hread.symm.trans hr) (hsize.symm.trans hs)]
          exact hwidth hr

/-- **Ends with the same positions are alike.** -/
theorem alike_of_bit (h : ∀ i, a.bit i = b.bit i) : a.Alike b := by
  cases a with
  | held s =>
      cases b with
      | held s' =>
          intro hwin hwin' hread hstatic hwidth
          have hbits (i : Nat) : s.bits.bit i = s'.bits.bit i := by
            have hi : s.bit i = s'.bit i := h i
            unfold Source.bit at hi
            rwa [hwin, hwin'] at hi
          have hsame := sameReading_of_bits hwin hwin' hread hstatic hwidth hbits
          exact ⟨(bitEqualWords_iff s.inv s'.inv hstatic).mpr hsame,
            fun digits appendSize o o' ha ho ho' =>
            (message_eq_iff ha s.inv s'.inv hstatic ho ho').mpr hsame⟩
      | plain t x => trivial
      | dynamic tiles y resident => trivial
  | plain t x =>
      cases b with
      | held s => trivial
      | plain u y =>
          rintro rfl
          exact PlainType.ext h
      | dynamic tiles y resident => trivial
  | dynamic tiles x resident =>
      cases b with
      | held s => trivial
      | plain t y => trivial
      | dynamic tiles' y resident' =>
          intro hsize i hi
          have hbit : (decide (i < D.size x) && D.test x i) =
              (decide (i < D.size y) && D.test y i) := h i
          rwa [decide_eq_true hi, decide_eq_true (hsize ▸ hi), Bool.true_and, Bool.true_and] at hbit

/-- **Where routes lead.** Along any chain of completed conversions, through containers of any block
    width and reading, views, plain values and `dynamic_bitset`s, every position stays where it is;
    two chains from one source end alike; and a chain through run-time sequences and
    `dynamic_bitset`s alone keeps the width too, and from its end every target refuses exactly what
    it refuses of a source that carries its width at run time. -/
theorem routes_agree (hD : D.Documented) (ha : Route src ts a) (hb : Route src us b) :
    (∀ i, a.bit i = src.bit i) ∧ a.Alike b ∧
    ((∀ t ∈ ts, BitTarget.keepsWidth t = true) → a.width = src.width ∧
      (src.fixedWidth = none → ∀ t, a.Refused t ↔ src.Refused t)) := by
  have hbit := ha.bit hD
  refine ⟨hbit, alike_of_bit fun i => (hbit i).trans (hb.bit hD i).symm, fun hk => ?_⟩
  obtain ⟨hwidth, hrun⟩ := ha.width hD hk
  exact ⟨hwidth, fun hs t => refused_congr hbit hwidth hs (hrun hs) t⟩

/-- The `dynamic_bitset` of thirteen goes into any growing sequence with room for it. -/
theorem route_thirteen {w : Nat} {V : Vehicle w} (hv : V.storage ≠ .lent)
    (hs : V.hasStaticSize = false) (hc : V.hasStaticCapacity = false)
    (hg : BitBlockContainer.Grants V .ample (blocksFor w 13)) (hm : blocksFor w 13 ≤ V.maxBlocks)
    (hr : blocksFor w 13 * w < 2 ^ 63) : ∃ s : Source V, s.window = none ∧ s.reading = .sequence ∧
      Route thirteen [.owner V .sequence] (.held s) := by
  have hconvertible : thirteen.Convertible (.owner V .sequence) :=
    ⟨hv, fun h => by rw [hs] at h; cases h⟩
  have hanswers : Answers .ample thirteen (.owner V .sequence)
      (thirteen.toOwner (fun _ _ => false) (fun _ _ => true) .ample V .sequence) :=
    toOwner_answers listedBitset_documented hconvertible
  have hkept : ¬ thirteen.Refused (.owner V .sequence) := by
    intro h
    unfold BitEnd.Refused at h
    dsimp only at h
    rw [hs, if_neg (by decide), hc] at h
    cases h.1
  obtain ⟨d, hd⟩ := hanswers.returns hkept fun _ => hg
  obtain ⟨hinv, -, hsize⟩ := hanswers.exact d hd
  have hlen : d.mBlocks.elems.length = blocksFor w 13 := by
    have hshape := hinv.shape
    unfold BitBlockContainer.Shape at hshape
    rw [hshape, hsize rfl hs]
    rfl
  refine ⟨{ bits := d, reading := .sequence, owns := true, window := none, inv := hinv,
            held := fun _ => by rw [hlen]; exact hm, resident := by rw [hlen]; exact hr,
            inside := fun _ _ h => by cases h }, rfl, rfl, ?_⟩
  exact .cons (fun _ _ => false) (fun _ _ => true) .ample hconvertible
    (hd ▸ Converts.owner thirteen V .sequence) (.owner _ rfl rfl) (.nil _)

/-- Over bytes and over words it is one sequence. -/
theorem routes_agree_thirteen : ∃ (s : Source (byteVector false)) (t : Source (wordVector false)),
    Route thirteen [.owner (byteVector false) .sequence] (.held s) ∧
    Route thirteen [.owner (wordVector false) .sequence] (.held t) ∧
    bitEqualWords s.reading s.bits t.bits s.inv t.inv = true := by
  obtain ⟨s, hwin, hread, hs⟩ := route_thirteen (V := byteVector false) (by decide) rfl rfl
    (fun _ => ⟨2, rfl⟩) (by decide) (by decide)
  obtain ⟨t, hwin', hread', ht⟩ := route_thirteen (V := wordVector false) (by decide) rfl rfl
    (fun _ => ⟨1, rfl⟩) (by decide) (by decide)
  have hkeeps (w : Nat) (V : Vehicle w) (hV : V.hasStaticSize = false) :
      ∀ u ∈ [BitTarget.owner V .sequence], BitTarget.keepsWidth u = true := by
    intro u hu
    rw [List.mem_singleton.mp hu]
    unfold BitTarget.keepsWidth
    dsimp only
    rw [hV]
    rfl
  obtain ⟨-, halike, hwidth⟩ := routes_agree listedBitset_documented hs ht
  have hsame := (hwidth (hkeeps _ _ rfl)).1.trans
    (ht.width listedBitset_documented (hkeeps _ _ rfl)).1.symm
  exact ⟨s, t, hs, ht, (halike hwin hwin' (hread.trans hread'.symm) rfl fun _ => hsame).1⟩

end Meet

end XstdBits
