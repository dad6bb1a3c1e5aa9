/-
  File: XstdBits/Opt/Twins.lean
  Subject: `filter_twins`, one key at a time, beside the shifts that find the twins block by block.

  * the loop inserts the key in the middle of three consecutive ones. `filterFrom_spec` says which
    keys that are in terms of the set alone: neither its first key nor its last, with a neighbour two
    away and none in between.
  * over primes the block form finds the pairs, and the loop all of them but a pair's upper member
    that is the largest prime of all (`twins_differ`).
-/
import XstdBits.Opt.Incremental
import XstdBits.Container.Compare

namespace XstdBits.Opt

/-! ## 1. The loop -/

section Program
variable {σ : Type} (X : OrderedSet σ)

/-- `if (self - 2 == prev or self + 2 == next) twins.insert(self)`. -/
def insertMiddle (prev self next : Nat) (twins : σ) : Except Stop σ :=
  if toSize (self + 2 ^ 64 - 2) = prev ∨ toSize (self + 2) = next then call (X.insert self twins)
  else .ok twins

/-- The loop, over the keys from `next` on. -/
def filterFrom : Nat → Nat → List Nat → σ → Except Stop σ
  | _, _, [], twins => .ok twins
  | prev, self, next :: rest, twins => do
      let more ← insertMiddle X prev self next twins
      filterFrom self next rest more

/-- `filter_twins`, which takes the first two keys for granted. -/
def filterTwins (primes : σ) : Except Stop σ :=
  match X.keys primes with
  | [] => .ok X.empty
  | [_] => .ok X.empty
  | prev :: self :: rest => filterFrom X prev self rest X.empty

/-- `primes & (primes << 2 | primes >> 2)`. -/
def filterTwinsParallel : SetExpr :=
  .and (.var 0) (.or (.shl (.var 0) 2) (.shr (.var 0) 2))

end Program

/-! ## 2. Which keys it inserts -/

/-- **A key with a neighbour two away** and none in between. -/
def Neighboured (L : List Nat) (k : Nat) : Prop :=
  (2 ≤ k ∧ k - 2 ∈ L ∧ k - 1 ∉ L) ∨ (k + 2 ∈ L ∧ k + 1 ∉ L)

section Loop
variable {σ : Type} {X : OrderedSet σ} {bound : Nat} {Good : σ → Prop}

/-- The test of three consecutive keys, whose differences may wrap. -/
theorem middle_iff {prev self next : Nat} (h1 : prev < self) (h2 : self < next)
    (htop : next < 2 ^ 64) : (toSize (self + 2 ^ 64 - 2) = prev ∨ toSize (self + 2) = next) ↔
      prev + 2 = self ∨ self + 2 = next := by
  unfold toSize
  omega

/-- The test, said of the keys as a set. -/
theorem neighboured_iff {prev self next : Nat} {rest : List Nat} (h1 : prev < self)
    (h2 : self < next) (hrest : ∀ k ∈ rest, next < k) :
    (prev + 2 = self ∨ self + 2 = next) ↔ Neighboured (prev :: self :: next :: rest) self := by
  have hmem (k : Nat) (hk : k ≤ next) :
      k ∈ prev :: self :: next :: rest ↔ k = prev ∨ k = self ∨ k = next := by
    simp only [List.mem_cons]
    constructor
    · rintro (h | h | h | h)
      · exact Or.inl h
      · exact Or.inr (Or.inl h)
      · exact Or.inr (Or.inr h)
      · have := hrest k h
        omega
    · rintro (h | h | h)
      · exact Or.inl h
      · exact Or.inr (Or.inl h)
      · exact Or.inr (Or.inr (Or.inl h))
  have hup : self + 2 ∈ prev :: self :: next :: rest ∧ self + 1 ∉ prev :: self :: next :: rest ↔
      self + 2 = next := by
    rw [hmem (self + 1) (by omega)]
    constructor
    · rintro ⟨hin, hout⟩
      by_cases hle : self + 2 ≤ next
      · rw [hmem _ hle] at hin
        omega
      · omega
    · intro h
      rw [hmem (self + 2) (by omega)]
      omega
  unfold Neighboured
  rw [hup, hmem (self - 2) (by omega), hmem (self - 1) (by omega)]
  omega

/-- A smaller first key changes nothing for the keys past the second. -/
theorem neighboured_cons {prev self k : Nat} {rest : List Nat} (h1 : prev < self) (hk : self < k) :
    Neighboured (self :: rest) k ↔ Neighboured (prev :: self :: rest) k := by
  unfold Neighboured
  simp only [List.mem_cons]
  constructor
  · rintro (⟨h2, h3, h4⟩ | ⟨h3, h4⟩)
    · refine Or.inl ⟨h2, Or.inr h3, ?_⟩
      rintro (h | h)
      · omega
      · exact h4 h
    · refine Or.inr ⟨Or.inr h3, ?_⟩
      rintro (h | h)
      · omega
      · exact h4 h
  · rintro (⟨h2, h3, h4⟩ | ⟨h3, h4⟩)
    · rcases h3 with h | h
      · exact absurd (Or.inr (Or.inl (by omega))) h4
      · exact Or.inl ⟨h2, h, fun hin => h4 (Or.inr hin)⟩
    · rcases h3 with h | h
      · omega
      · exact Or.inr ⟨h, fun hin => h4 (Or.inr hin)⟩

/-- **The loop inserts the neighboured keys** from the second to the last but one. -/
theorem filterFrom_spec (hX : X.Lawful bound Good) (htop : bound ≤ 2 ^ 64) :
    ∀ {rest : List Nat} {prev self : Nat} {s : σ}, Good s →
      (prev :: self :: rest).Pairwise (· < ·) → (∀ k ∈ prev :: self :: rest, k < bound) →
      ∃ t, filterFrom X prev self rest s = .ok t ∧ Good t ∧ ∀ k, k ∈ X.keys t ↔ k ∈ X.keys s ∨
        k ∈ self :: rest ∧ (∃ b ∈ rest, k < b) ∧ Neighboured (prev :: self :: rest) k
  | [], prev, self, s, hs, _, _ => ⟨s, rfl, hs, fun k => by simp⟩
  | next :: rest, prev, self, s, hs, hsorted, hlt => by
      rw [List.pairwise_cons, List.pairwise_cons] at hsorted
      obtain ⟨hprev, hself, hnext⟩ := hsorted
      have h1 := hprev self List.mem_cons_self
      have h2 := hself next List.mem_cons_self
      have hrest (k : Nat) (hk : k ∈ rest) : next < k := (List.pairwise_cons.mp hnext).1 k hk
      have htest := (middle_iff h1 h2 (Nat.lt_of_lt_of_le (hlt next (by simp)) htop)).trans
        (neighboured_iff h1 h2 hrest)
      have hmiddle : ∃ t, insertMiddle X prev self next s = .ok t ∧ Good t ∧
          ∀ k, k ∈ X.keys t ↔ k ∈ X.keys s ∨
            k = self ∧ Neighboured (prev :: self :: next :: rest) self := by
        unfold insertMiddle
        split
        · rename_i hin
          obtain ⟨t, ht, hgood, hmem⟩ := hX.insert s self hs (hlt self (by simp))
          refine ⟨t, call_ok ht, hgood, fun k => ?_⟩
          rw [hmem k, or_comm, and_iff_left (htest.mp hin)]
        · rename_i hout
          refine ⟨s, rfl, hs, fun k => ⟨Or.inl, fun h => h.resolve_right ?_⟩⟩
          exact fun hk => hout (htest.mpr hk.2)
      obtain ⟨t, ht, hgood, hmem⟩ := hmiddle
      obtain ⟨u, hu, hu', hin⟩ := filterFrom_spec hX htop hgood
        (List.pairwise_cons.mpr ⟨hself, hnext⟩) fun k hk => hlt k (List.mem_cons_of_mem _ hk)
      refine ⟨u, ?_, hu', fun k => ?_⟩
      · unfold filterFrom
        rw [ht]
        exact hu
      · rw [hin k, hmem k, or_assoc]
        refine or_congr_right ?_
        have hafter (hk : k ∈ next :: rest) : Neighboured (self :: next :: rest) k ↔
            Neighboured (prev :: self :: next :: rest) k := neighboured_cons h1 (hself k hk)
        constructor
        · rintro (⟨rfl, hn⟩ | ⟨hk, ⟨b, hb, hkb⟩, hn⟩)
          · exact ⟨List.mem_cons_self, ⟨next, List.mem_cons_self, h2⟩, hn⟩
          · exact ⟨List.mem_cons_of_mem _ hk, ⟨b, List.mem_cons_of_mem _ hb, hkb⟩,
              (hafter hk).mp hn⟩
        · rintro ⟨hk, ⟨b, hb, hkb⟩, hn⟩
          rcases List.mem_cons.mp hk with rfl | hk
          · exact Or.inl ⟨rfl, hn⟩
          · refine Or.inr ⟨hk, ⟨b, ?_, hkb⟩, (hafter hk).mpr hn⟩
            rcases List.mem_cons.mp hb with rfl | hb
            · rcases List.mem_cons.mp hk with rfl | hk
              · omega
              · have := hrest k hk
                omega
            · exact hb

/-- **Which keys `filter_twins` inserts**: neither the first key nor the last, and neighboured. -/
theorem filterTwins_spec (hX : X.Lawful bound Good) (htop : bound ≤ 2 ^ 64) {s : σ} (hs : Good s)
    (hlt : ∀ k ∈ X.keys s, k < bound) : ∃ t, filterTwins X s = .ok t ∧ Good t ∧ ∀ k, k ∈ X.keys t ↔
      k ∈ X.keys s ∧ (∃ a ∈ X.keys s, a < k) ∧ (∃ b ∈ X.keys s, k < b) ∧
        Neighboured (X.keys s) k := by
  have hsorted := hX.sorted s hs
  have hnone (k : Nat) := hX.empty.2 k
  unfold filterTwins
  generalize X.keys s = L at hlt hsorted
  match L, hlt, hsorted with
  | [], _, _ => exact ⟨X.empty, rfl, hX.empty.1, fun k => iff_of_false (hnone k) (by simp)⟩
  | [a], _, _ =>
      refine ⟨X.empty, rfl, hX.empty.1, fun k => iff_of_false (hnone k) ?_⟩
      rintro ⟨hk, ⟨b, hb, hbk⟩, -⟩
      rw [List.mem_singleton] at hk hb
      omega
  | prev :: self :: rest, hlt, hsorted =>
      obtain ⟨t, ht, hgood, hmem⟩ := filterFrom_spec hX htop hX.empty.1 hsorted hlt
      refine ⟨t, ht, hgood, fun k => ?_⟩
      rw [List.pairwise_cons, List.pairwise_cons] at hsorted
      obtain ⟨hprev, hself, -⟩ := hsorted
      rw [hmem k]
      constructor
      · rintro (hk | ⟨hk, ⟨b, hb, hkb⟩, hn⟩)
        · exact absurd hk (hnone k)
        · exact ⟨List.mem_cons_of_mem _ hk, ⟨prev, List.mem_cons_self, hprev k hk⟩,
            ⟨b, List.mem_cons_of_mem _ (List.mem_cons_of_mem _ hb), hkb⟩, hn⟩
      · rintro ⟨hk, ⟨a, ha, hak⟩, ⟨b, hb, hkb⟩, hn⟩
        have hmiddle : k ∈ self :: rest := by
          rcases List.mem_cons.mp hk with rfl | hk
          · rcases List.mem_cons.mp ha with rfl | ha
            · omega
            · have := hprev a ha
              omega
          · exact hk
        refine Or.inr ⟨hmiddle, ⟨b, ?_, hkb⟩, hn⟩
        have hpk := hprev k hmiddle
        have hsk : self ≤ k := by
          rcases List.mem_cons.mp hmiddle with rfl | hk
          · exact Nat.le_refl _
          · exact Nat.le_of_lt (hself k hk)
        rcases List.mem_cons.mp hb with rfl | hb
        · omega
        · rcases List.mem_cons.mp hb with rfl | hb
          · omega
          · exact hb

end Loop

/-! ## 3. Over the primes -/

section Primes
variable {n k : Nat}

/-- **A prime neighboured among the primes is a twin.** -/
theorem neighboured_primes {L : List Nat} (hL : ∀ k, k ∈ L ↔ k < n ∧ k.Prime) (hk : k ∈ L) :
    Neighboured L k ↔ (k - 2).Prime ∨ (k + 2 < n ∧ (k + 2).Prime) := by
  obtain ⟨hlt, hprime⟩ := (hL k).mp hk
  have hodd := hprime.eq_two_or_odd
  have h2 := hprime.two_le
  unfold Neighboured
  rw [hL, hL, hL, hL]
  constructor
  · rintro (⟨-, ⟨-, h⟩, -⟩ | ⟨h, -⟩)
    · exact Or.inl h
    · exact Or.inr h
  · rintro (h | h)
    · have := h.two_le
      refine Or.inl ⟨h2, ⟨by omega, h⟩, fun hq => ?_⟩
      have := hq.2.eq_two_or_odd
      omega
    · refine Or.inr ⟨h, fun hq => ?_⟩
      have hq := hq.2.eq_two_or_odd
      have hp := h.2.eq_two_or_odd
      omega

end Primes

section Agreement
variable {w : Nat} {V : Vehicle w} {mem : Memory} {fuel n : Nat} {c : BitBlockContainer V}

/-- A set in bounds is within its `max_size()`. -/
theorem sized_of_inBound (hV : Holds V mem n) (hc : InBound n c) :
    SetExpr.Sized (unsignedMapping 64) c := by
  refine ⟨hc.1, ?_⟩
  rcases V.owned_of_not_lent hV.owner with hs | hs
  · refine Nat.le_trans (hc.2 hs) ?_
    have hroom := hV.room hs
    rw [← SetExpr.maxSize_eq hV.owner c, SetAdaptor.maxSize_stored _ hs]
    split
    · rename_i hcap
      exact BitBlockContainer.fits_capacity hroom.capacity hcap
    · rename_i hcap
      obtain ⟨k, hk⟩ := hroom.grants _ (Nat.le_refl _) (by simpa using hcap)
      obtain ⟨hblocks, hnum, -⟩ := Blocks.allocateFor_ok.mp hk
      show n ≤ c.maxSize
      rw [SetAdaptor.storedMax_eq hs hcap]
      exact (blocksFor_le_iff V.bits_pos).mp (Nat.le_min.mpr ⟨hblocks, hnum⟩)
  · exact Nat.le_of_eq (SetExpr.static_ceiling hs).symm

/-- **The two ways to filter twins differ at the largest prime.** Over the primes that the sieve left
    in a set that holds shifts by two: the block form finds every prime with a prime two away, the
    loop those that are not the largest prime below the bound; so they agree exactly where that one
    is not the upper member of a pair. -/
theorem twins_differ (hV : Holds V mem n) (hmem : ∀ k, ∃ r, mem.allocate k = .ok r)
    (htop : n ≤ 2 ^ 63) (hfuel : n < fuel) (hsift : siftPrimes1 (librarySet V mem) fuel n = .ok c)
    (htwo : 2 < SetAdaptor.maxSize (unsignedMapping 64) c) :
    ∃ t d, filterTwins (librarySet V mem) c = .ok t ∧
      filterTwinsParallel.eval (unsignedMapping 64) mem (fun _ => c) = .ok d ∧
      (∀ k, k ∈ (librarySet V mem).keys d ↔
        k < n ∧ k.Prime ∧ ((k - 2).Prime ∨ (k + 2 < n ∧ (k + 2).Prime))) ∧
      (∀ k, k ∈ (librarySet V mem).keys t ↔
        k ∈ (librarySet V mem).keys d ∧ ∃ p, p < n ∧ p.Prime ∧ k < p) ∧
      (setEqual t d = true ↔
        ¬ ∃ p, p < n ∧ p.Prime ∧ (p - 2).Prime ∧ ∀ q, q < n → q.Prime → q ≤ p) := by
  have hX := lawful_librarySet hV (by omega)
  obtain ⟨c', hc', hgood, hprimes⟩ :=
    siftPrimes0_spec hX (Nat.le_refl n) htop (show n < fuel + 1 by omega)
  rw [siftPrimes1_eq, hc'] at hsift
  obtain rfl := Except.ok.inj hsift
  have hbit (k : Nat) : c'.bit k = true ↔ k < n ∧ k.Prime := by
    exact ((keys_spec hV.owner hgood.1).1 k).symm.trans (hprimes k)
  have hsized := sized_of_inBound hV hgood
  rw [SetExpr.maxSize_eq hV.owner] at htwo
  obtain ⟨d, hd, hdsized, hdbit⟩ := SetExpr.eval_spec (S := fun _ => c') (e := filterTwinsParallel)
    hV.owner hmem (fun _ => hsized) ⟨trivial, ⟨trivial, htwo⟩, trivial, htwo⟩
  obtain ⟨t, ht, htgood, htkeys⟩ := filterTwins_spec hX (by omega) hgood fun k hk =>
    ((hprimes k).mp hk).1
  have hdkeys (k : Nat) : k ∈ (librarySet V mem).keys d ↔
      k < n ∧ k.Prime ∧ ((k - 2).Prime ∨ (k + 2 < n ∧ (k + 2).Prime)) := by
    rw [(keys_spec hV.owner hdsized.1).1 k, hdbit]
    simp only [filterTwinsParallel, SetExpr.denote, Bool.and_eq_true, Bool.or_eq_true,
      decide_eq_true_eq, hbit]
    constructor
    · rintro ⟨⟨hlt, hk⟩, ⟨-, -, h⟩ | h⟩
      · exact ⟨hlt, hk, Or.inl h⟩
      · exact ⟨hlt, hk, Or.inr h⟩
    · rintro ⟨hlt, hk, h | h⟩
      · have hin := hgood.1.lt_size ((hbit k).mpr ⟨hlt, hk⟩)
        exact ⟨⟨hlt, hk⟩, Or.inl ⟨⟨hk.two_le, Nat.lt_of_lt_of_le hin hsized.2⟩, by omega, h⟩⟩
      · exact ⟨⟨hlt, hk⟩, Or.inr h⟩
  have htkeys' (k : Nat) : k ∈ (librarySet V mem).keys t ↔
      k ∈ (librarySet V mem).keys d ∧ ∃ p, p < n ∧ p.Prime ∧ k < p := by
    rw [htkeys k, hdkeys k]
    constructor
    · rintro ⟨hk, -, ⟨p, hp, hkp⟩, hn⟩
      obtain ⟨hlt, hprime⟩ := (hprimes k).mp hk
      obtain ⟨hpn, hpp⟩ := (hprimes p).mp hp
      exact ⟨⟨hlt, hprime, (neighboured_primes hprimes hk).mp hn⟩, p, hpn, hpp, hkp⟩
    · rintro ⟨⟨hlt, hprime, htwin⟩, p, hpn, hpp, hkp⟩
      have hk := (hprimes k).mpr ⟨hlt, hprime⟩
      refine ⟨hk, ?_, ⟨p, (hprimes p).mpr ⟨hpn, hpp⟩, hkp⟩,
        (neighboured_primes hprimes hk).mpr htwin⟩
      -- no pair has two as a member
      have hne : k ≠ 2 := by
        rintro rfl
        rcases htwin with h | h
        · exact Nat.not_prime_zero h
        · exact absurd h.2 (by decide)
      have h2 := hprime.two_le
      exact ⟨2, (hprimes 2).mpr ⟨by omega, Nat.prime_two⟩, by omega⟩
  refine ⟨t, d, ht, hd, hdkeys, htkeys', ?_⟩
  have hequal : setEqual t d = true ↔
      ∀ k, k ∈ (librarySet V mem).keys t ↔ k ∈ (librarySet V mem).keys d := by
    rw [setEqual_iff htgood.1 hdsized.1]
    refine forall_congr' fun k => ?_
    rw [(keys_spec hV.owner htgood.1).1 k, (keys_spec hV.owner hdsized.1).1 k, Bool.eq_iff_iff]
  rw [hequal]
  constructor
  · rintro hall ⟨p, hlt, hprime, htwin, hlargest⟩
    obtain ⟨-, q, hq, hqprime, hpq⟩ :=
      (htkeys' p).mp ((hall p).mpr ((hdkeys p).mpr ⟨hlt, hprime, Or.inl htwin⟩))
    have := hlargest q hq hqprime
    omega
  · intro hnone k
    rw [htkeys' k]
    refine ⟨fun hk => hk.1, fun hk => ⟨hk, ?_⟩⟩
    obtain ⟨hlt, hprime, htwin⟩ := (hdkeys k).mp hk
    by_contra hlargest
    rcases htwin with h | h
    · refine hnone ⟨k, hlt, hprime, h, fun q hq hqprime => ?_⟩
      by_contra hgt
      exact hlargest ⟨q, hq, hqprime, by omega⟩
    · exact hlargest ⟨k + 2, h.1, h.2, by omega⟩

end Agreement

/-- Of the primes below fourteen, the loop leaves out the last. -/
theorem twins_differ_fourteen : ∃ c t d,
    siftPrimes1 (librarySet (byteVector false) .ample) 100 14 = .ok c ∧
    filterTwins (librarySet (byteVector false) .ample) c = .ok t ∧
    filterTwinsParallel.eval (unsignedMapping 64) .ample (fun _ => c) = .ok d ∧
    13 ∈ (librarySet (byteVector false) .ample).keys d ∧ setEqual t d = false := by
  have hV : Holds (byteVector false) .ample 14 := holds_bytes (by decide)
  obtain ⟨c, hc, -⟩ := siftPrimes0_spec (lawful_librarySet hV (by decide))
    (Nat.le_refl 14) (by decide) (show 14 < 100 + 1 by decide)
  have hsift := (siftPrimes1_eq 14).trans hc
  have htwo : 2 < SetAdaptor.maxSize (unsignedMapping 64) c := by
    rw [SetExpr.maxSize_eq (by decide)]
    exact Nat.le_of_ble_eq_true rfl
  obtain ⟨t, d, ht, hd, hdkeys, -, hequal⟩ := twins_differ hV (fun k => ⟨k, rfl⟩) (by decide)
    (by decide) hsift htwo
  have h13 : Nat.Prime 13 := by norm_num
  have h11 : Nat.Prime 11 := by norm_num
  refine ⟨c, t, d, hsift, ht, hd, (hdkeys 13).mpr ⟨by decide, h13, Or.inl h11⟩, ?_⟩
  rw [← Bool.not_eq_true, hequal, not_not]
  exact ⟨13, by decide, h13, h11, fun q hq _ => by omega⟩

end XstdBits.Opt
