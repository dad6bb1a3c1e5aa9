/-
  File: XstdBits/Opt/Incremental.lean
  Subject: `incremental_sieve`, which generates the primes without a bound up front.

  * the state is the map of strikes and the candidate. `Ready` is its invariant: every entry is the
    next strike of a prime found, no prime has two, and a multiple it has passed over is the strike
    of another.
  * `freeFrom_spec` is the walk to a multiple that nobody has claimed. It ends: a power of the prime
    is claimed by that prime alone.
  * `next_composite` and `next_prime` are the two steps, `next_spec` the call.
-/
import XstdBits.Opt.Sieve
import Mathlib.NumberTheory.Bertrand
import Mathlib.Data.Nat.Nth
import Mathlib.NumberTheory.PrimeCounting

namespace XstdBits.Opt

/-! ## 1. The generator -/

/-- `std::map<std::size_t, std::size_t>`. -/
abbrev Strikers := Std.TreeMap Nat Nat

/-- The composite each known prime strikes next, and how far the candidates have come. -/
structure IncrementalSieve where
  strikes : Strikers
  candidate : Nat

namespace IncrementalSieve

def initial : IncrementalSieve := { strikes := ∅, candidate := 1 }

/-- `while (m_strikes.contains(m)) m += p`. -/
def freeFrom (strikes : Strikers) (p : Nat) : Nat → Nat → Except Stop Nat
  | 0, _ => .error .outOfFuel
  | fuel + 1, m =>
      if strikes.contains m then freeFrom strikes p fuel (toSize (m + p)) else .ok m

/-- `next`, its inner loop on fuel of its own; the nodes of the map are always granted. -/
def nextFrom (fuel : Nat) : Nat → IncrementalSieve → Except Stop (Nat × IncrementalSieve)
  | 0, _ => .error .outOfFuel
  | steps + 1, s =>
      let candidate := toSize (s.candidate + 1)
      match s.strikes[candidate]? with
      | none =>
          .ok (candidate,
            { strikes := s.strikes.insertIfNew (toSize (candidate * candidate)) candidate,
              candidate := candidate })
      | some p => do
          let erased := s.strikes.erase candidate
          let m ← freeFrom erased p fuel (toSize (candidate + p))
          nextFrom fuel steps { strikes := erased.insertIfNew m p, candidate := candidate }

def next (fuel : Nat) (s : IncrementalSieve) : Except Stop (Nat × IncrementalSieve) :=
  nextFrom fuel fuel s

/-- So many calls of `next` in a row. -/
def take (fuel : Nat) : Nat → IncrementalSieve → Except Stop (List Nat × IncrementalSieve)
  | 0, s => .ok ([], s)
  | n + 1, s => do
      let (p, t) ← next fuel s
      let (ps, u) ← take fuel n t
      .ok (p :: ps, u)

end IncrementalSieve

section Program
variable {σ : Type} (X : OrderedSet σ) (fuel : Nat)

/-- `for (; p < n; p = sieve.next()) primes.insert(p)`. -/
def insertBelow (n : Nat) : Nat → Nat → IncrementalSieve → σ → Except Stop σ
  | 0, _, _, _ => .error .outOfFuel
  | steps + 1, p, sieve, s =>
      if p < n then do
        let t ← call (X.insert p s)
        let (q, after) ← sieve.next fuel
        insertBelow n steps q after t
      else .ok s

def siftPrimesIncremental (n : Nat) : Except Stop σ := do
  let (p, sieve) ← IncrementalSieve.initial.next fuel
  insertBelow X fuel n fuel p sieve X.empty

end Program

namespace IncrementalSieve
variable {fuel steps c k m n p q target : Nat} {strikes : Strikers} {s : IncrementalSieve}

/-! ## 2. The map -/

theorem getElem?_erased (strikes : Strikers) (c k : Nat) :
    (strikes.erase c)[k]? = if c = k then none else strikes[k]? := by
  rw [Std.TreeMap.getElem?_erase]
  simp only [Nat.compare_eq_eq]

/-- `emplace` of a key that is not there. -/
theorem getElem?_emplaced (hnew : strikes[c]? = none) (v k : Nat) :
    (strikes.insertIfNew c v)[k]? = if c = k then some v else strikes[k]? := by
  have hnot : ¬ c ∈ strikes := by
    rw [Std.TreeMap.mem_iff_isSome_getElem?, hnew]
    decide
  rw [Std.TreeMap.getElem?_insertIfNew]
  simp only [Nat.compare_eq_eq, hnot, not_false_eq_true, and_true]

/-- **The walk to an unclaimed multiple** ends at the latest at one that is known to be free. -/
theorem freeFrom_spec (hp : 0 < p) (hfree : strikes[target]? = none) (htop : target + p < 2 ^ 64) :
    ∀ {fuel m : Nat}, m ≤ target → p ∣ target - m → target - m < fuel →
      ∃ r, freeFrom strikes p fuel m = .ok r ∧ m ≤ r ∧ p ∣ r - m ∧ strikes[r]? = none ∧
        ∀ k, Stride p m r k → strikes[k]? ≠ none
  | 0, m, _, _, hf => by omega
  | fuel + 1, m, hm, hdvd, hf => by
      unfold freeFrom
      rw [Std.TreeMap.contains_eq_isSome_getElem?]
      cases hclaimed : strikes[m]? with
      | none =>
          refine ⟨m, rfl, Nat.le_refl m, ?_, hclaimed, ?_⟩
          · rw [Nat.sub_self]
            exact Nat.dvd_zero p
          · rintro k ⟨h1, h2, -⟩
            omega
      | some q =>
          have hne : m ≠ target := by
            rintro rfl
            rw [hfree] at hclaimed
            cases hclaimed
          have hle := Nat.le_of_dvd (by omega) hdvd
          have hstep : p ∣ target - (m + p) := by
            rw [← Nat.sub_sub]
            exact Nat.dvd_sub hdvd (Nat.dvd_refl p)
          obtain ⟨r, hr, hge, hrdvd, hrfree, hall⟩ := freeFrom_spec hp hfree htop
            (show m + p ≤ target by omega) hstep (show target - (m + p) < fuel by omega)
          have hnext : toSize (m + p) = m + p := Nat.mod_eq_of_lt (by omega)
          rw [hnext]
          refine ⟨r, hr, by omega, ?_, hrfree, fun k hk => ?_⟩
          · have := Nat.dvd_add hrdvd (Nat.dvd_refl p)
            rwa [show r - (m + p) + p = r - m by omega] at this
          · rcases (stride_step hp (show m < r by omega)).mp hk with rfl | hk
            · rw [hclaimed]
              exact Option.some_ne_none q
            · exact hall k hk

/-! ## 3. The invariant -/

/-- **What holds between two calls.** -/
structure Ready (s : IncrementalSieve) : Prop where
  /-- an entry is a strike still to come, of a prime found -/
  entry : ∀ {k p : Nat}, s.strikes[k]? = some p →
    p.Prime ∧ p ≤ s.candidate ∧ s.candidate < k ∧ Strikes p k
  /-- no prime is two entries -/
  once : ∀ {k l p : Nat}, s.strikes[k]? = some p → s.strikes[l]? = some p → k = l
  /-- a prime found is an entry, and what it has passed over is another's -/
  found : ∀ {p : Nat}, p.Prime → p ≤ s.candidate → ∃ k, s.strikes[k]? = some p ∧
    ∀ m, s.candidate < m → m < k → Strikes p m → s.strikes[m]? ≠ none

theorem ready_initial : Ready initial where
  entry h := by
    rw [initial, Std.TreeMap.getElem?_emptyc] at h
    cases h
  once h := by
    rw [initial, Std.TreeMap.getElem?_emptyc] at h
    cases h
  found hp hle := by
    have := hp.two_le
    have : initial.candidate = 1 := rfl
    omega

/-- **A candidate is struck exactly if it is composite.** -/
theorem struck_iff (h : Ready s) (hc : 1 ≤ s.candidate) :
    s.strikes[s.candidate + 1]? = none ↔ (s.candidate + 1).Prime := by
  constructor
  · intro hnone
    by_contra hcomp
    obtain ⟨r, hr, hlt, hs⟩ := exists_strikes (by omega) hcomp
    obtain ⟨k, hk, hpassed⟩ := h.found hr (by omega)
    obtain ⟨-, -, hafter, -⟩ := h.entry hk
    rcases Nat.lt_or_ge (s.candidate + 1) k with hlt | hge
    · exact hpassed _ (Nat.lt_succ_self _) hlt hs hnone
    · have : k = s.candidate + 1 := by omega
      rw [← this, hk] at hnone
      cases hnone
  · intro hprime
    cases hk : s.strikes[s.candidate + 1]? with
    | none => rfl
    | some p =>
        obtain ⟨hp, -, -, hs⟩ := h.entry hk
        exact absurd hprime (not_prime_of_strikes hp hs)

/-- **A prime found starts striking at its square**, which nobody has claimed. -/
theorem ready_prime (h : Ready s) (hq : q.Prime) (hnext : q = s.candidate + 1) :
    Ready { strikes := s.strikes.insertIfNew (q * q) q, candidate := q } := by
  have hsquare : q + q ≤ q * q := by
    have := Nat.mul_le_mul_right q hq.two_le
    omega
  have hpos := hq.pos
  have hfree : s.strikes[q * q]? = none := by
    cases hk : s.strikes[q * q]? with
    | none => rfl
    | some p =>
        obtain ⟨hp, hle, -, hs⟩ := h.entry hk
        have := (Nat.prime_dvd_prime_iff_eq hp hq).mp ((Nat.Prime.dvd_mul hp).mp hs.2 |>.elim id id)
        omega
  have hnone : s.strikes[q]? = none := by
    cases hk : s.strikes[q]? with
    | none => rfl
    | some p =>
        obtain ⟨hp, -, -, hs⟩ := h.entry hk
        exact absurd hq (not_prime_of_strikes hp hs)
  refine ⟨fun {k p} hk => ?_, fun {k l p} hk hl => ?_, fun {p} hp hle => ?_⟩
  · rw [getElem?_emplaced hfree] at hk
    split at hk
    · rename_i heq
      cases hk
      exact ⟨hq, Nat.le_refl q, by show q < k; omega, by omega, heq ▸ Nat.dvd_mul_left q q⟩
    · obtain ⟨h1, h2, h3, h4⟩ := h.entry hk
      refine ⟨h1, by show p ≤ q; omega, ?_, h4⟩
      rcases Nat.lt_or_eq_of_le (show q ≤ k by omega) with hlt | rfl
      · exact hlt
      · rw [hnone] at hk
        cases hk
  · rw [getElem?_emplaced hfree] at hk hl
    split at hk
    · split at hl
      · omega
      · cases hk
        have := (h.entry hl).2.1
        omega
    · split at hl
      · cases hl
        have := (h.entry hk).2.1
        omega
      · exact h.once hk hl
  · rcases Nat.lt_or_eq_of_le (show p ≤ q from hle) with hlt | heq
    · obtain ⟨k, hk, hpassed⟩ := h.found hp (show p ≤ s.candidate by omega)
      refine ⟨k, ?_, fun m hm hlt hs => ?_⟩
      · rw [getElem?_emplaced hfree]
        split
        · rename_i heq
          rw [← heq, hfree] at hk
          cases hk
        · exact hk
      · rw [getElem?_emplaced hfree]
        split
        · exact Option.some_ne_none q
        · exact hpassed m (by have : q < m := hm; omega) hlt hs
    · rw [heq]
      refine ⟨q * q, ?_, fun m hm hlt hs => ?_⟩
      · rw [getElem?_emplaced hfree, if_pos rfl]
      · have := hs.1
        omega

/-- **A composite's striker moves on** to the next multiple that nobody has claimed. -/
theorem ready_composite (h : Ready s) (hnext : c = s.candidate + 1)
    (hstruck : s.strikes[c]? = some p) (hm : (s.strikes.erase c)[m]? = none) (hge : c + p ≤ m)
    (hdvd : p ∣ m - (c + p))
    (hpassed : ∀ k, Stride p (c + p) m k → (s.strikes.erase c)[k]? ≠ none) :
    Ready { strikes := (s.strikes.erase c).insertIfNew m p, candidate := c } := by
  obtain ⟨hp, hpc, -, hstrikes⟩ := h.entry hstruck
  have hpos := hp.pos
  have hpm : p ∣ m := by
    have := Nat.dvd_add hdvd (Nat.dvd_add hstrikes.2 (Nat.dvd_refl p))
    rwa [show m - (c + p) + (c + p) = m by omega] at this
  have hread {k q : Nat} (hk : ((s.strikes.erase c).insertIfNew m p)[k]? = some q) :
      m = k ∧ q = p ∨ m ≠ k ∧ c ≠ k ∧ s.strikes[k]? = some q := by
    rw [getElem?_emplaced hm, getElem?_erased] at hk
    split at hk
    · cases hk
      exact Or.inl ⟨by assumption, rfl⟩
    · split at hk
      · cases hk
      · exact Or.inr ⟨by assumption, by assumption, hk⟩
  -- the striker of `c` has no entry besides
  have hother {k q : Nat} (hck : c ≠ k) (hk : s.strikes[k]? = some q) : q ≠ p := by
    rintro rfl
    exact hck (h.once hstruck hk)
  refine ⟨fun {k q} hk => ?_, fun {k l q} hk hl => ?_, fun {q} hq hle => ?_⟩
  · rcases hread hk with ⟨rfl, rfl⟩ | ⟨-, hck, hk⟩
    · exact ⟨hp, by show q ≤ c; omega, by show c < m; omega, by have := hstrikes.1; omega, hpm⟩
    · obtain ⟨h1, h2, h3, h4⟩ := h.entry hk
      exact ⟨h1, by show q ≤ c; omega, by show c < k; omega, h4⟩
  · rcases hread hk with ⟨rfl, rfl⟩ | ⟨-, hck, hk⟩ <;>
      rcases hread hl with ⟨rfl, hqp⟩ | ⟨-, hcl, hl⟩
    · rfl
    · exact absurd rfl (hother hcl hl)
    · exact absurd hqp (hother hck hk)
    · exact h.once hk hl
  · by_cases hqp : q = p
    · subst hqp
      refine ⟨m, ?_, fun k hk hlt hs => ?_⟩
      · rw [getElem?_emplaced hm, if_pos rfl]
      · rw [getElem?_emplaced hm, if_neg (by omega)]
        have hck : c < k := hk
        have hd := Nat.le_of_dvd (by omega) (Nat.dvd_sub hs.2 hstrikes.2)
        exact hpassed k
          ((stride_of_dvd (Nat.dvd_add hstrikes.2 (Nat.dvd_refl q))).mpr ⟨by omega, hlt, hs.2⟩)
    · have hqc : q ≤ s.candidate := by
        rcases Nat.lt_or_eq_of_le (show q ≤ c from hle) with hlt | rfl
        · omega
        · exact absurd hq (not_prime_of_strikes hp hstrikes)
      obtain ⟨k, hk, hall⟩ := h.found hq hqc
      have hck : c ≠ k := by
        rintro rfl
        rw [hstruck] at hk
        cases hk
        exact hqp rfl
      have hkept {j : Nat} (hcj : c ≠ j) (hj : s.strikes[j]? ≠ none) :
          ((s.strikes.erase c).insertIfNew m p)[j]? ≠ none := by
        rw [getElem?_emplaced hm, getElem?_erased, if_neg hcj]
        split
        · exact Option.some_ne_none p
        · exact hj
      refine ⟨k, ?_, fun j hj hlt hs => ?_⟩
      · have hmk : m ≠ k := by
          rintro rfl
          rw [getElem?_erased, if_neg hck, hk] at hm
          cases hm
        rw [getElem?_emplaced hm, getElem?_erased, if_neg hmk, if_neg hck, hk]
      · have hcj : c < j := hj
        exact hkept (by omega) (hall j (by omega) hlt hs)

/-- **A multiple that nobody has claimed**: a power of the striker, which it alone divides. -/
theorem exists_free (h : Ready s) (hstruck : s.strikes[c]? = some p) (hc : 0 < c) :
    ∃ target, (s.strikes.erase c)[target]? = none ∧ c + p ≤ target ∧ p ∣ target - (c + p) ∧
      target ≤ p * c := by
  obtain ⟨hp, -, -, hs⟩ := h.entry hstruck
  have hpow : p ∣ p ^ (Nat.log p c + 1) := dvd_pow_self p (Nat.succ_ne_zero _)
  have hgt : c < p ^ (Nat.log p c + 1) := Nat.lt_pow_succ_log_self hp.one_lt c
  have hle : p ^ (Nat.log p c + 1) ≤ p * c := by
    rw [Nat.pow_succ, Nat.mul_comm]
    exact Nat.mul_le_mul_left p (Nat.pow_log_le_self p (by omega))
  have hstep := Nat.le_of_dvd (by omega) (Nat.dvd_sub hpow hs.2)
  refine ⟨p ^ (Nat.log p c + 1), ?_, by omega, ?_, hle⟩
  · rw [getElem?_erased, if_neg (by omega)]
    cases hk : s.strikes[p ^ (Nat.log p c + 1)]? with
    | none => rfl
    | some q =>
        obtain ⟨hq, -, -, hqs⟩ := h.entry hk
        obtain rfl := Nat.prime_eq_prime_of_dvd_pow hq hp hqs.2
        have := h.once hstruck hk
        omega
  · exact Nat.dvd_sub hpow (Nat.dvd_add hs.2 (Nat.dvd_refl p))

/-! ## 4. A call -/

/-- The next prime after a number. -/
def NextPrime (c q : Nat) : Prop := q.Prime ∧ c < q ∧ ∀ k, c < k → k < q → ¬ k.Prime

/-- A prime comes before the double of a number. -/
theorem exists_nextPrime (hc : c ≠ 0) : ∃ q, NextPrime c q ∧ q ≤ 2 * c := by
  obtain ⟨r, hr, hlt, hle⟩ := Nat.exists_prime_lt_and_le_two_mul c hc
  have hex : ∃ q, q.Prime ∧ c < q := ⟨r, hr, hlt⟩
  classical
  refine ⟨Nat.find hex, ⟨(Nat.find_spec hex).1, (Nat.find_spec hex).2, fun k hck hk hprime => ?_⟩,
    Nat.le_trans (Nat.find_min' hex ⟨hr, hlt⟩) hle⟩
  exact Nat.find_min hex hk ⟨hprime, hck⟩

/-- **The loop of `next`** stops at the next prime, and is ready for another call while the square
    of the prime is a `std::size_t`. -/
theorem nextFrom_spec (hq : q < 2 ^ 33) (hfuel : q * q < fuel) :
    ∀ {steps : Nat} {s : IncrementalSieve}, Ready s → 1 ≤ s.candidate → NextPrime s.candidate q →
      q - s.candidate ≤ steps → ∃ t, nextFrom fuel steps s = .ok (q, t) ∧ t.candidate = q ∧
        (q < 2 ^ 32 → Ready t)
  | 0, s, _, _, hnext, hf => by
      have := hnext.2.1
      omega
  | steps + 1, s, h, hc, hnext, hf => by
      obtain ⟨hprime, hlt, hbetween⟩ := hnext
      have hcand : toSize (s.candidate + 1) = s.candidate + 1 := Nat.mod_eq_of_lt (by omega)
      unfold nextFrom
      dsimp only
      rw [hcand]
      cases hstruck : s.strikes[s.candidate + 1]? with
      | none =>
          have hfound := (struck_iff h hc).mp hstruck
          have heq : q = s.candidate + 1 := by
            by_contra hne
            exact hbetween _ (Nat.lt_succ_self _) (by omega) hfound
          refine ⟨_, by rw [heq], heq.symm, fun hroot => ?_⟩
          have hroots := Nat.mul_lt_mul_of_lt_of_le hroot (Nat.le_of_lt hroot) (by decide)
          have hsquare : toSize (q * q) = q * q := Nat.mod_eq_of_lt (by omega)
          rw [← heq, hsquare]
          exact ready_prime h hprime heq
      | some p =>
          have hcomp : ¬ (s.candidate + 1).Prime := fun hprime => by
            rw [(struck_iff h hc).mpr hprime] at hstruck
            cases hstruck
          have hbefore : s.candidate + 1 < q := by
            rcases Nat.lt_or_eq_of_le hlt with hlt | heq
            · exact hlt
            · rw [show s.candidate + 1 = q from heq] at hcomp
              exact absurd hprime hcomp
          obtain ⟨hp, -, -, hs⟩ := h.entry hstruck
          obtain ⟨target, hfree, hge, hdvd, hle⟩ := exists_free h hstruck (Nat.succ_pos _)
          -- the striker's square is at most the candidate, so that no multiple below wraps
          have hsmall : p < 2 ^ 17 := by
            by_contra hbig
            have := Nat.mul_le_mul (Nat.le_of_not_lt hbig) (Nat.le_of_not_lt hbig)
            have := hs.1
            omega
          have hreach : p * (s.candidate + 1) ≤ 2 ^ 17 * 2 ^ 33 :=
            Nat.mul_le_mul (Nat.le_of_lt hsmall) (by omega)
          have hwalk : p * (s.candidate + 1) ≤ q * q := by
            have := Nat.le_mul_of_pos_left p hp.pos
            have := hs.1
            exact Nat.mul_le_mul (by omega) (by omega)
          have hfirst : toSize (s.candidate + 1 + p) = s.candidate + 1 + p :=
            Nat.mod_eq_of_lt (by omega)
          obtain ⟨m, hm, hmge, hmdvd, hmfree, hpassed⟩ := freeFrom_spec hp.pos hfree
            (by omega) hge hdvd (show target - (s.candidate + 1 + p) < fuel by omega)
          have hready := ready_composite h rfl hstruck hmfree hmge hmdvd hpassed
          obtain ⟨t, ht⟩ := nextFrom_spec hq hfuel hready (Nat.succ_pos _)
            ⟨hprime, hbefore, fun k hk hlt => hbetween k (Nat.lt_of_succ_lt hk) hlt⟩
            (show q - (s.candidate + 1) ≤ steps by omega)
          refine ⟨t, ?_, ht.2⟩
          dsimp only
          rw [hfirst, hm]
          exact ht.1

/-- **`next` returns the next prime** after every prime below `2 ^ 32`. -/
theorem next_spec (h : Ready s) (hc : 1 ≤ s.candidate) (hroot : s.candidate < 2 ^ 32)
    (hfuel : 4 * (s.candidate * s.candidate) < fuel) : ∃ q t, s.next fuel = .ok (q, t) ∧
      t.candidate = q ∧ NextPrime s.candidate q ∧ (q < 2 ^ 32 → Ready t) := by
  obtain ⟨q, hq, hle⟩ := exists_nextPrime (show s.candidate ≠ 0 by omega)
  have hsquare : q * q ≤ 4 * (s.candidate * s.candidate) := by
    have := Nat.mul_le_mul hle hle
    rwa [Nat.mul_mul_mul_comm] at this
  have hlarge := Nat.le_mul_of_pos_left q (Nat.Prime.pos hq.1)
  obtain ⟨t, ht, hcand, hready⟩ := nextFrom_spec (show q < 2 ^ 33 by omega)
    (show q * q < fuel by omega) h hc hq (show q - s.candidate ≤ fuel by omega)
  exact ⟨q, t, ht, hcand, hq, hready⟩

theorem NextPrime.unique {a b : Nat} (ha : NextPrime c a) (hb : NextPrime c b) : a = b := by
  rcases Nat.lt_trichotomy a b with hlt | heq | hgt
  · exact absurd ha.1 (hb.2.2 a ha.2.1 hlt)
  · exact heq
  · exact absurd hb.1 (ha.2.2 b hb.2.1 hgt)

theorem nextPrime_nth (i : Nat) : NextPrime (Nat.nth Nat.Prime i) (Nat.nth Nat.Prime (i + 1)) :=
  ⟨Nat.nth_mem_of_infinite Nat.infinite_setOfPred_prime _,
    Nat.nth_strictMono Nat.infinite_setOfPred_prime (Nat.lt_succ_self i),
    fun _ hgt hlt hprime => Nat.not_lt.mpr (Nat.le_nth_of_lt_nth_succ hlt hprime) hgt⟩

theorem nextPrime_first : NextPrime 1 (Nat.nth Nat.Prime 0) := by
  rw [Nat.nth_prime_zero_eq_two]
  exact ⟨Nat.prime_two, by decide, fun k h1 h2 => by omega⟩

/-- **Calls in a row return the primes in order**, from the next one on. -/
theorem takeFrom_spec (hfuel : 2 ^ 66 ≤ fuel) : ∀ {n i : Nat} {s : IncrementalSieve}, Ready s →
    1 ≤ s.candidate → s.candidate < 2 ^ 32 → NextPrime s.candidate (Nat.nth Nat.Prime i) →
      i + n ≤ Nat.primeCounting' (2 ^ 32) + 1 → ∃ t, s.take fuel n =
        .ok ((List.range' i n).map (Nat.nth Nat.Prime), t)
  | 0, i, s, _, _, _, _, _ => ⟨s, rfl⟩
  | n + 1, i, s, h, hc, hroot, hnext, hcount => by
      have hsquare := Nat.mul_lt_mul_of_lt_of_le hroot (Nat.le_of_lt hroot) (by decide)
      obtain ⟨q, t, ht, hcand, hq, hready⟩ := next_spec h hc hroot
        (show 4 * (s.candidate * s.candidate) < fuel by omega)
      obtain rfl := hq.unique hnext
      unfold take
      rw [ht]
      cases n with
      | zero => exact ⟨t, rfl⟩
      | succ n =>
          have hlt : Nat.nth Nat.Prime i < 2 ^ 32 := by
            refine Nat.nth_lt_of_lt_count (show i < Nat.primeCounting' (2 ^ 32) by omega)
          have hafter : NextPrime t.candidate (Nat.nth Nat.Prime (i + 1)) := by
            rw [hcand]
            exact nextPrime_nth i
          obtain ⟨u, hu⟩ := takeFrom_spec hfuel (hready hlt) (by rw [hcand]; exact hq.1.pos)
            (by rw [hcand]; exact hlt) hafter (show i + 1 + (n + 1) ≤ _ by omega)
          refine ⟨u, ?_⟩
          dsimp only [bind, Except.bind]
          rw [hu, List.range'_succ (n := n + 1), List.map_cons]

/-- **The primes in order**: so many calls of `next` on a new sieve return the first primes, up to
    the first one whose square no `std::size_t` holds. -/
theorem take_primes (hfuel : 2 ^ 66 ≤ fuel) (hcount : n ≤ Nat.primeCounting' (2 ^ 32) + 1) :
    ∃ t, initial.take fuel n = .ok ((List.range n).map (Nat.nth Nat.Prime), t) := by
  rw [List.range_eq_range']
  exact takeFrom_spec hfuel ready_initial (Nat.le_refl 1) (by decide) nextPrime_first (by omega)

theorem take_primes_three : ∃ t, initial.take (2 ^ 66) 3 = .ok ([2, 3, 5], t) := by
  have hcount : Nat.primeCounting' 4 ≤ Nat.primeCounting' (2 ^ 32) :=
    Nat.monotone_primeCounting' (by decide)
  have hfour : Nat.primeCounting' 4 = 2 := by decide
  obtain ⟨t, ht⟩ := take_primes (Nat.le_refl (2 ^ 66)) (show 3 ≤ _ by omega)
  refine ⟨t, ht.trans ?_⟩
  rw [show List.range 3 = [0, 1, 2] from rfl, List.map_cons, List.map_cons, List.map_cons,
    Nat.nth_prime_zero_eq_two, Nat.nth_prime_one_eq_three, Nat.nth_prime_two_eq_five, List.map_nil]

end IncrementalSieve

/-! ## 5. The primes it inserts -/

section Insertion
variable {σ : Type} {X : OrderedSet σ} {bound : Nat} {Good : σ → Prop} {fuel n : Nat}

open IncrementalSieve (Ready NextPrime next_spec)

/-- **The loop of `sift_primes_incremental`**, at a prime just generated. -/
theorem insertBelow_spec (hX : X.Lawful bound Good) (hn : n ≤ bound) (htop : n ≤ 2 ^ 32)
    (hfuel : 4 * (n * n) < fuel) : ∀ {steps p : Nat} {sieve : IncrementalSieve} {s : σ}, Good s →
      sieve.candidate = p → p.Prime → (p < 2 ^ 32 → Ready sieve) → n - p < steps →
        Collected X n p s → ∃ t, insertBelow X fuel n steps p sieve s = .ok t ∧ Good t ∧
          ∀ k, k ∈ X.keys t ↔ k < n ∧ k.Prime
  | 0, p, sieve, s, _, _, _, _, hf, _ => by omega
  | steps + 1, p, sieve, s, hs, hcand, hp, hready, hf, h => by
      unfold insertBelow
      split
      · rename_i hlt
        obtain ⟨t, ht, hgood, hmem⟩ := hX.insert s p hs (by omega)
        have hsquare := Nat.mul_le_mul (Nat.le_of_lt hlt) (Nat.le_of_lt hlt)
        obtain ⟨q, after, hnext, hafter, hq, hagain⟩ := next_spec (hready (by omega))
          (by rw [hcand]; exact hp.pos) (by omega)
          (show 4 * (sieve.candidate * sieve.candidate) < fuel by rw [hcand]; omega)
        rw [hcand] at hq
        obtain ⟨hprime, hgt, hbetween⟩ := hq
        have hcollected : Collected X n q t := by
          intro k
          rw [hmem k, h k]
          constructor
          · rintro (rfl | ⟨h1, h2⟩)
            · exact ⟨hgt, hlt, hp⟩
            · exact ⟨by omega, h2⟩
          · rintro ⟨h1, h2, h3⟩
            by_cases hk : p < k
            · exact absurd h3 (hbetween k hk h1)
            · rcases Nat.lt_or_eq_of_le (Nat.le_of_not_lt hk) with hlt | heq
              · exact Or.inr ⟨hlt, h2, h3⟩
              · exact Or.inl heq
        obtain ⟨u, hu⟩ := insertBelow_spec hX hn htop hfuel hgood hafter hprime
          hagain (show n - q < steps by omega) hcollected
        refine ⟨u, ?_, hu.2⟩
        rw [call_ok ht]
        dsimp only [bind, Except.bind]
        rw [hnext]
        exact hu.1
      · rename_i hge
        refine ⟨s, rfl, hs, fun k => ?_⟩
        rw [h k]
        exact ⟨fun hk => hk.2, fun hk => ⟨by omega, hk⟩⟩

/-- **The incremental sieve returns the primes below its bound.** -/
theorem siftPrimesIncremental_spec (hX : X.Lawful bound Good) (hn : n ≤ bound) (htop : n ≤ 2 ^ 32)
    (hfuel : 4 * (n * n) + 4 < fuel) : ∃ t, siftPrimesIncremental X fuel n = .ok t ∧ Good t ∧
      ∀ k, k ∈ X.keys t ↔ k < n ∧ k.Prime := by
  have hlarge := Nat.le_mul_self n
  obtain ⟨q, sieve, hnext, hcand, hq, hready⟩ := next_spec IncrementalSieve.ready_initial
    (Nat.le_refl 1) (by decide) (show 4 * (1 * 1) < fuel by omega)
  have hcollected : Collected X n q X.empty := by
    intro k
    refine iff_of_false (hX.empty.2 k) ?_
    rintro ⟨h1, -, h3⟩
    exact hq.2.2 k h3.one_lt h1 h3
  obtain ⟨t, ht⟩ := insertBelow_spec hX hn htop (show 4 * (n * n) < fuel by omega)
    hX.empty.1 hcand hq.1 hready (show n - q < fuel by omega) hcollected
  refine ⟨t, ?_, ht.2⟩
  unfold siftPrimesIncremental
  rw [hnext]
  exact ht.1

end Insertion

/-! ## 6. Over the library's sets -/

section Agreement
variable {w v : Nat} {V : Vehicle w} {U : Vehicle v} {mem m : Memory} {fuel n : Nat}

/-- A set that holds the primes below the end reads as their list. -/
theorem keys_eq_primes {bound : Nat} {c : BitBlockContainer V}
    (hX : (librarySet V mem).Lawful bound (InBound bound)) (hc : InBound bound c)
    (hmem : ∀ k, k ∈ (librarySet V mem).keys c ↔ k < n ∧ k.Prime) :
    (librarySet V mem).keys c = (List.range n).filter fun k => k.Prime := by
  refine List.Pairwise.eq_of_mem_iff (hX.sorted c hc) (List.pairwise_lt_range.filter _) fun k => ?_
  rw [hmem k, List.mem_filter, List.mem_range, decide_eq_true_eq]

/-- **The sieves over the library's sets read the primes below their bound**, in order: the two
    bounded ones, the segmented one with a window of any fixed width, and the incremental one while
    the square of every number sifted is a `std::size_t`. -/
theorem sieves_agree (hV : Holds V mem n) (hU : U.hasStaticSize = true) (hpos : 0 < U.extent)
    (htop : n ≤ 2 ^ 63) (hwrap : n + U.extent ≤ 2 ^ 64) (hfuel : 4 * (n * n) + 4 < fuel) :
    (∃ c, siftPrimes0 (librarySet V mem) fuel n = .ok c ∧
      (librarySet V mem).keys c = (List.range n).filter fun k => k.Prime) ∧
    (∃ c, siftPrimes1 (librarySet V mem) fuel n = .ok c ∧
      (librarySet V mem).keys c = (List.range n).filter fun k => k.Prime) ∧
    (∃ c, siftPrimesSegmented (librarySet V mem) (libraryWindow U m) fuel n = .ok c ∧
      (librarySet V mem).keys c = (List.range n).filter fun k => k.Prime) ∧
    (n ≤ 2 ^ 32 → ∃ c, siftPrimesIncremental (librarySet V mem) fuel n = .ok c ∧
      (librarySet V mem).keys c = (List.range n).filter fun k => k.Prime) := by
  have hX := lawful_librarySet hV (by omega)
  have hW : (libraryWindow U m).Lawful _ := lawful_libraryWindow hU
  have hwidth : (libraryWindow U m).width = U.extent := libraryWindow_width hU
  have hlarge := Nat.le_mul_self n
  have hn := Nat.le_refl n
  refine ⟨?_, ?_, ?_, fun hroot => ?_⟩
  · obtain ⟨c, hc, hgood, hmem⟩ := siftPrimes0_spec hX hn htop (show n < fuel by omega)
    exact ⟨c, hc, keys_eq_primes hX hgood hmem⟩
  · obtain ⟨c, hc, hgood, hmem⟩ := siftPrimes0_spec hX hn htop (show n < fuel + 1 by omega)
    exact ⟨c, (siftPrimes1_eq n).trans hc, keys_eq_primes hX hgood hmem⟩
  · obtain ⟨c, hc, hgood, hmem⟩ := siftPrimesSegmented_spec hX hW
      (by rw [hwidth]; exact hpos) hn htop (by rw [hwidth]; exact hwrap) (show n < fuel by omega)
    exact ⟨c, hc, keys_eq_primes hX hgood hmem⟩
  · obtain ⟨c, hc, hgood, hmem⟩ := siftPrimesIncremental_spec hX hn hroot hfuel
    exact ⟨c, hc, keys_eq_primes hX hgood hmem⟩

end Agreement

/-- A vector of bytes holds the keys below sixteen. -/
theorem holds_bytes {n : Nat} (hn : n ≤ 16) : Holds (byteVector false) .ample n :=
  ⟨by decide, fun _ => BitBlockContainer.hasRoom_byteVector hn, nofun⟩

/-- The primes below twelve, sifted in one window of 256. -/
theorem sieves_agree_twelve : ∃ c,
    siftPrimesSegmented (librarySet (byteVector false) .ample) (libraryWindow fixedBytes .ample)
      1000 12 = .ok c ∧
    (librarySet (byteVector false) .ample).keys c = [2, 3, 5, 7, 11] := by
  obtain ⟨-, -, ⟨c, hc, hkeys⟩, -⟩ := sieves_agree (n := 12) (U := fixedBytes) (m := .ample)
    (holds_bytes (by decide)) rfl (by decide) (by decide) (by decide)
    (show 4 * (12 * 12) + 4 < 1000 by decide)
  refine ⟨c, hc, hkeys.trans ?_⟩
  decide

end XstdBits.Opt
