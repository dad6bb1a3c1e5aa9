/-
  File: XstdBits/Opt/Sieve.lean
  Subject: `sieve.hpp`, the sieves that materialize every candidate, and the segmented one.

  * the numbers are `std::size_t` and wrap; every loop carries fuel, and `Stop` says how a program
    may fail to return: what the set throws, a division by zero, or fuel that ran out.
  * `strike` is the walk over the multiples of one prime (`strike_spec`). `Sieved q` is what holds
    of the candidates once the numbers below `q` are done; `sieved_strike` is one step of it, and
    `siftAll0_spec` carries it over every candidate up to the root.
  * the second sieve takes its first stride before it tests, and stops by itself: it is the first
    one with a stride to spare (`siftAll1_eq`).
  * a segment of the segmented sieve leaves the primes below its end (`segments_spec`).
-/
import XstdBits.Lib.Sieve
import XstdBits.Opt.OrderedSet
import Mathlib.Data.Nat.Prime.Basic

namespace XstdBits.Opt

/-! ## 1. How a program stops -/

/-- What keeps a program from returning. -/
inductive Stop where
  | threw (e : Exn)
  | dividedByZero
  | outOfFuel
  deriving DecidableEq, Repr

/-- A call of the set's inside a program. -/
def call {α : Type} (x : Except Exn α) : Except Stop α := x.mapError .threw

theorem call_ok {α : Type} {x : Except Exn α} {a : α} (h : x = .ok a) : call x = .ok a := by
  rw [h]
  rfl

/-- `a / b` of two `std::size_t`. -/
def divide (a b : Nat) : Except Stop Nat := if b = 0 then .error .dividedByZero else .ok (a / b)

/-! ## 2. The two bounded sieves -/

section Programs
variable {σ τ : Type} (X : OrderedSet σ) (W : FixedSet τ) (fuel : Nat)

/-- `for (; m < n; m += p)` over `erase(m - lo)`, which is `sift` where `lo` is zero. -/
def strike (lo n p : Nat) : Nat → Nat → σ → Except Stop σ
  | 0, _, _ => .error .outOfFuel
  | fuel + 1, m, s =>
      if m < n then strike lo n p fuel (toSize (m + p)) (X.erase (toSize (m + 2 ^ 64 - lo)) s)
      else .ok s

/-- `generate_candidates`: the numbers from 2 on, none of them where there is no room for two. -/
def generateCandidates (n : Nat) : Except Stop σ :=
  call (X.fromRange (List.range' 2 (max n 2 - 2)))

/-- The loop of `sift_primes0`, over the candidates that `take_while` lets through. -/
def siftAll0 (n : Nat) : List Nat → σ → Except Stop σ
  | [], s => .ok s
  | p :: ps, s =>
      if X.contains p s then do
        let t ← strike X 0 n p fuel (toSize (p * p)) s
        siftAll0 n ps t
      else siftAll0 n ps s

def siftPrimes0 (n : Nat) : Except Stop σ := do
  let primes ← generateCandidates X n
  let candidates ← call (X.copy primes)
  siftAll0 X fuel n ((X.keys candidates).takeWhile fun x => toSize (x * x) < n) primes

/-- The loop of `sift_primes1`, which breaks at the first square past the end. -/
def siftAll1 (n : Nat) : List Nat → σ → Except Stop σ
  | [], s => .ok s
  | p :: ps, s =>
      let m := toSize (p * p)
      if m < n then
        if X.contains p s then do
          -- `do … while`: once before the test
          let t ← strike X 0 n p fuel (toSize (m + p)) (X.erase m s)
          siftAll1 n ps t
        else siftAll1 n ps s
      else .ok s

def siftPrimes1 (n : Nat) : Except Stop σ := do
  let primes ← generateCandidates X n
  let candidates ← call (X.copy primes)
  siftAll1 X fuel n (X.keys candidates) primes

/-! ## 3. The segmented sieve -/

/-- The loop of `isqrt`. -/
def isqrtFrom (n : Nat) : Nat → Nat → Nat → Except Stop Nat
  | 0, _, _ => .error .outOfFuel
  | fuel + 1, x, y =>
      if y < x then do
        let quotient ← divide n y
        isqrtFrom n fuel y (toSize (y + quotient) / 2)
      else .ok x

def isqrt (n : Nat) : Except Stop Nat := isqrtFrom n fuel n (toSize (n + 1) / 2)

/-- `for (auto const p : …) primes.insert(p)`. -/
def insertAll : List Nat → σ → Except Stop σ
  | [], s => .ok s
  | p :: ps, s => do
      let t ← call (X.insert p s)
      insertAll ps t

/-- The base primes strike the window of `[lo, hi)`, each from its first multiple there. -/
def strikeBase (lo hi : Nat) : List Nat → τ → Except Stop τ
  | [], window => .ok window
  | p :: ps, window => do
      let quotient ← divide (toSize (lo + p - 1)) p
      let first := max (toSize (p * p)) (toSize (quotient * p))
      let struck ← strike W.toOrderedSet lo hi p fuel first window
      strikeBase lo hi ps struck

/-- What the window still holds below `hi` goes into the primes. -/
def collect (lo hi : Nat) : List Nat → σ → Except Stop σ
  | [], s => .ok s
  | offset :: offsets, s =>
      if hi ≤ toSize (lo + offset) then .ok s
      else do
        let t ← call (X.insert (toSize (lo + offset)) s)
        collect lo hi offsets t

/-- The segments from `lo` on. -/
def segments (n : Nat) (base : List Nat) : Nat → Nat → σ → Except Stop σ
  | 0, _, _ => .error .outOfFuel
  | steps + 1, lo, primes =>
      if lo < n then do
        let hi := min (toSize (lo + W.width)) n
        let window ← strikeBase W fuel lo hi base W.full
        let more ← collect X lo hi (W.keys window) primes
        segments n base steps (toSize (lo + W.width)) more
      else .ok primes

def siftPrimesSegmented (n : Nat) : Except Stop σ :=
  if n ≤ 2 then .ok X.empty
  else do
    let root ← isqrt fuel (n - 1)
    let baseBound := min (toSize (root + 1)) n
    let base ← siftPrimes1 X fuel baseBound
    let primes ← insertAll X (X.keys base) X.empty
    segments X W fuel n (X.keys base) fuel baseBound primes

end Programs

/-! ## 4. One walk over the multiples -/

section Walks
variable {σ : Type} {X : OrderedSet σ} {bound : Nat} {Good : σ → Prop} {fuel lo m n p q : Nat}
  {s : σ}

/-- **What one walk strikes**, where no number of it wraps and every offset is below the bound. -/
theorem strike_spec (hX : X.Lawful bound Good) (hp : 0 < p) (hn : n ≤ lo + bound)
    (hwrap : n + p ≤ 2 ^ 64) :
    ∀ {fuel m : Nat} {s : σ}, Good s → lo ≤ m → n - m < fuel →
      ∃ t, strike X lo n p fuel m s = .ok t ∧ Good t ∧
        ∀ k, k ∈ X.keys t ↔ k ∈ X.keys s ∧ ¬ Stride p m n (lo + k)
  | 0, m, s, hs, hm, hf => by omega
  | fuel + 1, m, s, hs, hm, hf => by
      unfold strike
      split
      · rename_i hlt
        have hoff : toSize (m + 2 ^ 64 - lo) = m - lo := by
          unfold toSize
          omega
        have hnext : toSize (m + p) = m + p := Nat.mod_eq_of_lt (by omega)
        obtain ⟨hgood, herase⟩ := hX.erase s (m - lo) hs (by omega)
        obtain ⟨t, ht, htgood, hmem⟩ := strike_spec hX hp hn hwrap hgood
          (show lo ≤ m + p by omega) (show n - (m + p) < fuel by omega)
        rw [hoff, hnext]
        refine ⟨t, ht, htgood, fun k => ?_⟩
        rw [hmem k, herase k, stride_step hp hlt]
        have hk : lo + k = m ↔ k = m - lo := by omega
        rw [hk]
        tauto
      · rename_i hge
        refine ⟨s, rfl, hs, fun k => ⟨fun hk => ⟨hk, ?_⟩, fun hk => hk.1⟩⟩
        rintro ⟨h1, h2, -⟩
        omega

/-- **What is left of the candidates** once the numbers below `q` are done. -/
def Sieved (X : OrderedSet σ) (n q : Nat) (s : σ) : Prop :=
  ∀ k, k ∈ X.keys s ↔ 2 ≤ k ∧ k < n ∧ Unstruck q k

/-- The walk from the square of a number leaves what that number does not strike. -/
theorem sieved_strike (hX : X.Lawful bound Good) (hs : Good s) (hn : n ≤ bound) (htop : n ≤ 2 ^ 63)
    (hfuel : n < fuel) (hq : 2 ≤ q) (hlt : q * q < n) (h : Sieved X n q s) (hprime : q.Prime) :
    ∃ t, strike X 0 n q fuel (toSize (q * q)) s = .ok t ∧ Good t ∧ Sieved X n (q + 1) t := by
  have hsquare : toSize (q * q) = q * q := Nat.mod_eq_of_lt (by omega)
  have hle : q ≤ q * q := Nat.le_mul_of_pos_left q (by omega)
  obtain ⟨t, ht, hgood, hmem⟩ := strike_spec hX (show 0 < q by omega)
    (show n ≤ 0 + bound by omega) (by omega) hs (Nat.zero_le (q * q))
    (show n - q * q < fuel by omega)
  rw [hsquare]
  refine ⟨t, ht, hgood, fun k => ?_⟩
  rw [hmem k, h k, unstruck_succ, stride_of_dvd (Nat.dvd_mul_left q q), Nat.zero_add]
  unfold Strikes
  tauto

/-- A composite takes nothing away. -/
theorem sieved_composite (h : Sieved X n q s) (hprime : ¬ q.Prime) : Sieved X n (q + 1) s := by
  intro k
  rw [h k, unstruck_succ]
  tauto

/-- **A candidate is still there exactly if it is prime.** -/
theorem contains_iff (hX : X.Lawful bound Good) (hs : Good s) (hn : n ≤ bound) (hq : 2 ≤ q)
    (hlt : q < n) (h : Sieved X n q s) : X.contains q s = true ↔ q.Prime := by
  rw [hX.contains s q hs (by omega), h q, unstruck_self hq]
  tauto

/-- Nothing is left to strike once the squares are past the end. -/
theorem sieved_done (h : Sieved X n q s) (hend : n ≤ q * q) (k : Nat) :
    k ∈ X.keys s ↔ k < n ∧ k.Prime := by
  rw [h k]
  constructor
  · rintro ⟨h2, hlt, hun⟩
    exact ⟨hlt, (unstruck_iff_prime h2 (by omega)).mp hun⟩
  · rintro ⟨hlt, hprime⟩
    exact ⟨hprime.two_le, hlt, (unstruck_iff_prime hprime.two_le (by omega)).mpr hprime⟩

/-- The squares below the end are those of numbers below `2 ^ 32`. -/
theorem lt_root (htop : n ≤ 2 ^ 63) (hlt : q * q < n) : q + 1 < 2 ^ 32 := by
  by_contra hge
  have := Nat.mul_le_mul (show 2 ^ 32 - 1 ≤ q by omega) (show 2 ^ 32 - 1 ≤ q by omega)
  omega

/-- **The first sieve's loop**, from the candidate it has come to. -/
theorem siftAll0_spec (hX : X.Lawful bound Good) (hn : n ≤ bound) (htop : n ≤ 2 ^ 63)
    (hfuel : n < fuel) : ∀ {len q : Nat} {s : σ}, Good s → 2 ≤ q → q < 2 ^ 32 → q + len = max n 2 →
      Sieved X n q s → ∃ t,
        siftAll0 X fuel n ((List.range' q len).takeWhile fun x => toSize (x * x) < n) s = .ok t ∧
          Good t ∧ ∀ k, k ∈ X.keys t ↔ k < n ∧ k.Prime
  | 0, q, s, hs, hq, hroot, hlen, h => by
      have := Nat.mul_le_mul_right q hq
      exact ⟨s, rfl, hs, sieved_done h (by omega)⟩
  | len + 1, q, s, hs, hq, hroot, hlen, h => by
      have hroots := Nat.mul_lt_mul_of_lt_of_le hroot (Nat.le_of_lt hroot) (by decide)
      have hsquare : toSize (q * q) = q * q := Nat.mod_eq_of_lt (by omega)
      have hle : q ≤ q * q := Nat.le_mul_of_pos_left q (by omega)
      rw [List.range'_succ, List.takeWhile_cons, hsquare]
      by_cases hlt : q * q < n
      · rw [if_pos (decide_eq_true hlt)]
        unfold siftAll0
        have hnext {t : σ} (ht : Good t) (hsieved : Sieved X n (q + 1) t) :=
          siftAll0_spec hX hn htop hfuel ht (Nat.le_succ_of_le hq) (lt_root htop hlt)
            (show q + 1 + len = max n 2 by omega) hsieved
        have hprime := contains_iff hX hs hn hq (by omega) h
        split
        · rename_i hin
          obtain ⟨t, ht, hgood, hsieved⟩ :=
            sieved_strike hX hs hn htop hfuel hq hlt h (hprime.mp hin)
          rw [ht]
          exact hnext hgood hsieved
        · rename_i hout
          exact hnext hs (sieved_composite h fun hq => hout (hprime.mpr hq))
      · rw [if_neg (by simpa using hlt)]
        exact ⟨s, rfl, hs, sieved_done h (by omega)⟩

/-- **The second sieve is the first** with a stride to spare: it strikes once before it tests, and
    breaks where the first one's candidates end. -/
theorem siftAll1_eq (n : Nat) : ∀ (ps : List Nat) (s : σ), siftAll1 X fuel n ps s =
    siftAll0 X (fuel + 1) n (ps.takeWhile fun x => toSize (x * x) < n) s
  | [], s => rfl
  | p :: ps, s => by
      unfold siftAll1
      dsimp only
      rw [List.takeWhile_cons]
      by_cases hlt : toSize (p * p) < n
      · rw [if_pos hlt, if_pos (decide_eq_true hlt)]
        unfold siftAll0
        have hstrike : strike X 0 n p (fuel + 1) (toSize (p * p)) s =
            strike X 0 n p fuel (toSize (toSize (p * p) + p)) (X.erase (toSize (p * p)) s) := by
          have hoff : toSize (toSize (p * p) + 2 ^ 64 - 0) = toSize (p * p) := by
            unfold toSize
            omega
          rw [strike, if_pos hlt, hoff]
        simp only [hstrike, siftAll1_eq n ps]
      · rw [if_neg hlt, if_neg (by simpa using hlt)]
        rfl

/-- The candidates are all there before the first is looked at. -/
theorem candidates_spec (hX : X.Lawful bound Good) (hn : n ≤ bound) :
    ∃ s, generateCandidates X n = .ok s ∧ Good s ∧ Sieved X n 2 s := by
  have hlt (k : Nat) (hk : k ∈ List.range' 2 (max n 2 - 2)) : k < bound := by
    rw [List.mem_range'_1] at hk
    omega
  obtain ⟨s, hs, hgood, hmem⟩ := hX.fromRange _ hlt
  refine ⟨s, call_ok hs, hgood, fun k => ?_⟩
  rw [hmem k, List.mem_range'_1]
  exact ⟨fun hk => ⟨hk.1, by omega, unstruck_two⟩, fun hk => by omega⟩

/-- **The first sieve returns the primes below its bound.** -/
theorem siftPrimes0_spec (hX : X.Lawful bound Good) (hn : n ≤ bound) (htop : n ≤ 2 ^ 63)
    (hfuel : n < fuel) : ∃ t, siftPrimes0 X fuel n = .ok t ∧ Good t ∧
      ∀ k, k ∈ X.keys t ↔ k < n ∧ k.Prime := by
  obtain ⟨s, hs, hgood, hsieved⟩ := candidates_spec hX hn
  obtain ⟨c, hc, hcgood, hmem⟩ := hX.copy s hgood
  have hlist : X.keys c = List.range' 2 (max n 2 - 2) := by
    refine List.Pairwise.eq_of_mem_iff (hX.sorted c hcgood) List.pairwise_lt_range' fun k => ?_
    rw [hmem k, hsieved k, List.mem_range'_1]
    exact ⟨fun hk => by omega, fun hk => ⟨hk.1, by omega, unstruck_two⟩⟩
  obtain ⟨t, ht⟩ := siftAll0_spec hX hn htop hfuel hgood (Nat.le_refl 2)
    (by decide) (show 2 + (max n 2 - 2) = max n 2 by omega) hsieved
  unfold siftPrimes0
  rw [hs]
  refine ⟨t, ?_, ht.2⟩
  show (call (X.copy s) >>= _) = _
  rw [call_ok hc]
  show siftAll0 X fuel n _ s = _
  rw [hlist]
  exact ht.1

/-- **The second sieve is the first one**, its loop stopping by itself. -/
theorem siftPrimes1_eq (n : Nat) : siftPrimes1 X fuel n = siftPrimes0 X (fuel + 1) n := by
  unfold siftPrimes1 siftPrimes0
  simp only [siftAll1_eq]

end Walks

/-! ## 5. The integer square root -/

section Root
variable {fuel n x y : Nat}

/-- A number and its quotient add up to no more than the two ends do. -/
theorem add_div_le (hy : 0 < y) (hle : y ≤ n) : y + n / y ≤ n + 1 := by
  have hq : 0 < n / y := Nat.div_pos hle hy
  have hmul := Nat.div_mul_le_self n y
  obtain ⟨a, rfl⟩ := Nat.exists_eq_add_of_lt hy
  obtain ⟨b, hb⟩ := Nat.exists_eq_add_of_lt hq
  rw [hb] at hmul ⊢
  rw [Nat.zero_add, Nat.zero_add, Nat.add_mul, Nat.one_mul, Nat.mul_add, Nat.mul_one] at hmul
  omega

/-- **The loop of `isqrt`**: its second number is the step from the first, neither of them below the
    root. -/
theorem isqrtFrom_spec (hn : n < 2 ^ 64 - 1) : ∀ {fuel x : Nat}, x ≤ n → Nat.sqrt n ≤ x →
    x < fuel → isqrtFrom n fuel x (newton n x) = .ok (Nat.sqrt n)
  | 0, x, _, _, hf => by omega
  | fuel + 1, x, hx, hroot, hf => by
      unfold isqrtFrom
      split
      · rename_i hlt
        have hpos : 0 < newton n x := by
          rcases Nat.eq_zero_or_pos n with rfl | hn
          · omega
          · exact Nat.lt_of_lt_of_le (Nat.sqrt_pos.mpr hn) (sqrt_le_newton (by omega))
        have hge : Nat.sqrt n ≤ newton n x := sqrt_le_newton (by omega)
        have hsum : toSize (newton n x + n / newton n x) = newton n x + n / newton n x := by
          have := add_div_le hpos (Nat.le_trans (Nat.le_of_lt hlt) hx)
          exact Nat.mod_eq_of_lt (by omega)
        unfold divide
        rw [if_neg (by omega)]
        show isqrtFrom n fuel _ (toSize (newton n x + n / newton n x) / 2) = _
        rw [hsum]
        exact isqrtFrom_spec hn (by omega) hge (by omega)
      · rename_i hge
        have heq : x = Nat.sqrt n := by
          by_contra hne
          exact hge (newton_lt (by omega))
        rw [heq]

/-- **The square root is exact** below the largest `std::size_t`, where the first sum wraps and the
    loop divides by zero. -/
theorem isqrt_exact (hn : n < 2 ^ 64) (hfuel : n < fuel) : isqrt fuel n =
    if n = 2 ^ 64 - 1 then .error .dividedByZero else .ok (Nat.sqrt n) := by
  unfold isqrt
  split
  · rename_i htop
    obtain ⟨fuel, rfl⟩ := Nat.exists_eq_add_of_lt hfuel
    subst htop
    unfold isqrtFrom toSize divide
    rw [if_pos (by decide), if_pos (by decide)]
    rfl
  · rename_i hne
    have hfirst : toSize (n + 1) / 2 = newton n n := by
      unfold toSize newton
      rcases Nat.eq_zero_or_pos n with rfl | hpos
      · rfl
      · rw [Nat.div_self hpos, Nat.mod_eq_of_lt (by omega)]
    rw [hfirst]
    exact isqrtFrom_spec (by omega) (Nat.le_refl n) (Nat.sqrt_le_self n) hfuel

theorem isqrt_exact_eleven : isqrt 12 11 = .ok 3 := by
  have h := isqrt_exact (show 11 < 2 ^ 64 by decide) (show 11 < 12 by decide)
  rw [if_neg (by decide)] at h
  exact h.trans (congrArg Except.ok (Nat.eq_sqrt.mpr ⟨by decide, by decide⟩).symm)

end Root

/-! ## 6. The segments -/

section Segments
variable {σ τ : Type} {X : OrderedSet σ} {W : FixedSet τ} {bound : Nat} {Good : σ → Prop}
  {Clean : τ → Prop} {fuel lo hi n B : Nat} {base : List Nat}

theorem insertAll_spec (hX : X.Lawful bound Good) : ∀ {ps : List Nat} {s : σ}, Good s →
    (∀ p ∈ ps, p < bound) → ∃ t, insertAll X ps s = .ok t ∧ Good t ∧
      ∀ k, k ∈ X.keys t ↔ k ∈ ps ∨ k ∈ X.keys s
  | [], s, hs, _ => ⟨s, rfl, hs, fun k => by simp⟩
  | p :: ps, s, hs, hps => by
      obtain ⟨t, ht, hgood, hmem⟩ := hX.insert s p hs (hps p List.mem_cons_self)
      obtain ⟨u, hu, hu', hin⟩ := insertAll_spec hX hgood fun q hq =>
        hps q (List.mem_cons_of_mem _ hq)
      refine ⟨u, ?_, hu', fun k => ?_⟩
      · unfold insertAll
        rw [call_ok ht]
        exact hu
      · rw [hin k, hmem k, List.mem_cons]
        tauto

/-- **The base primes leave what none of them strikes**, as far as the segment goes. -/
theorem strikeBase_spec (hW : W.Lawful Clean) (hhi : hi ≤ lo + W.width) (htop : hi ≤ 2 ^ 63)
    (hlo : lo ≤ 2 ^ 63) (hfuel : hi < fuel) : ∀ {ps : List Nat} {window : τ}, Clean window →
      (∀ p ∈ ps, 0 < p ∧ p < 2 ^ 32) → ∃ t, strikeBase W fuel lo hi ps window = .ok t ∧ Clean t ∧
        ∀ k, k ∈ W.keys t ↔
          k ∈ W.keys window ∧ ∀ p ∈ ps, lo + k < hi → ¬ Strikes p (lo + k)
  | [], window, hc, _ => ⟨window, rfl, hc, fun k => by simp⟩
  | p :: ps, window, hc, hps => by
      obtain ⟨hpos, hroot⟩ := hps p List.mem_cons_self
      have hroots := Nat.mul_lt_mul_of_lt_of_le hroot (Nat.le_of_lt hroot) (by decide)
      have hsquare : toSize (p * p) = p * p := Nat.mod_eq_of_lt (by omega)
      have hsum : toSize (lo + p - 1) = lo + p - 1 := Nat.mod_eq_of_lt (by omega)
      have hround : (lo + p - 1) / p * p ≤ lo + p - 1 := Nat.div_mul_le_self _ _
      have hfirst : toSize ((lo + p - 1) / p * p) = (lo + p - 1) / p * p :=
        Nat.mod_eq_of_lt (by omega)
      obtain ⟨hdvd, hge, hleast⟩ := roundUp_spec hpos lo
      have hmultiple : p ∣ max (p * p) ((lo + p - 1) / p * p) := by
        rcases max_choice (p * p) ((lo + p - 1) / p * p) with h | h
        · rw [h]
          exact Nat.dvd_mul_left p p
        · rw [h]
          exact hdvd
      obtain ⟨t, ht, hclean, hmem⟩ := strike_spec hW.set hpos hhi (by omega) hc
        (show lo ≤ max (p * p) ((lo + p - 1) / p * p) by omega)
        (show hi - max (p * p) ((lo + p - 1) / p * p) < fuel by omega)
      obtain ⟨u, hu, hu', hin⟩ := strikeBase_spec hW hhi htop hlo hfuel hclean fun q hq =>
        hps q (List.mem_cons_of_mem _ hq)
      refine ⟨u, ?_, hu', fun k => ?_⟩
      · unfold strikeBase divide
        rw [if_neg (by omega)]
        show (strike _ lo hi p fuel (max (toSize (p * p)) (toSize (toSize (lo + p - 1) / p * p)))
          window >>= _) = _
        rw [hsum, hsquare, hfirst, ht]
        exact hu
      · rw [hin k, hmem k, stride_of_dvd hmultiple, List.forall_mem_cons, and_assoc]
        refine and_congr_right fun _ => and_congr_left fun _ => ?_
        have hreach : p ∣ lo + k →
            (max (p * p) ((lo + p - 1) / p * p) ≤ lo + k ↔ p * p ≤ lo + k) := fun hd => by
          have := hleast (lo + k) (Nat.le_add_right lo k) hd
          omega
        unfold Strikes
        tauto

/-- **The window's survivors below the end of the segment go in**, and no others: they come in
    order, so that the first one past the end is where the loop breaks. -/
theorem collect_spec (hX : X.Lawful bound Good) (hhi : hi ≤ bound) (hwrap : lo + W.width ≤ 2 ^ 64) :
    ∀ {offsets : List Nat} {s : σ}, Good s → offsets.Pairwise (· < ·) →
      (∀ o ∈ offsets, o < W.width) → ∃ t, collect X lo hi offsets s = .ok t ∧ Good t ∧
        ∀ k, k ∈ X.keys t ↔ k ∈ X.keys s ∨ k < hi ∧ lo ≤ k ∧ k - lo ∈ offsets
  | [], s, hs, _, _ => ⟨s, rfl, hs, fun k => by simp⟩
  | o :: os, s, hs, hsorted, hin => by
      rw [List.pairwise_cons] at hsorted
      have ho : toSize (lo + o) = lo + o := by
        have := hin o List.mem_cons_self
        exact Nat.mod_eq_of_lt (by omega)
      unfold collect
      rw [ho]
      split
      · rename_i hpast
        refine ⟨s, rfl, hs, fun k => ⟨Or.inl, fun hk => hk.resolve_right ?_⟩⟩
        rintro ⟨hlt, hge, hmem⟩
        rcases List.mem_cons.mp hmem with he | hmem
        · omega
        · have := hsorted.1 _ hmem
          omega
      · rename_i hbefore
        obtain ⟨t, ht, hgood, hmem⟩ := hX.insert s (lo + o) hs (by omega)
        obtain ⟨u, hu, hu', hcollected⟩ := collect_spec hX hhi hwrap hgood hsorted.2 fun q hq =>
          hin q (List.mem_cons_of_mem _ hq)
        refine ⟨u, ?_, hu', fun k => ?_⟩
        · rw [call_ok ht]
          exact hu
        · rw [hcollected k, hmem k, List.mem_cons]
          have hk : k < hi ∧ lo ≤ k ∧ k - lo = o ↔ k = lo + o := by omega
          rw [← hk]
          tauto

/-- **What is collected so far** when a segment begins at `lo`. -/
def Collected (X : OrderedSet σ) (n lo : Nat) (s : σ) : Prop :=
  ∀ k, k ∈ X.keys s ↔ k < lo ∧ k < n ∧ k.Prime

/-- **One segment after the other** collects every prime below the end. -/
theorem segments_spec (hX : X.Lawful bound Good) (hW : W.Lawful Clean) (hpos : 0 < W.width)
    (hn : n ≤ bound) (htop : n ≤ 2 ^ 63) (hwrap : n + W.width ≤ 2 ^ 64) (hfuel : n < fuel)
    (hbase : ∀ p, p ∈ base ↔ p < B ∧ p.Prime) (hroot : B < 2 ^ 32) (hsquare : n ≤ B * B) :
    ∀ {steps lo : Nat} {s : σ}, Good s → 2 ≤ lo → n - lo < steps → Collected X n lo s →
      ∃ t, segments X W fuel n base steps lo s = .ok t ∧ Good t ∧
        ∀ k, k ∈ X.keys t ↔ k < n ∧ k.Prime
  | 0, lo, s, _, _, hf, _ => by omega
  | steps + 1, lo, s, hs, h2, hf, h => by
      unfold segments
      split
      · rename_i hlt
        have hnext : toSize (lo + W.width) = lo + W.width := Nat.mod_eq_of_lt (by omega)
        have hbound (p : Nat) (hp : p ∈ base) : 0 < p ∧ p < 2 ^ 32 := by
          obtain ⟨hpB, hprime⟩ := (hbase p).mp hp
          exact ⟨hprime.pos, by omega⟩
        obtain ⟨window, hwin, hclean, hleft⟩ := strikeBase_spec hW
          (show min (lo + W.width) n ≤ lo + W.width by omega) (by omega) (by omega)
          (show min (lo + W.width) n < fuel by omega) hW.full.1 hbound
        have hwidth (o : Nat) (ho : o ∈ W.keys window) : o < W.width :=
          (hW.full.2 o).mp ((hleft o).mp ho).1
        obtain ⟨more, hmore, hgood, hmem⟩ := collect_spec hX
          (show min (lo + W.width) n ≤ bound by omega) (show lo + W.width ≤ 2 ^ 64 by omega) hs
          (hW.set.sorted _ hclean) hwidth
        have hcollected : Collected X n (lo + W.width) more := by
          intro k
          rw [hmem k, h k, hleft, hW.full.2]
          by_cases hk : lo ≤ k ∧ k < lo + W.width ∧ k < n
          · have hprime : (∀ p ∈ base, ¬ Strikes p k) ↔ k.Prime := by
              rw [← unstruck_iff_prime (q := B) (by omega) (by omega)]
              unfold Unstruck
              simp only [hbase, and_imp]
              exact ⟨fun hall r hr hlt => hall r hlt hr, fun hall r hlt hr => hall r hr hlt⟩
            have hoff : lo + (k - lo) = k := by omega
            rw [hoff, ← hprime]
            simp only [show k < min (lo + W.width) n by omega, forall_true_left]
            simp only [hk, show ¬ k < lo by omega, show k - lo < W.width by omega, true_and,
              false_and, false_or]
          · constructor
            · rintro (⟨h1, h2⟩ | ⟨h1, h2, -⟩)
              · exact ⟨by omega, h2⟩
              · omega
            · rintro ⟨h1, h2, h3⟩
              exact Or.inl ⟨by omega, h2, h3⟩
        obtain ⟨t, ht⟩ := segments_spec hX hW hpos hn htop hwrap hfuel hbase hroot hsquare hgood
          (show 2 ≤ lo + W.width by omega) (show n - (lo + W.width) < steps by omega) hcollected
        refine ⟨t, ?_, ht.2⟩
        dsimp only
        rw [hnext, hwin]
        show (collect X lo (min (lo + W.width) n) (W.keys window) s >>= _) = _
        rw [hmore]
        exact ht.1
      · rename_i hge
        refine ⟨s, rfl, hs, fun k => ?_⟩
        rw [h k]
        exact ⟨fun hk => hk.2, fun hk => ⟨by omega, hk⟩⟩

/-- **The segmented sieve returns the primes below its bound.** -/
theorem siftPrimesSegmented_spec (hX : X.Lawful bound Good) (hW : W.Lawful Clean)
    (hpos : 0 < W.width) (hn : n ≤ bound) (htop : n ≤ 2 ^ 63) (hwrap : n + W.width ≤ 2 ^ 64)
    (hfuel : n < fuel) : ∃ t, siftPrimesSegmented X W fuel n = .ok t ∧ Good t ∧
      ∀ k, k ∈ X.keys t ↔ k < n ∧ k.Prime := by
  unfold siftPrimesSegmented
  split
  · rename_i hle
    refine ⟨X.empty, rfl, hX.empty.1, fun k => iff_of_false (hX.empty.2 k) ?_⟩
    rintro ⟨hlt, hprime⟩
    have := hprime.two_le
    omega
  · rename_i hgt
    have hle := Nat.sqrt_le (n - 1)
    have hsucc := Nat.lt_succ_sqrt (n - 1)
    have hpos1 : 0 < Nat.sqrt (n - 1) := Nat.sqrt_pos.mpr (by omega)
    have hroot : Nat.sqrt (n - 1) + 1 < 2 ^ 32 := lt_root htop (by omega)
    have hsize : toSize (Nat.sqrt (n - 1) + 1) = Nat.sqrt (n - 1) + 1 :=
      Nat.mod_eq_of_lt (by omega)
    have hisqrt : isqrt fuel (n - 1) = .ok (Nat.sqrt (n - 1)) := by
      rw [isqrt_exact (by omega) (by omega), if_neg (by omega)]
    obtain ⟨base, hb, hbgood, hbase⟩ := siftPrimes0_spec
      (n := min (Nat.sqrt (n - 1) + 1) n) hX (by omega) (by omega)
      (show min (Nat.sqrt (n - 1) + 1) n < fuel + 1 by omega)
    have hsmall (p : Nat) (hp : p ∈ X.keys base) : p < bound := by
      have := ((hbase p).mp hp).1
      omega
    obtain ⟨primes, hp, hpgood, hmem⟩ := insertAll_spec hX hX.empty.1 hsmall
    have hsquare : n ≤ min (Nat.sqrt (n - 1) + 1) n * min (Nat.sqrt (n - 1) + 1) n := by
      rcases min_choice (Nat.sqrt (n - 1) + 1) n with h | h
      · rw [h]
        exact Nat.le_of_pred_lt hsucc
      · rw [h]
        exact Nat.le_mul_of_pos_left n (by omega)
    obtain ⟨t, ht⟩ := segments_spec hX hW hpos hn htop hwrap hfuel hbase
      (by omega) hsquare hpgood (show 2 ≤ min (Nat.sqrt (n - 1) + 1) n by omega)
      (show n - min (Nat.sqrt (n - 1) + 1) n < fuel by omega) fun k => by
        rw [hmem k, hbase k]
        refine ⟨fun hk => ?_, fun hk => Or.inl ⟨hk.1, hk.2.2⟩⟩
        have hk := hk.resolve_right (hX.empty.2 k)
        exact ⟨hk.1, by omega, hk.2⟩
    refine ⟨t, ?_, ht.2⟩
    rw [hisqrt]
    show (siftPrimes1 X fuel (min (toSize (Nat.sqrt (n - 1) + 1)) n) >>= _) = _
    rw [siftPrimes1_eq, hsize, hb]
    show (insertAll X (X.keys base) X.empty >>= _) = _
    rw [hp]
    exact ht.1

end Segments

end XstdBits.Opt
