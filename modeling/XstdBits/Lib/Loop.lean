/-
  File: XstdBits/Lib/Loop.lean
  Subject: counted loops, their invariant rules, and searches.

  * `forUp lo hi`, `forDown lo hi`: the body runs at each index of `[lo, hi)`, upwards or
    downwards; `forStep k a b`: it runs at `a`, `a + k`, … below `b`, and `firstAnswer` returns
    there. Each has one rule, an invariant indexed by the loop variable (`forUp_inv`, …).
  * `wrapDown m n` lists the indices of a loop downwards that ends through an index that wraps.
  * `tryStep`: the same over a body that may have no answer; its rule says that the loop has one.
  * `writeUp`, `writeDown`: the loops that overwrite a list in place. A read that only looks at
    places the loop has not reached yet sees the list as it was (`writeUp_spec`, `writeDown_spec`).
  * `findUp`, `findDown`: the first index from one end that satisfies a test.
-/
import XstdBits.Lib.BlockString

namespace XstdBits

/-! ## 1. Upwards -/

section ForUp
variable {σ : Type}

/-- `n` turns of the body, from index `i` upwards. -/
def turnsUp (f : Nat → σ → σ) : Nat → Nat → σ → σ
  | 0, _, s => s
  | n + 1, i, s => turnsUp f n (i + 1) (f i s)

/-- The body at `a`, `a + 1`, …, `b - 1`. -/
def forUp (a b : Nat) (f : Nat → σ → σ) (s : σ) : σ := turnsUp f (b - a) a s

theorem turnsUp_inv {f : Nat → σ → σ} {P : Nat → σ → Prop} :
    ∀ (n i : Nat) (s : σ), P i s →
      (∀ k s, i ≤ k → k < i + n → P k s → P (k + 1) (f k s)) → P (i + n) (turnsUp f n i s)
  | 0, _, _, h, _ => h
  | n + 1, i, s, h, step => by
      have h1 := step i s (Nat.le_refl i) (by omega) h
      have h2 := turnsUp_inv n (i + 1) (f i s) h1 fun k s hk hn => step k s (by omega) (by omega)
      rw [show i + (n + 1) = i + 1 + n by omega]
      exact h2

/-- **The rule of `forUp`.** What holds at `a` and is carried over each index holds at `b`. -/
theorem forUp_inv {a b : Nat} {f : Nat → σ → σ} {s : σ} (P : Nat → σ → Prop) (hle : a ≤ b)
    (h : P a s) (step : ∀ k s, a ≤ k → k < b → P k s → P (k + 1) (f k s)) :
    P b (forUp a b f s) := by
  have := turnsUp_inv (b - a) a s h fun k s h1 h2 => step k s h1 (by omega)
  rwa [show a + (b - a) = b by omega] at this

theorem forUp_of_le {a b : Nat} {f : Nat → σ → σ} {s : σ} (h : b ≤ a) :
    forUp a b f s = s := by
  unfold forUp
  rw [show b - a = 0 by omega]
  rfl

end ForUp

/-! ## 2. Downwards -/

section ForDown
variable {σ : Type}

/-- The body at `a + n - 1`, …, `a`. -/
def turnsDown (f : Nat → σ → σ) (a : Nat) : Nat → σ → σ
  | 0, s => s
  | n + 1, s => turnsDown f a n (f (a + n) s)

/-- The body at `b - 1`, …, `a`. -/
def forDown (a b : Nat) (f : Nat → σ → σ) (s : σ) : σ := turnsDown f a (b - a) s

theorem turnsDown_inv {f : Nat → σ → σ} {a : Nat} {P : Nat → σ → Prop} :
    ∀ (n : Nat) (s : σ), P (a + n) s →
      (∀ k s, a ≤ k → k < a + n → P (k + 1) s → P k (f k s)) → P a (turnsDown f a n s)
  | 0, _, h, _ => h
  | n + 1, s, h, step =>
      turnsDown_inv n (f (a + n) s) (step (a + n) s (by omega) (by omega) h)
        fun k s h1 h2 => step k s h1 (by omega)

/-- **The rule of `forDown`.** What holds at `b` and is carried down over each index holds at
    `a`. -/
theorem forDown_inv {a b : Nat} {f : Nat → σ → σ} {s : σ} (P : Nat → σ → Prop) (hle : a ≤ b)
    (h : P b s) (step : ∀ k s, a ≤ k → k < b → P (k + 1) s → P k (f k s)) :
    P a (forDown a b f s) := by
  refine turnsDown_inv (b - a) s ?_ fun k s h1 h2 => step k s h1 (by omega)
  rwa [show a + (b - a) = b by omega]

end ForDown

/-! ## 3. Downwards through zero -/

section WrapDown
variable {m n : Nat}

/-- The indices `i`, `i - 1`, … while below `n`, among `m` values that wrap from zero to the top. -/
def wrapFrom (m n : Nat) : (fuel i : Nat) → List Nat
  | 0, _ => []
  | fuel + 1, i => if i < n then i :: wrapFrom m n fuel ((i + (m - 1)) % m) else []

/-- The indices of `for (i = n - 1; i < n; --i)`. -/
def wrapDown (m n : Nat) : List Nat := wrapFrom m n (n + 1) ((n + (m - 1)) % m)

theorem wrapFrom_eq (hn : n < m) : ∀ {k : Nat}, k < n →
    wrapFrom m n (k + 2) k = (List.range (k + 1)).reverse
  | 0, hk => by
      have htop : (0 + (m - 1)) % m = m - 1 := by
        rw [Nat.zero_add, Nat.mod_eq_of_lt (by omega)]
      unfold wrapFrom
      rw [if_pos hk, htop]
      unfold wrapFrom
      rw [if_neg (show ¬ m - 1 < n by omega)]
      rfl
  | k + 1, hk => by
      have hprev : (k + 1 + (m - 1)) % m = k := by
        rw [show k + 1 + (m - 1) = k + m by omega, Nat.add_mod_right, Nat.mod_eq_of_lt (by omega)]
      unfold wrapFrom
      rw [if_pos hk, hprev, wrapFrom_eq hn (show k < n by omega), List.range_succ (n := k + 1),
        List.reverse_append]
      rfl

/-- **Below the top a loop that ends by wrapping visits every index once**, downwards. -/
theorem wrapDown_eq (hn : n < m) : wrapDown m n = (List.range n).reverse := by
  unfold wrapDown
  cases n with
  | zero => rfl
  | succ k =>
      have hprev : (k + 1 + (m - 1)) % m = k := by
        rw [show k + 1 + (m - 1) = k + m by omega, Nat.add_mod_right, Nat.mod_eq_of_lt (by omega)]
      rw [hprev]
      exact wrapFrom_eq hn (Nat.lt_succ_self k)

end WrapDown

/-! ## 4. In steps -/

section ForStep
variable {σ : Type}

/-- At most `fuel` turns of the body, at `pos`, `pos + k`, … while below `b`. -/
def turnsStep (k b : Nat) (f : Nat → σ → σ) : Nat → Nat → σ → σ
  | 0, _, s => s
  | fuel + 1, pos, s =>
      if pos < b then turnsStep k b f fuel (pos + k) (f pos s) else s

/-- `for (pos = a; pos < b; pos += k)`: a positive step ends it within `b - a`
    turns. -/
def forStep (k a b : Nat) (f : Nat → σ → σ) (s : σ) : σ :=
  turnsStep k b f (b - a) a s

theorem turnsStep_inv {k b : Nat} {f : Nat → σ → σ} {P : Nat → σ → Prop} (hs : 0 < k)
    (turn : ∀ q s, q < b → P q s → P (q + k) (f q s)) :
    ∀ (fuel pos : Nat) (s : σ), b - pos ≤ fuel → P pos s →
      ∃ q, b ≤ q ∧ P q (turnsStep k b f fuel pos s)
  | 0, pos, s, hf, h => ⟨pos, by omega, h⟩
  | fuel + 1, pos, s, hf, h => by
      unfold turnsStep
      split
      · rename_i hlt
        exact turnsStep_inv hs turn fuel (pos + k) (f pos s) (by omega) (turn pos s hlt h)
      · rename_i hge
        exact ⟨pos, by omega, h⟩

/-- **The rule of `forStep`.** What holds at the start and is carried over each turn holds at the
    first index not below `b`. -/
theorem forStep_inv {k a b : Nat} {f : Nat → σ → σ} {s : σ} (P : Nat → σ → Prop)
    (hs : 0 < k) (h : P a s) (turn : ∀ q s, q < b → P q s → P (q + k) (f q s)) :
    ∃ q, b ≤ q ∧ P q (forStep k a b f s) :=
  turnsStep_inv hs turn _ _ _ (Nat.le_refl _) h

/-- The first answer of the body at `pos`, `pos + k`, … below `b`, none where it gives none. -/
def answersStep {α : Type} (k b : Nat) (body : Nat → Option α) : Nat → Nat → Option α
  | 0, _ => none
  | fuel + 1, pos =>
      if pos < b then
        match body pos with
        | .some v => some v
        | .none => answersStep k b body fuel (pos + k)
      else none

/-- A loop from `a` by `k` that returns at the first answer of its body. -/
def firstAnswer {α : Type} (k a b : Nat) (body : Nat → Option α) : Option α :=
  answersStep k b body (b - a) a

theorem answersStep_cases {α : Type} {k b : Nat} {body : Nat → Option α} {P : Nat → Prop}
    (hk : 0 < k) (turn : ∀ q, q < b → P q → body q = none → P (q + k)) :
    ∀ (fuel pos : Nat), b - pos ≤ fuel → P pos →
      (∃ q v, q < b ∧ P q ∧ body q = some v ∧ answersStep k b body fuel pos = some v) ∨
      ∃ q, b ≤ q ∧ P q ∧ answersStep k b body fuel pos = none
  | 0, pos, hf, h => Or.inr ⟨pos, by omega, h, rfl⟩
  | fuel + 1, pos, hf, h => by
      unfold answersStep
      split
      · rename_i hlt
        cases hb : body pos with
        | some v => exact Or.inl ⟨pos, v, hlt, h, hb, rfl⟩
        | none => exact answersStep_cases hk turn fuel (pos + k) (by omega) (turn pos hlt h hb)
      · rename_i hge
        exact Or.inr ⟨pos, by omega, h, rfl⟩

/-- **The rule of `firstAnswer`.** What holds at the start and is carried over each turn without an
    answer holds where the loop answers, or where it ends. -/
theorem firstAnswer_cases {α : Type} {k a b : Nat} {body : Nat → Option α} (P : Nat → Prop)
    (hk : 0 < k) (h : P a) (turn : ∀ q, q < b → P q → body q = none → P (q + k)) :
    (∃ q v, q < b ∧ P q ∧ body q = some v ∧ firstAnswer k a b body = some v) ∨
    ∃ q, b ≤ q ∧ P q ∧ firstAnswer k a b body = none :=
  answersStep_cases hk turn _ _ (Nat.le_refl _) h

end ForStep

/-! ## 5. Turns that may have no answer -/

section TryStep
variable {σ : Type}

/-- At most `fuel` turns, as long as each has an answer. -/
def tryTurns (k b : Nat) (f : Nat → σ → Option σ) : Nat → Nat → σ → Option σ
  | 0, _, s => some s
  | fuel + 1, pos, s =>
      if pos < b then (f pos s).bind fun t => tryTurns k b f fuel (pos + k) t else some s

/-- `for (pos = a; pos < b; pos += k)` of a body that may have no answer. -/
def tryStep (k a b : Nat) (f : Nat → σ → Option σ) (s : σ) : Option σ :=
  tryTurns k b f (b - a) a s

theorem tryTurns_inv {k b : Nat} {f : Nat → σ → Option σ} {P : Nat → σ → Prop} (hk : 0 < k)
    (turn : ∀ q s, q < b → P q s → ∃ t, f q s = some t ∧ P (q + k) t) :
    ∀ (fuel pos : Nat) (s : σ), b - pos ≤ fuel → P pos s →
      ∃ q t, b ≤ q ∧ tryTurns k b f fuel pos s = some t ∧ P q t
  | 0, pos, s, hf, h => ⟨pos, s, by omega, rfl, h⟩
  | fuel + 1, pos, s, hf, h => by
      unfold tryTurns
      split
      · rename_i hlt
        obtain ⟨t, ht, hP⟩ := turn pos s hlt h
        rw [ht]
        exact tryTurns_inv hk turn fuel (pos + k) t (by omega) hP
      · exact ⟨pos, s, by omega, rfl, h⟩

/-- **The rule of `tryStep`.** Where what holds at the start lets each turn answer and is carried
    over it, the loop answers, with what holds at the first index not below `b`. -/
theorem tryStep_inv {k a b : Nat} {f : Nat → σ → Option σ} {s : σ} (P : Nat → σ → Prop)
    (hk : 0 < k) (h : P a s) (turn : ∀ q s, q < b → P q s → ∃ t, f q s = some t ∧ P (q + k) t) :
    ∃ q t, b ≤ q ∧ tryStep k a b f s = some t ∧ P q t :=
  tryTurns_inv hk turn _ _ _ (Nat.le_refl _) h

/-- One by one it ends at `b`. -/
theorem tryStep_one {a b : Nat} {f : Nat → σ → Option σ} {s : σ} (P : Nat → σ → Prop) (hle : a ≤ b)
    (h : P a s) (turn : ∀ q s, q < b → P q s → ∃ t, f q s = some t ∧ P (q + 1) t) :
    ∃ t, tryStep 1 a b f s = some t ∧ P b t := by
  obtain ⟨q, t, hq, ht, hqb, hP⟩ := tryStep_inv (fun q s => q ≤ b ∧ P q s) Nat.one_pos ⟨hle, h⟩
    fun q s hlt hP => by
      obtain ⟨t, ht, hP'⟩ := turn q s hlt hP.2
      exact ⟨t, ht, hlt, hP'⟩
  rw [show q = b by omega] at hP
  exact ⟨t, ht, hP⟩

end TryStep

/-! ## 6. Overwriting a list in place -/

section Write
variable {α : Type} {d : α}

/-- Place `i` takes `g x i`, for `i` from `a` up to `b`. -/
def writeUp (a b : Nat) (g : List α → Nat → α) (x : List α) : List α :=
  forUp a b (fun i x => x.set i (g x i)) x

/-- Place `i` takes `g x i`, for `i` from `b` down to `a`. -/
def writeDown (a b : Nat) (g : List α → Nat → α) (x : List α) : List α :=
  forDown a b (fun i x => x.set i (g x i)) x

variable {x : List α} {g : List α → Nat → α} {a b : Nat}

/-- **An ascending overwrite whose reads look ahead writes what the old list gives.** -/
theorem writeUp_spec (hhi : b ≤ x.length)
    (hg : ∀ ys i, a ≤ i → i < b → ys.length = x.length →
      (∀ j, i ≤ j → ys.getD j d = x.getD j d) → g ys i = g x i) :
    (writeUp a b g x).length = x.length ∧
      ∀ j, (writeUp a b g x).getD j d = if a ≤ j ∧ j < b then g x j else x.getD j d := by
  by_cases hle : a ≤ b
  · have key := forUp_inv (f := fun i x => x.set i (g x i)) (s := x)
      (fun k ys => ys.length = x.length ∧
        ∀ j, ys.getD j d = if a ≤ j ∧ j < k then g x j else x.getD j d) hle
      ⟨rfl, fun j => by rw [if_neg (by omega)]⟩ ?_
    · exact key
    · rintro k ys h1 h2 ⟨hl, hv⟩
      refine ⟨by simpa using hl, fun j => ?_⟩
      have hgk : g ys k = g x k := hg ys k h1 h2 hl fun j hj => by rw [hv j, if_neg (by omega)]
      by_cases hjk : k = j
      · subst hjk
        rw [getD_set_self (by omega), if_pos (by omega), hgk]
      · rw [getD_set_ne hjk, hv j]
        by_cases hin : a ≤ j ∧ j < k
        · rw [if_pos hin, if_pos (by omega)]
        · rw [if_neg hin, if_neg (by omega)]
  · unfold writeUp
    rw [forUp_of_le (by omega)]
    exact ⟨rfl, fun j => by rw [if_neg (by omega)]⟩

/-- **A descending overwrite whose reads look down writes what the old list gives.** -/
theorem writeDown_spec (hle : a ≤ b) (hhi : b ≤ x.length)
    (hg : ∀ ys i, a ≤ i → i < b → ys.length = x.length →
      (∀ j, j ≤ i → ys.getD j d = x.getD j d) → g ys i = g x i) :
    (writeDown a b g x).length = x.length ∧
      ∀ j, (writeDown a b g x).getD j d = if a ≤ j ∧ j < b then g x j else x.getD j d := by
  have key := forDown_inv (f := fun i x => x.set i (g x i)) (s := x)
    (fun k ys => ys.length = x.length ∧
      ∀ j, ys.getD j d = if k ≤ j ∧ j < b then g x j else x.getD j d) hle
    ⟨rfl, fun j => by rw [if_neg (by omega)]⟩ ?_
  · exact key
  · rintro k ys h1 h2 ⟨hl, hv⟩
    refine ⟨by simpa using hl, fun j => ?_⟩
    have hgk : g ys k = g x k := hg ys k h1 h2 hl fun j hj => by rw [hv j, if_neg (by omega)]
    by_cases hjk : k = j
    · subst hjk
      rw [getD_set_self (by omega), if_pos (by omega), hgk]
    · rw [getD_set_ne hjk, hv j]
      by_cases hin : k + 1 ≤ j ∧ j < b
      · rw [if_pos hin, if_pos (by omega)]
      · rw [if_neg hin, if_neg (by omega)]

/-- Places `[a, b)` filled with one value. -/
def fillRange (a b : Nat) (v : α) (x : List α) : List α := writeUp a b (fun _ _ => v) x

theorem length_fillRange {v : α} (hhi : b ≤ x.length) :
    (fillRange a b v x).length = x.length :=
  (writeUp_spec (d := v) hhi fun _ _ _ _ _ _ => rfl).1

theorem getD_fillRange {v : α} (hhi : b ≤ x.length) (j : Nat) :
    (fillRange a b v x).getD j d = if a ≤ j ∧ j < b then v else x.getD j d :=
  (writeUp_spec (d := d) hhi fun _ _ _ _ _ _ => rfl).2 j

/-- Every place `i` of the first `n` takes `f i` of its own value. -/
def mapUp (n : Nat) (d : α) (f : Nat → α → α) (x : List α) : List α :=
  writeUp 0 n (fun x i => f i (x.getD i d)) x

theorem mapUp_spec {n : Nat} {f : Nat → α → α} (hn : n ≤ x.length) :
    (mapUp n d f x).length = x.length ∧
      ∀ j, (mapUp n d f x).getD j d = if j < n then f j (x.getD j d) else x.getD j d := by
  have h := writeUp_spec (d := d) (g := fun x i => f i (x.getD i d)) (a := 0) hn
    fun ys i _ _ _ hy => by rw [hy i (Nat.le_refl i)]
  refine ⟨h.1, fun j => ?_⟩
  have := h.2 j
  simp only [Nat.zero_le, true_and] at this
  exact this

end Write

/-! ## 7. Searches -/

section Find

/-- The least of `n` indices from `i` upwards that satisfies the test. -/
def findFrom (p : Nat → Bool) : Nat → Nat → Option Nat
  | 0, _ => none
  | n + 1, i => if p i then some i else findFrom p n (i + 1)

/-- The least index of `[a, b)` that satisfies the test. -/
def findUp (a b : Nat) (p : Nat → Bool) : Option Nat := findFrom p (b - a) a

/-- The greatest of the `n` indices below `n` that satisfies the test. -/
def findDown (p : Nat → Bool) : Nat → Option Nat
  | 0 => none
  | n + 1 => if p n then some n else findDown p n

variable {p : Nat → Bool}

theorem findFrom_some : ∀ {n i k : Nat}, findFrom p n i = some k →
    i ≤ k ∧ k < i + n ∧ p k = true ∧ ∀ j, i ≤ j → j < k → p j = false
  | 0, _, _, h => by simp [findFrom] at h
  | n + 1, i, k, h => by
      unfold findFrom at h
      split at h
      · rename_i hp
        obtain rfl : i = k := by simpa using h
        exact ⟨Nat.le_refl _, by omega, hp, fun j h1 h2 => by omega⟩
      · rename_i hp
        obtain ⟨h1, h2, h3, h4⟩ := findFrom_some h
        refine ⟨by omega, by omega, h3, fun j hj1 hj2 => ?_⟩
        by_cases hij : i = j
        · subst hij
          simpa using hp
        · exact h4 j (by omega) hj2

theorem findFrom_none : ∀ {n i : Nat}, findFrom p n i = none →
    ∀ j, i ≤ j → j < i + n → p j = false
  | 0, _, _, _, _, _ => by omega
  | n + 1, i, h, j, h1, h2 => by
      unfold findFrom at h
      split at h
      · cases h
      · rename_i hp
        by_cases hij : i = j
        · subst hij
          simpa using hp
        · exact findFrom_none h j (by omega) (by omega)

/-- **`findUp` answers the least index that satisfies the test.** -/
theorem findUp_some {a b k : Nat} (h : findUp a b p = some k) :
    a ≤ k ∧ k < b ∧ p k = true ∧ ∀ j, a ≤ j → j < k → p j = false := by
  obtain ⟨h1, h2, h3, h4⟩ := findFrom_some h
  exact ⟨h1, by omega, h3, h4⟩

theorem findUp_none {a b : Nat} (h : findUp a b p = none) :
    ∀ j, a ≤ j → j < b → p j = false :=
  fun j h1 h2 => findFrom_none h j h1 (by omega)

/-- **`findDown` answers the greatest index that satisfies the test.** -/
theorem findDown_some : ∀ {n k : Nat}, findDown p n = some k →
    k < n ∧ p k = true ∧ ∀ j, k < j → j < n → p j = false
  | 0, _, h => by simp [findDown] at h
  | n + 1, k, h => by
      unfold findDown at h
      split at h
      · rename_i hp
        obtain rfl : n = k := by simpa using h
        exact ⟨by omega, hp, fun j h1 h2 => by omega⟩
      · rename_i hp
        obtain ⟨h1, h2, h3⟩ := findDown_some h
        refine ⟨by omega, h2, fun j hj1 hj2 => ?_⟩
        by_cases hjn : j = n
        · subst hjn
          simpa using hp
        · exact h3 j hj1 (by omega)

theorem findDown_none : ∀ {n : Nat}, findDown p n = none → ∀ j, j < n → p j = false
  | 0, _, _, h => by omega
  | n + 1, h, j, hj => by
      unfold findDown at h
      split at h
      · cases h
      · rename_i hp
        by_cases hjn : j = n
        · subst hjn
          simpa using hp
        · exact findDown_none h j (by omega)

/-- The least set position of `[a, b)`, `b` where there is none. -/
def nextSet (f : Nat → Bool) (a b : Nat) : Nat := (findUp a b f).getD b

/-- The greatest set position below `n`, `b` where there is none. -/
def prevSet (f : Nat → Bool) (n b : Nat) : Nat := (findDown f n).getD b

theorem nextSet_eq {f : Nat → Bool} {a b k : Nat} (h1 : a ≤ k) (h2 : k < b) (hk : f k = true)
    (hlow : ∀ j, a ≤ j → j < k → f j = false) : nextSet f a b = k := by
  unfold nextSet
  cases h : findUp a b f with
  | none =>
      rw [findUp_none h k h1 h2] at hk
      cases hk
  | some i =>
      obtain ⟨i1, -, i3, i4⟩ := findUp_some h
      rcases Nat.lt_trichotomy i k with hlt | rfl | hgt
      · rw [hlow i i1 hlt] at i3
        cases i3
      · rfl
      · rw [i4 k h1 hgt] at hk
        cases hk

theorem nextSet_none {f : Nat → Bool} {a b : Nat} (h : ∀ j, a ≤ j → j < b → f j = false) :
    nextSet f a b = b := by
  unfold nextSet
  cases hf : findUp a b f with
  | none => rfl
  | some i =>
      obtain ⟨i1, i2, i3, -⟩ := findUp_some hf
      rw [h i i1 i2] at i3
      cases i3

/-- **What `nextSet` answers**: a set position with none before it, or the end. -/
theorem nextSet_spec (f : Nat → Bool) (a b : Nat) :
    (a ≤ nextSet f a b ∧ nextSet f a b < b ∧ f (nextSet f a b) = true ∧
      ∀ j, a ≤ j → j < nextSet f a b → f j = false) ∨
    (nextSet f a b = b ∧ ∀ j, a ≤ j → j < b → f j = false) := by
  unfold nextSet
  cases h : findUp a b f with
  | none => exact Or.inr ⟨rfl, findUp_none h⟩
  | some k => exact Or.inl (findUp_some h)

theorem nextSet_le {f : Nat → Bool} {a b : Nat} : nextSet f a b ≤ b := by
  rcases nextSet_spec f a b with ⟨-, h2, -, -⟩ | ⟨h1, -⟩
  · exact Nat.le_of_lt h2
  · exact Nat.le_of_eq h1

theorem le_nextSet {f : Nat → Bool} {a b : Nat} (hab : a ≤ b) : a ≤ nextSet f a b := by
  rcases nextSet_spec f a b with ⟨h1, -, -, -⟩ | ⟨h1, -⟩
  · exact h1
  · rwa [h1]

theorem nextSet_clear {f : Nat → Bool} {a b j : Nat} (ha : a ≤ j) (hj : j < nextSet f a b) :
    f j = false := by
  rcases nextSet_spec f a b with ⟨-, -, -, h4⟩ | ⟨h1, h2⟩
  · exact h4 j ha hj
  · exact h2 j ha (h1 ▸ hj)

theorem prevSet_eq {f : Nat → Bool} {n b k : Nat} (h2 : k < n) (hk : f k = true)
    (hup : ∀ j, k < j → j < n → f j = false) : prevSet f n b = k := by
  unfold prevSet
  cases h : findDown f n with
  | none =>
      rw [findDown_none h k h2] at hk
      cases hk
  | some i =>
      obtain ⟨i1, i3, i4⟩ := findDown_some h
      rcases Nat.lt_trichotomy i k with hlt | rfl | hgt
      · rw [i4 k hlt h2] at hk
        cases hk
      · rfl
      · rw [hup i hgt i1] at i3
        cases i3

theorem prevSet_none {f : Nat → Bool} {n b : Nat} (h : ∀ j, j < n → f j = false) :
    prevSet f n b = b := by
  unfold prevSet
  cases hf : findDown f n with
  | none => rfl
  | some i =>
      obtain ⟨i1, i3, -⟩ := findDown_some hf
      rw [h i i1] at i3
      cases i3

/-- **What `prevSet` answers**: a set position below `n` with none between, or the end. -/
theorem prevSet_spec (f : Nat → Bool) (n b : Nat) :
    (prevSet f n b < n ∧ f (prevSet f n b) = true ∧
      ∀ j, prevSet f n b < j → j < n → f j = false) ∨
    (prevSet f n b = b ∧ ∀ j, j < n → f j = false) := by
  unfold prevSet
  cases h : findDown f n with
  | none => exact Or.inr ⟨rfl, findDown_none h⟩
  | some k => exact Or.inl (findDown_some h)

/-- Strings that agree on `[a, b)` are searched alike there. -/
theorem nextSet_congr {f g : Nat → Bool} {a b : Nat} (h : ∀ j, a ≤ j → j < b → f j = g j) :
    nextSet f a b = nextSet g a b := by
  rcases nextSet_spec g a b with ⟨h1, h2, h3, h4⟩ | ⟨h1, h2⟩
  · exact nextSet_eq h1 h2 ((h _ h1 h2).trans h3) fun j hj1 hj2 =>
      (h j hj1 (by omega)).trans (h4 j hj1 hj2)
  · rw [h1]
    exact nextSet_none fun j hj1 hj2 => (h j hj1 hj2).trans (h2 j hj1 hj2)

theorem prevSet_congr {f g : Nat → Bool} {n b : Nat} (h : ∀ j, j < n → f j = g j) :
    prevSet f n b = prevSet g n b := by
  rcases prevSet_spec g n b with ⟨h1, h2, h3⟩ | ⟨h1, h2⟩
  · exact prevSet_eq h1 ((h _ h1).trans h2) fun j hj1 hj2 => (h j hj2).trans (h3 j hj1 hj2)
  · rw [h1]
    exact prevSet_none fun j hj => (h j hj).trans (h2 j hj)

/-- `r` is the least set position of `[a, b)`, or `b` where there is none. -/
def FirstSet (f : Nat → Bool) (a b r : Nat) : Prop :=
  (a ≤ r ∧ r < b ∧ f r = true ∧ ∀ j, a ≤ j → j < r → f j = false) ∨
    (r = b ∧ ∀ j, a ≤ j → j < b → f j = false)

/-- There is one such position. -/
theorem FirstSet.eq {f : Nat → Bool} {a b r : Nat} (h : FirstSet f a b r) : r = nextSet f a b := by
  rcases h with ⟨hle, hlt, hset, hbefore⟩ | ⟨rfl, hnone⟩
  · exact (nextSet_eq hle hlt hset hbefore).symm
  · exact (nextSet_none hnone).symm

/-- `r` is the greatest set position below `n`, or `b` where there is none. -/
def LastSet (f : Nat → Bool) (n b r : Nat) : Prop :=
  (r < n ∧ f r = true ∧ ∀ j, r < j → j < n → f j = false) ∨ (r = b ∧ ∀ j, j < n → f j = false)

/-- Positions that are all clear are passed over. -/
theorem nextSet_skip {f : Nat → Bool} {a m b : Nat} (hle : a ≤ m)
    (h : ∀ j, a ≤ j → j < m → f j = false) : nextSet f a b = nextSet f m b := by
  rcases nextSet_spec f m b with ⟨h1, h2, h3, h4⟩ | ⟨h1, h2⟩
  · refine nextSet_eq (by omega) h2 h3 fun j hj1 hj2 => ?_
    by_cases hj : j < m
    · exact h j hj1 hj
    · exact h4 j (by omega) hj2
  · rw [h1]
    refine nextSet_none fun j hj1 hj2 => ?_
    by_cases hj : j < m
    · exact h j hj1 hj
    · exact h2 j (by omega) hj2

theorem prevSet_skip {f : Nat → Bool} {n m b : Nat} (hle : m ≤ n)
    (h : ∀ j, m ≤ j → j < n → f j = false) : prevSet f n b = prevSet f m b := by
  rcases prevSet_spec f m b with ⟨h1, h2, h3⟩ | ⟨h1, h2⟩
  · refine prevSet_eq (by omega) h2 fun j hj1 hj2 => ?_
    by_cases hj : j < m
    · exact h3 j hj1 hj
    · exact h j (by omega) hj2
  · rw [h1]
    refine prevSet_none fun j hj => ?_
    by_cases hjm : j < m
    · exact h2 j hjm
    · exact h j (by omega) hj

end Find

end XstdBits
