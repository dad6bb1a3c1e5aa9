/-
  File: XstdBits/Lib/Outcome.lean
  Subject: actions that return or throw, and what they leave behind.

  An action is an `EStateM ε σ α`: from a state it returns a value and a state, or throws and
  leaves the state it had reached. The file carries three judgments about one run of it:
  * `Ends x s Q E`: what it returns satisfies `Q`, and a throw leaves what satisfies `E`;
  * `Completes x s`: it returns;
  * `Strong x s`: a throw leaves the state it started from.
  `Ends` has a rule for a sequence, for a walk over a list that carries a value (`foldlM`), for a
  loop that takes whole steps (`wholeSteps`) and for an action undone where it throws (`onThrow`).

  `noted` keeps every state a call leaves, so that what holds all along a run can be said of the
  notes; `Forgets` says that the run is the same without them, and leaves the state noted last.
-/

namespace XstdBits

/-! ## 1. The judgments -/

section Outcome
variable {ε σ α β : Type} {x : EStateM ε σ α} {f : α → EStateM ε σ β} {s : σ}

/-- **What a run leaves**: `Q` of a return, `E` of a throw. -/
def Ends (x : EStateM ε σ α) (s : σ) (Q : α → σ → Prop) (E : ε → σ → Prop) : Prop :=
  match x s with
  | .ok a t => Q a t
  | .error e t => E e t

/-- **The action returns.** -/
def Completes (x : EStateM ε σ α) (s : σ) : Prop := ∃ a t, x s = .ok a t

/-- **The strong guarantee** at a state: a throw leaves it as it was. -/
def Strong (x : EStateM ε σ α) (s : σ) : Prop := ∀ e t, x s = .error e t → t = s

variable {P Q : α → σ → Prop} {R : β → σ → Prop} {E F : ε → σ → Prop}

theorem ends_iff : Ends x s Q E ↔
    (∀ a t, x s = .ok a t → Q a t) ∧ ∀ e t, x s = .error e t → E e t := by
  unfold Ends
  cases x s with
  | ok a t =>
      constructor
      · intro h
        refine ⟨?_, nofun⟩
        intro _ _ he
        cases he
        exact h
      · intro h
        exact h.1 a t rfl
  | error e t =>
      constructor
      · intro h
        refine ⟨nofun, ?_⟩
        intro _ _ he
        cases he
        exact h
      · intro h
        exact h.2 e t rfl

theorem Ends.ok (h : Ends x s Q E) {a : α} {t : σ} (ha : x s = .ok a t) : Q a t :=
  (ends_iff.mp h).1 a t ha

theorem Ends.error (h : Ends x s Q E) {e : ε} {t : σ} (he : x s = .error e t) : E e t :=
  (ends_iff.mp h).2 e t he

theorem Ends.mono (h : Ends x s P E) (hPQ : ∀ a t, P a t → Q a t) (hEF : ∀ e t, E e t → F e t) :
    Ends x s Q F :=
  ends_iff.mpr ⟨fun a t ha => hPQ a t (h.ok ha), fun e t he => hEF e t (h.error he)⟩

/-- What is known of the runs that return besides. -/
theorem Ends.and_ok (h : Ends x s Q E) {P : α → σ → Prop} (hP : ∀ a t, x s = .ok a t → P a t) :
    Ends x s (fun a t => Q a t ∧ P a t) E :=
  ends_iff.mpr ⟨fun a t ha => ⟨h.ok ha, hP a t ha⟩, fun _ _ he => h.error he⟩

/-- An action that no throw ends returns. -/
theorem Ends.completes (h : Ends x s Q E) (hE : ∀ e t, ¬ E e t) : Completes x s := by
  cases hx : x s with
  | ok a t => exact ⟨a, t, hx⟩
  | error e t => exact absurd (h.error hx) (hE e t)

theorem ends_pure {a : α} (h : Q a s) : Ends (pure a : EStateM ε σ α) s Q E := h

/-- A sequence leaves what its second action does from whatever its first one left. -/
theorem ends_bind (hx : Ends x s P E) (hf : ∀ a t, P a t → Ends (f a) t R E) :
    Ends (x >>= f) s R E := by
  unfold Ends at hx ⊢
  show match EStateM.bind x f s with
    | .ok b u => R b u
    | .error e u => E e u
  unfold EStateM.bind
  cases h : x s with
  | ok a t =>
      rw [h] at hx
      exact hf a t hx
  | error e t =>
      rw [h] at hx
      exact hx

/-- The state read first is the one the rest starts from. -/
theorem ends_bind_get {g : σ → EStateM ε σ β} (h : Ends (g s) s R E) :
    Ends (get >>= g) s R E := h

theorem ends_modify {g : σ → σ} {R : Unit → σ → Prop} (h : R () (g s)) :
    Ends (modify g : EStateM ε σ Unit) s R E := h

theorem ends_throw {e : ε} (h : E e s) : Ends (throw e : EStateM ε σ α) s Q E := h

/-- `try { x } catch (...) { undo; throw; }` -/
def onThrow (x : EStateM ε σ α) (undo : EStateM ε σ Unit) : EStateM ε σ α := fun s =>
  match x s with
  | .ok a t => .ok a t
  | .error e t =>
      match undo t with
      | .ok _ u => .error e u
      | .error e' u => .error e' u

/-- **The rule of `onThrow`**: from whatever the throw left, the undo leaves what is promised. -/
theorem ends_onThrow {undo : EStateM ε σ Unit}
    (hx : Ends x s Q fun e t => Ends undo t (fun _ u => E e u) E) : Ends (onThrow x undo) s Q E := by
  unfold Ends onThrow at *
  cases hxs : x s with
  | ok a t =>
      rw [hxs] at hx
      exact hx
  | error e t =>
      simp only [hxs] at hx ⊢
      cases hut : undo t with
      | ok _ u =>
          rw [hut] at hx
          exact hx
      | error e' u =>
          rw [hut] at hx
          exact hx

end Outcome

/-! ## 2. A list, with a value carried along -/

section Elements
variable {ε σ α β : Type} {body : β → α → EStateM ε σ β} {P : List α → β → σ → Prop}
  {E : ε → σ → Prop} {xs : List α}

/-- **The rule of a walk over a list**, its invariant indexed by the elements walked so far. -/
theorem ends_foldlM
    (turn : ∀ l a r b s, xs = l ++ a :: r → P l b s → Ends (body b a) s (P (l ++ [a])) E) :
    ∀ (r l : List α) (b : β) (s : σ), xs = l ++ r → P l b s → Ends (r.foldlM body b) s (P xs) E
  | [], l, b, s, hx, h => by
      rw [List.append_nil] at hx
      subst hx
      exact ends_pure h
  | a :: r, l, b, s, hx, h => by
      show Ends (body b a >>= fun b => r.foldlM body b) s _ _
      refine ends_bind (turn l a r b s hx h) fun b' t ht => ?_
      refine ends_foldlM turn r (l ++ [a]) b' t ?_ ht
      rw [hx, List.append_assoc]
      rfl

end Elements

/-! ## 3. Whole steps -/

section Steps
variable {ε σ : Type} {k b : Nat} {body : Nat → EStateM ε σ Unit} {P : Nat → σ → Prop}
  {E : ε → σ → Prop}

/-- At most `fuel` turns of the body, by `k` from `pos`, while a whole step is left below `b`. -/
def turnsWhole (k b : Nat) (body : Nat → EStateM ε σ Unit) : (fuel pos : Nat) → EStateM ε σ Nat
  | 0, pos => pure pos
  | fuel + 1, pos =>
      if k ≤ b - pos then body pos >>= fun _ => turnsWhole k b body fuel (pos + k) else pure pos

/-- `for (pos = a; b - pos ≥ k; pos += k)`, and where it stops: a positive step ends it within
    `b - a` turns. -/
def wholeSteps (k a b : Nat) (body : Nat → EStateM ε σ Unit) : EStateM ε σ Nat :=
  turnsWhole k b body (b - a) a

theorem ends_turnsWhole (hk : 0 < k)
    (turn : ∀ q s, q + k ≤ b → P q s → Ends (body q) s (fun _ t => P (q + k) t) E) :
    ∀ (fuel pos : Nat) (s : σ), b - pos ≤ fuel → pos ≤ b → P pos s →
      Ends (turnsWhole k b body fuel pos) s (fun q t => P q t ∧ q ≤ b ∧ b - q < k) E
  | 0, pos, s, hf, hb, h => by
      unfold turnsWhole
      refine ends_pure ⟨h, hb, ?_⟩
      omega
  | fuel + 1, pos, s, hf, hb, h => by
      unfold turnsWhole
      split
      · rename_i hle
        exact ends_bind (turn pos s (by omega) h) fun _ t ht =>
          ends_turnsWhole hk turn fuel (pos + k) t (by omega) (by omega) ht
      · refine ends_pure ⟨h, hb, ?_⟩
        omega

/-- **The rule of `wholeSteps`**: the invariant where it stops, less than a step below the end. -/
theorem ends_wholeSteps {a : Nat} {s : σ} (hk : 0 < k) (hab : a ≤ b)
    (turn : ∀ q s, q + k ≤ b → P q s → Ends (body q) s (fun _ t => P (q + k) t) E) (h : P a s) :
    Ends (wholeSteps k a b body) s (fun q t => P q t ∧ q ≤ b ∧ b - q < k) E :=
  ends_turnsWhole hk turn _ _ _ (Nat.le_refl _) hab h

end Steps

/-! ## 4. The states passed on the way -/

section Noted
variable {ε σ α β : Type}

/-- A call, and behind the states noted before it the one it leaves, returning or throwing. -/
def noted (x : EStateM ε σ α) : EStateM ε (σ × List σ) α := fun s =>
  match x s.1 with
  | .ok a t => .ok a (t, s.2 ++ [t])
  | .error e t => .error e (t, s.2 ++ [t])

/-- The state as it stands. -/
def seen : EStateM ε (σ × List σ) σ := fun s => .ok s.1 s

/-- Notes are added to those before, and the state is the last one added. -/
def Continues (s t : σ × List σ) : Prop := ∃ more, t.2 = s.2 ++ more ∧ t.1 = more.getLastD s.1

theorem Continues.refl (s : σ × List σ) : Continues s s := ⟨[], (List.append_nil _).symm, rfl⟩

theorem Continues.trans {s t u : σ × List σ} (hst : Continues s t) (htu : Continues t u) :
    Continues s u := by
  obtain ⟨l, hl, ht⟩ := hst
  obtain ⟨m, hm, hu⟩ := htu
  refine ⟨l ++ m, by rw [hm, hl, List.append_assoc], ?_⟩
  rw [hu, ht]
  cases m with
  | nil => rw [List.append_nil, List.getLastD_nil]
  | cons a m => simp [List.getLast?_append]

/-- **`y` is `x` without the notes**, of which the last is the state it leaves. -/
def Forgets (x : EStateM ε (σ × List σ) α) (y : EStateM ε σ α) : Prop :=
  ∀ s, Ends x s (fun a t => y s.1 = .ok a t.1 ∧ Continues s t) fun e t =>
    y s.1 = .error e t.1 ∧ Continues s t

theorem forgets_noted (x : EStateM ε σ α) : Forgets (noted x) x := by
  intro s
  unfold Ends noted
  cases x s.1 with
  | ok a t => exact ⟨rfl, [t], rfl, rfl⟩
  | error e t => exact ⟨rfl, [t], rfl, rfl⟩

theorem forgets_seen : Forgets (seen : EStateM ε (σ × List σ) σ) get := fun s => ⟨rfl, .refl s⟩

theorem forgets_pure (a : α) : Forgets (pure a : EStateM ε (σ × List σ) α) (pure a) :=
  fun s => ⟨rfl, .refl s⟩

theorem forgets_throw (e : ε) : Forgets (throw e : EStateM ε (σ × List σ) α) (throw e) :=
  fun s => ⟨rfl, .refl s⟩

theorem forgets_bind {x : EStateM ε (σ × List σ) α} {y : EStateM ε σ α}
    {f : α → EStateM ε (σ × List σ) β} {g : α → EStateM ε σ β} (hx : Forgets x y)
    (hf : ∀ a, Forgets (f a) (g a)) : Forgets (x >>= f) (y >>= g) := by
  intro s
  refine ends_bind ((hx s).mono (fun _ _ ht => ht) fun e t ht => ⟨?_, ht.2⟩) fun a t ht => ?_
  · show EStateM.bind y g s.1 = _
    unfold EStateM.bind
    rw [ht.1]
  · refine (hf a t).mono (fun b u hu => ⟨?_, ht.2.trans hu.2⟩) fun e u hu => ⟨?_, ht.2.trans hu.2⟩
    · show EStateM.bind y g s.1 = _
      unfold EStateM.bind
      rw [ht.1]
      exact hu.1
    · show EStateM.bind y g s.1 = _
      unfold EStateM.bind
      rw [ht.1]
      exact hu.1

theorem forgets_foldlM {body : β → α → EStateM ε (σ × List σ) β} {body' : β → α → EStateM ε σ β}
    (h : ∀ b a, Forgets (body b a) (body' b a)) :
    ∀ (xs : List α) (b : β), Forgets (xs.foldlM body b) (xs.foldlM body' b)
  | [], b => forgets_pure b
  | a :: xs, b => by
      rw [List.foldlM_cons, List.foldlM_cons]
      exact forgets_bind (h b a) fun b' => forgets_foldlM h xs b'

theorem forgets_turnsWhole {k b : Nat} {body : Nat → EStateM ε (σ × List σ) Unit}
    {body' : Nat → EStateM ε σ Unit} (h : ∀ pos, Forgets (body pos) (body' pos)) :
    ∀ fuel pos, Forgets (turnsWhole k b body fuel pos) (turnsWhole k b body' fuel pos)
  | 0, pos => forgets_pure pos
  | fuel + 1, pos => by
      unfold turnsWhole
      split
      · exact forgets_bind (h pos) fun _ => forgets_turnsWhole h fuel (pos + k)
      · exact forgets_pure pos

theorem forgets_wholeSteps {k a b : Nat} {body : Nat → EStateM ε (σ × List σ) Unit}
    {body' : Nat → EStateM ε σ Unit} (h : ∀ pos, Forgets (body pos) (body' pos)) :
    Forgets (wholeSteps k a b body) (wholeSteps k a b body') :=
  forgets_turnsWhole h _ _

variable {s : σ} {notes : List σ} {x : EStateM ε σ α} {Q : α → σ → Prop} {E : ε → σ → Prop}
  {I : σ → Prop}

/-- **What a run with notes leaves**, the run without them leaves. -/
theorem Forgets.ends {y : EStateM ε (σ × List σ) α} (h : Forgets y x)
    (hy : Ends y (s, notes) (fun a t => Q a t.1) fun e t => E e t.1) : Ends x s Q E := by
  have hs := h (s, notes)
  unfold Ends at hs hy ⊢
  cases hrun : y (s, notes) with
  | ok a t =>
      rw [hrun] at hs hy
      rw [hs.1]
      exact hy
  | error e t =>
      rw [hrun] at hs hy
      rw [hs.1]
      exact hy

/-- What the noted run returns says of what the run returns. -/
theorem Forgets.ok {y : EStateM ε (σ × List σ) α} (h : Forgets y x) {P : α → σ × List σ → Prop}
    {F : ε → σ × List σ → Prop} (hy : Ends y (s, notes) P F) (hPQ : ∀ a t, P a t → Q a t.1) {a : α}
    {t : σ} (hx : x s = .ok a t) : Q a t := by
  have hends : Ends x s Q fun _ _ => True := h.ends (hy.mono hPQ fun _ _ _ => trivial)
  exact hends.ok hx

/-- **The rule of `noted`**: what all states left by the call satisfy is kept of the notes. -/
theorem ends_noted (h : Ends x s Q E) (hnotes : ∀ t ∈ notes, I t) (hQ : ∀ a t, Q a t → I t)
    (hE : ∀ e t, E e t → I t) : Ends (noted x) (s, notes) (fun a t => Q a t.1 ∧ ∀ u ∈ t.2, I u)
      fun e t => E e t.1 ∧ ∀ u ∈ t.2, I u := by
  have hmore {t : σ} (ht : I t) : ∀ u ∈ notes ++ [t], I u := by
    intro u hu
    rcases List.mem_append.mp hu with hu | hu
    · exact hnotes u hu
    · rwa [List.mem_singleton.mp hu]
  unfold Ends at h ⊢
  unfold noted
  dsimp only
  cases hx : x s with
  | ok a t =>
      rw [hx] at h
      exact ⟨h, hmore (hQ a t h)⟩
  | error e t =>
      rw [hx] at h
      exact ⟨h, hmore (hE e t h)⟩

/-- The state seen is the one the rest starts from. -/
theorem ends_bind_seen {g : σ → EStateM ε (σ × List σ) β} {R : β → σ × List σ → Prop}
    {F : ε → σ × List σ → Prop} (h : Ends (g s) (s, notes) R F) :
    Ends (seen >>= g) (s, notes) R F := h

end Noted

end XstdBits
