/-
  File: XstdBits/Lib/Follows.lean
  Subject: an action that returns whatever another returns, wherever a property of the state holds.

  * `Follows P x y`: from every state with `P`, where `x` returns so does `y`, the same and leaving
    the same state, and that state has `P` again. It is how an action is shown not to depend on
    something it is handed: where the poorer hand suffices, the richer one changes nothing.
  * one rule for each way actions are put together: a sequence, a choice, a walk over a list, a loop
    of whole steps, an action undone where it throws.
  With `y` the action itself, `Follows P x x` says that `P` survives every return of it.
-/
import XstdBits.Lib.Outcome

namespace XstdBits

variable {ε σ α β : Type}

/-- **Where `x` returns, so does `y`**, the same from the same state, and `P` survives. -/
def Follows (P : σ → Prop) (x y : EStateM ε σ α) : Prop :=
  ∀ s, P s → ∀ a t, x s = .ok a t → y s = .ok a t ∧ P t

section Rules
variable {P : σ → Prop} {x y : EStateM ε σ α} {f g : α → EStateM ε σ β}

theorem follows_pure (a : α) : Follows P (pure a : EStateM ε σ α) (pure a) := by
  intro s hs b t h
  cases h
  exact ⟨rfl, hs⟩

/-- An action that never returns is followed by any. -/
theorem follows_throw (e : ε) : Follows P (throw e : EStateM ε σ α) y := by
  intro s hs b t h
  cases h

/-- An action that leaves the state as it is follows itself. -/
theorem follows_of_still (h : ∀ s a t, x s = .ok a t → t = s) : Follows P x x := by
  intro s hs a t hx
  refine ⟨hx, ?_⟩
  rw [h s a t hx]
  exact hs

theorem follows_modify {u : σ → σ} (hu : ∀ s, P s → P (u s)) :
    Follows P (modify u : EStateM ε σ Unit) (modify u) := by
  intro s hs b t h
  cases h
  exact ⟨rfl, hu s hs⟩

/-- **The rule of a sequence.** -/
theorem follows_bind (hx : Follows P x y) (hf : ∀ a, Follows P (f a) (g a)) :
    Follows P (x >>= f) (y >>= g) := by
  intro s hs b u h
  have h : EStateM.bind x f s = .ok b u := h
  show EStateM.bind y g s = .ok b u ∧ P u
  unfold EStateM.bind at h ⊢
  cases hxs : x s with
  | error e t =>
      rw [hxs] at h
      cases h
  | ok a t =>
      rw [hxs] at h
      obtain ⟨hys, ht⟩ := hx s hs a t hxs
      rw [hys]
      exact hf a t ht b u h

/-- The rest is handed the state it starts from. -/
theorem follows_bind_get {f g : σ → EStateM ε σ β} (h : ∀ s, Follows P (f s) (g s)) :
    Follows P (get >>= f) (get >>= g) := fun s hs => h s s hs

theorem follows_ite {c : Prop} [Decidable c] {x' y' : EStateM ε σ α} (h : Follows P x y)
    (h' : Follows P x' y') : Follows P (if c then x else x') (if c then y else y') := by
  split
  · exact h
  · exact h'

/-- **The rule of `onThrow`**: what returns was not undone. -/
theorem follows_onThrow {u v : EStateM ε σ Unit} (h : Follows P x y) :
    Follows P (onThrow x u) (onThrow y v) := by
  intro s hs b w hok
  unfold onThrow at hok ⊢
  cases hx : x s with
  | ok a t =>
      rw [hx] at hok
      cases hok
      obtain ⟨hy, ht⟩ := h s hs b w hx
      rw [hy]
      exact ⟨rfl, ht⟩
  | error e t =>
      simp only [hx] at hok
      split at hok <;> cases hok

/-- **The rule of a walk over a list.** -/
theorem follows_foldlM {body body' : β → α → EStateM ε σ β}
    (h : ∀ b a, Follows P (body b a) (body' b a)) :
    ∀ (xs : List α) (b : β), Follows P (xs.foldlM body b) (xs.foldlM body' b)
  | [], b => follows_pure b
  | a :: xs, b => by
      rw [List.foldlM_cons, List.foldlM_cons]
      exact follows_bind (h b a) fun b => follows_foldlM h xs b

theorem follows_turnsWhole {k b : Nat} {body body' : Nat → EStateM ε σ Unit}
    (h : ∀ q, Follows P (body q) (body' q)) :
    ∀ fuel pos : Nat, Follows P (turnsWhole k b body fuel pos) (turnsWhole k b body' fuel pos)
  | 0, pos => follows_pure pos
  | fuel + 1, pos => by
      unfold turnsWhole
      exact follows_ite (follows_bind (h pos) fun _ => follows_turnsWhole h fuel (pos + k))
        (follows_pure pos)

/-- **The rule of a loop of whole steps.** -/
theorem follows_wholeSteps {k a b : Nat} {body body' : Nat → EStateM ε σ Unit}
    (h : ∀ q, Follows P (body q) (body' q)) :
    Follows P (wholeSteps k a b body) (wholeSteps k a b body') := follows_turnsWhole h _ _

end Rules

end XstdBits
