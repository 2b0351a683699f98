import Mathlib.Tactic.Common

/-!
# Methods that change their object and may fail

A method of an object returns an error or a value, and what it changed before an error stays
changed. An action is such a method: a function from states to a result and a state.

## Main results

* `Action.bind_eq_ok`, `Action.bind_eq_error`: when a sequence of actions succeeds or fails, and
  in which state
* `Action.Avoids.bind`: a sequence avoids an error if its parts do
-/

namespace Foks.Lib

/-- A method of an object of type `σ`, with an error of type `ε` or a value of type `α`. -/
def Action (σ ε α : Type) := σ → Except ε α × σ

namespace Action

variable {σ τ ε α β : Type} {s s' : σ} {get : σ → τ} {set : τ → σ → σ} {x : Action τ ε α} {c : Prop} {e : ε}
  {f : α → Action σ ε β} {b : β}

instance : Monad (Action σ ε) where
  pure a := fun s => (.ok a, s)
  bind x f := fun s =>
    match x s with
    | (.ok a, s') => f a s'
    | (.error e, s') => (.error e, s')

/-- A computation that does not look at the state. -/
instance : MonadLift (Except ε) (Action σ ε) where
  monadLift x := fun s => (x, s)

def update (f : σ → σ) : Action σ ε Unit := fun s => (.ok (), f s)

def read (f : σ → α) : Action σ ε α := fun s => (.ok (f s), s)

def fail (e : ε) : Action σ ε α := fun s => (.error e, s)

/-- The early return of a method: `if c { return e }`. -/
def refuse (c : Prop) [Decidable c] (e : ε) : Action σ ε Unit :=
  if c then fail e else pure ()

/-- An action on a part of the state. -/
def within (get : σ → τ) (set : τ → σ → σ) (x : Action τ ε α) : Action σ ε α := fun s =>
  let (res, t) := x (get s)
  (res, set t s)

@[simp] theorem pure_apply (a : α) (s : σ) : (pure a : Action σ ε α) s = (.ok a, s) := rfl

@[simp] theorem update_apply (f : σ → σ) (s : σ) : (update f : Action σ ε Unit) s = (.ok (), f s) :=
  rfl

@[simp] theorem read_apply (f : σ → α) (s : σ) : (read f : Action σ ε α) s = (.ok (f s), s) := rfl

@[simp] theorem fail_apply (e : ε) (s : σ) : (fail e : Action σ ε α) s = (.error e, s) := rfl

@[simp] theorem lift_apply (x : Except ε α) (s : σ) : (liftM x : Action σ ε α) s = (x, s) := rfl

theorem within_eq {r : Except ε α} {t : τ} (h : x (get s) = (r, t)) : within get set x s = (r, set t s) := by
  rw [within, h]

theorem within_eq_ok {a : α} : within get set x s = (.ok a, s') ↔ ∃ t, x (get s) = (.ok a, t) ∧
    s' = set t s := by
  rcases hx : x (get s) with ⟨r, t⟩
  rw [within_eq hx, Prod.mk.injEq]
  constructor
  · rintro ⟨rfl, rfl⟩
    exact ⟨t, rfl, rfl⟩
  · rintro ⟨t', ht, rfl⟩
    obtain ⟨rfl, rfl⟩ := Prod.mk.inj ht
    exact ⟨rfl, rfl⟩

theorem lift_eq_ok {x : Except ε α} {a : α} : (liftM x : Action σ ε α) s = (.ok a, s') ↔
    x = .ok a ∧ s' = s := by
  rw [lift_apply, Prod.mk.injEq, eq_comm (b := s')]

theorem refuse_eq_ok [Decidable c] {u : Unit} : (refuse c e : Action σ ε Unit) s = (.ok u, s') ↔
    ¬ c ∧ s' = s := by
  unfold refuse
  split
  · next h => simp [h]
  · next h => simp [h, eq_comm]

theorem refuse_of_not [Decidable c] (h : ¬ c) : (refuse c e : Action σ ε Unit) s = (.ok (), s) := by
  rw [refuse, if_neg h, pure_apply]

theorem bind_apply (x : Action σ ε α) (f : α → Action σ ε β) (s : σ) : (x >>= f) s = match x s with
      | (.ok a, s') => f a s'
      | (.error e, s') => (.error e, s') := rfl

variable {x : Action σ ε α}

theorem bind_eq_ok :
    (x >>= f) s = (.ok b, s') ↔ ∃ a s1, x s = (.ok a, s1) ∧ f a s1 = (.ok b, s') := by
  rw [bind_apply]
  rcases x s with ⟨e | a, s1⟩
  · simp
  · simp

theorem exists_of_fst_bind (h : ((x >>= f) s).1 = .ok b) : ∃ a s1, x s = (.ok a, s1) := by
  obtain ⟨a, s1, hx, -⟩ := bind_eq_ok.mp (Prod.ext h rfl)
  exact ⟨a, s1, hx⟩

/-- The first step only looks at the state, or only changes it. -/
theorem read_bind_eq_ok {g : σ → α} : (read g >>= f) s = (.ok b, s') ↔ f (g s) s = (.ok b, s') := .rfl

theorem update_bind_eq_ok {g : σ → σ} {f : Unit → Action σ ε β} :
    (update g >>= f) s = (.ok b, s') ↔ f () (g s) = (.ok b, s') := .rfl

theorem lift_bind_eq_ok {x : Except ε α} :
    ((liftM x : Action σ ε α) >>= f) s = (.ok b, s') ↔ ∃ a, x = .ok a ∧ f a s = (.ok b, s') := by
  rw [bind_apply]
  cases x <;> simp

theorem refuse_bind_eq_ok [Decidable c] {f : Unit → Action σ ε β} :
    (refuse c e >>= f) s = (.ok b, s') ↔ ¬ c ∧ f () s = (.ok b, s') := by
  unfold refuse
  by_cases h : c
  · simp [h, bind_apply]
  · simp [h, bind_apply]

theorem refuse_bind_eq_error [Decidable c] {e' : ε} {f : Unit → Action σ ε β} :
    (refuse c e >>= f) s = (.error e', s') ↔ c ∧ e' = e ∧ s' = s ∨ ¬ c ∧ f () s = (.error e', s') := by
  unfold refuse
  by_cases h : c
  · simp [h, bind_apply, eq_comm]
  · simp [h, bind_apply]

theorem bind_eq_error : (x >>= f) s = (.error e, s') ↔
      x s = (.error e, s') ∨ ∃ a s1, x s = (.ok a, s1) ∧ f a s1 = (.error e, s') := by
  rw [bind_apply]
  rcases x s with ⟨e' | a, s1⟩
  · simp
  · simp

/-- The action does not fail with this error. -/
def Avoids (e : ε) (x : Action σ ε α) (s : σ) : Prop := (x s).1 ≠ .error e

section Avoids

/-- A sequence avoids an error if its first action does, and the second one in all states in which the
first one can end. -/
theorem Avoids.bind (hx : Avoids e x s)
    (hf : ∀ a s', x s = (.ok a, s') → Avoids e (f a) s') : Avoids e (x >>= f) s := by
  intro h
  rcases bind_eq_error.mp (Prod.ext h rfl) with hfail | ⟨a, s', hok, hfail⟩
  · exact hx (congrArg Prod.fst hfail)
  · exact hf a s' hok (congrArg Prod.fst hfail)

theorem avoids_pure (a : α) : Avoids e (pure a) s := nofun

theorem avoids_update (f : σ → σ) : Avoids e (update f) s := nofun

theorem avoids_fail {e' : ε} (h : e' ≠ e) : Avoids e (fail e' : Action σ ε α) s :=
  fun heq => h (Except.error.inj heq)

theorem avoids_lift {x : Except ε α} (h : x ≠ .error e) : Avoids e (liftM x : Action σ ε α) s := h

theorem avoids_refuse [Decidable c] {e' : ε} (h : e' ≠ e) : Avoids e (refuse c e' : Action σ ε Unit) s := by
  unfold refuse
  split
  · exact avoids_fail h
  · exact avoids_pure ()

end Avoids

end Action

end Foks.Lib
