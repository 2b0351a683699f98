import Foks.Lib.Action

/-!
# Attempts that are repeated

A method is tried again after an error that may go away, a bounded number of times, on the same
object. What a failed attempt has changed is still there in the next one, unless it is reset in
between.

## Main results

* `retry_eq`: after repeated attempts, the outcome is that of the last one, on the object that they
  have left
* `Repeated.invariant`: what one repeated attempt keeps, all of them keep
-/

namespace Foks.Lib

variable {σ ε α ρ : Type} {step : ρ → σ → σ → Prop}

/-- At most `n` attempts are repeated. Each attempt has an input of its own, and `last` is the last
input that there is. -/
def retry (again : ε → Bool) (reset : σ → σ) (x : ρ → Action σ ε α) : ℕ → List ρ → ρ → Action σ ε α
  | _, [], last => x last
  | 0, r :: _, _ => x r
  | n + 1, r :: rs, last => fun s =>
    match x r s with
    | (.ok a, s') => (.ok a, s')
    | (.error e, s') =>
      if again e then retry again reset x n rs last (reset s') else (.error e, s')

/-- Repeated attempts, one for each input; a step is an attempt and the reset after it. -/
inductive Repeated (step : ρ → σ → σ → Prop) : List ρ → σ → σ → Prop
  | nil (s : σ) : Repeated step [] s s
  | cons {r : ρ} {rs : List ρ} {s s₁ s' : σ} (h : step r s s₁) (hrest : Repeated step rs s₁ s') :
      Repeated step (r :: rs) s s'

/-- The attempts that are repeated matter through the object that they leave. -/
theorem retry_eq {again : ε → Bool} {reset : σ → σ} {x : ρ → Action σ ε α}
    (hstep : ∀ r s s', step r s s' → ∃ e t, x r s = (.error e, t) ∧ again e ∧ s' = reset t)
    {n : ℕ} {rs : List ρ} {last : ρ} {s s' : σ} (h : Repeated step rs s s') (hn : rs.length ≤ n) :
    retry again reset x n rs last s = x last s' := by
  induction h generalizing n with
  | nil s => cases n <;> rfl
  | @cons r rs s s1 s' hfirst hrest ih =>
    obtain ⟨e, t, hx, hagain, rfl⟩ := hstep r s s1 hfirst
    cases n with
    | zero => exact absurd hn (Nat.not_succ_le_zero rs.length)
    | succ n =>
      simp only [retry, hx, hagain]
      exact ih (Nat.le_of_succ_le_succ hn)

/-- The invariant may speak of the inputs that were used up. -/
theorem Repeated.invariant {I : List ρ → σ → Prop}
    (hstep : ∀ used r s s', I used s → step r s s' → I (used ++ [r]) s') {rs used : List ρ} {s s' : σ}
    (h : Repeated step rs s s') (hs : I used s) : I (used ++ rs) s' := by
  induction h generalizing used with
  | nil s => rwa [List.append_nil]
  | @cons r rs s s1 s' hfirst hrest ih =>
    have hnext := ih (hstep used r s s1 hs hfirst)
    rwa [List.append_assoc] at hnext

end Foks.Lib
