import Foks.Lib.Action

/-!
# Transactions with an uncertain outcome

A client of a database sends a transaction and waits for the answer. If the answer is lost, or if the
client stops before it arrives, the transaction may have been committed or not. So a transaction has
one of three fates, and the client cannot tell the last two apart. A transaction whose body fails is
rolled back whatever its fate.

## Main results

* `transact_cases`: it leaves the state alone, or does what its body does
* `Action.Follows.bind`: methods that follow a preorder one after the other
-/

namespace Foks.Lib

variable {σ τ ε α : Type}

/-- What becomes of a transaction. -/
inductive Fate where
  | done
  | unsure
  | lost
  deriving DecidableEq, Repr

/-- A transaction on a database of type `σ`. -/
def transact (fate : Fate) (cut : ε) (f : σ → Except ε σ) : Action σ ε Unit := fun s =>
  match f s with
  | .error e => (.error e, s)
  | .ok s' =>
    match fate with
    | .done => (.ok (), s')
    | .unsure => (.error cut, s')
    | .lost => (.error cut, s)

/-- The state after a transaction is the one before, or the one after its body. -/
theorem transact_cases (fate : Fate) (cut : ε) (f : σ → Except ε σ) (s : σ) :
    (transact fate cut f s).2 = s ∨ f s = .ok (transact fate cut f s).2 := by
  unfold transact
  cases hf : f s with
  | error e => exact .inl rfl
  | ok t =>
    cases fate
    exacts [.inr rfl, .inr rfl, .inl rfl]

/-- A transaction that was not cut off reports what its body does. -/
theorem transact_done (cut : ε) (f : σ → Except ε σ) (s : σ) : transact .done cut f s = match f s with
      | .error e => (.error e, s)
      | .ok s' => (.ok (), s') := rfl

namespace Action

/-- The method `x` with a deferred function that changes the state when the method fails. -/
def onError (f : σ → σ) (x : Action σ ε α) : Action σ ε α := fun s =>
  match x s with
  | (.ok a, s') => (.ok a, s')
  | (.error e, s') => (.error e, f s')

/-- Whether it fails or not, the method takes every state to a related one. -/
def Follows (R : σ → σ → Prop) (x : Action σ ε α) : Prop := ∀ s, R s (x s).2

section Follows

variable {β : Type} {R : σ → σ → Prop} [Std.Refl R]

theorem Follows.pure (a : α) : Follows R (Pure.pure a : Action σ ε α) := fun s => refl_of R s

theorem Follows.fail (e : ε) : Follows R (Action.fail e : Action σ ε α) := fun s => refl_of R s

theorem Follows.read (f : σ → α) : Follows R (Action.read f : Action σ ε α) := fun s => refl_of R s

omit [Std.Refl R] in
theorem Follows.bind [IsTrans σ R] {x : Action σ ε α} {f : α → Action σ ε β} (hx : Follows R x)
    (hf : ∀ a, Follows R (f a)) : Follows R (x >>= f) := by
  intro s
  have hfirst := hx s
  rw [bind_apply]
  rcases hxs : x s with ⟨e | a, s'⟩ <;> rw [hxs] at hfirst
  · exact hfirst
  · exact trans_of R hfirst (hf a s')

/-- A transaction on a part of the state follows a preorder if its body does. -/
theorem Follows.within_transact {get : σ → τ} {set : τ → σ → σ} {fate : Fate} {cut : ε}
    {f : τ → Except ε τ} (hget : ∀ s, set (get s) s = s)
    (hf : ∀ s t, f (get s) = .ok t → R s (set t s)) :
    Follows R (within get set (transact fate cut f)) := by
  intro s
  show R s (set (transact fate cut f (get s)).2 s)
  rcases transact_cases fate cut f (get s) with h | h
  · rw [h, hget]
    exact refl_of R s
  · exact hf s _ h

end Follows

end Action

end Foks.Lib
