import Mathlib.Logic.Relation
import Foks.Lib.Except

/-!
# Programs that ask their surroundings

A program that reads and writes a store that others use as well, or that depends on a party that
may say anything, is a tree: it asks a question and goes on with the answer, until it returns or
fails. What an answer may be, and what a question does to the store, is a relation. A tree can be run
alone, stopped after any of its questions, and interleaved with others.

## Main definitions

* `Prog Q A ε α`: programs that ask questions of type `Q` and return an `α` or fail with an `ε`
* `Prog.Runs R p s res s'`: the program runs from the state `s` to its end
* `Prog.Returns p res`: the program has the result `res` for some answers
* `Prog.Stops R p s last s'`: the program is stopped in the state `s'`, after a question
* `Pact`, `Prog.Meets R pact p post s`: whatever others do meanwhile, as the pact allows it, the
  program keeps its side of the pact and ends as `post` says

## Main results

* `Prog.runs_bind`: the runs of a sequence
* `Prog.meets_bind`, `Prog.meets_call`: the rules for sequences and single questions
* `Prog.Runs.meets`, `Prog.Stops.meets`: what holds after a program that runs alone
-/

namespace Foks.Lib

open Option

/-- A program that asks questions `q : Q`, with answers of type `A q`. -/
inductive Prog (Q : Type) (A : Q → Type) (ε α : Type) where
  | done (res : Except ε α)
  | ask (q : Q) (k : A q → Prog Q A ε α)

namespace Prog

variable {Q : Type} {A : Q → Type} {ε α β : Type} {σ : Type}

def bind (f : α → Prog Q A ε β) : Prog Q A ε α → Prog Q A ε β
  | done (.ok a) => f a
  | done (.error e) => done (.error e)
  | ask q k => ask q fun a => bind f (k a)

instance : Monad (Prog Q A ε) where
  pure a := done (.ok a)
  bind x f := bind f x

/-- A computation that asks nothing. -/
instance : MonadLift (Except ε) (Prog Q A ε) where
  monadLift x := done x

/-- One question. -/
def call (q : Q) : Prog Q A ε (A q) := ask q fun a => done (.ok a)

def fail (e : ε) : Prog Q A ε α := done (.error e)

/-- The result of a program that has ended. -/
def ended : Prog Q A ε α → Option (Except ε α)
  | done res => some res
  | ask _ _ => none

variable {p : Prog Q A ε α}

theorem eq_done_of_ended {res : Except ε α} (h : p.ended = some res) : p = done res := by
  cases p with
  | done res' => exact congrArg done (some.inj h)
  | ask q k => cases h

/-- The early return of a method: `if c { return e }`. -/
def refuse (c : Prop) [Decidable c] (e : ε) : Prog Q A ε Unit := if c then fail e else pure ()

/-! ## Running a program alone -/

section Runs

variable (R : (q : Q) → σ → A q → σ → Prop) {res : Except ε α} {x : Prog Q A ε α} {f : (q : Q) → σ → A q × σ}
  {I : σ → Prop} {ok : Q → Prop}

/-- The program runs from `s` to its end: it has the result `res` and leaves `s'`. -/
inductive Runs : Prog Q A ε α → σ → Except ε α → σ → Prop
  | done (res : Except ε α) (s : σ) : Runs (done res) s res s
  | ask {q : Q} {k : A q → Prog Q A ε α} {s s₁ s' : σ} {a : A q} {res : Except ε α} :
      R q s a s₁ → Runs (k a) s₁ res s' → Runs (ask q k) s res s'

/-- The program runs from `s` and is stopped in `s'`, right after the question `last` if it has asked
one. -/
inductive Stops : Prog Q A ε α → σ → Option Q → σ → Prop
  | here (p : Prog Q A ε α) (s : σ) : Stops p s none s
  | ask {q : Q} {k : A q → Prog Q A ε α} {s s₁ s' : σ} {a : A q} {last : Option Q} :
      R q s a s₁ → Stops (k a) s₁ last s' → Stops (ask q k) s (some (last.getD q)) s'

variable {R} {s s' : σ}

@[simp] theorem runs_done {res' : Except ε α} : Runs R (done res : Prog Q A ε α) s res' s' ↔
    res' = res ∧ s' = s := by
  constructor
  · rintro ⟨⟩
    exact ⟨rfl, rfl⟩
  · rintro ⟨rfl, rfl⟩
    exact .done ..

@[simp] theorem runs_pure {a : α} : Runs R (pure a : Prog Q A ε α) s res s' ↔ res = .ok a ∧ s' = s :=
  runs_done

@[simp] theorem runs_lift {x : Except ε α} : Runs R (liftM x : Prog Q A ε α) s res s' ↔ res = x ∧ s' = s :=
  runs_done

@[simp] theorem runs_fail {e : ε} : Runs R (fail e : Prog Q A ε α) s res s' ↔ res = .error e ∧ s' = s :=
  runs_done

theorem runs_ask {q : Q} {k : A q → Prog Q A ε α} :
    Runs R (ask q k) s res s' ↔ ∃ a s1, R q s a s1 ∧ Runs R (k a) s1 res s' := by
  constructor
  · rintro ⟨⟩
    next hstep hrest => exact ⟨_, _, hstep, hrest⟩
  · rintro ⟨a, s1, hstep, hrest⟩
    exact .ask hstep hrest

@[simp] theorem runs_call {q : Q} {res : Except ε (A q)} :
    Runs R (call q : Prog Q A ε (A q)) s res s' ↔ ∃ a, res = .ok a ∧ R q s a s' := by
  rw [call, runs_ask]
  constructor
  · rintro ⟨a, s1, hstep, hrest⟩
    obtain ⟨rfl, rfl⟩ := runs_done.mp hrest
    exact ⟨a, rfl, hstep⟩
  · rintro ⟨a, rfl, hstep⟩
    exact ⟨a, s', hstep, .done ..⟩

theorem runs_call_bind {q : Q} {f : A q → Prog Q A ε β} {res : Except ε β} :
    Runs R (call q >>= f) s res s' ↔ ∃ a s1, R q s a s1 ∧ Runs R (f a) s1 res s' := runs_ask

/-- A sequence runs its parts one after the other, and fails with the first. -/
theorem runs_bind {f : α → Prog Q A ε β} {res : Except ε β} : Runs R (x >>= f) s res s' ↔
      (∃ a s1, Runs R x s (.ok a) s1 ∧ Runs R (f a) s1 res s') ∨ ∃ e, Runs R x s (.error e) s' ∧
          res = .error e := by
  induction x generalizing s with
  | done r =>
    cases r with
    | error e =>
      refine (runs_done (Q := Q) (A := A)).trans ?_
      constructor
      · rintro ⟨rfl, rfl⟩
        exact .inr ⟨e, .done .., rfl⟩
      · rintro (⟨a, s1, hx, -⟩ | ⟨e', hx, rfl⟩)
        · cases hx
        · cases hx
          exact ⟨rfl, rfl⟩
    | ok a =>
      constructor
      · exact fun h => .inl ⟨a, s, .done .., h⟩
      · rintro (⟨a', s1, hx, h⟩ | ⟨e, hx, -⟩)
        · cases hx
          exact h
        · cases hx
  | ask q k ih =>
    change Runs R (ask q fun a => k a >>= f) s res s' ↔ _
    simp only [runs_ask, ih]
    constructor
    · rintro ⟨a, s1, hstep, ⟨b, s2, hx, hf⟩ | ⟨e, hx, rfl⟩⟩
      · exact .inl ⟨b, s2, ⟨a, s1, hstep, hx⟩, hf⟩
      · exact .inr ⟨e, ⟨a, s1, hstep, hx⟩, rfl⟩
    · rintro (⟨b, s2, ⟨a, s1, hstep, hx⟩, hf⟩ | ⟨e, ⟨a, s1, hstep, hx⟩, rfl⟩)
      · exact ⟨a, s1, hstep, .inl ⟨b, s2, hx, hf⟩⟩
      · exact ⟨a, s1, hstep, .inr ⟨e, hx, rfl⟩⟩

theorem runs_bind_ok {f : α → Prog Q A ε β} {b : β} : Runs R (x >>= f) s (.ok b) s' ↔
      ∃ a s1, Runs R x s (.ok a) s1 ∧ Runs R (f a) s1 (.ok b) s' := by
  rw [runs_bind]
  simp

@[simp] theorem runs_refuse_ok {c : Prop} [Decidable c] {e : ε} {u : Unit} :
    Runs R (refuse c e : Prog Q A ε Unit) s (.ok u) s' ↔ ¬ c ∧ s' = s := by
  unfold refuse
  split
  · next h => simp [h]
  · next h => simp [h]

/-- The program has the result if its questions get some answers, be they true or not. -/
def Returns (p : Prog Q A ε α) (res : Except ε α) : Prop :=
  Runs (fun _ (_ : Unit) _ _ => True) p () res ()

/-- All questions of the program are of a kind. -/
def Asks (ok : Q → Prop) : Prog Q A ε α → Prop
  | done _ => True
  | ask q k => ok q ∧ ∀ a, Asks ok (k a)

section Asks

variable {f : α → Prog Q A ε β}

@[simp] theorem asks_pure (a : α) : (pure a : Prog Q A ε α).Asks ok := trivial

@[simp] theorem asks_lift (x : Except ε α) : (liftM x : Prog Q A ε α).Asks ok := trivial

@[simp] theorem asks_fail (e : ε) : (fail e : Prog Q A ε α).Asks ok := trivial

@[simp] theorem asks_refuse (c : Prop) [Decidable c] (e : ε) : (refuse c e : Prog Q A ε Unit).Asks ok := by
  unfold refuse
  split <;> trivial

@[simp] theorem asks_call {q : Q} : (call q : Prog Q A ε (A q)).Asks ok ↔ ok q :=
  ⟨fun h => h.1, fun h => ⟨h, fun _ => trivial⟩⟩

theorem Asks.mono {ok' : Q → Prop} (h : p.Asks ok) (hok : ∀ q, ok q → ok' q) : p.Asks ok' := by
  induction p with
  | done res => trivial
  | ask q k ih => exact ⟨hok q h.1, fun a => ih a (h.2 a)⟩

theorem asks_bind (hx : x.Asks ok) (hf : ∀ a, (f a).Asks ok) : (x >>= f).Asks ok := by
  induction x with
  | done res =>
    cases res with
    | ok a => exact hf a
    | error e => trivial
  | ask q k ih => exact ⟨hx.1, fun a => ih a (hx.2 a)⟩

theorem asks_bind_lift {x : Except ε α} (hf : ∀ a, x = .ok a → (f a).Asks ok) :
    ((liftM x : Prog Q A ε α) >>= f).Asks ok := by
  cases x with
  | ok a => exact hf a rfl
  | error e => trivial

end Asks

/-- The run of a program with answers that are computed. -/
def exec (f : (q : Q) → σ → A q × σ) : Prog Q A ε α → σ → Except ε α × σ
  | done res, s => (res, s)
  | ask q k, s => exec f (k (f q s).1) (f q s).2

theorem runs_exec (hf : ∀ q s, R q s (f q s).1 (f q s).2) (p : Prog Q A ε α) (s : σ) :
    Runs R p s (exec f p s).1 (exec f p s).2 := by
  induction p generalizing s with
  | done res => exact .done ..
  | ask q k ih => exact .ask (hf q s) (ih _ _)

theorem returns_of_exec {f : (q : Q) → A q}
    (h : (exec (fun q (_ : Unit) => (f q, ())) p ()).1 = res) : p.Returns res :=
  h ▸ runs_exec (fun _ _ => trivial) p ()

/-- The program is stopped after some questions, with answers that are computed. -/
def stopAfter (f : (q : Q) → σ → A q × σ) : ℕ → Prog Q A ε α → σ → Option Q × σ
  | 0, _, s => (none, s)
  | _ + 1, done _, s => (none, s)
  | n + 1, ask q k, s =>
    let rest := stopAfter f n (k (f q s).1) (f q s).2
    (some (rest.1.getD q), rest.2)

theorem stops_stopAfter (hf : ∀ q s, R q s (f q s).1 (f q s).2) (n : ℕ) (p : Prog Q A ε α) (s : σ) :
    Stops R p s (stopAfter f n p s).1 (stopAfter f n p s).2 := by
  induction n generalizing p s with
  | zero => exact .here p s
  | succ n ih =>
    cases p with
    | done res => exact .here _ s
    | ask q k => exact .ask (hf q s) (ih _ _)

/-- What every question of the program keeps, a run keeps. -/
theorem Runs.invariant (hstep : ∀ q s a s', ok q → R q s a s' → I s → I s')
    (h : Runs R p s res s') (hp : p.Asks ok) (hs : I s) : I s' := by
  induction h with
  | done res s => exact hs
  | ask hq _ ih => exact ih (hp.2 _) (hstep _ _ _ _ hp.1 hq hs)

theorem Stops.invariant (hstep : ∀ q s a s', ok q → R q s a s' → I s → I s')
    {last : Option Q} (h : Stops R p s last s') (hp : p.Asks ok) (hs : I s) : I s' := by
  induction h with
  | here p s => exact hs
  | ask hq _ ih => exact ih (hp.2 _) (hstep _ _ _ _ hp.1 hq hs)

/-! ### A record of some questions -/

/-- The answers of `R`, with a record of what the questions note. -/
def Recorded {τ : Type} (R : (q : Q) → σ → A q → σ → Prop) (note : Q → List τ) (q : Q)
    (s : σ × List τ) (a : A q) (s' : σ × List τ) : Prop :=
  R q s.1 a s'.1 ∧ s'.2 = s.2 ++ note q

/-- Answers that are computed, with the record. -/
def record {τ : Type} (f : (q : Q) → σ → A q × σ) (note : Q → List τ) (q : Q) (s : σ × List τ) :
    A q × (σ × List τ) :=
  ((f q s.1).1, (f q s.1).2, s.2 ++ note q)

section Recorded

variable {τ : Type} {note : Q → List τ} {t t' : σ × List τ}

theorem Runs.of_recorded
    (h : Runs (Recorded R note) p t res t') : Runs R p t.1 res t'.1 := by
  induction h with
  | done res t => exact .done ..
  | ask hq _ ih => exact .ask hq.1 ih

theorem Stops.of_recorded {last : Option Q}
    (h : Stops (Recorded R note) p t last t') : Stops R p t.1 last t'.1 := by
  induction h with
  | here p t => exact .here ..
  | ask hq _ ih => exact .ask hq.1 ih

end Recorded

end Runs

end Prog

/-! ## Programs among others -/

/-- What a program and the others agree on: what holds between two questions, what the others do
meanwhile, what the program does, and after which questions it is not interrupted. -/
structure Pact (Q σ : Type) where
  inv : σ → Prop
  rely : σ → σ → Prop
  guar : σ → σ → Prop
  holds : Q → Bool

namespace Prog

variable {Q : Type} {A : Q → Type} {ε α β : Type} {σ : Type}

section Meets

variable (R : (q : Q) → σ → A q → σ → Prop) (P : Pact Q σ) {p : Prog Q A ε α} {post : σ → Except ε α → Prop}

/-- From `s` on the program keeps its side of the pact, and ends as `post` says. -/
def Meets : Prog Q A ε α → (σ → Except ε α → Prop) → σ → Prop
  | done res, post, s => post s res
  | ask q k, post, s => ∀ a s₁, R q s a s₁ → P.guar s s₁ ∧
      if P.holds q then Meets (k a) post s₁
      else P.inv s₁ ∧ ∀ s₂, P.inv s₂ → P.rely s₁ s₂ → Meets (k a) post s₂

variable {R P} {s s' : σ}

/-- What comes after a question may be something else. -/
theorem Meets.ask {q : Q} {k : A q → Prog Q A ε α} {k' : A q → Prog Q A ε β} {post' : σ → Except ε β → Prop}
    (h : Meets R P (ask q k) post s) (hk : ∀ a s1, Meets R P (k a) post s1 → Meets R P (k' a) post' s1) :
    Meets R P (.ask q k') post' s := by
  intro a s1 hstep
  obtain ⟨hguar, hrest⟩ := h a s1 hstep
  refine ⟨hguar, ?_⟩
  split at hrest
  · next hq =>
    rw [if_pos hq]
    exact hk a s1 hrest
  · next hq =>
    rw [if_neg hq]
    exact ⟨hrest.1, fun s2 hinv hrely => hk a s2 (hrest.2 s2 hinv hrely)⟩

theorem Meets.mono {post' : σ → Except ε α → Prop} (h : Meets R P p post s)
    (hpost : ∀ s res, post s res → post' s res) : Meets R P p post' s := by
  induction p generalizing s with
  | done res => exact hpost s res h
  | ask q k ih => exact h.ask fun a _ => ih a

theorem meets_lift {x : Except ε α} (h : post s x) : Meets R P (liftM x : Prog Q A ε α) post s := h

theorem meets_refuse {c : Prop} [Decidable c] {e : ε} {post : σ → Except ε Unit → Prop}
    (herror : c → post s (.error e)) (hok : ¬ c → post s (.ok ())) :
    Meets R P (refuse c e : Prog Q A ε Unit) post s := by
  unfold refuse
  split
  · next h => exact herror h
  · next h => exact hok h

/-- The rule for sequences. -/
theorem meets_bind {x : Prog Q A ε α} {f : α → Prog Q A ε β} {post : σ → Except ε β → Prop}
    (h : Meets R P x (fun s1 res => match res with
      | .ok a => Meets R P (f a) post s1
      | .error e => post s1 (.error e)) s) : Meets R P (x >>= f) post s := by
  induction x generalizing s with
  | done res =>
    cases res with
    | ok a | error e => exact h
  | ask q k ih => exact h.ask fun a _ => ih a

/-- The rule for a question after which others may go on. -/
theorem meets_call {q : Q} {post : σ → Except ε (A q) → Prop} (hq : P.holds q = false)
    (h : ∀ a s1, R q s a s1 → P.guar s s1 ∧ P.inv s1 ∧ ∀ s2, P.inv s2 → P.rely s1 s2 → post s2 (.ok a)) :
    Meets R P (call q : Prog Q A ε (A q)) post s := by
  intro a s1 hstep
  rw [hq]
  exact h a s1 hstep

/-- A program that only asks, and that nobody disturbs, ends where it has begun. -/
theorem meets_of_asks {reads : Q → Prop} (hp : p.Asks reads)
    (hreads : ∀ q, reads q → P.holds q = false ∧ ∀ s a s', R q s a s' → s' = s)
    (hrely : ∀ s s', P.rely s s' → s' = s) (hguar : P.guar s s) (hinv : P.inv s) :
    Meets R P p (fun s' res => s' = s ∧ Runs R p s res s) s := by
  induction p with
  | done res => exact ⟨rfl, .done ..⟩
  | ask q k ih =>
    intro a s1 hstep
    obtain ⟨hq, hsame⟩ := hreads q hp.1
    obtain rfl := hsame s a s1 hstep
    refine ⟨hguar, ?_⟩
    rw [hq]
    refine ⟨hinv, fun s2 _ hrely' => ?_⟩
    obtain rfl := hrely s1 s2 hrely'
    exact (ih a (hp.2 a)).mono fun s' res h => ⟨h.1, .ask hstep h.2⟩

/-- A program that runs alone ends as it should. -/
theorem Runs.meets {res : Except ε α} (h : Runs R p s res s') (hrefl : ∀ s, P.rely s s)
    (hmeets : Meets R P p post s) : post s' res := by
  induction h with
  | done res s => exact hmeets
  | @ask q k s s1 s' a res hstep _ ih =>
    obtain ⟨-, hrest⟩ := hmeets a s1 hstep
    split at hrest
    · exact ih hrest
    · exact ih (hrest.2 s1 hrest.1 (hrefl s1))

theorem Stops.eq_of_none (h : Stops R p s none s') : s' = s := by
  generalize hlast : (none : Option Q) = last at h
  cases h with
  | here p s => rfl
  | ask hstep hstops => cases hlast

/-- A program that is stopped, but not where it holds, leaves what others rely on. -/
theorem Stops.meets {q : Q} (h : Stops R p s (some q) s') (hrefl : ∀ s, P.rely s s)
    (hmeets : Meets R P p post s) (hq : P.holds q = false) : P.inv s' := by
  generalize hlast : some q = last at h
  induction h with
  | here p s => cases hlast
  | @ask q' k s s1 s' a last hstep hstops ih =>
    obtain ⟨-, hrest⟩ := hmeets a s1 hstep
    have hnext : Meets R P (k a) post s1 := by
      split at hrest
      · exact hrest
      · exact hrest.2 s1 hrest.1 (hrefl s1)
    cases last with
    | none =>
      obtain rfl := hstops.eq_of_none
      obtain rfl := some.inj hlast
      rw [hq] at hrest
      exact hrest.1
    | some q'' => exact ih hnext hlast

end Meets

end Prog

end Foks.Lib
