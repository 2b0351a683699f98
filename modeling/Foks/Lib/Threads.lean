import Foks.Lib.Prog

/-!
# Threads that own parts of a state

Programs that share a state, as in `Foks.Lib.Interleave`, where each thread may own a part of the state
that the others leave alone: what it holds a lock for, what it has claimed by a flag. What a thread
relies on therefore depends on the thread. Threads are started at any time and any number of times, and
a crash ends all of them.

## Main results

* `Threads.Sound.reaches`: what holds in every state that threads reach which keep their pacts
-/

namespace Foks.Lib

open Function

variable {Q : Type} {A : Q → Type} {ε α σ : Type}

/-! ## Failures as values -/

namespace Prog

/-- The program, with its failure as a value. -/
def tried : Prog Q A ε α → Prog Q A ε (Except ε α)
  | done res => done (.ok res)
  | ask q k => ask q fun a => tried (k a)

variable {R : (q : Q) → σ → A q → σ → Prop} {P : Pact Q σ} {s : σ}

theorem meets_tried {x : Prog Q A ε α} {post : σ → Except ε (Except ε α) → Prop}
    (h : Meets R P x (fun s res => post s (.ok res)) s) : Meets R P x.tried post s := by
  induction x generalizing s with
  | done res => exact h
  | ask q k ih => exact h.ask fun a _ => ih a

/-! ### Runs that are computed -/

/-- The run of a program with answers that are computed, if there is one to each of its questions. -/
def tryExec (f : (q : Q) → σ → Option (A q × σ)) : Prog Q A ε α → σ → Option (Except ε α × σ)
  | done res, s => some (res, s)
  | ask q k, s =>
    match f q s with
    | none => none
    | some (a, s₁) => tryExec f (k a) s₁

theorem runs_of_tryExec {f : (q : Q) → σ → Option (A q × σ)}
    (hf : ∀ q s a s', f q s = some (a, s') → R q s a s') {p : Prog Q A ε α} {res : Except ε α} {s' : σ}
    (h : tryExec f p s = some (res, s')) : Runs R p s res s' := by
  induction p generalizing s with
  | done res' =>
    cases h
    exact .done ..
  | ask q k ih =>
    unfold tryExec at h
    split at h
    · cases h
    · next a s1 hstep => exact .ask (hf q s a s1 hstep) (ih a h)

end Prog

/-! ## Pacts -/

/-- What all threads keep, what thread `i` relies on, what it does, and that it owns nothing. -/
structure Pacts (σ : Type) where
  inv : σ → Prop
  rely : ℕ → σ → σ → Prop
  guar : ℕ → σ → σ → Prop
  idle : ℕ → σ → Prop

namespace Pacts

variable (P : Pacts σ)

/-- The pact of thread `i`. It may be interrupted after every question. -/
def of (Q : Type) (i : ℕ) : Pact Q σ := ⟨P.inv, P.rely i, P.guar i, fun _ => false⟩

/-- Each thread may rely on what the others do. -/
structure Fair : Prop where
  refl (i : ℕ) (s : σ) : P.rely i s s
  trans {i : ℕ} {s₁ s₂ s₃ : σ} : P.rely i s₁ s₂ → P.rely i s₂ s₃ → P.rely i s₁ s₃
  guar {i j : ℕ} {s₁ s₂ : σ} : i ≠ j → P.guar i s₁ s₂ → P.rely j s₁ s₂
  idle {i : ℕ} {s₁ s₂ : σ} : P.idle i s₁ → P.rely i s₁ s₂ → P.idle i s₂

end Pacts

/-! ## Threads -/

/-- The programs of all threads, and the state they share. A thread that has nothing to do is one that
has ended. -/
structure Threads (Q : Type) (A : Q → Type) (ε σ : Type) where
  progs : ℕ → Prog Q A ε Unit
  state : σ

namespace Threads

/-- No thread has anything to do. -/
def quiet (s : σ) : Threads Q A ε σ := ⟨fun _ => .done (.ok ()), s⟩

variable (R : ℕ → (q : Q) → σ → A q → σ → Prop) (ops : Set (Prog Q A ε Unit)) (crash : σ → σ)
  {res : Except ε Unit}

inductive Step : Threads Q A ε σ → Threads Q A ε σ → Prop
  | start {c : Threads Q A ε σ} {i : ℕ} {res : Except ε Unit} {p : Prog Q A ε Unit} :
      c.progs i = .done res → p ∈ ops → Step c ⟨update c.progs i p, c.state⟩
  | ask {c : Threads Q A ε σ} {i : ℕ} {q : Q} {k : A q → Prog Q A ε Unit} {a : A q} {s : σ} :
      c.progs i = .ask q k → R i q c.state a s → Step c ⟨update c.progs i (k a), s⟩
  | crash {c : Threads Q A ε σ} : Step c (quiet (crash c.state))

def Reaches : Threads Q A ε σ → Threads Q A ε σ → Prop := Relation.ReflTransGen (Step R ops crash)

/-- The state keeps the invariant, and each thread keeps its pact from here on, whatever the others do
first. -/
structure Sound (P : Pacts σ) (c : Threads Q A ε σ) : Prop where
  inv : P.inv c.state
  meets (i : ℕ) (s : σ) : P.inv s → P.rely i c.state s →
    (c.progs i).Meets (R i) (P.of Q i) (fun s _ => P.idle i s) s

variable {R ops crash} {P : Pacts σ} {c c' : Threads Q A ε σ}

theorem Reaches.mono {R' : ℕ → (q : Q) → σ → A q → σ → Prop}
    (h : Reaches R ops crash c c') (hR : ∀ i q s a s', R i q s a s' → R' i q s a s') :
    Reaches R' ops crash c c' := by
  induction h with
  | refl => exact .refl
  | tail _ hstep ih =>
    refine ih.tail ?_
    cases hstep with
    | start hdone hp => exact .start hdone hp
    | ask hask hq => exact .ask hask (hR _ _ _ _ _ hq)
    | crash => exact .crash

section Sound

variable (hfair : P.Fair)
  (hops : ∀ p ∈ ops, ∀ i s, P.inv s → P.idle i s → p.Meets (R i) (P.of Q i) (fun s _ => P.idle i s) s)
  (hcrash : ∀ s, P.inv s → P.inv (crash s) ∧ ∀ i, P.idle i (crash s)) (h : c.Sound R P)

include hfair hops hcrash h

theorem Sound.step (hstep : Step R ops crash c c') : c'.Sound R P := by
  cases hstep with
  | @start i res p hdone hp =>
    refine ⟨h.inv, fun j s hinv hrely => ?_⟩
    dsimp only
    by_cases hj : j = i
    · subst hj
      rw [update_self]
      -- a thread that has ended owns nothing
      have hidle := h.meets j c.state h.inv (hfair.refl j c.state)
      rw [hdone] at hidle
      exact hops p hp j s hinv (hfair.idle hidle hrely)
    · rw [update_of_ne hj]
      exact h.meets j s hinv hrely
  | @ask i q k a s hask hq =>
    have hmeets := h.meets i c.state h.inv (hfair.refl i c.state)
    rw [hask] at hmeets
    obtain ⟨hguar, hinv, hnext⟩ := hmeets a s hq
    refine ⟨hinv, fun j s' hinv' hrely => ?_⟩
    dsimp only
    by_cases hj : j = i
    · subst hj
      rw [update_self]
      exact hnext s' hinv' hrely
    · rw [update_of_ne hj]
      exact h.meets j s' hinv' (hfair.trans (hfair.guar (Ne.symm hj) hguar) hrely)
  | crash =>
    obtain ⟨hinv, hidle⟩ := hcrash c.state h.inv
    exact ⟨hinv, fun i s _ hrely => hfair.idle (hidle i) hrely⟩

theorem Sound.reaches (hrun : Reaches R ops crash c c') : c'.Sound R P := by
  induction hrun with
  | refl => exact h
  | tail _ hstep ih => exact ih.step hfair hops hcrash hstep

end Sound

theorem sound_quiet (hfair : P.Fair) {s : σ} (hinv : P.inv s) (hidle : ∀ i, P.idle i s) :
    (quiet s : Threads Q A ε σ).Sound R P :=
  ⟨hinv, fun i _ _ hrely => hfair.idle (hidle i) hrely⟩

/-! ### One thread alone -/

/-- A thread runs its program to its end. -/
theorem Reaches.of_runs {i : ℕ} {p : Prog Q A ε Unit} {s s' : σ}
    (h : p.Runs (R i) s res s') : ∀ progs : ℕ → Prog Q A ε Unit, progs i = p →
      Reaches R ops crash ⟨progs, s⟩ ⟨update progs i (.done res), s'⟩ := by
  induction h with
  | done res s =>
    intro progs hp
    rw [← hp, update_eq_self]
    exact .refl
  | @ask q k s s1 s' a res hq _ ih =>
    intro progs hp
    have hrest := ih (update progs i (k a)) (update_self ..)
    rw [update_idem] at hrest
    exact .head (.ask hp hq) hrest

/-- The state after programs that run one after the other. -/
def runOps (f : (q : Q) → σ → Option (A q × σ)) : List (Prog Q A ε Unit) → σ → Option σ
  | [], s => some s
  | p :: ps, s =>
    match p.tryExec f s with
    | none => none
    | some (_, s₁) => runOps f ps s₁

theorem reaches_runOps {i : ℕ} {f : (q : Q) → σ → Option (A q × σ)}
    (hf : ∀ q s a s', f q s = some (a, s') → R i q s a s') {ps : List (Prog Q A ε Unit)} {s s' : σ}
    (hps : ∀ p ∈ ps, p ∈ ops) (h : runOps f ps s = some s') (progs : ℕ → Prog Q A ε Unit)
    (hi : progs i = .done res) :
    ∃ progs', Reaches R ops crash ⟨progs, s⟩ ⟨progs', s'⟩ := by
  induction ps generalizing s progs res with
  | nil =>
    cases h
    exact ⟨progs, .refl⟩
  | cons p ps ih =>
    unfold runOps at h
    split at h
    · cases h
    · next res' s1 hrun =>
      obtain ⟨progs', hreaches⟩ := ih (fun p' hp' => hps p' (List.mem_cons_of_mem p hp')) h
        (update (update progs i p) i (.done res')) (update_self ..)
      have hp : Reaches R ops crash ⟨update progs i p, s⟩ _ :=
        Reaches.of_runs (Prog.runs_of_tryExec hf hrun) _ (update_self ..)
      exact ⟨progs', .head (.start hi (hps p List.mem_cons_self)) (hp.trans hreaches)⟩

end Threads

end Foks.Lib
