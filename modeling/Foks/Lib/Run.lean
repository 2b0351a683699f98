import Foks.Lib.Except
import Mathlib.Data.List.Induction

/-!
# Runs of a server

A server answers one request after the other. A request that fails leaves the state as it was,
so a run is a left fold over the requests. A condition on the requests of a run may speak of the
state that each of them meets.

## Main results

* `attempt_invariant`: what successful requests keep, all requests keep
* `serve_invariant`: what such requests keep, the run keeps
* `foldlM_along`: the same for a run in which all requests succeed
* `serve_alike`: servers that answer each request alike stay related along every run
* `accepted_alike`: and they accept the same requests
* `run_forall_iff`: a condition on the requests that is exact for one step is exact for whole runs
-/

namespace Foks.Lib

open List

variable {σ α ε τ : Type} {f : σ → α → Except ε σ} {P : σ → Prop} {s : σ} {ok : σ → α → Prop} {l : List α}

variable (f s)

/-- The state after a request: a failed request changes nothing. -/
def attempt (a : α) : σ :=
  match f s a with
  | .ok s' => s'
  | .error _ => s

/-- The state after a sequence of requests. -/
def serve (l : List α) : σ := l.foldl (attempt f) s

variable {f s}

/-- The requests of a run that succeed. -/
def accepted (f : σ → α → Except ε σ) : σ → List α → List α
  | _, [] => []
  | s, a :: l =>
    match f s a with
    | .ok s' => a :: accepted f s' l
    | .error _ => accepted f s l

/-- Every request of a run meets the condition `ok` in the state it finds. -/
def Along (f : σ → α → Except ε σ) (ok : σ → α → Prop) : σ → List α → Prop
  | _, [] => True
  | s, a :: l => ok s a ∧ Along f ok (attempt f s a) l

theorem attempt_invariant {a : α} (hstep : ∀ s', f s a = .ok s' → P s') (hs : P s) : P (attempt f s a) := by
  unfold attempt
  split
  · next s' h => exact hstep s' h
  · exact hs

/-- A condition on the requests alone holds along every run of such requests. -/
theorem Along.and {Q : α → Prop} (h : Along f ok s l) (hQ : ∀ a ∈ l, Q a) :
    Along f (fun s a => ok s a ∧ Q a) s l := by
  induction l generalizing s with
  | nil => trivial
  | cons a l ih =>
    exact ⟨⟨h.1, hQ a mem_cons_self⟩, ih h.2 fun b hb => hQ b (mem_cons_of_mem a hb)⟩

theorem serve_invariant (hstep : ∀ s a s', ok s a → P s → f s a = .ok s' → P s') (hrun : Along f ok s l)
    (hs : P s) : P (serve f s l) := by
  induction l generalizing s with
  | nil => exact hs
  | cons a l ih =>
    have hnext := attempt_invariant (fun s' h => hstep s a s' hrun.1 hs h) hs
    exact ih hrun.2 hnext

/-- What the requests keep that meet a condition, a run of them keeps in which all succeed. -/
theorem foldlM_along (hstep : ∀ s a s', ok s a → P s → f s a = .ok s' → P s') {s' : σ}
    (halong : Along f ok s l) (hs : P s) (hrun : l.foldlM f s = .ok s') : P s' := by
  induction l generalizing s with
  | nil =>
    cases hrun
    exact hs
  | cons a l ih =>
    obtain ⟨s1, ha, hrest⟩ := bind_eq_ok.mp hrun
    obtain ⟨hok, halong⟩ := halong
    rw [attempt, ha] at halong
    exact ih halong (hstep s a s1 hok hs ha) hrest

instance Along.instDecidable {f : σ → α → Except ε σ} {ok : σ → α → Prop} [∀ s a, Decidable (ok s a)] :
    ∀ (s : σ) (l : List α), Decidable (Along f ok s l)
  | _, [] => inferInstanceAs (Decidable True)
  | s, a :: l =>
    have : Decidable (Along f ok (attempt f s a) l) := Along.instDecidable (attempt f s a) l
    inferInstanceAs (Decidable (ok s a ∧ Along f ok (attempt f s a) l))

/-- Both results are states related by `R`, or both are the same error. -/
def Alike {τ : Type} (R : σ → τ → Prop) : Except ε σ → Except ε τ → Prop
  | .ok s, .ok t => R s t
  | .error e, .error e' => e = e'
  | _, _ => False

variable {R : σ → τ → Prop} {x : Except ε σ} {y : Except ε τ} {g : τ → α → Except ε τ}

theorem Alike.mono {R' : σ → τ → Prop} (h : Alike R x y) (hR : ∀ s t, R s t → R' s t) : Alike R' x y := by
  cases x <;> cases y
  exacts [h, h.elim, h.elim, hR _ _ h]

theorem Alike.exists_ok_iff (h : Alike R x y) : (∃ s, x = .ok s) ↔ ∃ t, y = .ok t := by
  cases x <;> cases y
  exacts [iff_of_false (fun ⟨_, h⟩ => nomatch h) (fun ⟨_, h⟩ => nomatch h), h.elim, h.elim,
    iff_of_true ⟨_, rfl⟩ ⟨_, rfl⟩]

/-- A forward simulation: a server and its specification, which fail on the same requests. -/
theorem serve_alike (hstep : ∀ s t a, R s t → Alike R (f s a) (g t a)) {t : τ} (h : R s t) (l : List α) :
    R (serve f s l) (serve g t l) := by
  induction l generalizing s t with
  | nil => exact h
  | cons a l ih =>
    refine ih ?_
    have hnext := hstep s t a h
    unfold attempt
    cases hf : f s a <;> cases hg : g t a <;> rw [hf, hg] at hnext
    exacts [h, hnext.elim, hnext.elim, hnext]

theorem accepted_alike (hstep : ∀ s t a, R s t → Alike R (f s a) (g t a)) {t : τ} (h : R s t) (l : List α) :
    accepted f s l = accepted g t l := by
  induction l generalizing s t with
  | nil => rfl
  | cons a l ih =>
    have hnext := hstep s t a h
    unfold accepted
    cases hf : f s a <;> cases hg : g t a <;> rw [hf, hg] at hnext
    exacts [ih h, hnext.elim, hnext.elim, congrArg (a :: ·) (ih hnext)]

/-- In a run whose requests all succeed: if `Q` is what a request has to meet for its step to keep `P`,
then `P` holds in every state of the run exactly when every request meets `Q`. -/
theorem run_forall_iff {Q : σ → α → Prop} (hstep : ∀ s a s', P s → f s a = .ok s' → (P s' ↔ Q s a)) {s' : σ}
    (hs : P s) (hrun : l.foldlM f s = .ok s') :
    (∀ l1 l2 s1, l = l1 ++ l2 → l1.foldlM f s = .ok s1 → P s1) ↔
      ∀ l1 a l2 s1, l = l1 ++ a :: l2 → l1.foldlM f s = .ok s1 → Q s1 a := by
  constructor
  · rintro h l1 a l2 s1 rfl hl1
    rw [append_cons, foldlM_append] at hrun
    obtain ⟨s2, hnext, -⟩ := bind_eq_ok.mp hrun
    have ha : f s1 a = .ok s2 := by
      rw [foldlM_append] at hnext
      obtain ⟨_, hfirst, hlast⟩ := bind_eq_ok.mp hnext
      obtain ⟨_, ha, hret⟩ := bind_eq_ok.mp hlast
      cases hret
      cases hl1.symm.trans hfirst
      exact ha
    have hP1 : P s1 := h l1 (a :: l2) s1 rfl hl1
    have hP2 : P s2 := h (l1 ++ [a]) l2 s2 (by simp) hnext
    exact (hstep s1 a s2 hP1 ha).mp hP2
  · intro h l1
    induction l1 using reverseRecOn with
    | nil =>
      intro l2 s1 _ hs1
      exact Except.ok.inj hs1 ▸ hs
    | append_singleton l1 a ih =>
      intro l2 s2 hl hs2
      rw [foldlM_append] at hs2
      obtain ⟨s1, hs1, ha⟩ := bind_eq_ok.mp hs2
      obtain ⟨s2', ha, hret⟩ := bind_eq_ok.mp ha
      cases hret
      rw [append_assoc] at hl
      exact (hstep s1 a s2 (ih (a :: l2) s1 hl hs1) ha).mpr (h l1 a l2 s1 hl hs1)

end Foks.Lib
