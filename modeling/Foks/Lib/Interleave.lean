import Foks.Lib.Prog

/-!
# Programs that share a state

Some programs run at once on one state; a schedule picks the one that asks its next question. If each of
them keeps its side of a pact, and none is interrupted after a question that holds, each of them ends as
it should.

## Main results

* `Prog.gives_bind`, `Prog.gives_call`: the rules for programs that do not fail
* `System.Sound.reaches`, `System.Sound.done`: each program of a system ends as it should
-/

namespace Foks.Lib

variable {Q : Type} {A : Q → Type} {ε α β σ : Type}

/-! ## Systems -/

/-- Programs that share a state. The program `busy` has asked a question that holds. -/
structure System (Q : Type) (A : Q → Type) (ε α σ : Type) where
  threads : List (Prog Q A ε α)
  state : σ
  busy : Option ℕ := none

namespace System

variable (R : (q : Q) → σ → A q → σ → Prop)

inductive Step (holds : Q → Bool) : System Q A ε α σ → ℕ → System Q A ε α σ → Prop
  | ask {c : System Q A ε α σ} {i : ℕ} {q : Q} {k : A q → Prog Q A ε α} {a : A q} {s : σ} :
      c.threads[i]? = some (.ask q k) → R q c.state a s →
      Step holds c i ⟨c.threads.set i (k a), s, if holds q then some i else none⟩

/-- The program that is scheduled does not interrupt another one. -/
def Waits (c : System Q A ε α σ) (i : ℕ) : Prop := ∀ j ∈ c.busy, j = i

/-- The steps of a schedule, each of which is `ok`. -/
def Reaches (holds : Q → Bool) (ok : System Q A ε α σ → ℕ → Prop) : System Q A ε α σ →
    System Q A ε α σ → Prop :=
  Relation.ReflTransGen fun c c' => ∃ i, ok c i ∧ Step R holds c i c'

variable {R}

theorem Reaches.mono {holds : Q → Bool} {ok ok' : System Q A ε α σ → ℕ → Prop}
    {c c' : System Q A ε α σ} (h : c.Reaches R holds ok c') (hok : ∀ c i, ok c i → ok' c i) :
    c.Reaches R holds ok' c' := by
  induction h with
  | refl => exact .refl
  | tail _ hstep ih =>
    obtain ⟨i, hi, hstep⟩ := hstep
    exact ih.tail ⟨i, hok _ i hi, hstep⟩

end System

/-! ## The pact of a system -/

namespace Prog

variable {R : (q : Q) → σ → A q → σ → Prop} {P : Pact Q σ}

/-- The program was left in a state that the others may have changed since. -/
def Ready (R : (q : Q) → σ → A q → σ → Prop) (P : Pact Q σ) (p : Prog Q A ε α)
    (post : σ → Except ε α → Prop) (s : σ) : Prop :=
  ∃ s₀, P.inv s₀ ∧ P.rely s₀ s ∧ ∀ s₁, P.inv s₁ → P.rely s₀ s₁ → Meets R P p post s₁

end Prog

/-- Each program may rely on what the others do. -/
structure Pact.Fair (P : Pact Q σ) : Prop where
  refl (s : σ) : P.rely s s
  trans {s₁ s₂ s₃ : σ} : P.rely s₁ s₂ → P.rely s₂ s₃ → P.rely s₁ s₃
  guar {s₁ s₂ : σ} : P.guar s₁ s₂ → P.rely s₁ s₂

namespace System

variable {R : (q : Q) → σ → A q → σ → Prop} {P : Pact Q σ}
  {post : σ → Except ε α → Prop} {c c' : System Q A ε α σ}

/-- All programs are ready, or one of them is between two questions and the others are ready. -/
structure Sound (R : (q : Q) → σ → A q → σ → Prop) (P : Pact Q σ) (post : σ → Except ε α → Prop)
    (c : System Q A ε α σ) : Prop where
  free : c.busy = none → P.inv c.state
  busy (i : ℕ) : c.busy = some i → ∀ p, c.threads[i]? = some p → p.Meets R P post c.state
  ready (j : ℕ) : c.busy ≠ some j → ∀ p, c.threads[j]? = some p → p.Ready R P post c.state

/-- The program that is scheduled is at a state that it can go on from. -/
theorem Sound.meets (h : c.Sound R P post) {i : ℕ} (hwaits : c.Waits i)
    {p : Prog Q A ε α} (hp : c.threads[i]? = some p) : p.Meets R P post c.state := by
  by_cases hbusy : c.busy = some i
  · exact h.busy i hbusy p hp
  have hfree : c.busy = none := by
    cases hj : c.busy with
    | none => rfl
    | some j => exact absurd (hj.trans (congrArg some (hwaits j hj))) hbusy
  obtain ⟨s0, -, hrely, hmeets⟩ := h.ready i hbusy p hp
  exact hmeets c.state (h.free hfree) hrely

theorem Sound.step (hfair : P.Fair) (h : c.Sound R P post) {i : ℕ} (hwaits : c.Waits i)
    (hstep : c.Step R P.holds i c') : c'.Sound R P post := by
  cases hstep with
  | @ask q k a s hthread hq =>
    obtain ⟨hguar, hrest⟩ := h.meets hwaits hthread a s hq
    have hrely := hfair.guar hguar
    have hself : ∀ p, (c.threads.set i (k a))[i]? = some p → p = k a := by
      intro p hp
      rw [List.getElem?_set_self (List.getElem?_eq_some_iff.mp hthread).1] at hp
      exact (Option.some.inj hp).symm
    -- the others only see that the state was changed as they rely on
    have hothers : ∀ j, j ≠ i → ∀ p, (c.threads.set i (k a))[j]? = some p → p.Ready R P post s := by
      intro j hne p hp
      rw [List.getElem?_set_ne hne.symm] at hp
      have hready : p.Ready R P post c.state := by
        refine h.ready j (fun hbusy => hne (hwaits j hbusy)) p hp
      obtain ⟨s0, hinv, hrely0, hmeets⟩ := hready
      exact ⟨s0, hinv, hfair.trans hrely0 hrely, hmeets⟩
    cases hholds : P.holds q with
    | true =>
      rw [hholds] at hrest
      refine ⟨nofun, ?_, fun j hj => hothers j fun heq => hj (heq ▸ rfl)⟩
      rintro _ ⟨⟩ p hp
      rw [hself p hp]
      exact hrest
    | false =>
      rw [hholds] at hrest
      refine ⟨fun _ => hrest.1, nofun, fun j _ p hp => ?_⟩
      by_cases hne : j = i
      · subst hne
        rw [hself p hp]
        exact ⟨s, hrest.1, hfair.refl s, hrest.2⟩
      · exact hothers j hne p hp

theorem Sound.reaches (hfair : P.Fair) (h : c.Sound R P post) (hrun : c.Reaches R P.holds Waits c') :
    c'.Sound R P post := by
  induction hrun with
  | refl => exact h
  | tail _ hstep ih =>
    obtain ⟨i, hwaits, hstep⟩ := hstep
    exact ih.step hfair hwaits hstep

/-- A program that has ended has ended as it should. -/
theorem Sound.done (hfair : P.Fair) (h : c.Sound R P post) {res : Except ε α}
    (hres : .done res ∈ c.threads) : ∃ s, post s res := by
  obtain ⟨i, hi⟩ := List.getElem?_of_mem hres
  by_cases hbusy : c.busy = some i
  · exact ⟨c.state, h.busy i hbusy _ hi⟩
  · obtain ⟨s0, hinv, -, hmeets⟩ := h.ready i hbusy _ hi
    exact ⟨s0, hmeets s0 hinv (hfair.refl s0)⟩

/-- Programs that keep a pact can start together. -/
theorem sound_of_meets (hfair : P.Fair) {threads : List (Prog Q A ε α)} {s : σ} (hinv : P.inv s)
    (hmeets : ∀ p ∈ threads, ∀ s, P.inv s → p.Meets R P post s) :
    Sound R P post ⟨threads, s, none⟩ where
  free _ := hinv
  busy _ h := nomatch h
  ready _ _ p hp :=
    ⟨s, hinv, hfair.refl s, fun s1 hinv1 _ => hmeets p (List.mem_of_getElem? hp) s1 hinv1⟩

/-! ### Schedules -/

/-- The system after a schedule whose steps are `ok`, with answers that are computed. -/
def play (f : (q : Q) → σ → Option (A q × σ)) (holds : Q → Bool) (ok : System Q A ε α σ → ℕ → Bool) :
    List ℕ → System Q A ε α σ → Option (System Q A ε α σ)
  | [], c => some c
  | i :: schedule, c =>
    match ok c i, c.threads[i]? with
    | true, some (.ask q k) => do
      let (a, s) ← f q c.state
      play f holds ok schedule ⟨c.threads.set i (k a), s, if holds q then some i else none⟩
    | _, _ => none

theorem reaches_play {f : (q : Q) → σ → Option (A q × σ)}
    (hf : ∀ q s a s', f q s = some (a, s') → R q s a s') {holds : Q → Bool}
    {ok : System Q A ε α σ → ℕ → Bool} {schedule : List ℕ}
    (h : play f holds ok schedule c = some c') : c.Reaches R holds (fun c i => ok c i = true) c' := by
  induction schedule generalizing c with
  | nil =>
    cases h
    exact .refl
  | cons i schedule ih =>
    unfold play at h
    split at h
    · next q k hok hthread =>
      obtain ⟨⟨a, s⟩, hstep, hrest⟩ := Option.bind_eq_some_iff.mp h
      exact (ih hrest).head ⟨i, hok, .ask hthread (hf q c.state a s hstep)⟩
    · cases h

end System

/-! ## Programs that do not fail -/

namespace Prog

variable {R : (q : Q) → σ → A q → σ → Prop} {P : Pact Q σ} {s : σ} {post : σ → α → Prop} {f : α → Prog Q A ε β}

/-- Among others, the program returns what `post` says. -/
def Gives (R : (q : Q) → σ → A q → σ → Prop) (P : Pact Q σ) (p : Prog Q A ε α) (post : σ → α → Prop)
    (s : σ) : Prop :=
  Meets R P p (fun s' res => P.inv s' ∧ P.rely s s' ∧ ∃ a, res = .ok a ∧ post s' a) s

theorem Gives.mono {p : Prog Q A ε α} {post' : σ → α → Prop} (h : Gives R P p post s)
    (hpost : ∀ s' a, P.inv s' → P.rely s s' → post s' a → post' s' a) : Gives R P p post' s :=
  Meets.mono h fun s' _ ⟨hinv, hrely, a, hres, ha⟩ => ⟨hinv, hrely, a, hres, hpost s' a hinv hrely ha⟩

theorem gives_bind_refuse {c : Prop} [Decidable c] {e : ε} {f : Unit → Prog Q A ε α}
    (hc : ¬ c) (h : Gives R P (f ()) post s) :
    Gives R P (refuse c e >>= f) post s := by
  rw [refuse, if_neg hc]
  exact h

theorem gives_bind_lift {x : Except ε α} {a : α} {post : σ → β → Prop} (hx : x = .ok a)
    (h : Gives R P (f a) post s) :
    Gives R P ((liftM x : Prog Q A ε α) >>= f) post s := by
  subst hx
  exact h

variable (hfair : P.Fair)

include hfair

theorem gives_pure {a : α} (hinv : P.inv s) (h : post s a) : Gives R P (pure a : Prog Q A ε α) post s :=
  ⟨hinv, hfair.refl s, a, rfl, h⟩

theorem gives_refuse {c : Prop} [Decidable c] {e : ε} {post : σ → Unit → Prop} (hc : ¬ c)
    (hinv : P.inv s) (h : post s ()) : Gives R P (refuse c e : Prog Q A ε Unit) post s := by
  rw [refuse, if_neg hc]
  exact gives_pure hfair hinv h

/-- The rule for sequences. -/
theorem gives_bind {x : Prog Q A ε α} {post' : σ → β → Prop} (hx : Gives R P x post s)
    (hf : ∀ s' a, P.inv s' → P.rely s s' → post s' a → Gives R P (f a) post' s') :
    Gives R P (x >>= f) post' s := by
  refine meets_bind (Meets.mono hx ?_)
  rintro s1 _ ⟨hinv, hrely, a, rfl, ha⟩
  refine Meets.mono (hf s1 a hinv hrely ha) ?_
  rintro s2 res ⟨hinv2, hrely2, hres⟩
  exact ⟨hinv2, hfair.trans hrely hrely2, hres⟩

/-- The rule for a question after which others may go on. -/
theorem gives_call {q : Q} {post : σ → A q → Prop} (hq : P.holds q = false)
    (h : ∀ a s1, R q s a s1 → P.guar s s1 ∧ P.inv s1 ∧ ∀ s2, P.inv s2 → P.rely s1 s2 → post s2 a) :
    Gives R P (call q : Prog Q A ε (A q)) post s := by
  refine meets_call hq fun a s1 hstep => ?_
  obtain ⟨hguar, hinv, hpost⟩ := h a s1 hstep
  exact ⟨hguar, hinv, fun s2 hinv2 hrely =>
    ⟨hinv2, hfair.trans (hfair.guar hguar) hrely, a, rfl, hpost s2 hinv2 hrely⟩⟩

end Prog

end Foks.Lib
