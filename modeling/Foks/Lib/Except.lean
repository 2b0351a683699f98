import Mathlib.Data.List.Forall2

/-!
# Checks that return early, and loops over lists

A function that returns an error or nothing is a computation in `Except`. An early return is
`refuse`, a loop of checks is `List.forM`, and a loop that only ever adds to a set is a left
fold whose membership is the union of the contributions of its steps.

## Main results

* `bind_eq_ok`: a sequence succeeds when its parts do
* `forM_eq_ok`, `mapM_eq_ok`: a loop succeeds when every turn does
* `foldl_iff`: membership in what a loop has collected
* `foldl_invariant`, `foldlM_invariant`: what one step keeps, a loop keeps
-/

namespace Foks.Lib

open List Except

variable {ε α β ε' σ : Type} {u : Unit} {f : α → Except ε β} {l : List α} {bs : List β} {x : Except ε α}

/-- The early return of a function with an error result: `if c { return e }`. -/
def refuse (c : Prop) [Decidable c] (e : ε) : Except ε Unit :=
  if c then .error e else .ok ()

variable {e : ε}

@[simp] theorem refuse_eq_ok {c : Prop} [Decidable c] : refuse c e = .ok u ↔ ¬ c := by
  unfold refuse
  split <;> simp_all

theorem of_refuse {c : Prop} [Decidable (¬ c)] (h : refuse (¬ c) e = .ok u) : c :=
    not_not.mp (refuse_eq_ok.mp h)

theorem bind_eq_ok {b : β} : (x >>= f) = .ok b ↔ ∃ a, x = .ok a ∧ f a = .ok b := by
  cases x with
  | error e | ok a => simp [bind, Except.bind]

theorem ok_unique {a b : α} (h : x = .ok a) (h' : x = .ok b) : a = b := ok.inj (h.symm.trans h')

/-- A run ends in one state. -/
theorem state_unique {x : α × σ} {a b : α} {s t : σ} (h : x = (a, s)) (h' : x = (b, t)) : s = t :=
  (Prod.mk.inj (h.symm.trans h')).2

/-- What follows a check that is not needed any more. -/
theorem of_bind_eq_ok {x : Except ε Unit} {f : Unit → Except ε β} {b : β} (h : (x >>= f) = .ok b) :
    f () = .ok b := by
  obtain ⟨⟨⟩, -, hrest⟩ := bind_eq_ok.mp h
  exact hrest

theorem bind_eq_error :
    (x >>= f) = .error e ↔ x = .error e ∨ ∃ a, x = .ok a ∧ f a = .error e := by
  cases x with
  | error e' | ok a => simp [bind, Except.bind]

theorem mapError_eq_error {f : ε → ε'} {e' : ε'} :
    x.mapError f = .error e' ↔ ∃ e, x = .error e ∧ f e = e' := by
  cases x <;> simp [Except.mapError]

theorem map_eq_ok {f : α → β} {b : β} : x.map f = .ok b ↔ ∃ a, x = .ok a ∧ f a = b := by
  cases x <;> simp [Except.map]

@[simp] theorem mapError_eq_ok {f : ε → ε'} {a : α} : x.mapError f = .ok a ↔ x = .ok a := by
  cases x <;> simp [Except.mapError]

theorem forM_eq_ok {f : α → Except ε Unit} : forM l f = .ok u ↔ ∀ a ∈ l, f a = .ok () := by
  induction l with
  | nil => simp [pure, Except.pure]
  | cons a l ih =>
    rw [forM_cons, bind_eq_ok]
    constructor
    · rintro ⟨⟨⟩, ha, hl⟩ b hb
      rcases mem_cons.mp hb with rfl | hb
      · exact ha
      · exact ih.mp hl b hb
    · intro h
      exact ⟨(), h a mem_cons_self, ih.mpr fun b hb => h b (mem_cons_of_mem a hb)⟩

theorem mapM_eq_ok (h : ∀ a ∈ l, ∃ b, f a = .ok b) : ∃ bs, l.mapM f = .ok bs := by
  induction l with
  | nil => exact ⟨[], rfl⟩
  | cons a l ih =>
    obtain ⟨b, hb⟩ := h a mem_cons_self
    obtain ⟨bs, hbs⟩ := ih fun a' ha' => h a' (mem_cons_of_mem a ha')
    exact ⟨b :: bs, by rw [mapM_cons, hb, hbs]; rfl⟩

/-- A loop that succeeds collects what its turns return. -/
theorem mapM_iff_forall₂ : l.mapM f = .ok bs ↔ List.Forall₂ (fun a b => f a = .ok b) l bs := by
  induction l generalizing bs with
  | nil =>
    rw [forall₂_nil_left_iff]
    exact ⟨fun h => (ok.inj h).symm, fun h => congrArg Except.ok h.symm⟩
  | cons a l ih =>
    simp only [mapM_cons, bind_eq_ok, forall₂_cons_left_iff, ih]
    constructor
    · rintro ⟨b, hb, bs', hbs, hres⟩
      exact ⟨b, bs', hb, hbs, (ok.inj hres).symm⟩
    · rintro ⟨b, bs', hb, hbs, rfl⟩
      exact ⟨b, hb, bs', hbs, rfl⟩

theorem exists_of_forall₂ {R : α → β → Prop} (h : List.Forall₂ R l bs) {b : β} (hb : b ∈ bs) :
    ∃ a ∈ l, R a b := by
  induction h with
  | nil => cases hb
  | cons hab _ ih =>
    rcases mem_cons.mp hb with rfl | hb
    · exact ⟨_, mem_cons_self, hab⟩
    · obtain ⟨a, ha, hR⟩ := ih hb
      exact ⟨a, mem_cons_of_mem _ ha, hR⟩

theorem mapM_eq_map {g : α → β} (h : ∀ a ∈ l, f a = .ok (g a)) : l.mapM f = .ok (l.map g) :=
  mapM_iff_forall₂.mpr (forall₂_map_right_iff.mpr (forall₂_same.mpr h))

/-- A loop whose turns can be told from what they return. -/
theorem mapM_iff_map {g : β → α} {P : β → Prop} (h : ∀ a b, f a = .ok b ↔ g b = a ∧ P b) :
    l.mapM f = .ok bs ↔ bs.map g = l ∧ ∀ b ∈ bs, P b := by
  simp only [mapM_iff_forall₂, h]
  induction bs generalizing l with
  | nil => simp
  | cons b bs ih =>
    rw [forall₂_cons_right_iff, forall_mem_cons]
    constructor
    · rintro ⟨a, l, ⟨rfl, hb⟩, hbs, rfl⟩
      obtain ⟨rfl, hbs'⟩ := ih.mp hbs
      exact ⟨rfl, hb, hbs'⟩
    · rintro ⟨rfl, hb, hbs⟩
      exact ⟨g b, bs.map g, ⟨rfl, hb⟩, ih.mpr ⟨rfl, hbs⟩, rfl⟩

/-- What a loop collects comes from its turns. -/
theorem exists_of_mem_mapM (h : l.mapM f = .ok bs) {b : β} (hb : b ∈ bs) : ∃ a ∈ l, f a = .ok b :=
  exists_of_forall₂ (mapM_iff_forall₂.mp h) hb

variable {P : σ → Prop}

/-- A loop whose every step adds the elements satisfying `C` collects them all. -/
theorem foldl_iff {C : α → Prop} {f : σ → α → σ} (hstep : ∀ s a, P (f s a) ↔ P s ∨ C a) (l : List α) (s : σ) :
    P (l.foldl f s) ↔ P s ∨ ∃ a ∈ l, C a := by
  induction l generalizing s with
  | nil => simp
  | cons a l ih =>
    rw [foldl_cons, ih, hstep]
    simp [or_assoc]

/-- The same for the successful steps of a loop that may fail. -/
theorem foldlM_iff {C : α → Prop} {f : σ → α → Except ε σ}
    (hstep : ∀ s a s', f s a = .ok s' → (P s' ↔ P s ∨ C a)) {s s' : σ} (h : l.foldlM f s = .ok s') :
    P s' ↔ P s ∨ ∃ a ∈ l, C a := by
  induction l generalizing s with
  | nil =>
    cases h
    simp
  | cons a l ih =>
    rw [foldlM_cons, bind_eq_ok] at h
    obtain ⟨s1, hfirst, hrest⟩ := h
    rw [ih hrest, hstep s a s1 hfirst]
    simp [or_assoc]

/-- An invariant of one step is an invariant of the loop. -/
theorem foldl_invariant {f : σ → α → σ}
    (hstep : ∀ s a, P s → P (f s a)) (l : List α) {s : σ} (hs : P s) : P (l.foldl f s) := by
  induction l generalizing s with
  | nil => exact hs
  | cons a l ih => exact ih (hstep s a hs)

/-- An invariant of every successful step is an invariant of a successful loop. -/
theorem foldlM_invariant {f : σ → α → Except ε σ}
    (hstep : ∀ a ∈ l, ∀ s s', f s a = .ok s' → P s → P s') {s s' : σ} (h : l.foldlM f s = .ok s') (hs : P s) :
    P s' := by
  induction l generalizing s with
  | nil => exact ok.inj h ▸ hs
  | cons a l ih =>
    rw [foldlM_cons, bind_eq_ok] at h
    obtain ⟨s1, hfirst, hrest⟩ := h
    exact ih (fun b hb => hstep b (mem_cons_of_mem a hb)) hrest (hstep a mem_cons_self s s1 hfirst hs)

/-! ## The errors of a computation -/

/-- Every error of a computation satisfies `P`. -/
def ErrorsIn (P : ε → Prop) (x : Except ε α) : Prop := ∀ e, x = .error e → P e

namespace ErrorsIn

variable {P : ε → Prop}

theorem ok (a : α) : ErrorsIn P (.ok a : Except ε α) := fun _ h => nomatch h

theorem error (h : P e) : ErrorsIn P (.error e : Except ε α) := by
  rintro e' ⟨⟩
  exact h

theorem refuse {c : Prop} [Decidable c] (h : P e) : ErrorsIn P (Lib.refuse c e) := by
  unfold Lib.refuse
  split
  · exact error h
  · exact ok ()

theorem bind (hx : ErrorsIn P x)
    (hf : ∀ a, x = .ok a → ErrorsIn P (f a)) : ErrorsIn P (x >>= f) := by
  intro e he
  rcases bind_eq_error.mp he with hfirst | ⟨a, ha, hrest⟩
  · exact hx e hfirst
  · exact hf a ha e hrest

theorem forM {f : α → Except ε Unit} (h : ∀ a ∈ l, ErrorsIn P (f a)) : ErrorsIn P (forM l f) := by
  induction l with
  | nil => exact ok ()
  | cons a l ih =>
    rw [forM_cons]
    exact bind (h a mem_cons_self) fun _ _ => ih fun b hb => h b (mem_cons_of_mem a hb)

end ErrorsIn

theorem toOption_eq_some {ε α : Type} {x : Except ε α} {a : α} : x.toOption = some a ↔ x = .ok a := by
  cases x with
  | error e => exact ⟨nofun, nofun⟩
  | ok b => exact ⟨fun h => congrArg _ (Option.some.inj h), fun h => congrArg _ (ok.inj h)⟩

/-- A property of the value, if there is one. -/
theorem exists_of_map_toOption {ε α β : Type} {x : Except ε α} {f : α → β} {b : β}
    (h : x.toOption.map f = some b) : ∃ a, x = .ok a ∧ f a = b := by
  cases x with
  | error e => cases h
  | ok a => exact ⟨a, rfl, Option.some.inj h⟩

end Foks.Lib
