import Mathlib.Order.Interval.Basic

/-!
# Relations that climb

Each element of a type has an interval of an order, and related elements have intervals one below the
other. Intervals that shrink stay where they are relative to each other, and a relation that only climbs
has no cycle.

## Main results

* `Below.mono`: intervals that shrink stay below each other
* `Climbs.narrow`: so a relation that climbs still does when intervals shrink
* `Climbs.not_transGen`: a relation that climbs has no cycle
-/

namespace Foks.Lib

variable {K P : Type} [PartialOrder P]

/-- The interval `i` is strictly below the interval `j`. -/
def Below (i j : NonemptyInterval P) : Prop := i.snd < j.fst

theorem Below.mono {i j i' j' : NonemptyInterval P} (h : Below i j) (hi : i' ≤ i) (hj : j' ≤ j) : Below i' j' :=
  calc i'.snd ≤ i.snd := (NonemptyInterval.le_def.mp hi).2
    _ < j.fst := h
    _ ≤ j'.fst := (NonemptyInterval.le_def.mp hj).1

theorem Below.trans {i j k : NonemptyInterval P} (hij : Below i j) (hjk : Below j k) : Below i k :=
  calc i.snd < j.fst := hij
    _ ≤ j.snd := j.fst_le_snd
    _ < k.fst := hjk

theorem Below.irrefl (i : NonemptyInterval P) : ¬ Below i i := i.fst_le_snd.not_gt

/-- Related elements have intervals, one below the other. -/
def Climbs (R : K → K → Prop) (span : K → Option (NonemptyInterval P)) : Prop :=
  ∀ a b, R a b → ∃ i j, span a = some i ∧ span b = some j ∧ Below i j

/-- Every interval shrinks or stays. -/
def Narrows (span span' : K → Option (NonemptyInterval P)) : Prop :=
  ∀ a i, span a = some i → ∃ i' ≤ i, span' a = some i'

theorem Narrows.refl (span : K → Option (NonemptyInterval P)) : Narrows span span :=
  fun _ i hi => ⟨i, le_rfl, hi⟩

variable {R : K → K → Prop} {span : K → Option (NonemptyInterval P)}

theorem Climbs.narrow {span' : K → Option (NonemptyInterval P)}
    (h : Climbs R span) (hspan : Narrows span span') : Climbs R span' := by
  intro a b hab
  obtain ⟨i, j, hi, hj, hij⟩ := h a b hab
  obtain ⟨i', hle, hi'⟩ := hspan a i hi
  obtain ⟨j', hle', hj'⟩ := hspan b j hj
  exact ⟨i', j', hi', hj', hij.mono hle hle'⟩

theorem Climbs.transGen (h : Climbs R span) : Climbs (Relation.TransGen R) span := by
  intro a b hab
  induction hab with
  | single hab => exact h _ _ hab
  | tail _ hbc ih =>
    obtain ⟨i, j, hi, hj, hij⟩ := ih
    obtain ⟨j', k, hj', hk, hjk⟩ := h _ _ hbc
    cases hj.symm.trans hj'
    exact ⟨i, k, hi, hk, hij.trans hjk⟩

/-- A relation that climbs has no cycle. -/
theorem Climbs.not_transGen (h : Climbs R span) (a : K) : ¬ Relation.TransGen R a a := by
  intro haa
  obtain ⟨i, j, hi, hj, hij⟩ := h.transGen a a haa
  cases hi.symm.trans hj
  exact Below.irrefl i hij

end Foks.Lib
