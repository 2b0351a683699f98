import Mathlib.Data.List.Sort
import Mathlib.Data.Multiset.Basic

/-!
# What a sorting function promises

A sorting function of a library takes a comparison, which returns a negative number if the first element
comes before the second one. It asks that the comparison is a strict weak ordering, and returns the
elements in order if it is one. Of other comparisons nothing is promised but that no element is lost.

## Main results

* `exists_sorts`: the elements can be returned in some order
* `exists_sorts_before`: two elements can be returned in the wrong order, unless the comparison is a
  strict weak ordering that puts them in the right one
-/

namespace Foks.Lib

open List Multiset

variable {α : Type} {cmp : α → α → ℤ}

/-- A strict weak ordering of the elements of `s`: of two elements at most one comes before the other,
and what does not come before is transitive. -/
structure StrictWeak (cmp : α → α → ℤ) (s : Multiset α) : Prop where
  asymm : ∀ x ∈ s, ∀ y ∈ s, cmp x y < 0 → ¬ cmp y x < 0
  negTrans : ∀ x ∈ s, ∀ y ∈ s, ∀ z ∈ s, ¬ cmp x y < 0 → ¬ cmp y z < 0 → ¬ cmp x z < 0

instance (cmp : α → α → ℤ) (s : Multiset α) : Decidable (StrictWeak cmp s) :=
  have (x : α) : Decidable (∀ y ∈ s, ∀ z ∈ s, ¬ cmp x y < 0 → ¬ cmp y z < 0 → ¬ cmp x z < 0) :=
    inferInstance
  decidable_of_iff ((∀ x ∈ s, ∀ y ∈ s, cmp x y < 0 → ¬ cmp y x < 0) ∧
      ∀ x ∈ s, ∀ y ∈ s, ∀ z ∈ s, ¬ cmp x y < 0 → ¬ cmp y z < 0 → ¬ cmp x z < 0)
    ⟨fun h => ⟨h.1, h.2⟩, fun h => ⟨h.asymm, h.negTrans⟩⟩

/-- The elements of `s` may be returned as the list `l`. -/
structure Sorts (cmp : α → α → ℤ) (s : Multiset α) (l : List α) : Prop where
  elements : (l : Multiset α) = s
  sorted : StrictWeak cmp s → l.Pairwise fun x y => ¬ cmp y x < 0

/-- The number of elements of a list that come before an element. -/
def rank (cmp : α → α → ℤ) (l : List α) (x : α) : ℕ := l.countP fun y => cmp y x < 0

section Rank

variable {l : List α} {x y : α}

theorem rank_le (h : StrictWeak cmp l) (hx : x ∈ l) (hy : y ∈ l) (hxy : ¬ cmp y x < 0) :
    rank cmp l x ≤ rank cmp l y := by
  refine countP_mono_left fun z hz hzx => ?_
  rw [decide_eq_true_eq] at hzx ⊢
  by_contra hzy
  exact h.negTrans z hz y hy x hx hzy hxy hzx

theorem rank_lt (h : StrictWeak cmp l) (hx : x ∈ l) (hy : y ∈ l) (hxy : cmp x y < 0) :
    rank cmp l x < rank cmp l y := by
  have hle : ∀ z ∈ l, cmp z x < 0 → cmp z y < 0 := by
    intro z hz hzx
    by_contra hzy
    exact h.negTrans z hz y hy x hx hzy (h.asymm x hx y hy hxy) hzx
  -- the element itself is one more
  obtain ⟨pre, post, rfl⟩ := append_of_mem hx
  have hpre : pre.countP (fun z => cmp z x < 0) ≤ pre.countP fun z => cmp z y < 0 :=
    countP_mono_left fun z hz hzx =>
      decide_eq_true (hle z (mem_append_left _ hz) (of_decide_eq_true hzx))
  have hpost : post.countP (fun z => cmp z x < 0) ≤ post.countP fun z => cmp z y < 0 :=
    countP_mono_left fun z hz hzx => decide_eq_true
      (hle z (mem_append_right _ (mem_cons_of_mem _ hz)) (of_decide_eq_true hzx))
  have hself : ¬ cmp x x < 0 := fun hxx => h.asymm x hx x hx hxx hxx
  unfold rank
  rw [countP_append, countP_append, List.countP_cons_of_neg (by simpa using hself),
    List.countP_cons_of_pos (by simpa using hxy)]
  omega

end Rank

/-- The elements in the order of their ranks. -/
theorem sorts_insertionSort {l : List α} (h : StrictWeak cmp l) :
    Sorts cmp l (l.insertionSort fun x y => rank cmp l x ≤ rank cmp l y) where
  elements := coe_eq_coe.mpr (perm_insertionSort _ l)
  sorted _ := by
    have hranks : (l.insertionSort fun x y => rank cmp l x ≤ rank cmp l y).Pairwise
        fun x y => rank cmp l x ≤ rank cmp l y :=
      pairwise_insertionSort _ l
    refine hranks.imp_of_mem fun {x y} hx hy hle hlt => ?_
    rw [mem_insertionSort] at hx hy
    exact absurd (rank_lt h hy hx hlt) (not_lt.mpr hle)

theorem exists_sorts (cmp : α → α → ℤ) (s : Multiset α) : ∃ l, Sorts cmp s l := by
  obtain ⟨l, rfl⟩ := Quot.exists_rep s
  by_cases h : StrictWeak cmp (l : Multiset α)
  · exact ⟨_, sorts_insertionSort h⟩
  · exact ⟨l, rfl, fun h' => absurd h' h⟩

/-- Two elements may be returned in the wrong order if the comparison is no strict weak ordering, or
does not put them in the right one. -/
theorem exists_sorts_before {s : Multiset α} {x y : α} (hx : x ∈ s) (hy : y ∈ s)
    (hne : x ≠ y) (h : StrictWeak cmp s → ¬ cmp x y < 0) :
    ∃ l, Sorts cmp s l ∧ [y, x].Sublist l := by
  obtain ⟨t, rfl⟩ := exists_cons_of_mem hy
  obtain ⟨t, rfl⟩ := exists_cons_of_mem ((mem_cons.mp hx).resolve_left hne)
  obtain ⟨l, rfl⟩ := Quot.exists_rep t
  have hfirst : [y, x].Sublist (y :: x :: l) := ((nil_sublist l).cons_cons x).cons_cons y
  by_cases hweak : StrictWeak cmp ((y :: x :: l : List α) : Multiset α)
  · refine ⟨_, sorts_insertionSort hweak, ?_⟩
    have hle : rank cmp (y :: x :: l) y ≤ rank cmp (y :: x :: l) x :=
      rank_le hweak mem_cons_self (mem_cons_of_mem _ mem_cons_self) (h hweak)
    exact pair_sublist_insertionSort hle hfirst
  · exact ⟨y :: x :: l, ⟨rfl, fun h' => absurd h' hweak⟩, hfirst⟩

end Foks.Lib
