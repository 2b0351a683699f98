import Foks.Lib.Interval
import Mathlib.Algebra.Order.Ring.Int
import Mathlib.Data.List.GetD
import Mathlib.Order.PiLex

/-!
# Index ranges of teams

`lib/core/rational.go`: numbers with finitely many places in base 256, and infinity. A team has a
range of such numbers, which may only shrink.
-/

namespace Foks

open List Or

/-- `core.Rational`: the bytes of `base`, shifted by `exp` places. -/
structure Rational where
  infinity : Bool
  base : List UInt8
  exp : ℤ
  deriving DecidableEq, Repr

namespace Rational

variable (r : Rational)

def maxPow : ℤ := if r.infinity then 0 else r.base.length + r.exp

def minPow : ℤ := if r.infinity then 0 else r.exp

def placeValue (i : ℤ) : ℕ :=
  let pos := r.maxPow - i
  if r.infinity || pos < 0 then 0 else (r.base.getD pos.toNat 0).toNat

/-- The loop of `Cmp`, over the places that are left. -/
def cmpPlaces (r1 r2 : Rational) : List ℤ → ℤ
  | [] => 0
  | i :: is =>
    let v1 := r1.placeValue i
    let v2 := r2.placeValue i
    if v1 > v2 then 1 else if v1 < v2 then -1 else cmpPlaces r1 r2 is

variable (r1 r2 : Rational)

def cmp : ℤ :=
  if r1.infinity && r2.infinity then 0
  else if r1.infinity then 1
  else if r2.infinity then -1
  else
    let lo := min r1.minPow r2.minPow
    let hi := max r1.maxPow r2.maxPow
    cmpPlaces r1 r2 ((List.range (hi - lo + 1).toNat).map fun (k : ℕ) => hi - k)

/-- `Rational.Validate`: infinity has no places. -/
def isValid : Bool := !r.infinity || r.base == [] && r.exp == 0

/-! ### The order of numbers -/

/-- The places of a number, to be compared from the highest one down. -/
noncomputable def places : WithTop (Colex (ℤ → ℕ)) :=
  if r.infinity then ⊤ else ↑(toColex r.placeValue)

/-- A number has no places above its first byte and none below its last one. -/
theorem placeValue_eq_zero {r : Rational} (hr : r.infinity = false) {i : ℤ}
    (hi : r.maxPow < i ∨ i ≤ r.minPow) : r.placeValue i = 0 := by
  simp only [placeValue, maxPow, minPow, hr, Bool.false_or, Bool.false_eq_true, if_false] at hi ⊢
  split
  · rfl
  · next hpos =>
    have hlen : r.base.length ≤ (r.base.length + r.exp - i).toNat := by
      simp only [decide_eq_true_eq] at hpos
      omega
    rw [getD_eq_default _ _ hlen]
    rfl

/-- What the loop over the places finds: they all agree, or the first two that differ decide. -/
theorem cmpPlaces_cases (l : List ℤ) (hl : l.Pairwise (· > ·)) :
    (cmpPlaces r1 r2 l = 0 ∧ ∀ i ∈ l, r1.placeValue i = r2.placeValue i) ∨
    (cmpPlaces r1 r2 l = -1 ∧ ∃ i ∈ l, r1.placeValue i < r2.placeValue i ∧
      ∀ j ∈ l, i < j → r1.placeValue j = r2.placeValue j) ∨
    (cmpPlaces r1 r2 l = 1 ∧ ∃ i ∈ l, r2.placeValue i < r1.placeValue i ∧
      ∀ j ∈ l, i < j → r1.placeValue j = r2.placeValue j) := by
  induction l with
  | nil => exact inl ⟨rfl, nofun⟩
  | cons i is ih =>
    obtain ⟨hhead, htail⟩ := pairwise_cons.mp hl
    have hfirst : ∀ j ∈ i :: is, i < j → r1.placeValue j = r2.placeValue j := by
      intro j hj hij
      rcases mem_cons.mp hj with rfl | hj
      · exact absurd hij (lt_irrefl j)
      · exact absurd hij (hhead j hj).not_gt
    rw [cmpPlaces]
    rcases lt_trichotomy (r1.placeValue i) (r2.placeValue i) with hlt | heq | hgt
    · exact inr (inl ⟨by simp [hlt, hlt.not_gt], i, mem_cons_self, hlt, hfirst⟩)
    · -- the places agree, so the rest decides
      have hrest : ∀ {k : ℤ}, (∀ j ∈ is, k < j → r1.placeValue j = r2.placeValue j) →
          ∀ j ∈ i :: is, k < j → r1.placeValue j = r2.placeValue j := by
        intro k hk j hj hkj
        rcases mem_cons.mp hj with rfl | hj
        · exact heq
        · exact hk j hj hkj
      simp only [heq, lt_irrefl]
      rcases ih htail with ⟨hcmp, hall⟩ | ⟨hcmp, k, hk, hlt, hj⟩ | ⟨hcmp, k, hk, hlt, hj⟩
      · exact inl ⟨hcmp, forall_mem_cons.mpr ⟨heq, hall⟩⟩
      · exact inr (inl ⟨hcmp, k, mem_cons_of_mem i hk, hlt, hrest hj⟩)
      · exact inr (inr ⟨hcmp, k, mem_cons_of_mem i hk, hlt, hrest hj⟩)
    · exact inr (inr ⟨by simp [hgt], i, mem_cons_self, hgt, hfirst⟩)

/-- Two numbers compare as their places do. -/
theorem cmp_cases : (r1.cmp r2 = 0 ∧ r1.places = r2.places) ∨ (r1.cmp r2 = -1 ∧ r1.places < r2.places) ∨
      (r1.cmp r2 = 1 ∧ r2.places < r1.places) := by
  cases h1 : r1.infinity <;> cases h2 : r2.infinity
  · -- two finite numbers: beyond the loop all places are zero
    simp only [cmp, places, h1, h2, Bool.false_eq_true, if_false, WithTop.coe_inj, WithTop.coe_lt_coe]
    set lo := min r1.minPow r2.minPow with hlo
    set hi := max r1.maxPow r2.maxPow with hhi
    set l := (List.range (hi - lo + 1).toNat).map fun (k : ℕ) => hi - k with hl
    have hmem : ∀ j, j ∈ l ↔ lo ≤ j ∧ j ≤ hi := by
      intro j
      simp only [hl, mem_map, mem_range]
      constructor
      · rintro ⟨k, hk, rfl⟩
        omega
      · rintro ⟨hlow, hhigh⟩
        exact ⟨(hi - j).toNat, by omega, by omega⟩
    have hdesc : l.Pairwise (· > ·) := by
      rw [pairwise_map]
      refine pairwise_lt_range.imp fun {a b} hab => ?_
      omega
    have hout : ∀ j, j ∉ l → r1.placeValue j = r2.placeValue j := by
      intro j hj
      rw [hmem] at hj
      rw [placeValue_eq_zero h1 (by omega), placeValue_eq_zero h2 (by omega)]
    have hall : ∀ {P : ℤ → Prop}, (∀ j ∈ l, P j → r1.placeValue j = r2.placeValue j) →
        ∀ j, P j → r1.placeValue j = r2.placeValue j := by
      intro P hP j hj
      by_cases hjl : j ∈ l
      · exact hP j hjl hj
      · exact hout j hjl
    rcases cmpPlaces_cases r1 r2 l hdesc with ⟨hcmp, heq⟩ | ⟨hcmp, i, -, hlt, hj⟩ | ⟨hcmp, i, -, hlt, hj⟩
    · refine inl ⟨hcmp, congrArg toColex (funext fun j => ?_)⟩
      exact hall (P := fun _ => True) (fun j hj _ => heq j hj) j trivial
    · exact inr (inl ⟨hcmp, i, fun j hij => hall hj j hij, hlt⟩)
    · exact inr (inr ⟨hcmp, i, fun j hij => (hall hj j hij).symm, hlt⟩)
  · exact inr (inl ⟨by simp [cmp, h1, h2], by simp [places, h1, h2]⟩)
  · exact inr (inr ⟨by simp [cmp, h1, h2], by simp [places, h1, h2]⟩)
  · exact inl ⟨by simp [cmp, h1, h2], by simp [places, h1, h2]⟩

variable {r1 r2}

theorem cmp_nonpos_iff : r1.cmp r2 ≤ 0 ↔ r1.places ≤ r2.places := by
  rcases cmp_cases r1 r2 with ⟨hcmp, heq⟩ | ⟨hcmp, hlt⟩ | ⟨hcmp, hlt⟩
  · simp [hcmp, heq]
  · simp [hcmp, hlt.le]
  · simp [hcmp, hlt.not_ge]

theorem cmp_nonneg_iff : r1.cmp r2 ≥ 0 ↔ r2.places ≤ r1.places := by
  rcases cmp_cases r1 r2 with ⟨hcmp, heq⟩ | ⟨hcmp, hlt⟩ | ⟨hcmp, hlt⟩
  · simp [hcmp, heq]
  · simp [hcmp, hlt.not_ge]
  · simp [hcmp, hlt.le]

theorem cmp_neg_iff : r1.cmp r2 < 0 ↔ r1.places < r2.places := by
  rcases cmp_cases r1 r2 with ⟨hcmp, heq⟩ | ⟨hcmp, hlt⟩ | ⟨hcmp, hlt⟩
  · simp [hcmp, heq]
  · simp [hcmp, hlt]
  · simp [hcmp, hlt.not_gt]

theorem cmp_eq_zero_iff : r1.cmp r2 = 0 ↔ r1.places = r2.places := by
  rw [le_antisymm_iff, le_antisymm_iff, cmp_nonpos_iff]
  exact and_congr_right' cmp_nonneg_iff

end Rational

structure RationalRange where
  low : Rational
  high : Rational
  deriving DecidableEq, Repr

namespace RationalRange

variable (r1 r2 : RationalRange)

def eq : Bool := r1.low.cmp r2.low = 0 && r1.high.cmp r2.high = 0

def includes : Bool :=
  r1.low.cmp r2.low ≤ 0 && r1.high.cmp r2.high ≥ 0

def lessThan : Bool := r1.high.cmp r2.low < 0

open Rational

variable {r1 r2 : RationalRange}

theorem lessThan_iff : r1.lessThan r2 = true ↔ r1.high.places < r2.low.places := by
  rw [lessThan, decide_eq_true_eq, cmp_neg_iff]

theorem includes_iff : r1.includes r2 = true ↔
      r1.low.places ≤ r2.low.places ∧ r2.high.places ≤ r1.high.places := by
  rw [includes, Bool.and_eq_true, decide_eq_true_eq, decide_eq_true_eq, cmp_nonpos_iff,
    cmp_nonneg_iff]

theorem eq_iff :
    r1.eq r2 = true ↔ r1.low.places = r2.low.places ∧ r1.high.places = r2.high.places := by
  rw [eq, Bool.and_eq_true, decide_eq_true_eq, decide_eq_true_eq, cmp_eq_zero_iff, cmp_eq_zero_iff]

/-- A range as an interval; ends in the wrong order make none. -/
noncomputable def span (r : RationalRange) : Option (NonemptyInterval (WithTop (Colex (ℤ → ℕ)))) :=
  if h : r.low.cmp r.high ≤ 0 then
    some ⟨(r.low.places, r.high.places), cmp_nonpos_iff.mp h⟩
  else none

variable {r : RationalRange}

theorem span_eq_some {i : NonemptyInterval (WithTop (Colex (ℤ → ℕ)))} :
    r.span = some i ↔ r.low.places = i.fst ∧ r.high.places = i.snd := by
  unfold span
  split
  · next h => simp [NonemptyInterval.ext_iff, Prod.ext_iff]
  · next h =>
    constructor
    · intro hnone
      cases hnone
    · rintro ⟨hlow, hhigh⟩
      exact absurd (cmp_nonpos_iff.mpr (hlow ▸ hhigh ▸ i.fst_le_snd)) h

theorem span_congr (h : r1.eq r2 = true) : r1.span = r2.span := by
  obtain ⟨hlow, hhigh⟩ := eq_iff.mp h
  refine Option.ext fun i => ?_
  simp only [span_eq_some, hlow, hhigh]

section Interval

variable {i j : NonemptyInterval (WithTop (Colex (ℤ → ℕ)))}

theorem lessThan_iff_below (hi : r1.span = some i) (hj : r2.span = some j) : r1.lessThan r2 = true ↔
    Lib.Below i j := by
  rw [lessThan_iff, (span_eq_some.mp hi).2, (span_eq_some.mp hj).1, Lib.Below]

theorem includes_iff_le (hi : r1.span = some i) (hj : r2.span = some j) : r1.includes r2 = true ↔ j ≤ i := by
  obtain ⟨hlow, hhigh⟩ := span_eq_some.mp hi
  obtain ⟨hlow', hhigh'⟩ := span_eq_some.mp hj
  rw [includes_iff, hlow, hhigh, hlow', hhigh', NonemptyInterval.le_def]

end Interval

end RationalRange

end Foks
