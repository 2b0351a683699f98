import Mathlib.Data.List.Perm.Lattice
import Mathlib.Data.Int.Basic

/-!
# Reference counts

Some things are referred to, and a table keeps a count for each of them, which is changed by hand
whenever a reference is made or dropped. The counts are exact when each one is the number of references.

## Main results

* `Exact.bump_iff`: a change keeps the counts exact when it is the change of the references
* `Exact.exchange_iff`: the counts stay exact when what is taken off them is what is retired
* `Exact.of_mem`: a new count of zero for a thing that nothing refers to
-/

namespace Foks.Lib

open List

variable {κ : Type} [DecidableEq κ]

/-- Every count is changed by `d`. -/
def bump (d : κ → ℤ) (counts : List (κ × ℤ)) : List (κ × ℤ) := counts.map fun p => (p.1, p.2 + d p.1)

/-- The change by `v` for each of `ks`. -/
def deltaAt (ks : List κ) (v : ℤ) : κ → ℤ := fun k => v * ks.count k

variable (counts : List (κ × ℤ)) (refs : List κ)

/-- Every count is the number of references. -/
def Exact : Prop := ∀ p ∈ counts, p.2 = refs.count p.1

/-- Everything that is referred to has a count. -/
def Counted : Prop := ∀ k ∈ refs, k ∈ counts.map Prod.fst

theorem deltaAt_nil (v : ℤ) : deltaAt ([] : List κ) v = fun _ => 0 := by
  funext k
  simp [deltaAt]

@[simp] theorem deltaAt_self (k : κ) (v : ℤ) : deltaAt [k] v k = v := by
  simp [deltaAt]

variable {k : κ} {counts : List (κ × ℤ)} {refs : List κ} {d : κ → ℤ}

theorem deltaAt_of_ne {k' : κ} (h : k' ≠ k) (v : ℤ) : deltaAt [k] v k' = 0 := by
  have hmem : k' ∉ [k] := fun hmem => h (mem_singleton.mp hmem)
  simp [deltaAt, count_eq_zero.mpr hmem]

section

omit [DecidableEq κ]

theorem keys_bump (d : κ → ℤ) (counts : List (κ × ℤ)) : (bump d counts).map Prod.fst = counts.map Prod.fst := by
  rw [bump, map_map]
  rfl

theorem bump_bump (d d' : κ → ℤ) (counts : List (κ × ℤ)) :
    bump d' (bump d counts) = bump (fun k => d k + d' k) counts := by
  rw [bump, bump, bump, map_map]
  exact map_congr_left fun p _ => congrArg (Prod.mk p.1) (Int.add_assoc ..)

theorem bump_zero (counts : List (κ × ℤ)) : bump (fun _ => 0) counts = counts := by
  simp [bump]

theorem Counted.exchange {refs' added retired : List κ}
    (h : Counted counts refs) (hperm : (refs' ++ retired).Perm (refs ++ added))
    (hadded : Counted counts added) : Counted (bump d counts) refs' := by
  intro k hk
  rw [keys_bump]
  rcases mem_append.mp (hperm.subset (mem_append_left retired hk)) with hk | hk
  · exact h k hk
  · exact hadded k hk

end

/-- Counts of other things are not changed. -/
theorem bump_deltaAt_of_notMem {v : ℤ} (h : k ∉ counts.map Prod.fst) :
    bump (deltaAt [k] v) counts = counts := by
  rw [bump, map_congr_left (g := id), map_id]
  intro p hp
  have hne : p.1 ≠ k := fun heq => h (heq ▸ mem_map_of_mem hp)
  simp [deltaAt_of_ne hne]

/-- Counts that are changed stay exact when the references change as much. -/
theorem Exact.bump_iff {refs' : List κ} (h : Exact counts refs) :
    Exact (bump d counts) refs' ↔ ∀ k ∈ counts.map Prod.fst, (refs'.count k : ℤ) = refs.count k + d k := by
  constructor
  · intro hexact k hk
    obtain ⟨p, hp, rfl⟩ := mem_map.mp hk
    have hnew := hexact _ (mem_map_of_mem hp)
    rw [← hnew, h p hp]
  · intro hrefs q hq
    obtain ⟨p, hp, rfl⟩ := mem_map.mp hq
    rw [hrefs p.1 (mem_map_of_mem hp), h p hp]

/-- A new count of zero, for what nothing refers to. -/
theorem Exact.of_mem {counts' : List (κ × ℤ)} (h : Exact counts refs)
    (hk : k ∉ refs) (hmem : ∀ p ∈ counts', p ∈ counts ∨ p = (k, 0)) : Exact counts' refs := by
  intro p hp
  rcases hmem p hp with hp | rfl
  · exact h p hp
  · exact (Int.natCast_eq_zero.mpr (count_eq_zero.mpr hk)).symm

/-- The references that the rows of two tables make, of which the first has rows that make none. -/
theorem count_map_append {ρ ρ' : Type} (p : ρ → Bool) (f : ρ → κ) (rows : List ρ) (g : ρ' → κ)
    (rows' : List ρ') (k : κ) :
    ((rows.filter p).map f ++ rows'.map g).count k
      = (rows.countP fun r => p r && decide (f r = k)) + rows'.countP fun r => decide (g r = k) := by
  rw [count_append]
  simp only [List.count, countP_map, countP_filter]
  refine congrArg₂ (· + ·) (countP_congr fun r _ => ?_) (countP_congr fun r _ => ?_)
  · simp [and_comm]
  · simp

/-- Some references are added and some are retired, and the counts are changed for those that are added
and for those that are released. -/
theorem Exact.exchange_iff {refs' added retired released : List κ}
    (h : Exact counts refs) (hcounted : Counted counts refs)
    (hperm : (refs' ++ retired).Perm (refs ++ added)) (hadded : Counted counts added)
    (hreleased : Counted counts released) :
    Exact (bump (fun k => deltaAt added 1 k + deltaAt released (-1) k) counts) refs' ↔
        retired.Perm released := by
  have hcount : ∀ k, refs'.count k + retired.count k = refs.count k + added.count k := fun k => by
    rw [← count_append, ← count_append, hperm.count_eq]
  rw [h.bump_iff, perm_iff_count]
  constructor
  · intro hkeys k
    by_cases hk : k ∈ counts.map Prod.fst
    · have hnew := hkeys k hk
      have hold := hcount k
      simp only [deltaAt] at hnew
      omega
    -- what is retired was referred to, so that it had a count
    have hretired : k ∉ retired := fun hmem => by
      rcases mem_append.mp (hperm.subset (mem_append_right refs' hmem)) with hmem | hmem
      · exact hk (hcounted k hmem)
      · exact hk (hadded k hmem)
    rw [count_eq_zero.mpr hretired, count_eq_zero.mpr fun hmem => hk (hreleased k hmem)]
  · intro hsame k _
    have hold := hcount k
    have hk := hsame k
    simp only [deltaAt]
    omega

end Foks.Lib
