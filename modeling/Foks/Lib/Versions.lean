import Mathlib.Data.List.Nodup
import Mathlib.Data.List.Perm.Basic
import Mathlib.Data.List.Range

/-!
# Entries that are kept in versions

A writer adds a version under a number of its own choice. The new version is current, and every
version with a smaller number stops being current.

## Main results

* `linear_addVersion_iff`: when one write ends in a linear chain
* `linear_foldl_iff`: a sequence of writes keeps a chain linear exactly when it continues it
-/

namespace Foks.Lib

open List

structure Version where
  number : ℕ
  active : Bool
  deriving DecidableEq

/-- A version after the version `v` was added. -/
def Version.under (v : ℕ) (w : Version) : Version :=
  if w.number < v then { w with active := false } else w

open Version

@[simp] theorem Version.under_number (v : ℕ) (w : Version) : (w.under v).number = w.number := by
  unfold under
  split <;> rfl

/-- A new version, which takes the place of all that have smaller numbers. -/
def addVersion (l : List Version) (v : ℕ) : List Version :=
  (l ++ [mk v true]).map (under v)

/-- The versions `1` to `n`, of which `n` is the current one. -/
def Linear (n : ℕ) (l : List Version) : Prop :=
  (l.map number).Perm (range' 1 n) ∧ ∀ w ∈ l, w.active = true ↔ w.number = n

instance (n : ℕ) (l : List Version) : Decidable (Linear n l) := by
  unfold Linear
  infer_instance

/-- The numbers after `n`, with the largest one at the end. -/
def Continues (n : ℕ) (vs : List ℕ) : Prop :=
  vs.Perm (range' (n + 1) vs.length) ∧ ∀ v ∈ vs.getLast?, v = n + vs.length

instance (n : ℕ) (vs : List ℕ) : Decidable (Continues n vs) := by
  unfold Continues
  infer_instance

theorem map_number_addVersion (l : List Version) (v : ℕ) :
    (addVersion l v).map number = l.map number ++ [v] := by
  simp [addVersion]

theorem map_number_foldl (vs : List ℕ) (l : List Version) :
    (vs.foldl addVersion l).map number = l.map number ++ vs := by
  induction vs generalizing l with
  | nil => simp
  | cons v vs ih => rw [foldl_cons, ih, map_number_addVersion, append_assoc, singleton_append]

variable {l : List Version}

theorem mem_addVersion {v : ℕ} {w : Version} : w ∈ addVersion l v ↔ w = ⟨v, true⟩ ∨ ∃ x ∈ l, w = x.under v := by
  have hnew : under v ⟨v, true⟩ = ⟨v, true⟩ := if_neg (lt_irrefl v)
  rw [addVersion, map_append, mem_append, mem_map, map_singleton, hnew, mem_singleton, or_comm]
  exact or_congr_right (exists_congr fun x => and_congr_right fun _ => eq_comm)

theorem Linear.length {n : ℕ} (h : Linear n l) : l.length = n := by
  simpa using h.1.length_eq

/-- Only the version that was added is current for sure, so it has to be the last one; then it has
replaced all the others. -/
theorem linear_addVersion_iff {n v : ℕ} : Linear n (addVersion l v) ↔
      v = n ∧ (l.map number ++ [v]).Perm (range' 1 n) := by
  rw [Linear, map_number_addVersion]
  constructor
  · rintro ⟨hperm, hactive⟩
    have hnew : (⟨v, true⟩ : Version) ∈ addVersion l v := mem_addVersion.mpr (Or.inl rfl)
    exact ⟨(hactive _ hnew).mp rfl, hperm⟩
  · rintro ⟨rfl, hperm⟩
    refine ⟨hperm, fun w hw => ?_⟩
    rcases mem_addVersion.mp hw with rfl | ⟨x, hx, rfl⟩
    · simp
    have hnodup : (l.map number ++ [v]).Nodup := hperm.nodup_iff.mpr nodup_range'
    have hne : x.number ≠ v := by
      rintro rfl
      have hdisj := disjoint_of_nodup_append hnodup
      exact hdisj (mem_map_of_mem hx) mem_cons_self
    have hmem : x.number ∈ range' 1 v :=
      hperm.subset (mem_append_left _ (mem_map_of_mem hx))
    have hlt : x.number < v := by
      rw [mem_range'_1] at hmem
      omega
    simp [under, hlt, hne]

/-- The numbers `1` to `n` and others make up `1` to `m` when the others are `n + 1` to `m`. -/
theorem perm_range'_append_iff {n m : ℕ} {l vs : List ℕ} (h : l.Perm (range' 1 n)) :
    (l ++ vs).Perm (range' 1 m) ↔
      m = n + vs.length ∧ vs.Perm (range' (n + 1) vs.length) := by
  have hlen : l.length = n := by simpa using h.length_eq
  have hsplit : range' 1 (n + vs.length) = range' 1 n ++ range' (n + 1) vs.length := by
    rw [← range'_append_1, Nat.add_comm 1 n]
  have hcancel : (l ++ vs).Perm (range' 1 (n + vs.length)) ↔ vs.Perm (range' (n + 1) vs.length) := by
    rw [hsplit, (h.append_right vs).congr_left]
    exact perm_append_left_iff _
  constructor
  · intro hperm
    have hm : m = n + vs.length := by
      have := hperm.length_eq
      simp only [length_append, length_range', hlen] at this
      exact this.symm
    subst hm
    exact ⟨rfl, hcancel.mp hperm⟩
  · rintro ⟨rfl, hperm⟩
    exact hcancel.mpr hperm

/-- A sequence of writes keeps a chain linear exactly when it continues the chain. -/
theorem linear_foldl_iff {n : ℕ} (h : Linear n l) (vs : List ℕ) :
    (∃ m, Linear m (vs.foldl addVersion l)) ↔ Continues n vs := by
  rcases eq_nil_or_concat vs with rfl | ⟨init, v, rfl⟩
  · exact iff_of_true ⟨n, h⟩ ⟨List.Perm.refl _, nofun⟩
  rw [concat_eq_append, foldl_append, foldl_cons, foldl_nil]
  simp only [linear_addVersion_iff, map_number_foldl, append_assoc, perm_range'_append_iff h.1]
  rw [Continues, getLast?_concat]
  constructor
  · rintro ⟨m, rfl, hm, hperm⟩
    refine ⟨hperm, ?_⟩
    rintro _ ⟨⟩
    exact hm
  · rintro ⟨hperm, hlast⟩
    exact ⟨v, rfl, hlast v rfl, hperm⟩

end Foks.Lib
