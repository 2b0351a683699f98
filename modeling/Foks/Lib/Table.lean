import Foks.Lib.Except
import Mathlib.Data.List.MinMax
import Mathlib.Data.List.Nodup

/-!
# Tables with keys

A table of a database is the list of its rows. A key constraint is a function of the row that no
two rows share; an insert that would break it is refused, and an update changes the rows that
its condition selects.

## Main results

* `Unique.insertRow`, `Unique.updateRows`: the two statements keep the constraint
* `filter_updateRows`: an update leaves the other rows alone
* `Unique.countP_eq_one`: a condition on the key selects one row
* `Unique.find?_eq_some`: a row is found by its key
* `argmax_eq_getLast?`: the row with the largest key, in a table in the order of its key
-/

namespace Foks.Lib

open List

variable {ρ κ ε : Type} {key : ρ → κ} {row : ρ} {rows rows' : List ρ} {e : ε} {p : ρ → Bool} {f : ρ → ρ}

/-- No two rows have the same key. -/
def Unique (key : ρ → κ) (rows : List ρ) : Prop := (rows.map key).Nodup

/-- `INSERT` into a table with a key: an error when the key is taken. -/
def insertRow [DecidableEq κ] (key : ρ → κ) (e : ε) (row : ρ) (rows : List ρ) : Except ε (List ρ) := do
  refuse (key row ∈ rows.map key) e
  return rows ++ [row]

/-- `UPDATE … SET f WHERE p`. -/
def updateRows (p : ρ → Bool) (f : ρ → ρ) (rows : List ρ) : List ρ :=
  rows.map fun row => if p row then f row else row

/-- `UPDATE … SET f WHERE p`, with an error when it does not change one row. -/
def updateOne (p : ρ → Bool) (f : ρ → ρ) (e : ε) (rows : List ρ) : Except ε (List ρ) := do
  refuse (rows.countP p ≠ 1) e
  return updateRows p f rows

theorem insertRow_eq_ok [DecidableEq κ] :
    insertRow key e row rows = .ok rows' ↔ key row ∉ rows.map key ∧ rows' = rows ++ [row] := by
  simp only [insertRow, bind_eq_ok, refuse_eq_ok, pure, Except.pure, Except.ok.injEq]
  constructor
  · rintro ⟨⟨⟩, hkey, rfl⟩
    exact ⟨hkey, rfl⟩
  · rintro ⟨hkey, rfl⟩
    exact ⟨(), hkey, rfl⟩

theorem mem_updateRows : row ∈ updateRows p f rows ↔ ∃ old ∈ rows, row = if p old then f old else old := by
  rw [updateRows, mem_map]
  exact exists_congr fun old => and_congr_right fun _ => eq_comm

theorem Unique.eq_of_key (h : Unique key rows) {a b : ρ} (ha : a ∈ rows) (hb : b ∈ rows)
    (hkey : key a = key b) : a = b :=
  inj_on_of_nodup_map h ha hb hkey

theorem Unique.insertRow [DecidableEq κ] (h : Unique key rows)
    (hins : Lib.insertRow key e row rows = .ok rows') :
    Unique key rows' := by
  obtain ⟨hkey, rfl⟩ := insertRow_eq_ok.mp hins
  rw [Unique, map_append]
  exact h.append (nodup_singleton _) (by simpa using hkey)

/-- An update that keeps the keys. -/
theorem map_updateRows (hf : ∀ row, key (f row) = key row) (rows : List ρ) :
    (updateRows p f rows).map key = rows.map key := by
  rw [updateRows, map_map]
  refine map_congr_left fun row _ => ?_
  by_cases hp : p row <;> simp [hp, hf]

theorem Unique.updateRows (h : Unique key rows) (hf : ∀ row, key (f row) = key row) :
    Unique key (Lib.updateRows p f rows) := by
  rw [Unique, map_updateRows hf]
  exact h

/-- An update leaves alone what its condition does not select. -/
theorem filter_updateRows {q : ρ → Bool} (hp : ∀ row ∈ rows, p row → ¬ q row) (hf : ∀ row, q (f row) = q row) :
    (updateRows p f rows).filter q = rows.filter q := by
  induction rows with
  | nil => rfl
  | cons row rows ih =>
    have ih := ih fun r hr => hp r (mem_cons_of_mem row hr)
    have hhead := hp row mem_cons_self
    simp only [updateRows] at ih ⊢
    by_cases hrow : p row
    · have hq : q row = false := by simpa using hhead hrow
      simp [hrow, hq, hf, ih]
    · simp [hrow, filter_cons, ih]

theorem updateRows_of_forall (h : ∀ r ∈ rows, p r = false) : updateRows p f rows = rows := by
  rw [updateRows, map_congr_left (g := id), map_id]
  intro r hr
  rw [h r hr]
  rfl

/-- An update that selects the last row only. -/
theorem updateOne_concat (hrows : ∀ r ∈ rows, p r = false) (hrow : p row = true) :
    updateOne p f e (rows ++ [row]) = .ok (rows ++ [f row]) := by
  have hcount : (rows ++ [row]).countP p = 1 := by
    rw [countP_append, countP_eq_zero.mpr, countP_cons_of_pos hrow, countP_nil]
    intro r hr
    rw [hrows r hr]
    exact Bool.false_ne_true
  refine bind_eq_ok.mpr ⟨(), refuse_eq_ok.mpr (not_not.mpr hcount), ?_⟩
  rw [updateRows, map_append, ← updateRows, updateRows_of_forall hrows, map_singleton, if_pos hrow]
  rfl

/-- An update of one row, as seen through a function of the rows. -/
theorem perm_map_updateRows {α : Type} {g : ρ → α} (hone : rows.countP p = 1) (hrow : rows.find? p = some row) :
    ((updateRows p f rows).map g ++ [g row]).Perm (rows.map g ++ [g (f row)]) := by
  induction rows with
  | nil => cases hrow
  | cons r rows ih =>
    by_cases hr : p r = true
    · rw [find?_cons_of_pos hr] at hrow
      obtain rfl : r = row := Option.some.inj hrow
      have hrest : updateRows p f rows = rows := by
        refine updateRows_of_forall fun r' hr' => Bool.eq_false_iff.mpr fun htrue => ?_
        rw [countP_cons_of_pos hr] at hone
        exact countP_eq_zero.mp (Nat.succ.inj hone) r' hr' htrue
      rw [updateRows, map_cons, ← updateRows, hrest, if_pos hr]
      exact (perm_append_singleton ..).trans ((List.Perm.swap ..).trans (perm_append_singleton ..).symm)
    rw [find?_cons_of_neg hr] at hrow
    rw [countP_cons_of_neg hr] at hone
    rw [updateRows, map_cons, if_neg hr]
    exact (ih hone hrow).cons _

/-- The rows of a condition that holds of the new ones and of no old one. -/
theorem filter_append_right {old new : List ρ} (hold : ∀ r ∈ old, p r = false)
    (hnew : ∀ r ∈ new, p r = true) : (old ++ new).filter p = new := by
  rw [filter_append, filter_eq_nil_iff.mpr, filter_eq_self.mpr hnew, nil_append]
  intro r hr
  simp [hold r hr]

/-- The rows with a key are one row, or none. -/
theorem Unique.countP_eq_one (h : Unique key rows) (hrow : row ∈ rows) (hp : ∀ r ∈ rows, p r ↔
    key r = key row) :
    rows.countP p = 1 := by
  induction rows with
  | nil => exact absurd hrow not_mem_nil
  | cons r rows ih =>
    have hnodup : key r ∉ rows.map key ∧ (rows.map key).Nodup := nodup_cons.mp h
    have hrest : ∀ r' ∈ rows, p r' ↔ key r' = key row :=
      fun r' hr' => hp r' (mem_cons_of_mem r hr')
    rcases mem_cons.mp hrow with rfl | hmem
    · have hnone : rows.countP p = 0 := by
        rw [countP_eq_zero]
        intro r' hr' hpr'
        exact hnodup.1 ((hrest r' hr').mp hpr' ▸ mem_map_of_mem hr')
      rw [countP_cons_of_pos ((hp row mem_cons_self).mpr rfl), hnone]
    have hne : ¬ p r := by
      intro hpr
      exact hnodup.1 ((hp r mem_cons_self).mp hpr ▸ mem_map_of_mem hmem)
    rw [countP_cons_of_neg hne]
    exact ih hnodup.2 hmem hrest

/-- A row is found by its key. -/
theorem Unique.find?_eq_some [DecidableEq κ] (h : Unique key rows) (hrow : row ∈ rows) :
    rows.find? (fun r => key r = key row) = some row := by
  have hsome : (rows.find? fun r => key r = key row).isSome :=
    find?_isSome.mpr ⟨row, hrow, by simp⟩
  obtain ⟨found, hfound⟩ := Option.isSome_iff_exists.mp hsome
  have hkey : key found = key row := by simpa using find?_some hfound
  rw [hfound, h.eq_of_key (mem_of_find?_eq_some hfound) hrow hkey]

/-- `ORDER BY key DESC LIMIT 1` on rows that were inserted in the order of the key. -/
theorem argmax_eq_getLast? {key : ρ → ℕ} (h : (rows.map key).Pairwise (· < ·)) :
    rows.argmax key = rows.getLast? := by
  induction rows using reverseRecOn with
  | nil => rfl
  | append_singleton rows row ih =>
    rw [map_append, pairwise_append] at h
    rw [argmax_concat, ih h.1, getLast?_concat]
    rcases hlast : rows.getLast? with _ | last
    · rfl
    have hlt : key last < key row :=
      h.2.2 _ (mem_map_of_mem (mem_of_getLast? hlast)) _ (by simp)
    simp only [if_pos hlt]

end Foks.Lib
