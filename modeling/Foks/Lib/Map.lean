import Mathlib.Data.Finmap
import Mathlib.Data.List.Sort

/-!
# Finite maps, finite sets and their sorted listings

A map without an order on its keys is a `Finmap`: two maps with the same lookups are equal, and
nothing can depend on the order in which a loop visits the keys. A map into booleans that is
only ever set to true is a `Finset`. A loop that sets a map at every element of a set is
`ofFinset`, and a list that is filled from a set and then sorted is `sorted`.

## Main results

* `Map.lookup_ofFinset`, `Map.lookup_union`: the lookups of a built map
* `Map.insertAll_inj`: new values in order can be read off the map before and after
* `mem_sorted`, `sorted_pairwise`: the listing has the elements of the set, in order
-/

namespace Foks.Lib

open List Finmap

variable {K V : Type}

/-- Finite maps from `K` to `V`. -/
abbrev Map (K V : Type) := Finmap fun _ : K => V

namespace Map

/-- The map with keys `s` that takes each of them to its value under `f`. -/
def ofFinset (s : Finset K) (f : K → V) : Map K V where
  entries := s.val.map fun k => (⟨k, f k⟩ : Sigma fun _ : K => V)
  nodupKeys := by
    rw [← Multiset.nodup_keys, Multiset.keys]
    simpa using s.nodup

variable {k : K} {m : Map K V}

@[simp] theorem mem_ofFinset {s : Finset K} {f : K → V} : k ∈ ofFinset s f ↔ k ∈ s := by
  simp [mem_def, ofFinset, Multiset.keys]

variable [DecidableEq K]

theorem lookup_eq_some_iff {v : V} : m.lookup k = some v ↔ (⟨k, v⟩ : Sigma fun _ : K => V) ∈ m.entries := by
  induction m using induction_on with
  | _ m => simp [AList.mem_lookup_iff.symm]

theorem lookup_insert_ite (m : Map K V) (k k' : K) (v : V) :
    (m.insert k v).lookup k' = if k = k' then some v else m.lookup k' := by
  split
  · next h => rw [h, lookup_insert]
  · next h => rw [lookup_insert_of_ne _ (Ne.symm h)]

/-- A row after an insertion is the one that is inserted, or one from before. -/
theorem lookup_insert_cases {k' : K} {v v' : V} (h : (m.insert k v).lookup k' = some v') :
    k' = k ∧ v = v' ∨ k' ≠ k ∧ m.lookup k' = some v' := by
  by_cases hne : k' = k
  · subst hne
    exact .inl ⟨rfl, Option.mem_unique (lookup_insert _) h⟩
  · exact .inr ⟨hne, (lookup_insert_of_ne _ hne).symm.trans h⟩

/-- An insertion that does not contradict a row keeps it. -/
theorem lookup_insert_keep {k' : K} {v v' : V} (h : m.lookup k' = some v') (hsame : k' = k → v = v') :
    (m.insert k v).lookup k' = some v' := by
  by_cases hne : k' = k
  · rw [hne, lookup_insert, hsame hne]
  · rwa [lookup_insert_of_ne _ hne]

@[simp] theorem lookup_ofFinset (s : Finset K) (f : K → V) (k : K) :
    (ofFinset s f).lookup k = if k ∈ s then some (f k) else none := by
  split
  · next h =>
    rw [lookup_eq_some_iff]
    simpa [ofFinset] using h
  · next h => simpa [lookup_eq_none] using h

/-- The value at a key, or the zero of the value type: what indexing a map in the source
gives. -/
def get [Zero V] (m : Map K V) (k : K) : V := (m.lookup k).getD 0

theorem get_of_lookup [Zero V] {v : V} (h : m.lookup k = some v) : m.get k = v := by
  simp [get, h]

theorem lookup_union (m1 m2 : Map K V) (k : K) : (m1 ∪ m2).lookup k = (m1.lookup k).or (m2.lookup k) := by
  by_cases h : k ∈ m1
  · obtain ⟨v, hv⟩ := Finmap.mem_iff.mp h
    simp [hv]
  · simp [lookup_union_right h, lookup_eq_none.mpr h]

/-- A map adds nothing to one that has all its keys. -/
theorem union_eq_left_iff {m1 m2 : Map K V} : m1 ∪ m2 = m1 ↔ ∀ k ∈ m2, k ∈ m1 := by
  constructor
  · intro h k hk
    rw [← h]
    exact mem_union.mpr (.inr hk)
  · intro h
    refine ext_lookup fun k => ?_
    by_cases hk : k ∈ m1
    · exact lookup_union_left hk
    · rw [lookup_union_right hk, lookup_eq_none.mpr hk]
      exact lookup_eq_none.mpr fun hk' => hk (h k hk')

theorem mem_iff : k ∈ m ↔ ∃ v, m.lookup k = some v := by
  rw [Finmap.mem_iff]

theorem mem_keys_iff : k ∈ m.keys ↔ ∃ v, m.lookup k = some v := by
  rw [Finmap.mem_keys, Finmap.mem_iff]

/-- The values of a map. -/
def values (m : Map K V) : Multiset V := m.entries.map (·.2)

theorem mem_values {v : V} : v ∈ m.values ↔ ∃ k, m.lookup k = some v := by
  rw [values, Multiset.mem_map]
  constructor
  · rintro ⟨⟨k, v⟩, hmem, rfl⟩
    exact ⟨k, lookup_eq_some_iff.mpr hmem⟩
  · rintro ⟨k, hk⟩
    exact ⟨⟨k, v⟩, lookup_eq_some_iff.mp hk, rfl⟩

theorem nodup_values (h : ∀ k k' v, m.lookup k = some v → m.lookup k' = some v → k = k') : m.values.Nodup := by
  refine Multiset.Nodup.map_on ?_ m.nodup_entries
  rintro ⟨k, v⟩ hk ⟨k', v'⟩ hk' rfl
  cases h k k' v (lookup_eq_some_iff.mpr hk) (lookup_eq_some_iff.mpr hk')
  rfl

/-- The map after it was set at every key of a list, one after the other. -/
def insertAll (m : Map K V) (l : List (K × V)) : Map K V :=
  l.foldl (fun m x => m.insert x.1 x.2) m

section InsertAll

variable {l l₂ : List (K × V)} {v : V}

theorem lookup_insertAll_of_not_mem (h : ∀ x ∈ l, x.1 ≠ k) : (m.insertAll l).lookup k = m.lookup k := by
  induction l generalizing m with
  | nil => rfl
  | cons x l ih =>
    rw [forall_mem_cons] at h
    exact (ih h.2).trans (lookup_insert_of_ne _ h.1.symm)

theorem lookup_insertAll_of_mem (hl : (l.map Prod.fst).Nodup) (h : (k, v) ∈ l) :
    (m.insertAll l).lookup k = some v := by
  induction l generalizing m with
  | nil => cases h
  | cons x l ih =>
    rw [map_cons, nodup_cons, mem_map] at hl
    rcases mem_cons.mp h with rfl | htail
    · have hother : ∀ x ∈ l, x.1 ≠ k := fun x hx hk => hl.1 ⟨x, hx, hk⟩
      exact (lookup_insertAll_of_not_mem hother).trans (lookup_insert _)
    · exact ih hl.2 htail

/-- Where a list only holds new values, they can be read off the lookups before and after. -/
theorem mem_iff_lookup_insertAll (hl : (l.map Prod.fst).Nodup) (hnew : ∀ x ∈ l, m.lookup x.1 ≠ some x.2) :
    (k, v) ∈ l ↔ (m.insertAll l).lookup k = some v ∧ m.lookup k ≠ some v := by
  refine ⟨fun h => ⟨lookup_insertAll_of_mem hl h, hnew _ h⟩, fun ⟨hpost, hpre⟩ => ?_⟩
  by_cases hk : ∃ x ∈ l, x.1 = k
  · obtain ⟨⟨k', v'⟩, hx, rfl⟩ := hk
    obtain rfl := Option.mem_unique (lookup_insertAll_of_mem hl hx) hpost
    exact hx
  · rw [lookup_insertAll_of_not_mem fun x hx heq => hk ⟨x, hx, heq⟩] at hpost
    exact absurd hpost hpre

/-- Sorted lists of new values that lead to the same map are the same. -/
theorem insertAll_inj [LinearOrder K] (hl : l.Pairwise fun x y => x.1 < y.1)
    (hl2 : l₂.Pairwise fun x y => x.1 < y.1) (hnew : ∀ x ∈ l, m.lookup x.1 ≠ some x.2)
    (hnew2 : ∀ x ∈ l₂, m.lookup x.1 ≠ some x.2) :
    m.insertAll l = m.insertAll l₂ ↔ l = l₂ := by
  refine ⟨fun h => ?_, fun h => h ▸ rfl⟩
  have hkeys : ∀ {l : List (K × V)}, (l.Pairwise fun x y => x.1 < y.1) → (l.map Prod.fst).Nodup :=
    fun hl => (pairwise_map.mpr hl).imp fun hlt => hlt.ne
  refine List.Perm.eq_of_pairwise (fun x y _ _ hlt hgt => absurd hlt hgt.not_gt) hl hl2 ?_
  refine (perm_ext_iff_of_nodup (hkeys hl).of_map (hkeys hl2).of_map).mpr ?_
  rintro ⟨k, v⟩
  rw [mem_iff_lookup_insertAll (hkeys hl) hnew, mem_iff_lookup_insertAll (hkeys hl2) hnew2, h]

end InsertAll

end Map

section Sorted

variable {α : Type} [LinearOrder α]

/-- The elements of a finite set in increasing order. -/
def sorted (s : Finset α) : List α :=
  Quot.liftOn s.val (List.insertionSort (· ≤ ·)) fun _ _ h =>
    List.Perm.eq_of_pairwise (fun _ _ _ _ => le_antisymm) (pairwise_insertionSort _ _)
      (pairwise_insertionSort _ _)
      ((perm_insertionSort _ _).trans (h.trans (perm_insertionSort _ _).symm))

@[simp] theorem mem_sorted {s : Finset α} {a : α} : a ∈ sorted s ↔ a ∈ s := by
  obtain ⟨⟨l⟩, hl⟩ := s
  exact (perm_insertionSort _ l).mem_iff

theorem sorted_pairwise (s : Finset α) : (sorted s).Pairwise (· ≤ ·) := by
  obtain ⟨⟨l⟩, hl⟩ := s
  exact pairwise_insertionSort _ l

theorem sorted_nodup (s : Finset α) : (sorted s).Nodup := by
  obtain ⟨⟨l⟩, hl⟩ := s
  exact (perm_insertionSort _ l).nodup_iff.mpr hl

end Sorted

end Foks.Lib
