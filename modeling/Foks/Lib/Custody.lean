import Mathlib.Data.Set.Basic

/-!
# Custody of graded keys

A group has one key for each role, and a member may see the keys of its own role and of every
lower one. A key is rotated by starting a new generation of it, and is handed to a member by
boxing a generation for that member; a box cannot be taken back. The module states what one
change of the group has to do for two invariants over the boxes handed out so far: everyone who
may see a key has been boxed its current generation (`Covered`), and everyone who has been boxed
the current generation of a key may see it (`Confined`).

## Main results

* `Covers.covered`, `Revokes.confined`: the two invariants are kept
-/

namespace Foks.Lib.Custody

variable {M R : Type} [LE R]

/-- A group: the role of every member, the current generation of every key, and every box
handed out so far. -/
structure State (M R : Type) where
  role : M → Option R
  gen : R → Option ℕ
  boxes : Set (M × R × ℕ)

/-- A member may see the keys up to its role. -/
def Sees (role : M → Option R) (m : M) (r : R) : Prop := ∃ k, role m = some k ∧ r ≤ k

variable (s : State M R)

/-- Everyone who may see a key has been boxed its current generation. -/
def Covered : Prop :=
  ∀ m r g, Sees s.role m r → s.gen r = some g → (m, r, g) ∈ s.boxes

/-- Nobody has been boxed a generation that is still to come, and everyone who has been boxed
the current generation of a key may see it. -/
structure Confined : Prop where
  past : ∀ m r g, (m, r, g) ∈ s.boxes → ∃ g', s.gen r = some g' ∧ g ≤ g'
  sees : ∀ m r g, (m, r, g) ∈ s.boxes → s.gen r = some g → Sees s.role m r

/-- A change that keeps all boxes, and boxes the current generation of every key for everyone
who may see it, unless it is the generation that the member could see before. -/
structure Covers (s' : State M R) : Prop where
  keeps : s.boxes ⊆ s'.boxes
  covers : ∀ m r g, Sees s'.role m r → s'.gen r = some g → (m, r, g) ∈ s'.boxes ∨ Sees s.role m r ∧
    s.gen r = some g

/-- A change that boxes only current generations and only for members who may see them, never
goes back a generation, and rotates every key that a member may see no longer. -/
structure Revokes (s' : State M R) : Prop where
  boxes : ∀ m r g, (m, r, g) ∈ s'.boxes → (m, r, g) ∈ s.boxes ∨ s'.gen r = some g ∧ Sees s'.role m r
  mono : ∀ r g, s.gen r = some g → ∃ g', s'.gen r = some g' ∧ g ≤ g'
  rotates : ∀ m r g, Sees s.role m r → ¬ Sees s'.role m r → s.gen r = some g → s'.gen r ≠ some g

theorem Covers.covered {s s' : State M R} (h : Covers s s') (hs : Covered s) : Covered s' := by
  intro m r g hsees hgen
  rcases h.covers m r g hsees hgen with hbox | ⟨hsees', hgen'⟩
  · exact hbox
  · exact h.keeps (hs m r g hsees' hgen')

theorem Revokes.confined {s s' : State M R} (h : Revokes s s') (hs : Confined s) : Confined s' := by
  refine ⟨?_, ?_⟩
  · intro m r g hbox
    rcases h.boxes m r g hbox with hold | ⟨hgen, -⟩
    · obtain ⟨g1, hg1, hle1⟩ := hs.past m r g hold
      obtain ⟨g2, hg2, hle2⟩ := h.mono r g1 hg1
      exact ⟨g2, hg2, hle1.trans hle2⟩
    · exact ⟨g, hgen, le_refl g⟩
  intro m r g hbox hgen'
  rcases h.boxes m r g hbox with hold | ⟨-, hsees⟩
  · -- a box from before is still current only if the key has not been rotated since
    obtain ⟨g1, hg1, hle1⟩ := hs.past m r g hold
    obtain ⟨g2, hg2, hle2⟩ := h.mono r g1 hg1
    have hg : g2 = g := Option.mem_unique hg2 hgen'
    have hcur : g1 = g := le_antisymm (hg ▸ hle2) hle1
    subst hcur
    by_contra hlost
    exact h.rotates m r g1 (hs.sees m r g1 hold hg1) hlost hg1 hgen'
  · exact hsees

end Foks.Lib.Custody
