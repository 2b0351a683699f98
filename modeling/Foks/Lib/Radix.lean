import Mathlib.Data.Nat.Basic
import Mathlib.Tactic.Common

/-!
# Binary radix trees

A radix tree keeps keys that are strings of bits. A node stands at a bit position, covers the
bits that all keys below it share from there on, and then branches on one bit; a key alone below
its parent is a leaf, wherever it stands. Keys are of any type with a function that reads their
bits.

An insertion follows the bits of the new key to the place where it leaves the tree: a leaf with
another key, or a node whose shared bits it does not share. `Inserts` is this as a relation, so
that code which rebuilds a path in its own way can be compared with it.

## Main results

* `Inserts.mem_iff`, `Inserts.wellFormed`: an insertion adds one entry and keeps the tree well
  formed
* `Focus.descend`: following the bits of a key keeps the focus
* `Focus.mem_iff`: the entries of the whole tree at `k` are those in the focus
* `exists_hasKey`: no tree is empty
* `WellFormed.eq_of_mem_iff`: a well formed tree is determined by its entries
-/

namespace Foks.Lib

/-- The left one of two things for `false`, the right one for `true`. -/
def pick {α : Type} (b : Bool) (l r : α) : α := if b then r else l

inductive Radix (K V : Type) where
  | leaf (key : K) (value : V)
  | node (start count : ℕ) (left right : Radix K V)

namespace Radix

variable {K V : Type} {k : K} {b : Bool}

def Mem (k : K) (v : V) : Radix K V → Prop
  | leaf k' v' => k = k' ∧ v = v'
  | node _ _ l r => Mem k v l ∨ Mem k v r

def HasKey (k : K) (t : Radix K V) : Prop := ∃ v, Mem k v t

/-- The node with `t` on side `b` and `u` on the other. -/
def graft (start count : ℕ) (b : Bool) (t u : Radix K V) : Radix K V :=
  node start count (pick b t u) (pick b u t)

theorem hasKey_leaf {k' : K} {v : V} : HasKey k (leaf k' v) ↔ k = k' := by
  simp [HasKey, Mem]

variable {l r t u : Radix K V}

variable {c s : ℕ}

theorem hasKey_node : HasKey k (node s c l r) ↔ HasKey k l ∨ HasKey k r := by
  simp only [HasKey, Mem, exists_or]

theorem mem_graft {v : V} : Mem k v (graft s c b t u) ↔ Mem k v t ∨ Mem k v u := by
  cases b
  · exact Iff.rfl
  · exact or_comm

theorem hasKey_graft : HasKey k (graft s c b t u) ↔ HasKey k t ∨ HasKey k u := by
  simp only [HasKey, mem_graft, exists_or]

theorem graft_pick (s c : ℕ) (b : Bool) (l r : Radix K V) :
    graft s c b (pick b l r) (pick (!b) l r) = node s c l r := by
  cases b <;> rfl

theorem hasKey_of_pick (b : Bool)
    (h : HasKey k (pick b l r)) : HasKey k (node s c l r) := by
  rw [← graft_pick s c b l r, hasKey_graft]
  exact .inl h

theorem exists_hasKey (t : Radix K V) : ∃ k, HasKey k t := by
  induction t with
  | leaf k v => exact ⟨k, v, rfl, rfl⟩
  | node s c l r ihl ihr =>
    obtain ⟨k, hk⟩ := ihl
    exact ⟨k, hasKey_node.mpr (.inl hk)⟩

section Bits

variable (bit : K → ℕ → Bool) (size : ℕ)

/-- Two keys agree on the bits from `lo` on and below `hi`. -/
def Agree (k k' : K) (lo hi : ℕ) : Prop := ∀ i, lo ≤ i → i < hi → bit k i = bit k' i

/-- The tree may stand at position `p`: each node covers bits that its keys share, branches on
the bit after them, and is followed by the trees of the next position. -/
inductive WellFormed : ℕ → Radix K V → Prop
  | leaf (p : ℕ) (k : K) (v : V) : WellFormed p (leaf k v)
  | node {p c : ℕ} {l r : Radix K V} (hsize : p + c < size)
      (hagree : ∀ k k', HasKey k (node p c l r) → HasKey k' (node p c l r) → Agree bit k k' p (p + c))
      (hbit : ∀ b k, HasKey k (pick b l r) → bit k (p + c) = b)
      (hsub : ∀ b, WellFormed (p + c + 1) (pick b l r)) : WellFormed p (node p c l r)

/-- What the search for `k` in `T` meets at position `p`: the keys of `T` that agree with `k` so
far. If it is past the root, the branch not taken has a key too. -/
structure Focus (T : Radix K V) (k : K) (p : ℕ) (t : Radix K V) : Prop where
  sub : ∀ w v, Mem w v t → Mem w v T
  agree : ∀ w, HasKey w t → Agree bit w k 0 p
  all : ∀ w v, Mem w v T → Agree bit w k 0 p → Mem w v t
  sibling : p = 0 ∨ ∃ w, HasKey w T ∧ Agree bit w k 0 (p - 1) ∧ bit w (p - 1) ≠ bit k (p - 1)

/-- `t'` is the tree `t` at position `p` with the new entry `k ↦ v`. -/
inductive Inserts (k : K) (v : V) : ℕ → Radix K V → Radix K V → Prop
  | atLeaf {p d : ℕ} {k' : K} {v' : V} (hpd : p ≤ d) (hd : d < size) (hsame : Agree bit k k' p d)
      (hdiff : bit k d ≠ bit k' d) :
      Inserts k v p (leaf k' v') (graft p (d - p) (bit k d) (leaf k v) (leaf k' v'))
  | split {p c d : ℕ} {l r : Radix K V} (hpd : p ≤ d) (hd : d < p + c)
      (hsame : ∀ k', HasKey k' (node p c l r) → Agree bit k k' p d)
      (hdiff : ∀ k', HasKey k' (node p c l r) → bit k d ≠ bit k' d) :
      Inserts k v p (node p c l r) (graft p (d - p) (bit k d) (leaf k v) (node (d + 1) (p + c - d - 1) l r))
  | descend {p c : ℕ} {l r t' : Radix K V} (hsame : ∀ k', HasKey k' (node p c l r) → Agree bit k k' p (p + c))
      (h : Inserts k v (p + c + 1) (pick (bit k (p + c)) l r) t') :
      Inserts k v p (node p c l r) (graft p c (bit k (p + c)) t' (pick (!bit k (p + c)) l r))

variable {bit size}

variable {k' : K} {p : ℕ} {v : V}

variable {hi lo : ℕ}

theorem Agree.symm (h : Agree bit k k' lo hi) : Agree bit k' k lo hi :=
  fun i hlo hhi => (h i hlo hhi).symm

theorem Agree.trans {k1 k2 k3 : K} (h : Agree bit k1 k2 lo hi)
    (h' : Agree bit k2 k3 lo hi) : Agree bit k1 k3 lo hi :=
  fun i hlo hhi => (h i hlo hhi).trans (h' i hlo hhi)

theorem Agree.mono {lo' hi' : ℕ} (h : Agree bit k k' lo hi) (hlo : lo ≤ lo')
    (hhi : hi' ≤ hi) : Agree bit k k' lo' hi' :=
  fun i h1 h2 => h i (Nat.le_trans hlo h1) (Nat.lt_of_lt_of_le h2 hhi)

theorem Agree.append {mid : ℕ} (h : Agree bit k k' lo mid)
    (h' : Agree bit k k' mid hi) : Agree bit k k' lo hi := by
  intro i hlo hhi
  rcases Nat.lt_or_ge i mid with hi | hi
  · exact h i hlo hi
  · exact h' i hi hhi

theorem Agree.succ (h : Agree bit k k' lo hi) (hbit : bit k hi = bit k' hi) :
    Agree bit k k' lo (hi + 1) := by
  refine h.append fun i hlo hhi => ?_
  obtain rfl : i = hi := by omega
  exact hbit

theorem WellFormed.start_eq (h : WellFormed bit size p (Radix.node s c l r)) : s = p := by
  cases h
  rfl

theorem WellFormed.graft (hsize : p + c < size)
    (hagree : ∀ k k', HasKey k t ∨ HasKey k u → HasKey k' t ∨ HasKey k' u → Agree bit k k' p (p + c))
    (ht : ∀ k, HasKey k t → bit k (p + c) = b) (hu : ∀ k, HasKey k u → bit k (p + c) = !b)
    (hsubt : WellFormed bit size (p + c + 1) t) (hsubu : WellFormed bit size (p + c + 1) u) :
    WellFormed bit size p (graft p c b t u) := by
  refine .node hsize (fun k k' hk hk' => ?_) (fun b' k hk => ?_) fun b' => ?_
  · exact hagree k k' (hasKey_graft.mp hk) (hasKey_graft.mp hk')
  · cases b <;> cases b'
    exacts [ht k hk, hu k hk, hu k hk, ht k hk]
  · cases b <;> cases b'
    exacts [hsubt, hsubu, hsubu, hsubt]

/-! ## Canonical form -/

section WellFormed

variable (h : WellFormed bit size p (Radix.node p c l r))

include h

/-- The entries below one side of a node are those with its bit. -/
theorem WellFormed.mem_pick_iff (b : Bool) :
    Mem k v (pick b l r) ↔ Mem k v (Radix.node p c l r) ∧ bit k (p + c) = b := by
  cases h with
  | node hsize hagree hbit hsub =>
    rw [← graft_pick p c b l r, mem_graft]
    constructor
    · exact fun hk => ⟨.inl hk, hbit b k ⟨v, hk⟩⟩
    · rintro ⟨hk | hk, hb⟩
      · exact hk
      have hother := hbit (!b) k ⟨v, hk⟩
      rw [hb] at hother
      exact absurd hother.symm (by simp)

/-- A node has keys that differ right after the bits that it covers. -/
theorem WellFormed.exists_split :
    ∃ k k', HasKey k (Radix.node p c l r) ∧ HasKey k' (Radix.node p c l r) ∧
        bit k (p + c) ≠ bit k' (p + c) := by
  obtain ⟨k, hk⟩ := exists_hasKey l
  obtain ⟨k', hk'⟩ := exists_hasKey r
  refine ⟨k, k', hasKey_node.mpr (.inl hk), hasKey_node.mpr (.inr hk'), ?_⟩
  cases h with
  | node hsize hagree hbit hsub =>
    rw [hbit false k hk, hbit true k' hk']
    exact Bool.false_ne_true

/-- A node does not cover a bit on which two of its keys differ. -/
theorem WellFormed.count_le {c' : ℕ} {l' r' : Radix K V}
    (h' : WellFormed bit size p (Radix.node p c' l' r'))
    (hkeys : ∀ k, HasKey k (Radix.node p c l r) → HasKey k (Radix.node p c' l' r')) : c' ≤ c := by
  by_contra hlt
  obtain ⟨k, k', hk, hk', hne⟩ := h.exists_split
  cases h' with
  | node hsize hagree hbit hsub =>
    exact hne (hagree k k' (hkeys k hk) (hkeys k' hk') (p + c) (by omega) (by omega))

end WellFormed

variable {t' : Radix K V}

/-- There is one well formed tree with given entries. -/
theorem WellFormed.eq_of_mem_iff (h : WellFormed bit size p t)
    (h' : WellFormed bit size p t') (hmem : ∀ k v, Mem k v t ↔ Mem k v t') : t = t' := by
  induction t generalizing p t' with
  | leaf k v =>
    have hkey : ∀ w, HasKey w t' → w = k := fun w ⟨u, hu⟩ => ((hmem w u).mpr hu).1
    cases t' with
    | leaf k' v' =>
      obtain ⟨rfl, rfl⟩ := (hmem k v).mp ⟨rfl, rfl⟩
      rfl
    | node s c l r =>
      obtain rfl := h'.start_eq
      obtain ⟨w, w', hw, hw', hne⟩ := h'.exists_split
      rw [hkey w hw, hkey w' hw'] at hne
      exact absurd rfl hne
  | node s c l r ihl ihr =>
    have hkeys : ∀ w, HasKey w (Radix.node s c l r) ↔ HasKey w t' :=
      fun w => exists_congr fun u => hmem w u
    obtain rfl := h.start_eq
    cases t' with
    | leaf k' v' =>
      obtain ⟨w, w', hw, hw', hne⟩ := h.exists_split
      rw [hasKey_leaf.mp ((hkeys w).mp hw), hasKey_leaf.mp ((hkeys w').mp hw')] at hne
      exact absurd rfl hne
    | node s' c' l' r' =>
      obtain rfl := h'.start_eq
      obtain rfl : c = c' :=
        le_antisymm (h'.count_le h fun w => (hkeys w).mpr) (h.count_le h' fun w => (hkeys w).mp)
      have hside : ∀ b w u, Mem w u (pick b l r) ↔ Mem w u (pick b l' r') := by
        intro b w u
        rw [h.mem_pick_iff b, h'.mem_pick_iff b, hmem]
      cases h with
      | node hsize hagree hbit hsub =>
        cases h' with
        | node hsize' hagree' hbit' hsub' =>
          have hl : l = l' := ihl (hsub false) (hsub' false) (hside false)
          have hr : r = r' := ihr (hsub true) (hsub' true) (hside true)
          rw [hl, hr]

/-! ## Insertion -/

theorem Inserts.mem_iff {v' : V}
    (h : Inserts bit size k v p t t') : Mem k' v' t' ↔ (k' = k ∧ v' = v) ∨ Mem k' v' t := by
  induction h with
  | atLeaf | split => exact mem_graft
  | @descend p c l r t' hsame h ih =>
    rw [mem_graft, ih, or_assoc, ← mem_graft, graft_pick]

theorem Inserts.hasKey_iff
    (h : Inserts bit size k v p t t') : HasKey k' t' ↔ k' = k ∨ HasKey k' t := by
  simp only [HasKey, h.mem_iff, exists_or, exists_and_left, exists_eq, and_true]

theorem Inserts.wellFormed (h : Inserts bit size k v p t t') (ht : WellFormed bit size p t) :
    WellFormed bit size p t' := by
  induction h with
  | @atLeaf p d k' v' hpd hd hsame hdiff =>
    have hcount : p + (d - p) = d := by omega
    refine .graft (by omega) ?_ ?_ ?_ (.leaf _ _ _) (.leaf _ _ _)
    · intro w w' hw hw'
      rw [hcount]
      rw [hasKey_leaf, hasKey_leaf] at hw hw'
      rcases hw with rfl | rfl <;> rcases hw' with rfl | rfl
      exacts [fun _ _ _ => rfl, hsame, hsame.symm, fun _ _ _ => rfl]
    · intro w hw
      rw [hasKey_leaf.mp hw, hcount]
    intro w hw
    rw [hasKey_leaf.mp hw, hcount]
    exact Bool.eq_not_of_ne hdiff.symm
  | @split p c d l r hpd hd hsame hdiff =>
    have hcount : p + (d - p) = d := by omega
    have hkeys : ∀ w, HasKey w (node (d + 1) (p + c - d - 1) l r) ↔ HasKey w (node p c l r) :=
      fun w => hasKey_node.trans hasKey_node.symm
    cases ht with
    | node hsize hagree hbit hsub =>
      refine .graft (by omega) ?_ ?_ ?_ (.leaf _ _ _) ?_
      · intro w w' hw hw'
        rw [hcount]
        rw [hasKey_leaf] at hw hw'
        rcases hw with rfl | hw <;> rcases hw' with rfl | hw'
        · exact fun _ _ _ => rfl
        · exact hsame w' hw'
        · exact (hsame w hw).symm
        · exact (hagree w w' hw hw').mono le_rfl (by omega)
      · intro w hw
        rw [hasKey_leaf.mp hw, hcount]
      · intro w hw
        rw [hcount]
        exact Bool.eq_not_of_ne (hdiff w ((hkeys w).mp hw)).symm
      -- the old node, with what is left of its bits
      have hend : d + 1 + (p + c - d - 1) = p + c := by omega
      rw [hcount]
      refine .node (by omega) (fun w w' hw hw' => ?_) ?_ ?_
      · rw [hend]
        exact (hagree w w' ((hkeys w).mp hw) ((hkeys w').mp hw')).mono (by omega) le_rfl
      · rwa [hend]
      · rwa [hend]
  | @descend p c l r t' hsame h ih =>
    cases ht with
    | node hsize hagree hbit hsub =>
      have hold : ∀ w, HasKey w t' ∨ HasKey w (pick (!bit k (p + c)) l r) →
          w = k ∨ HasKey w (node p c l r) := by
        intro w hw
        rw [h.hasKey_iff, or_assoc, ← hasKey_graft, graft_pick] at hw
        exact hw
      refine .graft hsize ?_ ?_ (hbit _) (ih (hsub _)) (hsub _)
      · intro w w' hw hw'
        rcases hold w hw with rfl | hold_w <;> rcases hold w' hw' with rfl | hold_w'
        · exact fun _ _ _ => rfl
        · exact hsame w' hold_w'
        · exact (hsame w hold_w).symm
        · exact hagree w w' hold_w hold_w'
      intro w hw
      rcases h.hasKey_iff.mp hw with rfl | hw
      · rfl
      · exact hbit _ w hw

/-! ## Search -/

theorem Focus.root (T : Radix K V) (k : K) : Focus bit T k 0 T where
  sub _ _ h := h
  agree _ _ _ _ hi := absurd hi (by omega)
  all _ _ h _ := h
  sibling := .inl rfl

theorem Focus.descend {T : Radix K V}
    (hfocus : Focus bit T k p (node p c l r)) (hwf : WellFormed bit size p (node p c l r))
    (hsame : ∀ w, HasKey w (node p c l r) → Agree bit k w p (p + c)) :
    Focus bit T k (p + c + 1) (pick (bit k (p + c)) l r) := by
  cases hwf with
  | node hsize hagree hbit hsub =>
    have hpre : ∀ w, HasKey w (node p c l r) → Agree bit w k 0 (p + c) :=
      fun w hw => (hfocus.agree w hw).append (hsame w hw).symm
    refine ⟨fun w v hw => ?_, fun w hw => ?_, fun w v hw hagr => ?_, .inr ?_⟩
    · refine hfocus.sub w v ?_
      rw [← graft_pick p c (bit k (p + c)) l r, mem_graft]
      exact .inl hw
    · exact (hpre w (hasKey_of_pick _ hw)).succ (hbit _ w hw)
    · -- the key is below the node, and not in the other branch
      have hnode := hfocus.all w v hw (hagr.mono le_rfl (by omega))
      rw [← graft_pick p c (bit k (p + c)) l r, mem_graft] at hnode
      refine hnode.resolve_right fun hother => ?_
      have hw := hbit _ w ⟨v, hother⟩
      rw [hagr (p + c) (Nat.zero_le _) (by omega)] at hw
      exact (Bool.eq_not_self _).mp hw
    obtain ⟨w, hw⟩ := exists_hasKey (pick (!bit k (p + c)) l r)
    obtain ⟨v, hmem⟩ := hasKey_of_pick (s := p) (c := c) _ hw
    refine ⟨w, ⟨v, hfocus.sub w v hmem⟩, hpre w ⟨v, hmem⟩, ?_⟩
    rw [Nat.add_sub_cancel, hbit _ w hw]
    exact Bool.not_not_eq.mpr rfl

/-- The search for a key looks at the right place. -/
theorem Focus.mem_iff {T : Radix K V} (h : Focus bit T k p t) : Mem k v T ↔ Mem k v t :=
  ⟨fun hk => h.all k v hk fun _ _ _ => rfl, h.sub k v⟩

end Bits

end Radix

end Foks.Lib
