import Foks.Merkle.Tree

/-!
# Inserting a key

An insertion adds a leaf and the nodes above it, from the bottom up. It follows `Radix.Inserts`
on the tree behind the latest root, and no row that it adds is in the store already: a new node
has the new leaf below it, or it is the lower half of a segment that is split only now.
-/

namespace Foks.Merkle

open Lib Lib.Radix List Except MerkleTreeRFOutput Store NodeRow

variable {H : Type}

/-- Some key agrees with the keys of a tree up to the bit before `q`, and differs from them
there: a tree that stands at `q` has a sibling. -/
def Sibling (P : MerkleTreeRFOutput → Prop) (q : ℕ) (t : Tree H) : Prop :=
  q = 0 ∨ ∃ w, P w ∧ ∀ u, HasKey u t → AgreeKey w u 0 (q - 1) ∧ w.bit (q - 1) ≠ u.bit (q - 1)

theorem Sibling.mono {P Q : MerkleTreeRFOutput → Prop} {q : ℕ} {t : Tree H} (h : Sibling P q t)
    (hPQ : ∀ w, P w → Q w) : Sibling Q q t :=
  h.imp_right fun ⟨w, hw, hu⟩ => ⟨w, hPQ w hw, hu⟩

/-- The place that a search has reached has a sibling. -/
theorem Sibling.of_focus {T t t' : Tree H} {k : MerkleTreeRFOutput} {p : ℕ}
    (hfocus : Focus bit T k p t)
    (hkeys : ∀ u, HasKey u t' → u = k ∨ HasKey u t) : Sibling (HasKey · T) p t' := by
  rcases Nat.eq_zero_or_pos p with hp | hp
  · exact .inl hp
  obtain ⟨w, hw, hagree, hne⟩ := hfocus.sibling.resolve_left hp.ne'
  refine .inr ⟨w, hw, fun u hu => ?_⟩
  have huk : AgreeKey k u 0 p := by
    rcases hkeys u hu with rfl | hu
    · exact fun _ _ _ => rfl
    · exact (hfocus.agree u hu).symm
  exact ⟨hagree.trans (huk.mono (Nat.le_refl 0) (by omega)), by rwa [← huk (p - 1) (Nat.zero_le _) (by omega)]⟩

variable [DecidableEq H] [MerkleHash H]

variable (s : Store H)

/-- A node or a leaf with this hash is in the store. -/
def Store.Has (h : H) : Prop :=
  h ∈ s.nodes.map hash ∨ h ∈ s.leaves.map LeafRow.hash

structure Archive (T : Tree H) : Prop where
  uniqueNodes : Unique hash s.nodes
  uniqueLeaves : Unique LeafRow.hash s.leaves
  leaves : ∀ row ∈ s.leaves, row.hash = row.leaf.hash ∧ Mem row.leaf.key row.leaf.value T
  nodes : ∀ row ∈ s.nodes, row.hash = row.node.hash ∧ ∃ l r,
    Stored s ⟨.node, row.node.hash⟩ (row.node.tree l r) ∧
    Sibling (HasKey · T) row.node.prfx.bitStart (row.node.tree l r)

/-- `s'` is the store `s` with a new leaf and new nodes. -/
structure Grown (s' : Store H) (leaf : MerkleLeaf H) (out : List (Node H)) : Prop where
  ext : s.Extends s'
  leaf : s'.selectLeaf ⟨.leaf, leaf.hash⟩ = .ok leaf
  nodes : ∀ n ∈ out, s'.selectNode ⟨.node, n.hash⟩ = .ok n

/-- The new nodes `out`, with `top` the last of them, turn the tree `t` at bit `p` of the latest
tree `T` into `t'`, which has the new entry `k ↦ v`. -/
structure Rebuilt (T : Tree H) (k : MerkleTreeRFOutput) (v : H) (p : ℕ) (t : Tree H)
    (out : List (Node H)) (top : Node H) (t' : Tree H) : Prop where
  last : out.getLast? = some top
  inserts : Inserts bit keyBits k v p t t'
  lower : ∀ n ∈ out, p ≤ n.prfx.bitStart
  sorted : out.Pairwise fun a b => b.prfx.bitStart < a.prfx.bitStart
  fresh : ∀ n ∈ out, ¬ s.Has n.hash
  inner : ∀ n ∈ out, ∃ l r, Sibling (fun w => w = k ∨ HasKey w T) n.prfx.bitStart (n.tree l r) ∧
    ∀ s', Grown s s' ⟨k, v⟩ out → Stored s' ⟨.node, n.hash⟩ (n.tree l r)
  stored : ∀ s', Grown s s' ⟨k, v⟩ out → Stored s' ⟨.node, top.hash⟩ t'

/-! ## Rows of the store -/

variable {s : Store H} {ph : PrefixedHash H}

section

omit [MerkleHash H]

theorem Store.mem_of_selectNode {n : Node H} (h : s.selectNode ph = .ok n) :
    ∃ row ∈ s.nodes, row.hash = ph.hash ∧ row.node = n := by
  unfold selectNode at h
  split at h
  · cases h
  · next row hrow =>
    exact ⟨row, mem_of_find?_eq_some hrow, by simpa using find?_some hrow, ok.inj h⟩

theorem Store.mem_of_selectLeaf {l : MerkleLeaf H} (h : s.selectLeaf ph = .ok l) :
    ∃ row ∈ s.leaves, row.hash = ph.hash ∧ row.leaf = l := by
  unfold selectLeaf at h
  split at h
  · cases h
  · next row hrow =>
    exact ⟨row, mem_of_find?_eq_some hrow, by simpa using find?_some hrow, ok.inj h⟩

theorem Store.selectNode_of_mem (h : Unique hash s.nodes) {row : NodeRow H} (hrow : row ∈ s.nodes)
    (hhash : row.hash = ph.hash) :
    s.selectNode ph = .ok row.node := by
  rw [selectNode, ← hhash, h.find?_eq_some hrow]

theorem Store.selectLeaf_of_mem (h : Unique LeafRow.hash s.leaves) {row : LeafRow H} (hrow : row ∈ s.leaves)
    (hhash : row.hash = ph.hash) :
    s.selectLeaf ph = .ok row.leaf := by
  rw [selectLeaf, ← hhash, h.find?_eq_some hrow]

theorem Store.Extends.of_mem {s' : Store H} (hnodes : Unique hash s'.nodes)
    (hleaves : Unique LeafRow.hash s'.leaves) (hn : ∀ row ∈ s.nodes, row ∈ s'.nodes)
    (hl : ∀ row ∈ s.leaves, row ∈ s'.leaves) : s.Extends s' := by
  constructor
  · intro ph n hsel
    obtain ⟨row, hrow, hhash, rfl⟩ := mem_of_selectNode hsel
    exact selectNode_of_mem hnodes (hn row hrow) hhash
  · intro ph l hsel
    obtain ⟨row, hrow, hhash, rfl⟩ := mem_of_selectLeaf hsel
    exact selectLeaf_of_mem hleaves (hl row hrow) hhash

end

theorem Stored.has {t : Tree H} (h : Stored s ph t) : s.Has ph.hash := by
  cases h with
  | leaf hsel =>
    obtain ⟨row, hrow, hhash, -⟩ := mem_of_selectLeaf hsel
    exact .inr (mem_map.mpr ⟨row, hrow, hhash⟩)
  | node hsel =>
    obtain ⟨row, hrow, hhash, -⟩ := mem_of_selectNode hsel
    exact .inl (mem_map.mpr ⟨row, hrow, hhash⟩)

namespace Archive

variable {T : Tree H} {n : Node H} {k : MerkleTreeRFOutput}

variable (hs : SoundHash H) (h : Archive s T)

include hs h

/-- A hash that is in the store and is that of a node belongs to a node of a tree. -/
theorem exists_stored (hn : s.Has n.hash) :
    ∃ n' l r, n'.hash = n.hash ∧ s.selectNode ⟨.node, n'.hash⟩ = .ok n' ∧
      Stored s ⟨.node, n'.hash⟩ (n'.tree l r) ∧
      Sibling (HasKey · T) n'.prfx.bitStart (n'.tree l r) := by
  rcases hn with hn | hn
  · obtain ⟨row, hrow, hhash⟩ := mem_map.mp hn
    obtain ⟨hrowhash, l, r, hst, hsib⟩ := h.nodes row hrow
    refine ⟨row.node, l, r, hrowhash.symm.trans hhash, ?_, hst, hsib⟩
    exact selectNode_of_mem h.uniqueNodes hrow hrowhash
  obtain ⟨row, hrow, hhash⟩ := mem_map.mp hn
  rw [(h.leaves row hrow).1] at hhash
  exact absurd hhash (MerkleLeaf.hash_ne hs _ n)

theorem leaf_fresh (v : H) (hk : ¬ HasKey k T) :
    ¬ s.Has (MerkleLeaf.hash ⟨k, v⟩) := by
  rintro (hn | hn)
  · obtain ⟨row, hrow, hhash⟩ := mem_map.mp hn
    rw [(h.nodes row hrow).1] at hhash
    exact MerkleLeaf.hash_ne hs _ row.node hhash.symm
  obtain ⟨row, hrow, hhash⟩ := mem_map.mp hn
  obtain ⟨hrowhash, hmem⟩ := h.leaves row hrow
  rw [MerkleLeaf.hash_inj hs (hrowhash.symm.trans hhash)] at hmem
  exact hk ⟨v, hmem⟩

/-- A node with a new child is new. -/
theorem fresh_of_child (b : Bool) (hchild : ¬ s.Has (n.select b).hash) :
    ¬ s.Has n.hash := by
  intro hn
  obtain ⟨n', l, r, hhash, hsel, hst, -⟩ := h.exists_stored hs hn
  rw [← (Node.hash_inj hs hhash).2 b] at hchild
  exact hchild ((hst.node_inv hsel).2 b).has

/-- The lower half of a segment that is split is new: a node that stands there already would have
a sibling, which would share the segment. -/
theorem fresh_of_split {l r : Tree H} {bottom : Segment} {d : ℕ}
    (hst : Stored s ⟨.node, n.hash⟩ (n.tree l r)) (hsel : s.selectNode ⟨.node, n.hash⟩ = .ok n)
    (hwf : (n.tree l r).WF n.prfx.bitStart)
    (hfocus : Focus bit T k n.prfx.bitStart (n.tree l r)) (hd : d < n.prfx.bitCount)
    (hbottom : bottom.bitStart = n.prfx.bitStart + d + 1) :
    ¬ s.Has (Node.hash { n with prfx := bottom }) := by
  intro hn
  obtain ⟨n', l', r', hhash, hsel', hst', hsib⟩ := h.exists_stored hs hn
  obtain ⟨hstart, hchild⟩ := Node.hash_inj hs hhash
  have hstart : n'.prfx.bitStart = n.prfx.bitStart + d + 1 := hstart.trans hbottom
  -- the stored node has the same children, so the same keys
  have hl : l' = l := ((hst'.node_inv hsel').2 false).unique hs ((hst.node_inv hsel).2 false) (hchild false)
  have hr : r' = r := ((hst'.node_inv hsel').2 true).unique hs ((hst.node_inv hsel).2 true) (hchild true)
  subst hl hr
  rw [hstart] at hsib
  obtain ⟨w, ⟨v, hw⟩, hall⟩ := hsib.resolve_left (Nat.succ_ne_zero _)
  obtain ⟨u, hu⟩ := exists_hasKey (n.tree l' r')
  obtain ⟨hagree, hne⟩ := hall u (hasKey_node.mpr (hasKey_node.mp hu))
  -- so the sibling is below the node too, and shares its segment
  have hwk : AgreeKey w k 0 n.prfx.bitStart :=
    (hagree.mono (Nat.le_refl 0) (by omega)).trans (hfocus.agree u hu)
  have hwt := hfocus.all w v hw hwk
  cases hwf with
  | node hsize hsame hbit hsub =>
    exact hne (hsame w u ⟨v, hwt⟩ hu _ (by omega) (by omega))

end Archive

/-! ## The new nodes -/

section Rebuild

variable {T t : Tree H} {k : MerkleTreeRFOutput} {v : H} {p : ℕ} {n : Node H}
  {path : List (LookupPathNode H)} {leaf : Option (LookupLeaf H)}

/-- A node in the store, from its children on side `b` and on the other side. -/
theorem Stored.graft {u : Tree H} (b : Bool) (hsel : s.selectNode ⟨.node, n.hash⟩ = .ok n)
    (hseg : ∀ w, HasKey w t ∨ HasKey w u → n.prfx.Holds w) (ht : Stored s (n.select b) t)
    (hu : Stored s (n.select !b) u) :
    Stored s ⟨.node, n.hash⟩ (n.tree (pick b t u) (pick b u t)) := by
  refine .node hsel (fun w hw => hseg w (hasKey_graft.mp hw)) fun c => ?_
  cases b <;> cases c
  exacts [ht, hu, hu, ht]

/-- A leaf with another key: the two leaves go below a node for the bits that they share. -/
theorem rebuilt_leaf (hs : SoundHash H) (harch : Archive s T) (hk : ¬ HasKey k T)
    {k' : MerkleTreeRFOutput} {v' : H} (isMatch : Bool)
    (hfocus : Focus bit T k p (.leaf k' v'))
    (hsel : s.selectLeaf ⟨.leaf, MerkleLeaf.hash ⟨k', v'⟩⟩ = .ok ⟨k', v'⟩) :
    ∃ out top t', outputNodes p k (MerkleLeaf.hash ⟨k, v⟩) none
        (some ⟨⟨k', v'⟩, ⟨.leaf, MerkleLeaf.hash ⟨k', v'⟩⟩, isMatch⟩) = .ok out ∧
      Rebuilt s T k v p (.leaf k' v') out top t' := by
  have hk' : HasKey k' (.leaf k' v' : Tree H) := ⟨v', rfl, rfl⟩
  have hne : k.bytes ≠ k'.bytes := by
    intro hbytes
    obtain rfl : k = k' := ext_bit fun i _ => congrArg (bitOf · i) hbytes
    exact hk ⟨v', hfocus.sub k v' ⟨rfl, rfl⟩⟩
  obtain ⟨d, hpd, hd, hdiff, hsame, hprfx⟩ := computePrefixMatch_eq_ok (k.size.trans k'.size.symm)
    hne (m := p) fun i hi => (hfocus.agree k' hk' i (Nat.zero_le i) hi).symm
  rw [k.bits_length] at hd
  set n : Node H :=
    ⟨⟨(k.bytes.drop (p / 8)).take ((p % 8 + (d - p) + 7) / 8), p, d - p⟩,
      ⟨.leaf, pick (k.bit d) (MerkleLeaf.hash ⟨k, v⟩) (MerkleLeaf.hash ⟨k', v'⟩)⟩,
      ⟨.leaf, pick (k.bit d) (MerkleLeaf.hash ⟨k', v'⟩) (MerkleLeaf.hash ⟨k, v⟩)⟩⟩ with hn
  have hnew : n.select (k.bit d) = ⟨.leaf, MerkleLeaf.hash ⟨k, v⟩⟩ := by
    rw [hn]
    cases k.bit d <;> rfl
  have hold : n.select (!k.bit d) = ⟨.leaf, MerkleLeaf.hash ⟨k', v'⟩⟩ := by
    rw [hn]
    cases k.bit d <;> rfl
  have hagree : AgreeKey k k' p d := fun i _ hi => hsame i hi
  have hcount : p + (d - p) = d := by omega
  have hstored : ∀ s', Grown s s' ⟨k, v⟩ [n] → Stored s' ⟨.node, n.hash⟩
      (graft p (d - p) (k.bit d) (.leaf k v) (.leaf k' v')) := by
    intro s' hgrown
    have hholds : n.prfx.Holds k := Segment.holds_cut k (by omega)
    refine .graft (k.bit d) (hgrown.nodes n mem_cons_self) (fun w hw => ?_) ?_ ?_
    · rw [hasKey_leaf, hasKey_leaf] at hw
      rcases hw with rfl | rfl
      · exact hholds
      · refine hholds.congr ?_
        rwa [hcount]
    · rw [hnew]
      exact .leaf hgrown.leaf
    · rw [hold]
      exact .leaf (hgrown.ext.leaf hsel)
  refine ⟨[n], n, _, ?_, rfl, .atLeaf hpd hd hagree hdiff, ?_, pairwise_singleton _ _, ?_, ?_, hstored⟩
  · simp only [outputNodes, hprfx]
    rw [hn, show bitOf k.bytes d = k.bit d from rfl]
    cases k.bit d <;> rfl
  · intro n' hn'
    rw [mem_singleton.mp hn']
  · intro n' hn'
    rw [mem_singleton.mp hn']
    refine harch.fresh_of_child hs (k.bit d) ?_
    rw [hnew]
    exact harch.leaf_fresh hs v hk
  intro n' hn'
  rw [mem_singleton.mp hn']
  refine ⟨_, _, (Sibling.of_focus hfocus fun u hu => ?_).mono fun w => .inr, hstored⟩
  have hu := hasKey_graft.mp hu
  rwa [hasKey_leaf] at hu

section Node

variable (hs : SoundHash H) (harch : Archive s T) {l r : Tree H} (hst : Stored s ⟨.node, n.hash⟩ (n.tree l r))
  (hsel : s.selectNode ⟨.node, n.hash⟩ = .ok n) (hfocus : Focus bit T k n.prfx.bitStart (n.tree l r))

include hs harch hst hsel hfocus

/-- A segment that the key leaves: the node goes below a new one, with what is left of the
segment, and the new leaf stands beside it. -/
theorem rebuilt_miss (hk : ¬ HasKey k T) (hwf : (n.tree l r).WF n.prfx.bitStart) {d : ℕ}
    (hd : d < n.prfx.bitCount)
    (hsame : ∀ w, HasKey w (n.tree l r) → AgreeKey k w n.prfx.bitStart (n.prfx.bitStart + d))
    (hdiff : ∀ w, HasKey w (n.tree l r) → k.bit (n.prfx.bitStart + d) ≠ w.bit (n.prfx.bitStart + d)) :
    ∃ out top t', outputNodes (n.prfx.bitStart + d) k (MerkleLeaf.hash ⟨k, v⟩)
        (some ⟨n, false, n.prfx.bitStart, d⟩) none = .ok out ∧
      Rebuilt s T k v n.prfx.bitStart (n.tree l r) out top t' := by
  obtain ⟨hseg, hsub⟩ := hst.node_inv hsel
  obtain ⟨w0, hw0⟩ := exists_hasKey (n.tree l r)
  obtain ⟨top, bottom, b, hsplit, htopstart, htopcount, hbotstart, hbotcount, hholds⟩ :=
    Segment.split_eq_ok (hseg w0 hw0).long hd
  have hb : b = !k.bit (n.prfx.bitStart + d) := by
    rw [(hholds w0 (hseg w0 hw0)).2.2]
    exact Bool.eq_not_of_ne (hdiff w0 hw0).symm
  set kb := k.bit (n.prfx.bitStart + d) with hkb
  set low : Node H := { n with prfx := bottom } with hlow
  set high : Node H := ⟨top, pick kb ⟨.leaf, MerkleLeaf.hash ⟨k, v⟩⟩ ⟨.node, low.hash⟩,
    pick kb ⟨.node, low.hash⟩ ⟨.leaf, MerkleLeaf.hash ⟨k, v⟩⟩⟩ with hhigh
  have hnew : high.select kb = ⟨.leaf, MerkleLeaf.hash ⟨k, v⟩⟩ := by
    rw [hhigh]
    cases kb <;> rfl
  have hold : high.select (!kb) = ⟨.node, low.hash⟩ := by
    rw [hhigh]
    cases kb <;> rfl
  have hlowkeys : ∀ w, HasKey w (low.tree l r) ↔ HasKey w (n.tree l r) :=
    fun w => hasKey_node.trans hasKey_node.symm
  have hlowstored : ∀ s', Grown s s' ⟨k, v⟩ [low, high] → Stored s' ⟨.node, low.hash⟩ (low.tree l r) := by
    intro s' hgrown
    refine .node (hgrown.nodes low mem_cons_self) (fun w hw => ?_) fun c => ?_
    · exact (hholds w (hseg w ((hlowkeys w).mp hw))).2.1
    · have hchild : low.select c = n.select c := by cases c <;> rfl
      exact (hsub c).mono hgrown.ext
  have hhighstored : ∀ s', Grown s s' ⟨k, v⟩ [low, high] → Stored s' ⟨.node, high.hash⟩
      (high.tree (pick kb (.leaf k v) (low.tree l r)) (pick kb (low.tree l r) (.leaf k v))) := by
    intro s' hgrown
    refine .graft kb (hgrown.nodes high (by simp)) (fun w hw => ?_) ?_ ?_
    · rw [hasKey_leaf] at hw
      rcases hw with rfl | hw
      · -- the key shares the upper half with any key below the node
        refine (hholds w0 (hseg w0 hw0)).1.congr ?_
        rw [htopstart, htopcount]
        exact (hsame w0 hw0).symm
      · exact (hholds w (hseg w hw)).1
    · rw [hnew]
      exact .leaf hgrown.leaf
    · rw [hold]
      exact hlowstored s' hgrown
  have hcount : n.prfx.bitStart + d - n.prfx.bitStart = d := by omega
  have hrest : n.prfx.bitStart + n.prfx.bitCount - (n.prfx.bitStart + d) - 1 =
      n.prfx.bitCount - d - 1 := by omega
  have hins : Inserts bit keyBits k v n.prfx.bitStart (n.tree l r)
      (high.tree (pick kb (.leaf k v) (low.tree l r)) (pick kb (low.tree l r) (.leaf k v))) := by
    have h : Inserts bit keyBits k v n.prfx.bitStart (n.tree l r) _ :=
      .split (Nat.le_add_right n.prfx.bitStart d) (Nat.add_lt_add_left hd _) hsame hdiff
    rw [hcount, hrest] at h
    unfold Node.tree
    rw [htopstart, htopcount, hbotstart, hbotcount]
    exact h
  refine ⟨[low, high], high, _, ?_, rfl, hins, ?_, ?_, ?_, ?_, hhighstored⟩
  · simp only [outputNodes, hsplit, hb]
    rw [hhigh]
    cases kb <;> rfl
  · rintro n' (_ | ⟨_, _ | ⟨_, ⟨⟩⟩⟩)
    · show n.prfx.bitStart ≤ bottom.bitStart
      omega
    · show n.prfx.bitStart ≤ top.bitStart
      omega
  · refine pairwise_pair.mpr ?_
    show top.bitStart < bottom.bitStart
    omega
  · rintro n' (_ | ⟨_, _ | ⟨_, ⟨⟩⟩⟩)
    · exact harch.fresh_of_split hs hst hsel hwf hfocus hd hbotstart
    refine harch.fresh_of_child hs kb ?_
    rw [hnew]
    exact harch.leaf_fresh hs v hk
  · rintro n' (_ | ⟨_, _ | ⟨_, ⟨⟩⟩⟩)
    · -- the new key is the sibling of the lower half
      refine ⟨l, r, .inr ⟨k, .inl rfl, fun u hu => ?_⟩, hlowstored⟩
      rw [show low.prfx.bitStart - 1 = n.prfx.bitStart + d by show bottom.bitStart - 1 = _; omega]
      exact ⟨(hfocus.agree u hu).symm.append (hsame u hu), hdiff u hu⟩
    refine ⟨_, _, ?_, hhighstored⟩
    rw [show high.prfx.bitStart = n.prfx.bitStart from htopstart]
    refine (Sibling.of_focus hfocus fun u hu => ?_).mono fun w => .inr
    have hu := hasKey_graft.mp hu
    rwa [hasKey_leaf] at hu

/-- A node on the way: it is copied with the new child. -/
theorem rebuilt_step {t'' : Tree H} {out : List (Node H)} {top : Node H} {b : Bool}
    (hb : b = k.bit (n.prfx.bitStart + n.prfx.bitCount))
    (hsame : ∀ w, HasKey w (n.tree l r) → AgreeKey k w n.prfx.bitStart (n.prfx.bitStart + n.prfx.bitCount))
    (h : Rebuilt s T k v (n.prfx.bitStart + n.prfx.bitCount + 1) (pick b l r) out top t'') :
    ∃ t', Rebuilt s T k v n.prfx.bitStart (n.tree l r)
      (out ++ [n.setChild b ⟨.node, top.hash⟩]) (n.setChild b ⟨.node, top.hash⟩) t' := by
  obtain ⟨hseg, hsub⟩ := hst.node_inv hsel
  set n' := n.setChild b ⟨.node, top.hash⟩ with hn'
  have hprfx : n'.prfx = n.prfx := Node.setChild_prfx n b _
  have hnew : n'.select b = ⟨.node, top.hash⟩ := by rw [Node.select_setChild, if_pos rfl]
  have hold : n'.select (!b) = n.select (!b) := by
    cases b <;> rfl
  have htop : top ∈ out := mem_of_getLast? h.last
  -- the keys of the new tree
  have hkeys : ∀ w, HasKey w t'' ∨ HasKey w (pick (!b) l r) → w = k ∨ HasKey w (n.tree l r) := by
    intro w hw
    rw [h.inserts.hasKey_iff, or_assoc, ← hasKey_graft, graft_pick] at hw
    exact hw
  have hholds : ∀ w, w = k ∨ HasKey w (n.tree l r) → n'.prfx.Holds w := by
    rw [hprfx]
    rintro w (rfl | hw)
    · obtain ⟨w0, hw0⟩ := exists_hasKey (n.tree l r)
      exact (hseg w0 hw0).congr (hsame w0 hw0).symm
    · exact hseg w hw
  have hgrown : ∀ s', Grown s s' ⟨k, v⟩ (out ++ [n']) → Grown s s' ⟨k, v⟩ out :=
    fun s' hg => ⟨hg.ext, hg.leaf, fun m hm => hg.nodes m (mem_append_left _ hm)⟩
  have hstored : ∀ s', Grown s s' ⟨k, v⟩ (out ++ [n']) → Stored s' ⟨.node, n'.hash⟩
      (n'.tree (pick b t'' (pick (!b) l r)) (pick b (pick (!b) l r) t'')) := by
    intro s' hg
    refine .graft b (hg.nodes n' (by simp)) (fun w hw => hholds w (hkeys w hw)) ?_ ?_
    · rw [hnew]
      exact h.stored s' (hgrown s' hg)
    · rw [hold]
      exact (hsub _).mono hg.ext
  have hins : Inserts bit keyBits k v n.prfx.bitStart (n.tree l r)
      (n'.tree (pick b t'' (pick (!b) l r)) (pick b (pick (!b) l r) t'')) := by
    unfold Node.tree
    rw [hprfx]
    subst hb
    exact .descend hsame h.inserts
  refine ⟨_, getLast?_concat .., hins, fun m hm => ?_, ?_, fun m hm => ?_, fun m hm => ?_, hstored⟩
  · rcases mem_append.mp hm with hm | hm
    · have := h.lower m hm
      omega
    · rw [mem_singleton.mp hm, hprfx]
  · refine pairwise_append.mpr ⟨h.sorted, pairwise_singleton _ _, fun m hm m' hm' => ?_⟩
    rw [mem_singleton.mp hm', hprfx]
    have := h.lower m hm
    omega
  · rcases mem_append.mp hm with hm | hm
    · exact h.fresh m hm
    rw [mem_singleton.mp hm]
    refine harch.fresh_of_child hs b ?_
    rw [hnew]
    exact h.fresh top htop
  rcases mem_append.mp hm with hm | hm
  · obtain ⟨l', r', hsib, hst'⟩ := h.inner m hm
    exact ⟨l', r', hsib, fun s' hg => hst' s' (hgrown s' hg)⟩
  rw [mem_singleton.mp hm]
  refine ⟨_, _, ?_, hstored⟩
  rw [hprfx]
  exact (Sibling.of_focus hfocus fun u hu => hkeys u (hasKey_graft.mp hu)).mono fun w => .inr

end Node

section

omit [DecidableEq H] [MerkleHash H]

theorem endOfPath_cons (base : ℕ) (here : LookupPathNode H) (path : List (LookupPathNode H)) :
    endOfPath base (here :: path) = endOfPath (here.keyBitStart + here.keyBitsMatched) path := by
  cases path with
  | nil => rfl
  | cons next path => rw [endOfPath, endOfPath, getLast?_cons_cons]; rfl

theorem pathAbove_cons (here : LookupPathNode H) (hne : path ≠ [] ∨ leaf ≠ none) :
    pathAbove (here :: path) leaf = here :: pathAbove path leaf := by
  cases leaf with
  | some l => rfl
  | none => exact dropLast_cons_of_ne_nil (hne.resolve_right (not_not.mpr rfl))

end

omit [DecidableEq H] in
theorem outputNodes_cons {bitsMatched : ℕ} {nl : H} (here : LookupPathNode H) (hne : path ≠ [] ∨ leaf ≠ none) :
    outputNodes bitsMatched k nl (here :: path).getLast? leaf =
      outputNodes bitsMatched k nl path.getLast? leaf := by
  cases path with
  | nil =>
    obtain ⟨l, rfl⟩ := Option.ne_none_iff_exists'.mp (hne.resolve_left (not_not.mpr rfl))
    rfl
  | cons next path => rw [getLast?_cons_cons]

theorem Trace.nonempty (h : Trace s k p ph t path leaf) : path ≠ [] ∨ leaf ≠ none := by
  cases h with
  | leaf => exact .inr (Option.some_ne_none _)
  | miss | step => exact .inl (cons_ne_nil _ _)

/-- What an insertion computes from the path of a lookup that did not find its key. -/
theorem exists_rebuilt (hs : SoundHash H) (harch : Archive s T) (hk : ¬ HasKey k T) (v : H)
    (h : Trace s k p ph t path leaf) (hst : Stored s ph t) (hwf : t.WF p)
    (hfocus : Focus bit T k p t) :
    ∃ ends out top t', outputNodes (endOfPath p path) k (MerkleLeaf.hash ⟨k, v⟩) path.getLast? leaf = .ok ends ∧
      propagateUpdates (pathAbove path leaf) ends = .ok out ∧
      Rebuilt s T k v p t out top t' := by
  induction h with
  | leaf hsel =>
    obtain ⟨out, top, t', hout, hreb⟩ := rebuilt_leaf (v := v) hs harch hk _ hfocus hsel
    exact ⟨out, out, top, t', hout, rfl, hreb⟩
  | miss hsel hd hsame hdiff =>
    obtain ⟨out, top, t', hout, hreb⟩ :=
      rebuilt_miss (v := v) hs harch hst hsel hfocus hk hwf hd hsame hdiff
    exact ⟨out, out, top, t', hout, rfl, hreb⟩
  | @step n l r path leaf hsel hsame h ih =>
    have hdescend := hfocus.descend hwf hsame
    cases hwf with
    | node hsize hagree hbit hwfsub =>
      obtain ⟨ends, out, top, t'', hout, hprop, hreb⟩ :=
        ih ((hst.node_inv hsel).2 _) (hwfsub _) hdescend
      obtain ⟨t', hreb'⟩ := rebuilt_step hs harch hst hsel hfocus rfl hsame hreb
      refine ⟨ends, _, _, t', ?_, ?_, hreb'⟩
      · rw [endOfPath_cons, outputNodes_cons _ h.nonempty]
        exact hout
      rw [pathAbove_cons _ h.nonempty, propagateUpdates, hprop]
      simp only [bind, Except.bind, hreb.last]
      rfl

end Rebuild

/-! ## Storing the new rows -/

/-- The store with a new leaf and new nodes. -/
def Store.addPath (s : Store H) (epno : MerkleEpno) (leaf : MerkleLeaf H) (out : List (Node H)) : Store H :=
  { s with
    leaves := s.leaves ++ [⟨leaf.hash, leaf, epno⟩]
    nodes := s.nodes ++ out.map fun n => ⟨n.hash, n⟩ }

theorem storeNodes_eq_ok {out : List (Node H)} (hdistinct : (out.map Node.hash).Nodup)
    (hfresh : ∀ n ∈ out, n.hash ∉ s.nodes.map hash) :
    storeNodes s out = .ok { s with nodes := s.nodes ++ out.map fun n => ⟨n.hash, n⟩ } := by
  induction out generalizing s with
  | nil =>
    rw [map_nil, append_nil]
    rfl
  | cons n out ih =>
    obtain ⟨hn, hdistinct⟩ := nodup_cons.mp hdistinct
    have hrow : s.insertNode n.hash n = .ok { s with nodes := s.nodes ++ [⟨n.hash, n⟩] } := by
      have hins := (insertRow_eq_ok (e := CoreError.uniqueViolation "merkle_nodes_pkey")).mpr
        ⟨hfresh n mem_cons_self, (rfl : s.nodes ++ [⟨n.hash, n⟩] = _)⟩
      rw [insertNode, hins]
      rfl
    have hrest : ∀ m ∈ out, m.hash ∉ (s.nodes ++ [(⟨n.hash, n⟩ : NodeRow H)]).map hash := by
      intro m hm hmem
      rw [map_append, mem_append] at hmem
      rcases hmem with hmem | hmem
      · exact hfresh m (mem_cons_of_mem n hm) hmem
      · have heq : m.hash = n.hash := mem_singleton.mp hmem
        exact hn (heq ▸ mem_map_of_mem hm)
    rw [storeNodes, foldlM_cons, hrow]
    refine (ih hdistinct hrest).trans ?_
    rw [map_cons, append_assoc, singleton_append]

/-- No other host has stored a leaf with this hash or this key. -/
def Store.Free (s : Store H) (leaf : MerkleLeaf H) : Prop :=
  leaf.hash ∉ s.others.map LeafRow.hash ∧ leaf.key ∉ s.others.map (·.leaf.key)

theorem Store.insertLeaf_eq_ok {leaf : MerkleLeaf H} (hhash : leaf.hash ∉ s.leaves.map LeafRow.hash)
    (hkey : leaf.key ∉ s.leaves.map (·.leaf.key)) (hfree : s.Free leaf) (epno : MerkleEpno) :
    s.insertLeaf leaf.hash leaf epno = .ok { s with leaves := s.leaves ++ [⟨leaf.hash, leaf, epno⟩] } := by
  have hhash' : leaf.hash ∉ s.allLeaves.map LeafRow.hash := by
    rw [allLeaves, map_append, mem_append]
    exact not_or.mpr ⟨hhash, hfree.1⟩
  have hkey' : leaf.key ∉ s.allLeaves.map (·.leaf.key) := by
    rw [allLeaves, map_append, mem_append]
    exact not_or.mpr ⟨hkey, hfree.2⟩
  simp only [insertLeaf, refuse, if_neg hhash', if_neg hkey']
  rfl

omit [MerkleHash H] in
/-- What another host does to the table: nothing, or it adds a leaf with a new key. -/
theorem Store.insertOther_cases (s : Store H) (row : LeafRow H) :
    s.insertOther row = s ∨ row.leaf.key ∉ s.leaves.map (·.leaf.key) ∧
      s.insertOther row = { s with others := s.others ++ [row] } := by
  unfold insertOther
  split
  · exact .inl rfl
  · next hnew =>
    rw [allLeaves, map_append, map_append, mem_append, mem_append] at hnew
    exact .inr ⟨fun hmem => hnew (.inr (.inl hmem)), rfl⟩

theorem Store.free_of_insertLeaf {leaf : MerkleLeaf H} {epno : MerkleEpno} {s' : Store H}
    (h : s.insertLeaf leaf.hash leaf epno = .ok s') : s.Free leaf := by
  simp only [insertLeaf, allLeaves, map_append, mem_append, bind_eq_ok, refuse_eq_ok, not_or] at h
  obtain ⟨⟨⟩, hhash, ⟨⟩, hkey, -⟩ := h
  exact ⟨hhash.2, hkey.2⟩

theorem Rebuilt.nodup_hash (hs : SoundHash H) {T t t' : Tree H} {k : MerkleTreeRFOutput} {v : H}
    {p : ℕ} {out : List (Node H)} {top : Node H} (h : Rebuilt s T k v p t out top t') :
        (out.map Node.hash).Nodup := by
  refine pairwise_map.mpr (h.sorted.imp fun hlt heq => ?_)
  exact absurd (Node.hash_inj hs heq).1 (by omega)

namespace Archive

variable {T T' : Tree H} {k : MerkleTreeRFOutput} {v : H} {out : List (Node H)} {top : Node H}

variable (hs : SoundHash H) (h : Archive s T) (hk : ¬ HasKey k T)

include hs h hk

/-- The new rows are accepted. -/
theorem store_eq_ok
    (hreb : Rebuilt s T k v 0 T out top T') (hfree : s.Free ⟨k, v⟩) (epno : MerkleEpno) :
    (do
      let db ← s.insertLeaf (MerkleLeaf.hash ⟨k, v⟩) ⟨k, v⟩ epno
      storeNodes db out) = .ok (s.addPath epno ⟨k, v⟩ out) := by
  have hleaf := h.leaf_fresh hs v hk
  have hkey : k ∉ s.leaves.map (·.leaf.key) := by
    intro hmem
    obtain ⟨row, hrow, rfl⟩ := mem_map.mp hmem
    exact hk ⟨_, (h.leaves row hrow).2⟩
  have hdistinct := hreb.nodup_hash hs
  rw [insertLeaf_eq_ok (fun hmem => hleaf (.inr hmem)) hkey hfree]
  exact storeNodes_eq_ok hdistinct fun n hn hmem => hreb.fresh n hn (.inl hmem)

/-- The archive with the new rows, for the new tree. -/
theorem grow
    (hreb : Rebuilt s T k v 0 T out top T') {epno : MerkleEpno} {s' : Store H}
    (hnodes : s'.nodes = (s.addPath epno ⟨k, v⟩ out).nodes)
    (hleaves : s'.leaves = (s.addPath epno ⟨k, v⟩ out).leaves) :
    s.Extends s' ∧ Archive s' T' ∧ Stored s' ⟨.node, top.hash⟩ T' := by
  have hdistinct := hreb.nodup_hash hs
  have huniqueNodes : Unique hash s'.nodes := by
    rw [hnodes, Lib.Unique, addPath, map_append, map_map]
    refine h.uniqueNodes.append hdistinct fun x hx hx' => ?_
    obtain ⟨n, hn, rfl⟩ := mem_map.mp hx'
    exact hreb.fresh n hn (.inl hx)
  have huniqueLeaves : Unique LeafRow.hash s'.leaves := by
    rw [hleaves, Lib.Unique, addPath, map_append]
    refine h.uniqueLeaves.append (nodup_singleton _) fun x hx hx' => ?_
    rw [map_singleton, mem_singleton] at hx'
    subst hx'
    exact h.leaf_fresh hs v hk (.inr hx)
  have hext : s.Extends s' := by
    refine .of_mem huniqueNodes huniqueLeaves (fun row hrow => ?_) fun row hrow => ?_
    · rw [hnodes]
      exact mem_append_left _ hrow
    · rw [hleaves]
      exact mem_append_left _ hrow
  have hgrown : Grown s s' ⟨k, v⟩ out := by
    refine ⟨hext, ?_, fun n hn => ?_⟩
    · have hrow : ⟨MerkleLeaf.hash ⟨k, v⟩, ⟨k, v⟩, epno⟩ ∈ s'.leaves := by
        rw [hleaves]
        exact mem_append_right _ mem_cons_self
      exact selectLeaf_of_mem huniqueLeaves hrow rfl
    have hrow : ⟨n.hash, n⟩ ∈ s'.nodes := by
      rw [hnodes]
      exact mem_append_right _ (mem_map_of_mem hn)
    exact selectNode_of_mem huniqueNodes hrow rfl
  refine ⟨hext, ⟨huniqueNodes, huniqueLeaves, fun row hrow => ?_, fun row hrow => ?_⟩, hreb.stored s' hgrown⟩
  · rw [hleaves] at hrow
    rcases mem_append.mp hrow with hrow | hrow
    · obtain ⟨hhash, hmem⟩ := h.leaves row hrow
      exact ⟨hhash, hreb.inserts.mem_iff.mpr (.inr hmem)⟩
    · rw [mem_singleton.mp hrow]
      exact ⟨rfl, hreb.inserts.mem_iff.mpr (.inl ⟨rfl, rfl⟩)⟩
  rw [hnodes] at hrow
  rcases mem_append.mp hrow with hrow | hrow
  · obtain ⟨hhash, l, r, hst, hsib⟩ := h.nodes row hrow
    exact ⟨hhash, l, r, hst.mono hext, hsib.mono fun w hw => hreb.inserts.hasKey_iff.mpr (.inr hw)⟩
  obtain ⟨n, hn, rfl⟩ := mem_map.mp hrow
  obtain ⟨l, r, hsib, hst⟩ := hreb.inner n hn
  exact ⟨rfl, l, r, hst s' hgrown, hsib.mono fun w hw => hreb.inserts.hasKey_iff.mpr hw⟩

end Archive

end Foks.Merkle
