import Foks.Merkle.Engine

/-!
# The tree behind a root

The rows of the store that are reached from a hash are the nodes of a radix tree. A lookup is the
search in that tree, whatever the alignment of its segments, and it does not fail.
-/

namespace Foks.Merkle

open Lib Lib.Radix Except MerkleLeaf

abbrev Tree (H : Type) := Radix MerkleTreeRFOutput H

/-- The tree may stand at bit `p` of the keys. -/
abbrev Tree.WF {H : Type} (p : ℕ) (t : Tree H) : Prop :=
  WellFormed MerkleTreeRFOutput.bit keyBits p t

/-- The keys `k` and `k'` agree from bit `lo` on and below bit `hi`. -/
abbrev AgreeKey (k k' : MerkleTreeRFOutput) (lo hi : ℕ) : Prop :=
  Agree MerkleTreeRFOutput.bit k k' lo hi

variable {H : Type}

/-- The tree of a node: its segment, over the trees of its children. -/
def Node.tree (n : Node H) (l r : Tree H) : Tree H := .node n.prfx.bitStart n.prfx.bitCount l r

variable [DecidableEq H] [MerkleHash H]

inductive Stored (s : Store H) : PrefixedHash H → Tree H → Prop
  | leaf {k : MerkleTreeRFOutput} {v : H} (hsel : s.selectLeaf ⟨.leaf, hash ⟨k, v⟩⟩ = .ok ⟨k, v⟩) :
      Stored s ⟨.leaf, hash ⟨k, v⟩⟩ (.leaf k v)
  | node {n : Node H} {l r : Tree H} (hsel : s.selectNode ⟨.node, n.hash⟩ = .ok n)
      (hseg : ∀ k, HasKey k (n.tree l r) → n.prfx.Holds k)
      (hsub : ∀ b, Stored s (n.select b) (pick b l r)) : Stored s ⟨.node, n.hash⟩ (n.tree l r)

/-- The path of a lookup of `k` from the tree `t` on, which it reaches at bit `p`: down to a leaf,
or to the node whose segment the key leaves after `d` bits. -/
inductive Trace (s : Store H) (k : MerkleTreeRFOutput) :
    ℕ → PrefixedHash H → Tree H → List (LookupPathNode H) → Option (LookupLeaf H) → Prop
  | leaf {p : ℕ} {k' : MerkleTreeRFOutput} {v' : H}
      (hsel : s.selectLeaf ⟨.leaf, hash ⟨k', v'⟩⟩ = .ok ⟨k', v'⟩) :
      Trace s k p ⟨.leaf, hash ⟨k', v'⟩⟩ (.leaf k' v') []
        (some ⟨⟨k', v'⟩, ⟨.leaf, hash ⟨k', v'⟩⟩, k = k'⟩)
  | miss {n : Node H} {l r : Tree H} {d : ℕ} (hsel : s.selectNode ⟨.node, n.hash⟩ = .ok n)
    (hd : d < n.prfx.bitCount)
      (hsame : ∀ w, HasKey w (n.tree l r) → AgreeKey k w n.prfx.bitStart (n.prfx.bitStart + d))
      (hdiff : ∀ w, HasKey w (n.tree l r) → k.bit (n.prfx.bitStart + d) ≠ w.bit (n.prfx.bitStart + d)) :
      Trace s k n.prfx.bitStart ⟨.node, n.hash⟩ (n.tree l r) [⟨n, false, n.prfx.bitStart, d⟩] none
  | step {n : Node H} {l r : Tree H} {path : List (LookupPathNode H)}
      {leaf : Option (LookupLeaf H)} (hsel : s.selectNode ⟨.node, n.hash⟩ = .ok n)
      (hsame : ∀ w, HasKey w (n.tree l r) → AgreeKey k w n.prfx.bitStart (n.prfx.bitStart + n.prfx.bitCount))
      (h : Trace s k (n.prfx.bitStart + n.prfx.bitCount + 1)
        (n.select (k.bit (n.prfx.bitStart + n.prfx.bitCount)))
        (pick (k.bit (n.prfx.bitStart + n.prfx.bitCount)) l r) path leaf) :
      Trace s k n.prfx.bitStart ⟨.node, n.hash⟩ (n.tree l r)
        (⟨n, k.bit (n.prfx.bitStart + n.prfx.bitCount), n.prfx.bitStart, n.prfx.bitCount + 1⟩ :: path) leaf

/-! ## Trees in the store -/

/-- `s'` has all nodes and leaves of `s`. -/
structure Store.Extends (s s' : Store H) : Prop where
  node : ∀ {ph : PrefixedHash H} {n : Node H}, s.selectNode ph = .ok n → s'.selectNode ph = .ok n
  leaf : ∀ {ph : PrefixedHash H} {l : MerkleLeaf H}, s.selectLeaf ph = .ok l → s'.selectLeaf ph = .ok l

variable {s : Store H} {ph : PrefixedHash H} {t : Tree H} {k : MerkleTreeRFOutput}
  {path : List (LookupPathNode H)}

theorem Stored.mono {s' : Store H} (h : Stored s ph t) (hext : s.Extends s') : Stored s' ph t := by
  induction h with
  | leaf hsel => exact .leaf (hext.leaf hsel)
  | node hsel hseg hsub ih => exact .node (hext.node hsel) hseg ih

/-- There is one tree below a hash. -/
theorem Stored.unique (hs : SoundHash H) {ph' : PrefixedHash H} {t' : Tree H} (h : Stored s ph t)
    (h' : Stored s ph' t') (hhash : ph.hash = ph'.hash) : t = t' := by
  induction h generalizing ph' t' with
  | @leaf k v hsel =>
    cases h' with
    | leaf => cases hash_inj hs hhash; rfl
    | @node n' => exact absurd hhash (hash_ne hs _ n')
  | @node n l r hsel hseg hsub ih =>
    cases h' with
    | leaf => exact absurd hhash.symm (hash_ne hs _ n)
    | @node n' l' r' hsel' hseg' hsub' =>
      -- the same hash selects the same row
      have hrow : s.selectNode ⟨.node, n.hash⟩ = .ok n' := by
        rw [show n.hash = n'.hash from hhash]
        exact hsel'
      obtain rfl : n = n' := ok_unique hsel hrow
      have hl : l = l' := ih false (hsub' false) rfl
      have hr : r = r' := ih true (hsub' true) rfl
      rw [hl, hr]

theorem Stored.of_leaf (h : Stored s ph t) (htyp : ph.typ = .leaf) :
    ∃ k v, ph = ⟨.leaf, hash ⟨k, v⟩⟩ ∧ t = .leaf k v ∧ s.selectLeaf ph = .ok ⟨k, v⟩ := by
  cases h with
  | leaf hsel => exact ⟨_, _, rfl, rfl, hsel⟩
  | node => cases htyp

/-- The row that is selected at the top of a tree is the node of the tree. -/
theorem Stored.node_inv {n : Node H} {l r : Tree H} (h : Stored s ⟨.node, n.hash⟩ (n.tree l r))
    (hsel : s.selectNode ⟨.node, n.hash⟩ = .ok n) :
    (∀ k, HasKey k (n.tree l r) → n.prfx.Holds k) ∧ ∀ b, Stored s (n.select b) (pick b l r) := by
  generalize hph : (⟨.node, n.hash⟩ : PrefixedHash H) = ph at h hsel
  generalize ht : n.tree l r = t at h
  cases h with
  | leaf => cases hph
  | @node n' l' r' hsel' hseg hsub =>
    obtain rfl : n = n' := ok_unique hsel hsel'
    cases ht
    exact ⟨hseg, hsub⟩

/-! ## Lookups -/

omit [DecidableEq H] [MerkleHash H] in
/-- A node on the way of a lookup: the key agrees with its segment, which is that of all keys
below it, or leaves it at some bit. -/
theorem assertKeyMatch_node {n : Node H} {l r : Tree H} (hseg : ∀ w, HasKey w (n.tree l r) → n.prfx.Holds w)
    (hend : n.prfx.bitStart + n.prfx.bitCount ≤ keyBits) :
    (assertKeyMatch k.bytes n.prfx.bytes n.prfx.bitStart n.prfx.bitCount = .ok () ∧ ∀ w, HasKey w (n.tree l r) →
        AgreeKey k w n.prfx.bitStart (n.prfx.bitStart + n.prfx.bitCount)) ∨
    ∃ d < n.prfx.bitCount, assertKeyMatch k.bytes n.prfx.bytes n.prfx.bitStart n.prfx.bitCount
        = .error (.bitPrefixMatchError (n.prfx.bitStart + d)) ∧
      (∀ w, HasKey w (n.tree l r) → AgreeKey k w n.prfx.bitStart (n.prfx.bitStart + d)) ∧
      ∀ w, HasKey w (n.tree l r) → k.bit (n.prfx.bitStart + d) ≠ w.bit (n.prfx.bitStart + d) := by
  obtain ⟨w0, hw0⟩ := exists_hasKey (n.tree l r)
  have hkey : n.prfx.bitStart + n.prfx.bitCount ≤ 8 * k.bytes.length := by rwa [k.bits_length]
  have hsmall : 8 * k.bytes.length ≤ 2 ^ 63 := by rw [k.bits_length, keyBits]; omega
  -- bits of the segment, read as bits of a key below the node
  have hagree : ∀ d ≤ n.prfx.bitCount, (∀ i < d, bitOf k.bytes (n.prfx.bitStart + i)
        = bitOf n.prfx.bytes (n.prfx.bitStart % 8 + i)) →
      ∀ w, HasKey w (n.tree l r) → AgreeKey k w n.prfx.bitStart (n.prfx.bitStart + d) := by
    intro d hd hbits w hw i hlo hhi
    have hbit := hbits (i - n.prfx.bitStart) (by omega)
    rw [(hseg w hw).bits _ (by omega), Nat.add_sub_cancel' hlo] at hbit
    exact hbit
  rcases assertKeyMatch_cases hkey hsmall (hseg w0 hw0).long with
    ⟨hok, hbits⟩ | ⟨d, hd, herr, hne, hbits⟩
  · exact .inl ⟨hok, hagree _ le_rfl hbits⟩
  refine .inr ⟨d, hd, herr, hagree d (by omega) hbits, fun w hw => ?_⟩
  rw [(hseg w hw).bits d hd] at hne
  exact hne

/-- The loop of a lookup does not fail, and returns the path of the key in the tree. -/
theorem walk_eq_ok (k : MerkleTreeRFOutput) (hst : Stored s ph t) :
    ∀ (turns : ℕ) {p : ℕ}, t.WF p → p ≤ keyBits → keyBits < turns + p → ph.typ = .node →
      ∃ path leaf, walk s k turns p ph = .ok (some (path, leaf.map (·.hash))) ∧ Trace s k p ph t path leaf := by
  induction hst with
  | leaf => exact fun _ _ _ _ _ htyp => nomatch htyp
  | @node n l r hsel hseg hsub ih =>
    intro turns p hwf hle hlt _
    obtain ⟨turns, rfl⟩ : ∃ m, turns = m + 1 := ⟨turns - 1, by omega⟩
    cases hwf with
    | node hsize hagree hbit hwfsub =>
      set b := k.bit (n.prfx.bitStart + n.prfx.bitCount) with hb
      rw [walk, hsel]
      simp only [bind, Except.bind, visit, ne_eq]
      rcases assertKeyMatch_node (k := k) hseg (by omega) with
        ⟨hok, hsame⟩ | ⟨d, hd, herr, hsame, hdiff⟩
      · rw [hok]
        simp only [k.bitAt_eq_ok hsize]
        cases htyp : (n.select b).typ with
        | leaf =>
          obtain ⟨k', v', hph, ht, hleaf⟩ := (hsub b).of_leaf htyp
          refine ⟨_, some ⟨⟨k', v'⟩, n.select b, k = k'⟩, rfl, .step hsel hsame ?_⟩
          rw [ht]
          rw [hph] at hleaf ⊢
          exact .leaf hleaf
        | node =>
          obtain ⟨path, leaf, hwalk, htrace⟩ :=
            ih b turns (hwfsub b) (by omega) (by omega) htyp
          exact ⟨_, leaf, by rw [hwalk]; rfl, .step hsel hsame htrace⟩
      rw [herr]
      refine ⟨_, none, ?_, .miss hsel hd hsame hdiff⟩
      simp only [Nat.add_sub_cancel_left]
      rfl

/-- A lookup that ends at a leaf stands at the only key of the tree that it can be looking for. -/
theorem Trace.leaf_mem_iff {p : ℕ} {T : Tree H} {leaf : Option (LookupLeaf H)}
    (h : Trace s k p ph t path leaf) (hwf : t.WF p) (hfocus : Focus MerkleTreeRFOutput.bit T k p t) (v : H) :
    (∃ l, leaf = some l ∧ l.isMatch = true ∧ l.leaf = ⟨k, v⟩) ↔ Mem k v T := by
  induction h with
  | @leaf p k' v' hsel =>
    rw [hfocus.mem_iff]
    constructor
    · rintro ⟨l, hl, -, heq⟩
      cases hl
      cases heq
      exact ⟨rfl, rfl⟩
    · rintro ⟨rfl, rfl⟩
      exact ⟨_, rfl, decide_eq_true rfl, rfl⟩
  | miss hsel hd hsame hdiff =>
    rw [hfocus.mem_iff]
    constructor
    · rintro ⟨l, hl, -⟩
      cases hl
    · intro hmem
      exact absurd rfl (hdiff k ⟨v, hmem⟩)
  | step hsel hsame h ih =>
    have hdescend := hfocus.descend hwf hsame
    cases hwf with
    | node hsize hagree hbit hwfsub => exact ih (hwfsub _) hdescend

/-- The leaf of a lookup is in the store. -/
theorem Trace.selectLeaf {p : ℕ} {leaf : LookupLeaf H} (h : Trace s k p ph t path (some leaf)) :
    s.selectLeaf leaf.hash = .ok leaf.leaf ∧ leaf.isMatch = decide (k = leaf.leaf.key) := by
  generalize hleaf : some leaf = o at h
  induction h with
  | leaf hsel =>
    cases hleaf
    exact ⟨hsel, rfl⟩
  | miss => cases hleaf
  | step hsel hsame h ih => exact ih hleaf

/-- The lookup from the root node of a tree. -/
theorem lookupFromRootNode_eq_ok (hst : Stored s ph t) (hwf : t.WF 0) (k : MerkleTreeRFOutput) :
    ∃ res, lookupFromRootNode s k ph = .ok (some res) ∧ Trace s k 0 ph t res.path res.leaf := by
  cases htyp : ph.typ with
  | leaf =>
    obtain ⟨k', v', rfl, rfl, hsel⟩ := hst.of_leaf htyp
    refine ⟨⟨[], some ⟨⟨k', v'⟩, _, k = k'⟩⟩, ?_, .leaf hsel⟩
    simp only [lookupFromRootNode, lookupPathWithLockFromRoot, pure, Except.pure, bind, Except.bind, hsel]
  | node =>
    obtain ⟨path, leaf, hwalk, htrace⟩ :=
      walk_eq_ok k hst (keyBits + 1) hwf (Nat.zero_le _) (by omega) htyp
    refine ⟨⟨path, leaf⟩, ?_, htrace⟩
    simp only [lookupFromRootNode, htyp, lookupPathWithLockFromRoot, hwalk, bind, Except.bind]
    cases leaf with
    | none => rfl
    | some leaf =>
      obtain ⟨hsel, hmatch⟩ := htrace.selectLeaf
      simp only [Option.map_some, hsel, ← hmatch]
      rfl

end Foks.Merkle
