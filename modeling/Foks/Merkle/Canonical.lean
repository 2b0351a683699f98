import Foks.Merkle.History

/-!
# The root hash does not depend on the order of insertions

The tree behind a root is the radix tree of its entries in their only form, and the rows of that
tree determine its hashes: a segment is hashed with the bits around it cleared, so it does not
matter which of the bytes of a key it was cut from, or how often it was split. So two runs of the
engine that leave the same entries leave the same root node.
-/

namespace Foks.Merkle

open Lib Lib.Radix List Except Option History Merkle

variable {H : Type} {log : List (Inserted H)} {seqno : Option Seqno}

/-- The key and the value that a request inserts. -/
def Op.entry : Op H → Option (MerkleTreeRFOutput × H)
  | .insertKeyValue arg _ => some (arg.key, arg.val)
  | .storeRoot .. => none

/-- The entries of a sequence of requests, in their order. Of several values for a key, a lookup in
this list has the first. -/
def entries (ops : List (Op H)) : List (MerkleTreeRFOutput × H) := ops.filterMap Op.entry

/-! ## The hash of a tree -/

section Hash

variable [DecidableEq H] [MerkleHash H]

omit [DecidableEq H] in
/-- Two nodes that stand for the same node of a tree are hashed alike, whatever else is in the bytes
of their segments. -/
theorem Node.hash_eq_of_holds {n n' : Node H} {k : MerkleTreeRFOutput} (h : n.prfx.Holds k)
    (h' : n'.prfx.Holds k) (hstart : n.prfx.bitStart = n'.prfx.bitStart)
    (hcount : n.prfx.bitCount = n'.prfx.bitCount)
    (hend : n.prfx.bitStart + n.prfx.bitCount ≤ keyBits)
    (hsub : ∀ b, (n.select b).hash = (n'.select b).hash) : n.hash = n'.hash := by
  have hcut := h.copyAndClamp hend n.left.hash n.right.hash
  have hcut' := h'.copyAndClamp (hstart ▸ hcount ▸ hend) n'.left.hash n'.right.hash
  rw [← hstart, ← hcount, hcut, some.injEq] at hcut'
  have hleft : n.left.hash = n'.left.hash := hsub false
  have hright : n.right.hash = n'.right.hash := hsub true
  have hbuild : n.buildNode = n'.buildNode := by
    unfold Node.buildNode
    rw [MerkleInteriorNode.mk.injEq]
    exact ⟨hstart, hcount, hcut', hleft, hright⟩
  rw [Node.hash, Node.hash, hbuild]

/-- The hash above a tree is a function of the tree, in whatever store it is. -/
theorem Stored.eq_of_tree {s s' : Store H} {ph ph' : PrefixedHash H} {t : Tree H} {p : ℕ}
    (h : Stored s ph t) (h' : Stored s' ph' t) (hwf : t.WF p) : ph = ph' := by
  induction h generalizing ph' p with
  | leaf hsel =>
    cases h' with
    | leaf => rfl
  | @node n l r hsel hseg hsub ih =>
    generalize ht : n.tree l r = t at h'
    cases h' with
    | leaf => cases ht
    | @node n' l' r' hsel' hseg' hsub' =>
      obtain ⟨hstart, hcount, rfl, rfl⟩ := Radix.node.inj ht
      obtain ⟨k, hk⟩ := exists_hasKey (n.tree l r)
      cases hwf with
      | node hsize hagree hbit hwfsub =>
        have hchild : ∀ b, (n.select b).hash = (n'.select b).hash :=
          fun b => congrArg PrefixedHash.hash (ih b (hsub' b) (hwfsub b))
        rw [Node.hash_eq_of_holds (hseg k hk) (hseg' k (ht ▸ hk)) hstart hcount (by omega) hchild]

end Hash

/-! ## The entries of a run -/

variable {a a' : History H}

theorem History.log_push (h : a.push log seqno = .ok a') : a'.log = log := by
  unfold push at h
  split at h
  · cases h
  · exact (ok.inj h) ▸ rfl

theorem History.epno_push (h : a.push log seqno = .ok a') : a'.epno = a.epno + 1 := by
  unfold push at h
  split at h
  · cases h
  · exact (ok.inj h) ▸ rfl

/-- Epochs go up. -/
theorem History.epno_step {op : Op H} (h : a.step op = .ok a') : a.epno ≤ a'.epno := by
  cases op with
  | insertKeyValue arg now =>
    rw [History.step] at h
    split at h
    · exact (ok.inj h) ▸ le_rfl
    · exact (epno_push h).symm ▸ Nat.le_succ _
  | storeRoot time hct bk now =>
    rw [History.step] at h
    split at h
    · cases h
    · exact (epno_push h).symm ▸ Nat.le_succ _

theorem isSome_valueAt {n : MerkleEpno} {log : List (Inserted H)} {k : MerkleTreeRFOutput} (h : Logged n log) :
    (valueAt log n k).isSome ↔ k ∈ log.map (·.key) := by
  rw [valueAt_of_logged h le_rfl]
  simp

/-- An accepted request adds its entry to the log. -/
theorem History.log_step {op : Op H} (h : a.step op = .ok a') :
    a'.log.map (fun x => (x.key, x.value)) = a.log.map (fun x => (x.key, x.value)) ++ entries [op] := by
  cases op with
  | insertKeyValue arg now =>
    rw [History.step] at h
    split at h
    · obtain rfl := ok.inj h
      simp [entries, Op.entry]
    · simp [log_push h, entries, Op.entry]
  | storeRoot time hct bk now =>
    rw [History.step] at h
    split at h
    · cases h
    · simp [log_push h, entries, Op.entry]

theorem entries_cons (op : Op H) (ops : List (Op H)) : entries (op :: ops) = entries [op] ++ entries ops := by
  rw [entries, entries, entries, ← filterMap_append]
  rfl

/-- After a run the log has the entries of the requests that were accepted. -/
theorem History.log_serve (a : History H) (ops : List (Op H)) :
    (serve History.step a ops).log.map (fun x => (x.key, x.value))
      = a.log.map (fun x => (x.key, x.value)) ++ entries (accepted History.step a ops) := by
  induction ops generalizing a with
  | nil => simp [serve, accepted, entries]
  | cons op ops ih =>
    show (serve History.step (attempt History.step a op) ops).log.map _ = _
    rw [ih, attempt, accepted]
    cases hstep : a.step op with
    | error e => rfl
    | ok a' =>
      show a'.log.map _ ++ entries (accepted _ a' ops) = _ ++ entries (op :: accepted _ a' ops)
      rw [log_step hstep, entries_cons op (accepted History.step a' ops), append_assoc]

theorem find?_log_eq_lookup (log : List (Inserted H)) (k : MerkleTreeRFOutput) :
    (log.find? (·.key = k)).map (·.value) = (log.map fun x => (x.key, x.value)).lookup k := by
  induction log with
  | nil => rfl
  | cons x log ih =>
    rw [map_cons, lookup_cons]
    by_cases hk : x.key = k
    · simp [hk]
    · have hne : (k == x.key) = false := by simpa using Ne.symm hk
      simp [hk, hne, ih]

variable [DecidableEq H] [MerkleHash H]

/-- What the latest tree holds after a run: the first value of every key, among the requests that
were accepted. -/
theorem lookup_entries (hs : SoundHash H) (ops : List (Op H)) (k : MerkleTreeRFOutput) :
    valueAt (serve History.step {} ops).log (serve History.step {} ops).epno k
      = (entries (accepted step ({} : Store H) ops)).lookup k := by
  have hrefines := (alone_serve hs ops).refines
  rw [valueAt_of_logged hrefines.logged le_rfl, find?_log_eq_lookup, log_serve]
  rw [accepted_alike (fun s a op (h : Alone s a) => h.step hs op) ⟨.empty, rfl⟩ ops]
  rfl

/-- The latest root of a history has its tree; a history without one has no entries. -/
theorem Refines.lastRoot_cases {s : Store H} (h : Refines s a) :
    (s.lastRoot = none ∧ ∀ k, valueAt a.log a.epno k = none) ∨
    ∃ r ph t, s.lastRoot = some r ∧ ph.hash = r.rootNode ∧ Shows s a.log a.epno ph t := by
  rw [h.ledger.lastRoot]
  cases hlast : s.roots.getLast? with
  | none =>
    have hzero : a.epno = 0 := by
      rw [← h.ledger.length, getLast?_eq_none_iff.mp hlast]
      rfl
    refine .inl ⟨rfl, fun k => ?_⟩
    rw [(h.start hzero).2.2.1]
    rfl
  | some r =>
    obtain ⟨typ, t, -, hshows, -⟩ := h.latest r hlast
    exact .inr ⟨r, ⟨typ, r.rootNode⟩, t, rfl, rfl, hshows⟩

/-- A tree holds something. -/
theorem Shows.exists_value {s : Store H} {e : MerkleEpno}
    {ph : PrefixedHash H} {t : Tree H} (h : Shows s log e ph t) : ∃ k, valueAt log e k ≠ none := by
  obtain ⟨k, v, hmem⟩ := exists_hasKey t
  refine ⟨k, ?_⟩
  rw [(h.mem_iff k v).mp hmem]
  exact some_ne_none v

/-- **History independence.** Two runs of the engine, on requests of any kind and in any order, that
accept the same entries up to the order and to repeated insertions of a key, end with the same root
node. -/
theorem root_node_history_independent (hs : SoundHash H) (ops ops' : List (Op H))
    (hmap : ∀ k, (entries (accepted step {} ops)).lookup k
      = (entries (accepted step {} ops')).lookup k) :
    (serve step ({} : Store H) ops).lastRoot.map (·.rootNode)
      = (serve step ({} : Store H) ops').lastRoot.map (·.rootNode) := by
  have hvalues : ∀ k, valueAt (serve History.step {} ops).log (serve History.step {} ops).epno k
      = valueAt (serve History.step {} ops').log (serve History.step {} ops').epno k := by
    intro k
    rw [lookup_entries hs, lookup_entries hs, hmap]
  rcases (alone_serve hs ops).refines.lastRoot_cases with
    ⟨hnone, hempty⟩ | ⟨r, ph, t, hr, hhash, hshows⟩ <;>
  rcases (alone_serve hs ops').refines.lastRoot_cases with
    ⟨hnone', hempty'⟩ | ⟨r', ph', t', hr', hhash', hshows'⟩
  · rw [hnone, hnone']
  · obtain ⟨k, hk⟩ := hshows'.exists_value
    exact absurd ((hvalues k).symm.trans (hempty k)) hk
  · obtain ⟨k, hk⟩ := hshows.exists_value
    exact absurd ((hvalues k).trans (hempty' k)) hk
  -- both trees are the tree of their entries
  have hmem : ∀ k v, Mem k v t ↔ Mem k v t' := by
    intro k v
    rw [hshows.mem_iff, hshows'.mem_iff, hvalues]
  obtain rfl : t = t' := hshows.wf.eq_of_mem_iff hshows'.wf hmem
  have hph : ph = ph' := hshows.stored.eq_of_tree hshows'.stored hshows.wf
  rw [hr, hr', map_some, map_some, ← hhash, ← hhash', hph]

/-- The two keys the other way round, one of them once more with another value, and a request that is
refused. -/
def twoInsertsBack : List (Op SymHash) :=
  [.storeRoot 1 ⟨1, .zero⟩ ⟨1, 0⟩ 0, .insertKeyValue ⟨twoKeys.2, .atom 2, none, 5, none⟩ 0,
    .insertKeyValue ⟨twoKeys.1, .atom 1, none, 6, none⟩ 0,
    .insertKeyValue ⟨twoKeys.2, .atom 3, none, 7, none⟩ 0]

theorem root_node_history_independent_twoInserts :
    (serve step ({} : Store SymHash) twoInserts).lastRoot.map (·.rootNode)
      = (serve step ({} : Store SymHash) twoInsertsBack).lastRoot.map (·.rootNode) := by
  refine root_node_history_independent soundHash_symHash twoInserts twoInsertsBack fun k => ?_
  have hfwd : entries (accepted step ({} : Store SymHash) twoInserts)
      = [(twoKeys.1, .atom 1), (twoKeys.2, .atom 2)] := by decide +kernel
  have hback : entries (accepted step ({} : Store SymHash) twoInsertsBack)
      = [(twoKeys.2, .atom 2), (twoKeys.1, .atom 1), (twoKeys.2, .atom 3)] := by decide +kernel
  rw [hfwd, hback]
  by_cases h₁ : k = twoKeys.1
  · subst h₁
    decide
  by_cases h₂ : k = twoKeys.2
  · subst h₂
    decide
  have hne₁ : (k == twoKeys.1) = false := by simpa using h₁
  have hne₂ : (k == twoKeys.2) = false := by simpa using h₂
  simp only [lookup_cons, hne₁, hne₂]

end Foks.Merkle
