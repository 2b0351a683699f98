import Foks.Merkle.Insert
import Foks.Merkle.Roots

/-!
# The Merkle engine as a map with history

What the engine is for: it keeps the values that keys were first given, for all epochs. The
abstract state is the number of epochs, the log of the insertions that were accepted, and the
latest sequence number of the hostchain. The engine answers each request as this machine does,
and traversing the tree of an epoch returns what the log says of that epoch.
-/

namespace Foks.Merkle

open Lib Lib.Radix List Option Merkle Store HostchainTail

section Machine

variable (H : Type)

/-- An insertion that was accepted, with the epoch that was the latest one after it. -/
structure Inserted where
  epno : MerkleEpno
  key : MerkleTreeRFOutput
  value : H

structure History where
  epno : MerkleEpno := 0
  log : List (Inserted H) := []
  tail : Option Seqno := none

end Machine

variable {H : Type} {log : List (Inserted H)} {e n : MerkleEpno} {k : MerkleTreeRFOutput} {x : Inserted H}
  {s s' : Store H} {ph : PrefixedHash H} {t : Tree H} {a : History H} {r : RootRow H}

/-- The value of the first insertion of `k`, if that was in an epoch up to `e`. -/
def valueAt (log : List (Inserted H)) (e : MerkleEpno) (k : MerkleTreeRFOutput) : Option H :=
  ((log.find? (·.key = k)).filter (·.epno ≤ e)).map (·.value)

namespace History

/-- A new epoch, unless it comes with an outdated hostchain tail. -/
def push (a : History H) (log : List (Inserted H)) (seqno : Option Seqno) : Except CoreError (History H) :=
  if Outdated a.tail seqno then
    .error (.merkleTreeError "hostchain tail is older than current")
  else .ok ⟨a.epno + 1, log, seqno.or a.tail⟩

/-- An insertion of a known key is logged and changes nothing else; that of a new key starts an
epoch. A root is stored again in an epoch of its own, once there is one. -/
def step (a : History H) : Op H → Except CoreError (History H)
  | .insertKeyValue arg _ =>
    if (valueAt a.log a.epno arg.key).isSome then
      .ok { a with log := a.log ++ [⟨a.epno, arg.key, arg.val⟩] }
    else
      a.push (a.log ++ [⟨a.epno + 1, arg.key, arg.val⟩]) (arg.hct.map seqno)
  | .storeRoot _ hct _ _ =>
    if a.epno = 0 then .error .merkleNoRootError else a.push a.log (some hct.seqno)

end History

theorem valueAt_eq_some {v : H} :
    valueAt log e k = some v ↔ ∃ x, log.find? (·.key = k) = some x ∧ x.epno ≤ e ∧ x.value = v := by
  simp [valueAt, and_assoc]

/-- What is inserted once stays in all later epochs. -/
theorem valueAt_mono {e' : MerkleEpno} {v : H} (h : valueAt log e k = some v) (he : e ≤ e') :
    valueAt log e' k = some v := by
  obtain ⟨x, hx, hle, hv⟩ := valueAt_eq_some.mp h
  exact valueAt_eq_some.mpr ⟨x, hx, le_trans hle he, hv⟩

/-- All insertions of the log are from epochs up to `n`. -/
def Logged (n : MerkleEpno) (log : List (Inserted H)) : Prop := ∀ x ∈ log, x.epno ≤ n

theorem valueAt_of_logged (h : Logged n log) (he : n ≤ e) (k : MerkleTreeRFOutput) :
    valueAt log e k = (log.find? (·.key = k)).map (·.value) := by
  rw [valueAt]
  cases hx : log.find? (·.key = k) with
  | none => rfl
  | some x =>
    have hle : x.epno ≤ e := le_trans (h x (mem_of_find?_eq_some hx)) he
    rw [filter_some, if_pos (decide_eq_true hle)]

/-- Inserting a known key changes no value. -/
theorem valueAt_append_known (hx : (log.find? (·.key = x.key)).isSome) (e : MerkleEpno)
    (k : MerkleTreeRFOutput) :
    valueAt (log ++ [x]) e k = valueAt log e k := by
  rw [valueAt, valueAt, find?_append]
  by_cases hk : x.key = k
  · subst hk
    rw [or_of_isSome hx]
  · simp [hk]

/-- Inserting a new key changes nothing before its epoch. -/
theorem valueAt_append_before (hx : log.find? (·.key = x.key) = none) (he : e < x.epno)
    (k : MerkleTreeRFOutput) :
    valueAt (log ++ [x]) e k = valueAt log e k := by
  rw [valueAt, valueAt]
  by_cases hk : x.key = k
  · subst hk
    simp [hx, he]
  · simp [hk]

theorem Logged.append {m : MerkleEpno} (h : Logged n log) (hnm : n ≤ m) (k : MerkleTreeRFOutput) (v : H) :
    Logged m (log ++ [⟨m, k, v⟩]) := by
  intro x hx
  rcases mem_append.mp hx with hx | hx
  · exact le_trans (h x hx) hnm
  · rw [mem_singleton.mp hx]

theorem valueAt_append_new (hk : log.find? (·.key = k) = none) (h : Logged n log) (v : H)
    {k' : MerkleTreeRFOutput} {v' : H} :
    valueAt (log ++ [⟨n + 1, k, v⟩]) (n + 1) k' = some v' ↔ (k' = k ∧ v' = v) ∨ valueAt log n k' = some v' := by
  rw [valueAt_of_logged (h.append (Nat.le_succ n) k v) le_rfl, valueAt_of_logged h le_rfl, find?_append]
  by_cases hkk : k = k'
  · subst hkk
    rw [hk]
    simp [eq_comm]
  · simp [hkk, Ne.symm hkk]

variable [DecidableEq H] [MerkleHash H]

/-- The tree below `ph` has the entries of epoch `e`. -/
structure Shows (s : Store H) (log : List (Inserted H)) (e : MerkleEpno) (ph : PrefixedHash H)
    (t : Tree H) : Prop where
  stored : Stored s ph t
  wf : t.WF 0
  mem_iff : ∀ k v, Mem k v t ↔ valueAt log e k = some v

structure Refines (s : Store H) (a : History H) : Prop where
  ledger : Ledger s a.epno a.tail
  logged : Logged a.epno a.log
  /-- Before the first insertion there is nothing. -/
  start : a.epno = 0 → s.nodes = [] ∧ s.leaves = [] ∧ a.log = [] ∧ a.tail = none
  /-- Every root has its tree. -/
  trees : ∀ r ∈ s.roots, ∃ ph t, ph.hash = r.rootNode ∧ Shows s a.log r.epno ph t
  /-- The flag of the tree is the type of the latest root. -/
  latest : ∀ r, s.roots.getLast? = some r → ∃ typ t, s.firstNode = some (decide (typ = .node)) ∧
    Shows s a.log a.epno ⟨typ, r.rootNode⟩ t ∧ Archive s t

theorem Refines.empty : Refines ({} : Store H) {} where
  ledger := .empty
  logged _ hx := absurd hx not_mem_nil
  start _ := ⟨rfl, rfl, rfl, rfl⟩
  trees _ hr := absurd hr not_mem_nil
  latest _ hr := nomatch hr

theorem Shows.mono {log' : List (Inserted H)} (h : Shows s log e ph t) (hext : s.Extends s')
    (hlog : ∀ k, valueAt log' e k = valueAt log e k) : Shows s' log' e ph t where
  stored := h.stored.mono hext
  wf := h.wf
  mem_iff k v := by rw [h.mem_iff, hlog]

/-! ## One request -/

section

omit [DecidableEq H] [MerkleHash H]

theorem Store.Extends.refl' [DecidableEq H] (hnodes : s'.nodes = s.nodes)
    (hleaves : s'.leaves = s.leaves) : s.Extends s' where
  node h := by rwa [selectNode, hnodes]
  leaf h := by rwa [selectLeaf, hleaves]

theorem History.exists_push_iff {seqno : Option Seqno} :
    (∃ a', a.push log seqno = .ok a') ↔ ¬ Outdated a.tail seqno := by
  unfold History.push
  split
  · next h => exact iff_of_false (fun ⟨_, h⟩ => nomatch h) (not_not.mpr h)
  · next h => exact iff_of_true ⟨_, rfl⟩ h

end

theorem Archive.congr {T : Tree H} (h : Archive s T) (hnodes : s'.nodes = s.nodes)
    (hleaves : s'.leaves = s.leaves) : Archive s' T where
  uniqueNodes := hnodes ▸ h.uniqueNodes
  uniqueLeaves := hleaves ▸ h.uniqueLeaves
  leaves row hrow := h.leaves row (hleaves ▸ hrow)
  nodes row hrow := by
    obtain ⟨hhash, l, r, hst, hsib⟩ := h.nodes row (hnodes ▸ hrow)
    exact ⟨hhash, l, r, hst.mono (.refl' hnodes hleaves), hsib⟩

/-- The bookkeeping and a log that says the same do not matter. -/
theorem Refines.congr (h : Refines s a) (hpos : 0 < a.epno) (row : BookkeepingRow)
    (hlogged : Logged a.epno log) (hlog : ∀ e ≤ a.epno, ∀ k, valueAt log e k = valueAt a.log e k) :
    Refines { s with bookkeeping := some row } { a with log := log } where
  ledger := ⟨h.ledger.epnos, h.ledger.bodies, h.ledger.flag, (decide_eq_true hpos).symm, h.ledger.tail⟩
  logged := hlogged
  start h0 := absurd h0 hpos.ne'
  trees r hr := by
    obtain ⟨ph, t, hhash, hshows⟩ := h.trees r hr
    have hle : r.epno ≤ a.epno := (h.ledger.mem_epnos.mp (mem_map_of_mem hr)).2
    exact ⟨ph, t, hhash, hshows.mono (.refl' rfl rfl) (hlog r.epno hle)⟩
  latest r hr := by
    obtain ⟨typ, t, hflag, hshows, harch⟩ := h.latest r hr
    exact ⟨typ, t, hflag, hshows.mono (.refl' rfl rfl) (hlog a.epno le_rfl), harch.congr rfl rfl⟩

theorem Refines.updateOptional (h : Refines s a) (hpos : 0 < a.epno) (bk : Option Bookkeeping)
    (hlogged : Logged a.epno log) (hlog : ∀ e ≤ a.epno, ∀ k, valueAt log e k = valueAt a.log e k) :
    ∃ s', Merkle.updateOptional s bk = .ok s' ∧ Refines s' { a with log := log } ∧ s'.others = s.others ∧
      s'.roots = s.roots ∧ s'.nodes = s.nodes ∧ s'.leaves = s.leaves := by
  cases bk with
  | none =>
    obtain ⟨row, hrow⟩ :=
      isSome_iff_exists.mp (h.ledger.bookkeeping.trans (decide_eq_true hpos))
    have hsame : { s with bookkeeping := some row } = s := by rw [← hrow]
    exact ⟨s, rfl, hsame ▸ h.congr hpos row hlogged hlog, rfl, rfl, rfl, rfl⟩
  | some bk =>
    obtain ⟨row, hrow⟩ := h.ledger.updateBookkeeping hpos bk
    exact ⟨_, hrow, h.congr hpos row hlogged hlog, rfl, rfl, rfl, rfl⟩

/-- What an accepted request does: it adds at most one root, and an epoch for every root. -/
structure Next (s : Store H) (a : History H) (s' : Store H) (a' : History H) : Prop where
  refines : Refines s' a'
  others : s'.others = s.others
  roots : s.roots <+: s'.roots
  same : a'.epno = a.epno → s'.roots = s.roots ∧ s'.nodes = s.nodes ∧ s'.leaves = s.leaves

/-- A new epoch for a tree that is stored: the rows of `s'` are those of `s`, and the tree. -/
theorem Refines.push (h : Refines s a) (hledger : Ledger s' a.epno a.tail)
    (hroots : s'.roots = s.roots) (hothers : s'.others = s.others) (hext : s.Extends s')
      (hshows : Shows s' log (a.epno + 1) ph t)
    (harch : Archive s' t) (hlogged : Logged (a.epno + 1) log)
    (hlog : ∀ e ≤ a.epno, ∀ k, valueAt log e k = valueAt a.log e k) (hfirst : a.epno = 0 → ph.typ = .leaf)
    (hflag : 0 < a.epno → ph.typ = .leaf → s'.firstNode = some false) (time now : Time)
    (hct : Option (HostchainTail H)) (bk : Option Bookkeeping) :
    Alike (Next s a) (do
        let db ← storeRoot s' (a.epno + 1) ph time now hct
        Merkle.updateOptional db bk)
      (a.push log (hct.map seqno)) := by
  by_cases hold : Outdated a.tail (hct.map seqno)
  · rw [hledger.storeRoot_eq_error hold, History.push, if_pos hold]
    rfl
  obtain ⟨db, hrun, hledger', hnodes, hleaves, hdbothers, ⟨r, hr, hepno, hroot⟩, hfirstNode⟩ :=
    hledger.storeRoot_eq_ok hold ph time now
  have hext' : s'.Extends db := .refl' hnodes hleaves
  have hdbflag : db.firstNode = some (decide (ph.typ = .node)) := by
    rw [hfirstNode]
    rcases Nat.eq_zero_or_pos a.epno with h0 | hpos
    · rw [if_pos h0, hfirst h0]
      rfl
    rw [if_neg hpos.ne']
    cases htyp : ph.typ with
    | node => rfl
    | leaf => rw [hflag hpos htyp]; rfl
  have hnew : Shows db log (a.epno + 1) ph t := hshows.mono hext' fun _ => rfl
  have hrefines : Refines db ⟨a.epno + 1, log, (hct.map seqno).or a.tail⟩ := by
    refine ⟨hledger', hlogged, fun h0 => absurd h0 (Nat.succ_ne_zero _), fun q hq => ?_, fun q hq => ?_⟩
    · rw [hr, hroots] at hq
      rcases mem_append.mp hq with hq | hq
      · obtain ⟨ph', t', hhash, hold⟩ := h.trees q hq
        have hle : q.epno ≤ a.epno := (h.ledger.mem_epnos.mp (mem_map_of_mem hq)).2
        exact ⟨ph', t', hhash, (hold.mono hext (hlog q.epno hle)).mono hext' fun _ => rfl⟩
      · obtain rfl := mem_singleton.mp hq
        exact ⟨ph, t, hroot.symm, hepno ▸ hnew⟩
    rw [hr, getLast?_concat, some.injEq] at hq
    subst hq
    exact ⟨ph.typ, t, hdbflag, hroot ▸ hnew, harch.congr hnodes hleaves⟩
  obtain ⟨db', hbk, hfinal, hothers', hdbroots, -⟩ :=
    hrefines.updateOptional (Nat.succ_pos _) bk hlogged fun _ _ _ => rfl
  rw [hrun, History.push, if_neg hold]
  show Alike (Next s a) (Merkle.updateOptional db bk) _
  rw [hbk]
  exact ⟨hfinal, by rw [hothers', hdbothers, hothers], ⟨[r], by rw [hdbroots, hr, hroots]⟩,
    fun h => absurd h (Nat.succ_ne_self _)⟩

omit [DecidableEq H] in
theorem Ledger.addPath {n : ℕ} {tail : Option Seqno} (h : Ledger s n tail) (epno : MerkleEpno)
    (leaf : MerkleLeaf H) (out : List (Node H)) :
    Ledger (s.addPath epno leaf out) n tail :=
  ⟨h.epnos, h.bodies, h.flag, h.bookkeeping, h.tail⟩

theorem storeUpdatedPath_eq {epno : MerkleEpno} {leaf : MerkleLeaf H} {out : List (Node H)} (h : (do
      let db ← s.insertLeaf leaf.hash leaf epno
      storeNodes db out) = .ok s') (arg : InsertKeyValueArg H) (now : Time) :
    storeUpdatedPath s epno leaf out arg now = (do
        let db ← storeRoot s' epno (newRootNode leaf out) arg.time now arg.hct
        Merkle.updateOptional db arg.bk) := by
  obtain ⟨db, hleaf, hnodes⟩ := bind_eq_ok.mp h
  rw [storeUpdatedPath, hleaf]
  show (do let db ← storeNodes db out; _) = _
  rw [hnodes]
  rfl

/-- The first insertion: the tree is one leaf. -/
theorem Refines.insert_first (h : Refines s a) (h0 : a.epno = 0) (arg : InsertKeyValueArg H) (now : Time)
    (hfree : s.Free ⟨arg.key, arg.val⟩) :
    Alike (Next s a) (insertKeyValueTryTx s arg now) (a.step (.insertKeyValue arg now)) := by
  obtain ⟨epno, log, tail⟩ := a
  obtain rfl : epno = 0 := h0
  obtain ⟨hnodes, hleaves, rfl, rfl⟩ : s.nodes = [] ∧ s.leaves = [] ∧ log = [] ∧ tail = none :=
    h.start rfl
  set leaf : MerkleLeaf H := ⟨arg.key, arg.val⟩ with hleaf
  set s' := s.addPath 1 leaf [] with hs'
  have hrows : s'.leaves = [⟨leaf.hash, leaf, 1⟩] := by
    rw [hs', addPath, hleaves]
    rfl
  have hempty : s'.nodes = [] := by
    rw [hs', addPath, hnodes]
    rfl
  have hstore : (do
      let db ← s.insertLeaf leaf.hash leaf 1
      storeNodes db []) = .ok s' := by
    rw [insertLeaf_eq_ok (by rw [hleaves]; exact not_mem_nil) (by rw [hleaves]; exact not_mem_nil) hfree]
    show Except.ok { s with leaves := _ } = Except.ok _
    rw [hs', addPath, map_nil, append_nil]
  have hlookup : lookupPathWithLock s arg.key none = .error .merkleNoRootError := by
    rw [lookupPathWithLock, h.ledger.selectRootForTraversal_empty]
    rfl
  have hunique : Unique LeafRow.hash s'.leaves := by
    rw [hrows]
    exact nodup_singleton _
  have hrow : ⟨leaf.hash, leaf, 1⟩ ∈ s'.leaves := by
    rw [hrows]
    exact mem_cons_self
  have hsel : s'.selectLeaf ⟨.leaf, leaf.hash⟩ = .ok leaf :=
    selectLeaf_of_mem hunique hrow rfl
  have hshows : Shows s' [⟨1, arg.key, arg.val⟩] 1 ⟨.leaf, leaf.hash⟩ (.leaf arg.key arg.val) := by
    refine ⟨.leaf hsel, .leaf _ _ _, fun k v => ?_⟩
    have hnone : valueAt ([] : List (Inserted H)) 0 k ≠ some v := (some_ne_none v).symm
    have hnew : valueAt ([] ++ [⟨1, arg.key, arg.val⟩]) 1 k = some v ↔ _ :=
      valueAt_append_new rfl h.logged arg.val
    exact ((or_iff_left hnone).symm.trans hnew.symm)
  have harch : Archive s' (.leaf arg.key arg.val) := by
    refine ⟨by rw [hempty]; exact nodup_nil, hunique, fun row hrow => ?_, fun row hrow => ?_⟩
    · rw [hrows, mem_singleton] at hrow
      rw [hrow]
      exact ⟨rfl, rfl, rfl⟩
    · rw [hempty] at hrow
      exact absurd hrow not_mem_nil
  have hext : s.Extends s' := by
    refine .of_mem (by rw [hempty]; exact nodup_nil) hunique (fun row hrow => ?_) fun row hrow => ?_
    · rw [hnodes] at hrow
      exact absurd hrow not_mem_nil
    · rw [hleaves] at hrow
      exact absurd hrow not_mem_nil
  have hlog : ∀ e ≤ 0, ∀ k, valueAt [(⟨1, arg.key, arg.val⟩ : Inserted H)] e k = none :=
    fun e he => valueAt_append_before (rfl : List.find? _ [] = none) (Nat.lt_succ_of_le he)
  have hpush := h.push (h.ledger.addPath 1 leaf []) rfl rfl hext hshows harch
    (h.logged.append (Nat.le_succ 0) arg.key arg.val) hlog (fun _ => rfl)
    (fun hpos => absurd hpos (lt_irrefl 0)) arg.time now arg.hct arg.bk
  rw [insertKeyValueTryTx, hlookup]
  show Alike (Next s {}) (storeUpdatedPath s 1 leaf [] arg now) _
  rw [storeUpdatedPath_eq hstore]
  exact hpush

/-- What an insertion finds: the latest root, and the path of the key in its tree. -/
theorem Refines.lookup_latest (h : Refines s a) (hpos : 0 < a.epno) (k : MerkleTreeRFOutput) :
    ∃ body ph t path leaf, lookupPathWithLock s k none = .ok ⟨a.epno, body, path, leaf⟩ ∧
      s.selectRootForTraversal none = .ok ⟨a.epno, body, ph⟩ ∧
      (ph.typ = .leaf → s.firstNode = some false) ∧ Shows s a.log a.epno ph t ∧ Archive s t ∧
      Trace s k 0 ph t path leaf := by
  have hlen := h.ledger.length
  obtain ⟨r, hr⟩ : ∃ r, s.roots.getLast? = some r := by
    rw [← isSome_iff_exists, getLast?_isSome]
    rintro hnil
    rw [hnil] at hlen
    exact hpos.ne hlen
  obtain ⟨typ, t, hflag, hshows, harch⟩ := h.latest r hr
  obtain ⟨res, hres, htrace⟩ := lookupFromRootNode_eq_ok hshows.stored hshows.wf k
  have hroot := h.ledger.selectRootForTraversal hr hflag
  refine ⟨r.body, _, t, res.path, res.leaf, ?_, hroot, fun htyp => ?_, hshows, harch, htrace⟩
  · rw [lookupPathWithLock, hroot]
    simp only [bind, Except.bind, hres]
    rfl
  · obtain rfl : typ = .leaf := htyp
    exact hflag

/-- The leaf of a lookup matches when the key is in the tree. -/
theorem Trace.any_isMatch {path : List (LookupPathNode H)} {leaf : Option (LookupLeaf H)}
    (h : Trace s k 0 ph t path leaf) (hwf : t.WF 0) :
    leaf.any (·.isMatch) = true ↔ HasKey k t := by
  constructor
  · intro hany
    cases leaf with
    | none => cases hany
    | some l =>
      have hkey : k = l.leaf.key := of_decide_eq_true (h.selectLeaf.2.symm.trans hany)
      refine ⟨l.leaf.value, (h.leaf_mem_iff hwf (.root t k) _).mp ⟨l, rfl, hany, ?_⟩⟩
      rw [hkey]
  · rintro ⟨v, hmem⟩
    obtain ⟨l, rfl, hmatch, -⟩ := (h.leaf_mem_iff hwf (.root t k) v).mpr hmem
    exact hmatch

/-- The key of a tree is that of a leaf of the host. -/
theorem Trace.mem_leaves {path : List (LookupPathNode H)} {leaf : Option (LookupLeaf H)}
    (h : Trace s k 0 ph t path leaf) (hwf : t.WF 0) (hk : HasKey k t) : k ∈ s.leaves.map (·.leaf.key) := by
  obtain ⟨v, hmem⟩ := hk
  obtain ⟨l, rfl, -, hleaf⟩ := (h.leaf_mem_iff hwf (.root t k) v).mpr hmem
  obtain ⟨row, hrow, -, hrl⟩ := mem_of_selectLeaf h.selectLeaf.1
  exact mem_map.mpr ⟨row, hrow, by rw [hrl, hleaf]⟩

/-- Later insertions. -/
theorem Refines.insert (hs : SoundHash H) (h : Refines s a) (hpos : 0 < a.epno) (arg : InsertKeyValueArg H)
    (now : Time) (hfree : valueAt a.log a.epno arg.key = none → s.Free ⟨arg.key, arg.val⟩) :
    Alike (Next s a) (insertKeyValueTryTx s arg now) (a.step (.insertKeyValue arg now)) := by
  obtain ⟨body, ph, t, path, leaf, hlookup, -, hflag, hshows, harch, htrace⟩ :=
    h.lookup_latest hpos arg.key
  have hany := htrace.any_isMatch hshows.wf
  have hsome : HasKey arg.key t ↔ (valueAt a.log a.epno arg.key).isSome := by
    rw [isSome_iff_exists]
    exact exists_congr fun v => hshows.mem_iff arg.key v
  unfold insertKeyValueTryTx
  rw [hlookup, History.step]
  have hfind : (valueAt a.log a.epno arg.key).isSome = (a.log.find? (·.key = arg.key)).isSome := by
    rw [valueAt_of_logged h.logged le_rfl, isSome_map]
  by_cases hk : HasKey arg.key t
  · -- the key is known: its value stays
    have hlog : ∀ e ≤ a.epno, ∀ k, valueAt (a.log ++ [⟨a.epno, arg.key, arg.val⟩]) e k = valueAt a.log e k :=
      fun e _ k => valueAt_append_known (hfind ▸ hsome.mp hk) e k
    obtain ⟨s', hrun, hrefines, hothers, hsame⟩ :=
      h.updateOptional hpos arg.bk (h.logged.append le_rfl arg.key arg.val) hlog
    simp only [hany.mpr hk, if_pos (hsome.mp hk), hrun]
    exact ⟨hrefines, hothers, ⟨[], by rw [hsame.1, append_nil]⟩, fun _ => hsame⟩
  obtain ⟨ends, out, top, t', hends, hprop, hreb⟩ := exists_rebuilt hs harch hk arg.val htrace
    hshows.stored hshows.wf (.root t arg.key)
  have hmatch : ¬ leaf.any (·.isMatch) = true := fun hm => hk (hany.mp hm)
  have hnone : ¬ (valueAt a.log a.epno arg.key).isSome := fun hv => hk (hsome.mpr hv)
  have hstore := harch.store_eq_ok hs hk hreb (hfree (not_isSome_iff_eq_none.mp hnone)) (a.epno + 1)
  obtain ⟨hext, harch', hst'⟩ := harch.grow hs hk hreb
    (rfl : (s.addPath (a.epno + 1) ⟨arg.key, arg.val⟩ out).nodes = _) rfl
  have hfresh : a.log.find? (·.key = arg.key) = none := by
    rw [hfind] at hnone
    exact not_isSome_iff_eq_none.mp hnone
  have hlog : ∀ e ≤ a.epno, ∀ k, valueAt (a.log ++ [⟨a.epno + 1, arg.key, arg.val⟩]) e k = valueAt a.log e k :=
    fun e he => valueAt_append_before hfresh (Nat.lt_succ_of_le he)
  have hshows' : Shows (s.addPath (a.epno + 1) ⟨arg.key, arg.val⟩ out)
      (a.log ++ [⟨a.epno + 1, arg.key, arg.val⟩]) (a.epno + 1) ⟨.node, top.hash⟩ t' := by
    refine ⟨hst', hreb.inserts.wellFormed hshows.wf, fun k v => ?_⟩
    rw [hreb.inserts.mem_iff, hshows.mem_iff, valueAt_append_new hfresh h.logged]
  have hpush := h.push (h.ledger.addPath (a.epno + 1) ⟨arg.key, arg.val⟩ out) rfl rfl hext hshows'
    harch' (h.logged.append (Nat.le_succ _) arg.key arg.val) hlog
    (fun h0 => absurd h0 hpos.ne') (fun _ htyp => nomatch htyp) arg.time now arg.hct arg.bk
  simp only [hmatch, if_neg hnone, hends, hprop, bind, Except.bind]
  rw [storeUpdatedPath_eq hstore]
  rw [show newRootNode ⟨arg.key, arg.val⟩ out = ⟨.node, top.hash⟩ by
    rw [newRootNode, hreb.last]]
  exact hpush

theorem Refines.storeRoot (h : Refines s a) (time : Time) (hct : HostchainTail H) (bk : Bookkeeping)
    (now : Time) :
    Alike (Next s a) (engineStoreRoot s time now hct bk) (a.step (.storeRoot time hct bk now)) := by
  unfold engineStoreRoot
  rcases Nat.eq_zero_or_pos a.epno with h0 | hpos
  · have hledger := h.ledger
    rw [h0] at hledger
    rw [hledger.selectRootForTraversal_empty, History.step, if_pos h0]
    rfl
  obtain ⟨body, ph, t, path, leaf, -, hroot, hflag, hshows, harch, -⟩ :=
    h.lookup_latest hpos ⟨replicate 32 0, length_zeros⟩
  have hshows' : Shows s a.log (a.epno + 1) ph t :=
    ⟨hshows.stored, hshows.wf, fun k v => by
      rw [hshows.mem_iff, valueAt_of_logged h.logged le_rfl, valueAt_of_logged h.logged (Nat.le_succ _)]⟩
  have hpush := h.push h.ledger rfl rfl (.refl' rfl rfl) hshows' harch
    (fun x hx => Nat.le_succ_of_le (h.logged x hx)) (fun _ _ _ => rfl)
    (fun h0 => absurd h0 hpos.ne') (fun _ => hflag) time now (some hct) (some bk)
  rw [hroot, History.step, if_neg hpos.ne']
  exact hpush

/-- The leaf that a request adds, if it adds one, is not stored by another host. -/
def History.Clear (a : History H) (s : Store H) : Op H → Prop
  | .insertKeyValue arg _ => valueAt a.log a.epno arg.key = none → s.Free ⟨arg.key, arg.val⟩
  | .storeRoot .. => True

/-- The engine and the map with history answer every request alike. -/
theorem Refines.step (hs : SoundHash H) (h : Refines s a) (op : Op H) (hclear : a.Clear s op) :
    Alike (Next s a) (step s op) (a.step op) := by
  cases op with
  | insertKeyValue arg now =>
    rcases Nat.eq_zero_or_pos a.epno with h0 | hpos
    · refine h.insert_first h0 arg now (hclear ?_)
      rw [(h.start h0).2.2.1]
      rfl
    · exact h.insert hs hpos arg now hclear
  | storeRoot time hct bk now => exact h.storeRoot time hct bk now

/-- An accepted request adds no leaf that another host has stored. -/
theorem Refines.clear_of_step (h : Refines s a) (hpos : 0 < a.epno) {op : Op H}
    (hstep : Merkle.step s op = .ok s') : a.Clear s op := by
  cases op with
  | storeRoot => trivial
  | insertKeyValue arg now =>
    intro hnone
    obtain ⟨body, ph, t, path, leaf, hlookup, -, -, hshows, -, htrace⟩ := h.lookup_latest hpos arg.key
    have hmatch : ¬ leaf.any (·.isMatch) = true := by
      rw [htrace.any_isMatch hshows.wf]
      rintro ⟨v, hv⟩
      rw [hshows.mem_iff, hnone] at hv
      cases hv
    simp only [Merkle.step, insertKeyValueTryTx, hlookup] at hstep
    rw [if_neg hmatch] at hstep
    obtain ⟨ends, -, hstep⟩ := bind_eq_ok.mp hstep
    obtain ⟨out, -, hstep⟩ := bind_eq_ok.mp hstep
    obtain ⟨db, hleaf, -⟩ := bind_eq_ok.mp hstep
    exact free_of_insertLeaf hleaf

/-- The store of a host that is alone in its database. -/
structure Alone (s : Store H) (a : History H) : Prop where
  refines : Refines s a
  others : s.others = []

theorem Alone.clear (h : Alone s a) (op : Op H) : a.Clear s op := by
  cases op with
  | insertKeyValue arg now => exact fun _ => by simp [Store.Free, h.others]
  | storeRoot => trivial

theorem Alone.step (hs : SoundHash H) (h : Alone s a) (op : Op H) : Alike Alone (step s op) (a.step op) :=
  (h.refines.step hs op (h.clear op)).mono fun _ _ hnext => ⟨hnext.refines, hnext.others.trans h.others⟩

/-- After every run, the store holds the history of the run. -/
theorem alone_serve (hs : SoundHash H) (ops : List (Op H)) :
    Alone (serve step ({} : Store H) ops) (serve History.step {} ops) :=
  serve_alike (fun _ _ op h => h.step hs op) ⟨.empty, rfl⟩ ops

/-! ## All runs -/

/-- The requests that a history refuses: those that would store a root with an outdated hostchain
tail, and a root without a tree. -/
def History.Refuses (a : History H) : Op H → Prop
  | .insertKeyValue arg _ =>
    valueAt a.log a.epno arg.key = none ∧ Outdated a.tail (arg.hct.map seqno)
  | .storeRoot _ hct _ _ => a.epno = 0 ∨ Outdated a.tail (some hct.seqno)

omit [DecidableEq H] [MerkleHash H] in
theorem History.exists_step_iff {op : Op H} : (∃ a', a.step op = .ok a') ↔ ¬ a.Refuses op := by
  cases op with
  | insertKeyValue arg now =>
    rw [History.step, History.Refuses]
    cases hv : valueAt a.log a.epno arg.key with
    | some v => exact iff_of_true ⟨_, rfl⟩ fun h => nomatch h.1
    | none =>
      rw [if_neg (by simp), History.exists_push_iff]
      simp
  | storeRoot time hct bk now =>
    rw [History.step, History.Refuses]
    by_cases h0 : a.epno = 0
    · rw [if_pos h0]
      exact iff_of_false (fun ⟨_, h⟩ => nomatch h) (not_not.mpr (.inl h0))
    · rw [if_neg h0, History.exists_push_iff]
      simp [h0]

/-- The root node of a stored root, with its own type. -/
def Store.rootNodeOf (s : Store H) (r : RootRow H) : PrefixedHash H :=
  ⟨if r.rootNode ∈ s.leaves.map LeafRow.hash then .leaf else .node, r.rootNode⟩

/-- The lookup found a matching leaf with this value. -/
def LookupPathSingle.Finds (res : LookupPathSingle H) (v : H) : Prop :=
  ∃ l, res.leaf = some l ∧ l.isMatch = true ∧ l.leaf.value = v

theorem Trace.finds_iff {res : LookupPathSingle H} (h : Trace s k 0 ph t res.path res.leaf)
    (hwf : t.WF 0) (v : H) :
    res.Finds v ↔ Mem k v t := by
  rw [← h.leaf_mem_iff hwf (.root t k) v]
  refine exists_congr fun l => and_congr_right fun hl => and_congr_right fun hmatch => ?_
  rw [hl] at h
  have hkey : k = l.leaf.key := of_decide_eq_true (h.selectLeaf.2.symm.trans hmatch)
  constructor
  · rintro rfl
    rw [hkey]
  · intro hleaf
    rw [hleaf]

/-- A tree in the store stands below a hash of its own type. -/
theorem Refines.typ_eq (hs : SoundHash H) (h : Refines s a) (hr : r ∈ s.roots)
    (hhash : ph.hash = r.rootNode) (hst : Stored s ph t) : s.rootNodeOf r = ph := by
  obtain ⟨last, hlast⟩ : ∃ last, s.roots.getLast? = some last := by
    rw [← isSome_iff_exists, getLast?_isSome]
    exact ne_nil_of_mem hr
  obtain ⟨-, T, -, -, harch⟩ := h.latest last hlast
  unfold rootNodeOf
  cases hst with
  | leaf hsel =>
    obtain ⟨row, hrow, hrowhash, -⟩ := mem_of_selectLeaf hsel
    rw [← hhash, if_pos (mem_map.mpr ⟨row, hrow, hrowhash⟩)]
  | @node n =>
    rw [← hhash, if_neg]
    intro hmem
    obtain ⟨row, hrow, hrowhash⟩ := mem_map.mp hmem
    exact MerkleLeaf.hash_ne hs row.leaf n ((harch.leaves row hrow).1.symm.trans hrowhash)

/-- The root of an epoch, when its type is that of the latest root. -/
theorem Refines.selectRootForTraversal (h : Refines s a) (hr : r ∈ s.roots) (hhash : ph.hash = r.rootNode)
    (hflag : s.firstNode = some (decide (ph.typ = .node))) :
    s.selectRootForTraversal (some r.epno) = .ok ⟨r.epno, r.body, ph⟩ := by
  have hunique : Unique RootRow.epno s.roots := by
    rw [Lib.Unique, h.ledger.epnos]
    exact nodup_range'
  rw [Store.selectRootForTraversal, elim_some, Store.rootAt, hunique.find?_eq_some hr, hflag]
  obtain ⟨typ, hash⟩ := ph
  cases hhash
  cases typ <;> rfl

/-- Traversing the tree of an epoch: from its root node, and through the storage when the type of
the latest root is also that of this one. -/
theorem Refines.lookup (hs : SoundHash H) (h : Refines s a) (hr : r ∈ s.roots) (k : MerkleTreeRFOutput) :
    ∃ res, lookupFromRootNode s k (s.rootNodeOf r) = .ok (some res) ∧
      (∀ v, res.Finds v ↔ valueAt a.log r.epno k = some v) ∧
      (s.firstNode = some (decide ((s.rootNodeOf r).typ = .node)) →
        lookupPathWithLock s k (some r.epno) = .ok ⟨r.epno, r.body, res.path, res.leaf⟩) := by
  obtain ⟨ph, t, hhash, hshows⟩ := h.trees r hr
  obtain ⟨res, hres, htrace⟩ := lookupFromRootNode_eq_ok hshows.stored hshows.wf k
  rw [h.typ_eq hs hr hhash hshows.stored]
  refine ⟨res, hres, fun v => (htrace.finds_iff hshows.wf v).trans (hshows.mem_iff k v), ?_⟩
  intro hflag
  rw [lookupPathWithLock, h.selectRootForTraversal hr hhash hflag]
  simp only [bind, Except.bind, hres]
  rfl

/-- **The engine keeps a map with history.** After every run of the engine on an empty store: a
request is refused only for an outdated hostchain tail, or for want of a tree; an accepted one
appends to the roots, and the insertion of a known key changes no root, node or leaf; the roots
are numbered by the epochs; and traversing the tree of any epoch succeeds, and finds a key when it
was inserted by then, with the value of its first insertion. -/
theorem engine_keeps_history (hs : SoundHash H) (ops : List (Op H)) :
    let s := serve step ({} : Store H) ops
    let a := serve History.step ({} : History H) ops
    (∀ op, (∃ s', step s op = .ok s') ↔ ¬ a.Refuses op) ∧
    (∀ op s', step s op = .ok s' → ∃ a', a.step op = .ok a' ∧ s.roots <+: s'.roots ∧
      s'.roots.map RootRow.epno = range' 1 a'.epno ∧
      (a'.epno = a.epno → s'.roots = s.roots ∧ s'.nodes = s.nodes ∧ s'.leaves = s.leaves)) ∧
    s.roots.map RootRow.epno = range' 1 a.epno ∧
    ∀ r ∈ s.roots, ∀ k, ∃ res, lookupFromRootNode s k (s.rootNodeOf r) = .ok (some res) ∧
      (∀ v, res.Finds v ↔ valueAt a.log r.epno k = some v) ∧
      (s.firstNode = some (decide ((s.rootNodeOf r).typ = .node)) →
        lookupPathWithLock s k (some r.epno) = .ok ⟨r.epno, r.body, res.path, res.leaf⟩) := by
  intro s a
  have halone : Alone s a := alone_serve hs ops
  have h := halone.refines
  refine ⟨fun op => ?_, fun op s' hstep => ?_, h.ledger.epnos, fun r hr => h.lookup hs hr⟩
  · rw [(h.step hs op (halone.clear op)).exists_ok_iff, History.exists_step_iff]
  · have hnext := h.step hs op (halone.clear op)
    rw [hstep] at hnext
    cases ha : a.step op with
    | error e => rw [ha] at hnext; exact hnext.elim
    | ok a' =>
      rw [ha] at hnext
      exact ⟨a', rfl, hnext.roots, hnext.refines.ledger.epnos, hnext.same⟩

/-- Two keys that differ in their first bit. -/
def twoKeys : MerkleTreeRFOutput × MerkleTreeRFOutput :=
  (⟨replicate 32 0, length_zeros⟩, ⟨0x80 :: replicate 31 0, rfl⟩)

/-- Both keys are inserted, the first one with a hostchain tail. -/
def twoInserts : List (Op SymHash) :=
  [.insertKeyValue ⟨twoKeys.1, .atom 1, none, 1, some ⟨2, .zero⟩⟩ 0,
    .insertKeyValue ⟨twoKeys.2, .atom 2, none, 1, none⟩ 0]

theorem engine_keeps_history_twoInserts :
    SoundHash SymHash ∧
      (serve step ({} : Store SymHash) twoInserts).roots.map RootRow.epno = [1, 2] := by
  refine ⟨soundHash_symHash, ?_⟩
  rw [(engine_keeps_history soundHash_symHash twoInserts).2.2.1]
  decide

/-- Not every request after the first insertion succeeds: a root with an older hostchain tail is
refused. Nor does every lookup in a stored epoch: the storage types the root of the first epoch
by the latest root, and takes the only leaf for a node. -/
theorem engine_refuses_after_first_insert :
    step (serve step {} (twoInserts.take 1)) (.storeRoot 1 ⟨1, .zero⟩ ⟨1, 0⟩ 0)
        = .error (.merkleTreeError "hostchain tail is older than current") ∧
      (serve step ({} : Store SymHash) twoInserts).rootAt 1 ≠ none ∧
      lookupPathWithLock (serve step {} twoInserts) twoKeys.1 (some 1)
        = .error .noRows := by
  decide +kernel

end Foks.Merkle
