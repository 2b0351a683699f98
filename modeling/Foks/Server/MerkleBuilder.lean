import Foks.Merkle.Canonical
import Foks.Server.MerkleBatcher

/-!
# Building the tree from the batches

`MerkleBuilderServer.doOneLeaf` (`server/engine/merkle_builder.go`) takes the next leaf of the next
batch to the tree. How far it has come is kept in the bookkeeping of the tree: the number of the
batch, and the position in it, which is `-1` before the first leaf. An insertion writes the
bookkeeping in its own transaction; a batch without leaves, which carries the tail of the host chain
only, takes a transaction for the root and another one for the next number.

The server may stop at any moment. What it leaves then is what the transactions left that were
committed, so a stop is a transaction that is cut off.
-/

namespace Foks.Server

open Lib Merkle List Except RaftStore
open Lib.Action (bind_apply)

variable {H : Type}

/-- What becomes of the transactions of `doOneLeaf`. -/
structure LeafFates where
  storeRoot : Fate := .done
  last : Fate := .done
  deriving DecidableEq

def errNoWork : CoreError := .errorsNew "no work"

/-- `batch.Leaves[pos]` -/
def leafAt (leaves : List (MerkleLeaf H)) (pos : ℤ) : Option (MerkleLeaf H) :=
  if 0 ≤ pos then leaves[pos.toNat]? else none

namespace Pipeline

variable [DecidableEq H] [MerkleHash H]

/-- The part of `doOneLeaf` for a batch that carries nothing but a tail of the host chain. -/
def storeHostchain (batch : MerkleBatch H) (nxt : Bookkeeping) (now : Time) (fate : Fate) :
    Action (Pipeline H) CoreError Bookkeeping :=
  match batch.hostchain with
  | none => return nxt
  | some hct => do
    if nxt.pos = -1 ∧ batch.leaves = [] then
      let nxt := { nxt with pos := 0 }
      onTree <| transact fate cutOff (engineStoreRoot · batch.time now hct nxt)
      return nxt
    else return nxt

/-- The position of the leaf that comes next. -/
def leafPos (nxt : Bookkeeping) : ℤ := if nxt.pos = -1 then 0 else nxt.pos

variable (batch : MerkleBatch H) (nxt : Bookkeeping)

/-- The insertion of that leaf, with the tail of the host chain if it is the first one of its
batch. -/
def leafArg (leaf : MerkleLeaf H) : InsertKeyValueArg H :=
  { key := leaf.key
    val := leaf.value
    time := batch.time
    bk := some { nxt with pos := leafPos nxt + 1 }
    hct := if nxt.pos = -1 then batch.hostchain else none }

/-- The part of `doOneLeaf` after that: the next batch, or the next leaf. -/
def nextLeaf (now : Time) (fate : Fate) :
    Action (Pipeline H) CoreError Unit :=
  if batch.leaves.length ≤ nxt.pos then
    onTree <| transact fate cutOff (·.updateBookkeeping nxt.advance)
  else
    match leafAt batch.leaves (leafPos nxt) with
    | none => .fail outOfRange
    | some leaf => onTree <| transact fate cutOff (insertKeyValueTryTx · (leafArg batch nxt leaf) now)

def doOneLeaf (now : Time) (fates : LeafFates) : Action (Pipeline H) CoreError Unit := do
  match ← Action.read fun p => p.tree.selectBookkeeping with
  | none => .fail (.internalError "next is nil")
  | some nxt =>
    match ← Action.read fun p => p.raft.readBatch nxt.batchNo with
    | none => .fail errNoWork
    | some batch =>
      let nxt ← storeHostchain batch nxt now fates.storeRoot
      nextLeaf batch nxt now fates.last

variable (H) in
/-- The calls of the two servers; a server that starts again remembers nothing. Between them other
hosts store leaves, in the table that all hosts share. -/
inductive Step where
  | commitBatch (batch : MerkleBatch H) (now : Time) (fates : CommitFates)
  | doOneLeaf (now : Time) (fates : LeafFates)
  | restart
  | otherHost (leaf : MerkleLeaf H) (epno : MerkleEpno)

def step (p : Pipeline H) : Step H → Pipeline H
  | .commitBatch batch now fates => (commitBatch batch now fates p).2
  | .doOneLeaf now fates => (doOneLeaf now fates p).2
  | .restart => p.dropMemo
  | .otherHost leaf epno => { p with tree := p.tree.insertOther ⟨leaf.hash, leaf, epno⟩ }

/-- A host starts with the tree that `InitTree` stores, and without batches. -/
def start (now : Time) : Except CoreError (Pipeline H) := do
  let tree ← initTree {} now
  return { tree }

def run (now : Time) (steps : List (Step H)) : Except CoreError (Pipeline H) := do
  let p ← start now
  return steps.foldl step p

end Pipeline

/-! ## The leaves that are in the tree -/

namespace RaftStore

/-- The leaves of the batches with smaller numbers. -/
def leavesBefore (r : RaftStore H) (b : ℕ) : List (MerkleLeaf H) :=
  (r.batches.filter (·.batchno < b)).flatMap (·.leaves)

/-- The leaves of one batch. -/
def leavesOf (r : RaftStore H) (b : ℕ) : List (MerkleLeaf H) :=
  ((r.readBatch b).map (·.leaves)).getD []

/-- The leaves that the builder has taken to the tree when it stands at `bk`. -/
def applied (r : RaftStore H) (bk : Bookkeeping) : List (MerkleLeaf H) :=
  r.leavesBefore bk.batchNo ++ (r.leavesOf bk.batchNo).take bk.pos.toNat

variable {r r' : RaftStore H} {bk : Bookkeeping} {b : MerkleBatch H}

theorem filter_lt_succ {batches : List (MerkleBatch H)}
    (h : (batches.map (·.batchno)).Pairwise (· < ·)) (b : ℕ) :
    batches.filter (·.batchno < b + 1) = batches.filter (·.batchno < b) ++
        (batches.find? (·.batchno = b)).toList := by
  induction batches with
  | nil => rfl
  | cons x l ih =>
    rw [map_cons, pairwise_cons] at h
    have hlater : ∀ y ∈ l, x.batchno < y.batchno :=
      fun y hy => h.1 y.batchno (mem_map_of_mem hy)
    rcases lt_trichotomy x.batchno b with hlt | heq | hgt
    · have hlt' : x.batchno < b + 1 := Nat.lt_succ_of_lt hlt
      simp only [filter_cons, List.find?_cons, hlt, hlt', hlt.ne, decide_true, decide_false, if_true,
        ih h.2, cons_append]
    · -- the batch itself: no later one is below it
      have hnone : ∀ n ≤ b + 1, l.filter (·.batchno < n) = [] := by
        intro n hn
        refine filter_eq_nil_iff.mpr fun y hy => ?_
        have := hlater y hy
        simp only [decide_eq_true_eq]
        omega
      simp only [filter_cons, List.find?_cons, heq, Nat.lt_succ_self, lt_irrefl,
        hnone b (Nat.le_succ b), hnone (b + 1) le_rfl]
      rfl
    have hnone : ∀ n ≤ b + 1, (x :: l).filter (·.batchno < n) = [] := by
      intro n hn
      refine filter_eq_nil_iff.mpr fun y hy => ?_
      simp only [decide_eq_true_eq]
      rcases mem_cons.mp hy with rfl | hy
      · omega
      · have := hlater y hy
        omega
    have hfind : (x :: l).find? (·.batchno = b) = none := by
      refine List.find?_eq_none.mpr fun y hy => ?_
      simp only [decide_eq_true_eq]
      rcases mem_cons.mp hy with rfl | hy
      · omega
      · have := hlater y hy
        omega
    rw [hnone b (Nat.le_succ b), hnone (b + 1) le_rfl, hfind]
    rfl

/-- The next batch comes after all leaves of this one. -/
theorem leavesBefore_succ (h : (r.batches.map (·.batchno)).Pairwise (· < ·)) (b : ℕ) :
    r.leavesBefore (b + 1) = r.leavesBefore b ++ r.leavesOf b := by
  rw [leavesBefore, filter_lt_succ h, flatMap_append]
  congr 1
  rw [leavesOf, readBatch]
  cases r.batches.find? (·.batchno = b) <;> simp

/-- One more leaf. -/
theorem applied_succ {leaf : MerkleLeaf H} {pos : ℤ} (hpos : pos.toNat = bk.pos.toNat)
    (hleaf : leafAt (r.leavesOf bk.batchNo) pos = some leaf) :
    r.applied { bk with pos := pos + 1 } = r.applied bk ++ [leaf] := by
  unfold leafAt at hleaf
  split at hleaf
  · next hnonneg =>
    have hsucc : (pos + 1).toNat = bk.pos.toNat + 1 := by omega
    rw [hpos] at hleaf
    rw [applied, applied, hsucc, take_add_one, hleaf, append_assoc]
    rfl
  · cases hleaf

theorem leavesBefore_append {n : ℕ} (hr : r'.batches = r.batches ++ [b]) (hn : n ≤ b.batchno) :
    r'.leavesBefore n = r.leavesBefore n := by
  have hnew : ¬ b.batchno < n := not_lt.mpr hn
  rw [leavesBefore, leavesBefore, hr]
  simp [hnew]

/-- A new batch changes nothing before the builder has come to it. -/
theorem applied_append (hr : r'.batches = r.batches ++ [b])
    (hle : bk.batchNo ≤ b.batchno) (hpos : bk.batchNo = b.batchno → bk.pos = -1) :
    r'.applied bk = r.applied bk := by
  rw [applied, applied, leavesBefore_append hr hle]
  by_cases heq : bk.batchNo = b.batchno
  · simp [hpos heq]
  have hread : r'.readBatch bk.batchNo = r.readBatch bk.batchNo := by
    rw [readBatch, readBatch, hr]
    simp [Ne.symm heq]
  rw [leavesOf, leavesOf, hread]

end RaftStore

/-! ## The bookkeeping -/

section Engine

variable {db' db : Store H} {bk : Bookkeeping} {now time : Time} {hct : HostchainTail H} {epno : MerkleEpno}
  {leaf : MerkleLeaf H} {out : List (Node H)} {arg : InsertKeyValueArg H}

theorem updateBookkeeping_eq_ok : db.updateBookkeeping bk = .ok db' ↔
      ∃ row, db.bookkeeping = some row ∧ db' = { db with bookkeeping := some { row with build := bk } } := by
  unfold Store.updateBookkeeping
  cases db.bookkeeping with
  | none => simp
  | some row => simp [eq_comm]

theorem selectBookkeeping_of_update (h : db.updateBookkeeping bk = .ok db') :
    db'.selectBookkeeping = some bk := by
  obtain ⟨row, -, rfl⟩ := updateBookkeeping_eq_ok.mp h
  rfl

variable [MerkleHash H]

theorem selectBookkeeping_of_storeRoot (h : engineStoreRoot db time now hct bk = .ok db') :
    db'.selectBookkeeping = some bk := by
  simp only [engineStoreRoot, bind_eq_ok] at h
  obtain ⟨root, -, db1, -, hbk⟩ := h
  exact selectBookkeeping_of_update hbk

variable [DecidableEq H]

theorem selectBookkeeping_of_storeUpdatedPath (hbk : arg.bk = some bk)
    (h : storeUpdatedPath db epno leaf out arg now = .ok db') : db'.selectBookkeeping = some bk := by
  simp only [storeUpdatedPath, bind_eq_ok, hbk] at h
  obtain ⟨db1, -, db2, -, db3, -, hlast⟩ := h
  exact selectBookkeeping_of_update hlast

/-- An insertion writes the bookkeeping, whether it adds a leaf or finds the key. -/
theorem selectBookkeeping_of_insert (hbk : arg.bk = some bk) (h : insertKeyValueTryTx db arg now = .ok db') :
    db'.selectBookkeeping = some bk := by
  unfold insertKeyValueTryTx at h
  split at h
  · exact selectBookkeeping_of_storeUpdatedPath hbk h
  · cases h
  split at h
  · rw [hbk] at h
    exact selectBookkeeping_of_update h
  simp only [bind_eq_ok] at h
  obtain ⟨ends, -, out, -, hlast⟩ := h
  exact selectBookkeeping_of_storeUpdatedPath hbk hlast

section

omit [DecidableEq H]

theorem leaves_of_storeRoot {rootNode : PrefixedHash H}
    {hct : Option (HostchainTail H)} (h : storeRoot db epno rootNode time now hct = .ok db') :
    db'.allLeaves = db.allLeaves := by
  simp only [storeRoot, Store.insertRoot, bind_eq_ok] at h
  obtain ⟨bphash, -, -, -, roots, -, tails, -, flag, -, bk, -, hres⟩ := h
  cases hres
  rfl

theorem leaves_of_engineStoreRoot (h : engineStoreRoot db time now hct bk = .ok db') :
    db'.allLeaves = db.allLeaves := by
  simp only [engineStoreRoot, bind_eq_ok] at h
  obtain ⟨root, -, db1, hroot, hbk⟩ := h
  have hleaves := leaves_of_storeRoot hroot
  obtain ⟨row, -, rfl⟩ := updateBookkeeping_eq_ok.mp hbk
  exact hleaves

end

/-- Storing nodes changes no other table. -/
theorem storeNodes_frame (h : storeNodes db out = .ok db') :
    db'.roots = db.roots ∧ db'.hostchainTails = db.hostchainTails ∧ db'.allLeaves = db.allLeaves := by
  induction out generalizing db with
  | nil =>
    cases h
    exact ⟨rfl, rfl, rfl⟩
  | cons n out ih =>
    obtain ⟨db1, hnode, hrest⟩ := bind_eq_ok.mp h
    obtain ⟨nodes, -, hres⟩ := bind_eq_ok.mp hnode
    cases hres
    obtain ⟨hroots, htails, hleaves⟩ := ih hrest
    exact ⟨hroots, htails, hleaves⟩

omit [DecidableEq H] [MerkleHash H] in
theorem updateOptional_frame {bk : Option Bookkeeping} (h : updateOptional db bk = .ok db') :
    db'.roots = db.roots ∧ db'.allLeaves = db.allLeaves := by
  cases bk with
  | none =>
    cases h
    exact ⟨rfl, rfl⟩
  | some bk =>
    obtain ⟨row, -, rfl⟩ := updateBookkeeping_eq_ok.mp h
    exact ⟨rfl, rfl⟩

theorem leaves_of_storeUpdatedPath (h : storeUpdatedPath db epno leaf out arg now = .ok db') :
    db.allLeaves ⊆ db'.allLeaves := by
  simp only [storeUpdatedPath, Store.insertLeaf, bind_eq_ok] at h
  obtain ⟨db1, ⟨-, -, -, -, hres⟩, db2, hnodes, db3, hroot, hlast⟩ := h
  cases hres
  rw [(updateOptional_frame hlast).2, leaves_of_storeRoot hroot, (storeNodes_frame hnodes).2.2]
  exact append_subset.mpr ⟨fun _ hrow => mem_append_left _ (mem_append_left _ hrow), subset_append_right _ _⟩

/-- An insertion removes no leaf. -/
theorem leaves_of_insert (h : insertKeyValueTryTx db arg now = .ok db') : db.allLeaves ⊆ db'.allLeaves := by
  unfold insertKeyValueTryTx at h
  split at h
  · exact leaves_of_storeUpdatedPath h
  · cases h
  split at h
  · rw [(updateOptional_frame h).2]
    exact List.Subset.refl _
  simp only [bind_eq_ok] at h
  obtain ⟨ends, -, out, -, hlast⟩ := h
  exact leaves_of_storeUpdatedPath hlast

end Engine

/-! ## The invariant of the builder -/

/-- The entries of a list of leaves. -/
def pairs (leaves : List (MerkleLeaf H)) : List (MerkleTreeRFOutput × H) :=
  leaves.map fun l => (l.key, l.value)

namespace Pipeline

variable [DecidableEq H] [MerkleHash H]

/-- The builder stands at a batch that is stored, or at the next one, and within the batch. -/
structure InRange (r : RaftStore H) (bk : Bookkeeping) : Prop where
  first : 1 ≤ bk.batchNo
  last : bk.batchNo ≤ r.next
  fresh : bk.batchNo = r.next → bk.pos = -1
  lower : -1 ≤ bk.pos
  upper : ∀ batch, r.readBatch bk.batchNo = some batch → bk.pos ≤ batch.leaves.length

/-- The leaves of other hosts, whose keys the tree does not have. -/
def Apart (t : Store H) (a : History H) : Prop :=
  ∀ row ∈ t.others, row.hash = row.leaf.hash ∧ row.leaf.key ∉ a.log.map (·.key)

/-- The tree has the leaves that the builder has applied when it stands at `bk`, over the leaf that
it started with. -/
structure Built (p : Pipeline H) (a : History H) (bk : Bookkeeping) : Prop where
  numbered : Numbered p
  nonempty : ∀ b ∈ p.raft.batches, b.isEmpty = false
  refines : Refines p.tree a
  epno : 0 < a.epno
  bookkeeping : p.tree.selectBookkeeping = some bk
  inRange : InRange p.raft bk
  contents : a.log.map (fun x => (x.key, x.value)) = pairs (nilLeaf :: p.raft.applied bk)
  apart : Apart p.tree a

variable (H) in
/-- The tree and its history, and how far the builder has come. -/
structure Stage where
  tree : Store H
  hist : History H
  bk : Bookkeeping

/-- The operation of the engine that comes next when the builder stands at `bk`, and where it stands
then. -/
inductive Takes (r : RaftStore H) (bk : Bookkeeping) : Op H → Bookkeeping → Prop
  | storeRoot {batch : MerkleBatch H} {hct : HostchainTail H} (now : Time)
      (hread : r.readBatch bk.batchNo = some batch) (hpos : bk.pos = -1)
      (hleaves : batch.leaves = []) (hhct : batch.hostchain = some hct) :
      Takes r bk (.storeRoot batch.time hct { bk with pos := 0 } now) { bk with pos := 0 }
  | insert {batch : MerkleBatch H} {leaf : MerkleLeaf H} (now : Time)
    (hread : r.readBatch bk.batchNo = some batch)
      (hleaf : leafAt batch.leaves (leafPos bk) = some leaf) :
      Takes r bk (.insertKeyValue (leafArg batch bk leaf) now) { bk with pos := leafPos bk + 1 }

/-- What one transaction of the builder does. -/
inductive Moves (r : RaftStore H) : Stage H → Stage H → Prop
  | advance {x : Stage H} {batch : MerkleBatch H} {tree : Store H}
      (hread : r.readBatch x.bk.batchNo = some batch) (hend : batch.leaves.length ≤ x.bk.pos)
      (htree : x.tree.updateBookkeeping x.bk.advance = .ok tree) :
      Moves r x ⟨tree, x.hist, x.bk.advance⟩
  | op {x : Stage H} {op : Op H} {tree : Store H} {hist : History H} {bk : Bookkeeping}
      (htakes : Takes r x.bk op bk) (htree : Merkle.step x.tree op = .ok tree)
      (hhist : x.hist.step op = .ok hist) : Moves r x ⟨tree, hist, bk⟩

theorem leafPos_toNat (bk : Bookkeeping) : (leafPos bk).toNat = bk.pos.toNat := by
  unfold leafPos
  split
  · next hstart => rw [hstart]; rfl
  · rfl

theorem lt_leafPos (bk : Bookkeeping) : bk.pos < leafPos bk + 1 := by
  unfold leafPos
  split <;> omega

variable {r : RaftStore H} {bk bk' : Bookkeeping} {p : Pipeline H} {batch : MerkleBatch H} {a : History H}
  {tree : Store H} {leaves : List (MerkleLeaf H)} {now : Time} {steps : List (Step H)}

section

omit [DecidableEq H] [MerkleHash H]

theorem Takes.before {op : Op H} (h : Takes r bk op bk') : bk.Before bk' := by
  cases h with
  | storeRoot _ _ hstart =>
    refine .inr ⟨rfl, ?_⟩
    rw [hstart]
    exact (by decide : (-1 : ℤ) < 0)
  | insert => exact .inr ⟨rfl, lt_leafPos _⟩

theorem Numbered.sorted (h : Numbered p) : (p.raft.batches.map (·.batchno)).Pairwise (· < ·) := by
  rw [h.batchnos]
  exact pairwise_lt_range'

theorem Numbered.readBatch_lt (h : Numbered p) {n : ℕ} (hread : p.raft.readBatch n = some batch) :
    batch ∈ p.raft.batches ∧ n < p.raft.next := by
  have hmem : batch ∈ p.raft.batches := mem_of_find?_eq_some hread
  have hno : batch.batchno = n := by simpa using List.find?_some hread
  have hin : batch.batchno ∈ p.raft.batches.map (·.batchno) := mem_map_of_mem hmem
  rw [h.batchnos, mem_range'_1, hno] at hin
  exact ⟨hmem, by omega⟩

theorem leavesOf_eq {n : ℕ} (h : r.readBatch n = some batch) : r.leavesOf n = batch.leaves := by
  rw [leavesOf, h]
  rfl

theorem lt_of_leafAt {pos : ℤ} {leaf : MerkleLeaf H} (h : leafAt leaves pos = some leaf) :
    0 ≤ pos ∧ pos < leaves.length := by
  unfold leafAt at h
  split at h
  · next hnonneg =>
    have := (List.getElem?_eq_some_iff.mp h).1
    omega
  · cases h

/-- An operation adds its entry to the leaves that are applied. -/
theorem applied_takes {op : Op H} (htakes : Takes r bk op bk') :
    pairs (r.applied bk') = pairs (r.applied bk) ++ entries [op] := by
  cases htakes with
  | storeRoot _ hread hpos =>
    have happ : r.applied { bk with pos := 0 } = r.applied bk := by
      rw [applied, applied, hpos]
      rfl
    rw [happ]
    exact (append_nil _).symm
  | insert _ hread hleaf =>
    rw [applied_succ (leafPos_toNat bk) ((leavesOf_eq hread).symm ▸ hleaf), pairs, pairs, map_append]
    rfl

/-- A transaction on the tree is not committed, and then it is not reported, or it does what its body
does. -/
theorem onTree_transact (fate : Fate) (f : Store H → Except CoreError (Store H)) (p : Pipeline H) :
    let run := onTree (transact fate cutOff f) p
    run.2 = p ∧ run.1 ≠ .ok () ∨ ∃ t, f p.tree = .ok t ∧ run.2 = { p with tree := t } := by
  rcases hf : f p.tree with e | t
  · refine .inl ⟨?_, ?_⟩ <;> simp [onTree, Action.within, transact, hf]
  cases fate with
  | done | unsure => exact .inr ⟨t, rfl, by simp [onTree, Action.within, transact, hf]⟩
  | lost => refine .inl ⟨?_, ?_⟩ <;> simp [onTree, Action.within, transact, hf]

/-- The index of `nextLeaf` is in range, unless the batch is at its end or empty. -/
theorem leafAt_of_lt (hlower : -1 ≤ bk.pos) (hlt : bk.pos < leaves.length) (hne : bk.pos = -1 → leaves ≠ []) :
    ∃ leaf, leafAt leaves (leafPos bk) = some leaf := by
  have hidx : 0 ≤ leafPos bk ∧ leafPos bk < leaves.length := by
    unfold leafPos
    split
    · next hpos => exact ⟨le_rfl, by simpa [length_pos_iff] using hne hpos⟩
    · exact ⟨by omega, hlt⟩
  rw [leafAt, if_pos hidx.1]
  have hbound : (leafPos bk).toNat < leaves.length := by omega
  exact ⟨_, List.getElem?_eq_getElem hbound⟩

/-- It does not matter to this host what others store. -/
theorem SameTree.withOthers {t t' : Store H} (h : SameTree t t') : SameTree { t with others := t'.others } t' :=
  ⟨h.roots, h.nodes, h.leaves, rfl, h.hostchainTails, h.firstNode, h.bookkeeping⟩

theorem SameTree.bookkeeping_isSome {t t' : Store H} (h : SameTree t t') :
    t'.bookkeeping.isSome = t.bookkeeping.isSome := by
  simpa [Store.selectBookkeeping] using congrArg Option.isSome h.bookkeeping

end

variable {x y : Stage H} {t t' : Store H}

section

omit [DecidableEq H]

theorem Apart.congr (h : Apart t a) (hothers : t'.others = t.others) : Apart t' a := by
  rw [Apart, hothers]
  exact h

/-- A request that the engine accepts does not bring the key of another host. -/
theorem Apart.step {a' : History H} {op : Op H} (h : Apart t a) (hlogged : Logged a.epno a.log)
    (hothers : t'.others = t.others) (hclear : a.Clear t op) (hhist : a.step op = .ok a') : Apart t' a' := by
  have hkeys : a'.log.map (·.key) = a.log.map (·.key) ++ (entries [op]).map Prod.fst := by
    simpa [Function.comp_def] using congrArg (List.map Prod.fst) (History.log_step hhist)
  intro row hrow
  rw [hothers] at hrow
  obtain ⟨hhash, hnew⟩ := h row hrow
  refine ⟨hhash, ?_⟩
  rw [hkeys, mem_append]
  rintro (hmem | hmem)
  · exact hnew hmem
  cases op with
  | storeRoot => cases hmem
  | insertKeyValue arg now =>
    have hkey : row.leaf.key = arg.key := mem_singleton.mp hmem
    have hnone : valueAt a.log a.epno arg.key = none := by
      rw [← Option.not_isSome_iff_eq_none, isSome_valueAt hlogged, ← hkey]
      exact hnew
    exact (hclear hnone).2 (mem_map.mpr ⟨row, hrow, hkey⟩)

end

theorem Moves.before (h : Moves r x y) : x.bk.Before y.bk := by
  cases h with
  | advance => exact .inl (Nat.lt_succ_self _)
  | op htakes => exact htakes.before

/-- The next batch: all leaves of this one are in the tree. -/
theorem Built.advance (h : Built p a bk) (hread : p.raft.readBatch bk.batchNo = some batch)
    (hlen : batch.leaves.length ≤ bk.pos)
    (hrun : p.tree.updateBookkeeping bk.advance = .ok tree) :
    Built { p with tree := tree } a bk.advance := by
  obtain ⟨hmem, hlt⟩ := h.numbered.readBatch_lt hread
  obtain ⟨tree', hrun', hrefines, hothers, -⟩ :=
    h.refines.updateOptional h.epno (some bk.advance) h.refines.logged fun _ _ _ => rfl
  obtain rfl : tree' = tree := ok_unique hrun' hrun
  refine ⟨h.numbered.withTree tree', h.nonempty, hrefines, h.epno, selectBookkeeping_of_update hrun,
    ⟨Nat.le_add_left _ _, hlt, fun _ => rfl, le_rfl, ?_⟩, ?_, h.apart.congr hothers⟩
  · intro b _
    show (-1 : ℤ) ≤ b.leaves.length
    omega
  have hall : (p.raft.leavesOf bk.batchNo).take bk.pos.toNat = p.raft.leavesOf bk.batchNo := by
    rw [leavesOf_eq hread]
    exact take_of_length_le (by omega)
  have happ : p.raft.applied bk.advance = p.raft.applied bk := by
    rw [applied, applied, hall]
    show p.raft.leavesBefore (bk.batchNo + 1) ++ List.take 0 _ = _
    rw [leavesBefore_succ h.numbered.sorted, take_zero, append_nil]
  rw [h.contents, happ]

/-- An operation leaves the builder within its batch. -/
theorem Built.inRange_takes {op : Op H} (h : Built p a bk)
    (htakes : Takes p.raft bk op bk') : InRange p.raft bk' := by
  cases htakes with
  | storeRoot _ hread =>
    have hlt := (h.numbered.readBatch_lt hread).2
    exact ⟨h.inRange.first, h.inRange.last, fun heq => absurd heq hlt.ne,
      (by decide : (-1 : ℤ) ≤ 0), fun b _ => Int.natCast_nonneg b.leaves.length⟩
  | insert _ hread hleaf =>
    have hlt := (h.numbered.readBatch_lt hread).2
    obtain ⟨hnonneg, hbound⟩ := lt_of_leafAt hleaf
    refine ⟨h.inRange.first, h.inRange.last, fun heq => absurd heq hlt.ne, ?_, fun b hb => ?_⟩
    · show -1 ≤ leafPos bk + 1
      omega
    obtain rfl := Option.mem_unique hread hb
    show leafPos bk + 1 ≤ _
    omega

/-- Every transaction keeps the invariant. -/
theorem Built.move (hs : SoundHash H) (h : Built { p with tree := x.tree } x.hist x.bk)
    (hmove : Moves p.raft x y) :
    Built { p with tree := y.tree } y.hist y.bk := by
  cases hmove with
  | advance hread hend htree => exact h.advance hread hend htree
  | @op op tree hist bk htakes htree hhist =>
    have hclear := h.refines.clear_of_step h.epno htree
    have hnext := h.refines.step hs op hclear
    rw [htree, hhist] at hnext
    refine ⟨h.numbered.withTree tree, h.nonempty, hnext.refines, h.epno.trans_le (History.epno_step hhist),
      ?_, h.inRange_takes htakes, ?_, h.apart.step h.refines.logged hnext.others hclear hhist⟩
    · cases htakes with
      | storeRoot => exact selectBookkeeping_of_storeRoot htree
      | insert => exact selectBookkeeping_of_insert rfl htree
    rw [History.log_step hhist, h.contents]
    show _ :: pairs (p.raft.applied x.bk) ++ _ = _ :: pairs (p.raft.applied bk)
    rw [applied_takes htakes]
    rfl

/-- The engine answers as the history does. -/
theorem Built.op (hs : SoundHash H) (h : Built p a bk) {op : Op H}
    (htakes : Takes p.raft bk op bk') (htree : Merkle.step p.tree op = .ok tree) :
    ∃ a', Moves p.raft ⟨p.tree, a, bk⟩ ⟨tree, a', bk'⟩ := by
  have hnext := h.refines.step hs op (h.refines.clear_of_step h.epno htree)
  rw [htree] at hnext
  cases hhist : a.step op with
  | error e =>
    rw [hhist] at hnext
    exact hnext.elim
  | ok a' => exact ⟨a', .op htakes htree hhist⟩

theorem Built.nextLeaf (hs : SoundHash H) (h : Built p a bk)
    (hread : p.raft.readBatch bk.batchNo = some batch) (hne : bk.pos = -1 → batch.leaves ≠ []) (now : Time)
    (fate : Fate) :
    let run := nextLeaf batch bk now fate p
    run.2 = p ∧ run.1 ≠ .ok () ∨ ∃ y, run.2 = { p with tree := y.tree } ∧ Moves p.raft ⟨p.tree, a, bk⟩ y := by
  by_cases hlen : batch.leaves.length ≤ bk.pos
  · rw [Pipeline.nextLeaf, if_pos hlen]
    rcases onTree_transact fate (·.updateBookkeeping bk.advance) p with hfail | ⟨tree, hrun, hstate⟩
    · exact .inl hfail
    · exact .inr ⟨⟨tree, a, bk.advance⟩, hstate, .advance hread hlen hrun⟩
  obtain ⟨leaf, hleaf⟩ := leafAt_of_lt h.inRange.lower (not_le.mp hlen) hne
  rw [Pipeline.nextLeaf, if_neg hlen]
  simp only [hleaf]
  rcases onTree_transact fate (insertKeyValueTryTx · (leafArg batch bk leaf) now) p with
    hfail | ⟨tree, hrun, hstate⟩
  · exact .inl hfail
  · obtain ⟨a', hmove⟩ := h.op hs (.insert now hread hleaf) hrun
    exact .inr ⟨_, hstate, hmove⟩

/-- A batch that is stored has leaves, or it carries a tail. -/
theorem Built.exists_hostchain (h : Built p a bk) (hread : p.raft.readBatch bk.batchNo = some batch)
    (hleaves : batch.leaves = []) :
    ∃ hct, batch.hostchain = some hct := by
  have hne := h.nonempty batch (h.numbered.readBatch_lt hread).1
  rw [MerkleBatch.isEmpty, hleaves] at hne
  cases hhct : batch.hostchain with
  | none => simp [hhct] at hne
  | some hct => exact ⟨hct, rfl⟩

theorem doOneLeaf_apply (hbk : p.tree.selectBookkeeping = some bk)
    (hread : p.raft.readBatch bk.batchNo = some batch) (now : Time) (fates : LeafFates) :
    doOneLeaf now fates p = (storeHostchain batch bk now fates.storeRoot >>=
        (nextLeaf batch · now fates.last)) p := by
  simp only [doOneLeaf, bind_apply, Action.read_apply, hbk, hread]

section

omit [DecidableEq H]

theorem storeHostchain_of_leaves (hne : bk.pos = -1 → batch.leaves ≠ []) (now : Time) (fate : Fate) :
    storeHostchain batch bk now fate = pure bk := by
  unfold storeHostchain
  split
  · rfl
  · rw [if_neg fun h => hne h.1 h.2]

theorem storeHostchain_of_tail {hct : HostchainTail H} (hhct : batch.hostchain = some hct)
    (hpos : bk.pos = -1) (hleaves : batch.leaves = []) (now : Time) (fate : Fate) :
    storeHostchain batch bk now fate = (do
      onTree <| transact fate cutOff (engineStoreRoot · batch.time now hct { bk with pos := 0 })
      return { bk with pos := 0 }) := by
  simp only [storeHostchain, hhct, hpos, hleaves, and_self, if_true]

end

/-- A call fails and leaves everything as it was, or it takes the builder one or two moves
further. -/
theorem Built.doOneLeaf (hs : SoundHash H) (h : Built p a bk) (now : Time) (fates : LeafFates) :
    let run := doOneLeaf now fates p
    run.2 = p ∧ run.1 ≠ .ok () ∨ ∃ y, run.2 = { p with tree := y.tree } ∧
      Relation.TransGen (Moves p.raft) ⟨p.tree, a, bk⟩ y := by
  rcases hread : p.raft.readBatch bk.batchNo with _ | batch
  · simp [Pipeline.doOneLeaf, bind_apply, h.bookkeeping, hread]
  rw [doOneLeaf_apply h.bookkeeping hread, bind_apply]
  by_cases hhost : bk.pos = -1 ∧ batch.leaves = []
  · -- the root first, then the next batch
    obtain ⟨hpos, hleaves⟩ := hhost
    obtain ⟨hct, hhct⟩ := h.exists_hostchain hread hleaves
    rw [storeHostchain_of_tail hhct hpos hleaves, bind_apply]
    have hcases := onTree_transact fates.storeRoot (engineStoreRoot · batch.time now hct { bk with pos := 0 }) p
    rcases hres : onTree (transact fates.storeRoot cutOff
      (engineStoreRoot · batch.time now hct { bk with pos := 0 })) p with ⟨e | ⟨⟩, q⟩ <;>
      rw [hres] at hcases
    · rcases hcases with ⟨hq, -⟩ | ⟨tree, hrun, hq⟩
      · exact .inl ⟨hq, nofun⟩
      · obtain ⟨a', hmove⟩ := h.op hs (.storeRoot now hread hpos hleaves hhct) hrun
        exact .inr ⟨_, hq, .single hmove⟩
    rcases hcases with ⟨-, hok⟩ | ⟨tree, hrun, hq⟩
    · exact absurd rfl hok
    obtain ⟨a', hmove⟩ := h.op hs (.storeRoot now hread hpos hleaves hhct) hrun
    obtain rfl : q = { p with tree := tree } := hq
    have hbuilt : Built { p with tree := tree } a' { bk with pos := 0 } := h.move hs hmove
    rcases hbuilt.nextLeaf hs hread (fun hstart => nomatch hstart) now fates.last with
      ⟨hsame, -⟩ | ⟨y, hstate, hmove'⟩
    · exact .inr ⟨_, hsame, .single hmove⟩
    · exact .inr ⟨y, hstate, .tail (.single hmove) hmove'⟩
  · have hne : bk.pos = -1 → batch.leaves ≠ [] := fun hpos hleaves => hhost ⟨hpos, hleaves⟩
    rw [storeHostchain_of_leaves hne]
    rcases h.nextLeaf hs hread hne now fates.last with hfail | ⟨y, hstate, hmove⟩
    · exact .inl hfail
    · exact .inr ⟨y, hstate, .single hmove⟩

/-- What every transaction of the builder keeps, in states that meet the invariant, a call keeps. -/
theorem Built.moves (hs : SoundHash H) {I : Stage H → Prop}
    (hI : ∀ x y, Built { p with tree := x.tree } x.hist x.bk → I x → Moves p.raft x y → I y)
    (h : Built { p with tree := x.tree } x.hist x.bk) (hx : I x)
    (hmoves : Relation.TransGen (Moves p.raft) x y) :
    Built { p with tree := y.tree } y.hist y.bk ∧ I y ∧ x.bk.Before y.bk := by
  induction hmoves with
  | single hmove => exact ⟨h.move hs hmove, hI _ _ h hx hmove, hmove.before⟩
  | tail _ hmove ih =>
    obtain ⟨hbuilt, hinv, hbefore⟩ := ih
    exact ⟨hbuilt.move hs hmove, hI _ _ hbuilt hinv hmove, hbefore.trans hmove.before⟩

/-! ## All steps -/

/-- The batcher's part of the bookkeeping does not matter to the tree. -/
theorem refines_of_sameTree (h : Refines t a) (hsame : SameTree { t with others := t'.others } t') :
    Refines t' a := by
  have hext : t.Extends t' := .refl' hsame.nodes hsame.leaves
  refine ⟨⟨?_, ?_, ?_, ?_, ?_⟩, h.logged, fun h0 => ?_, fun r hr => ?_, fun r hr => ?_⟩
  · rw [hsame.roots]
    exact h.ledger.epnos
  · rw [hsame.roots]
    exact h.ledger.bodies
  · rw [hsame.firstNode]
    exact h.ledger.flag
  · rw [hsame.bookkeeping_isSome]
    exact h.ledger.bookkeeping
  · rw [Store.selectCurrentHostchainTail, hsame.hostchainTails]
    exact h.ledger.tail
  · rw [hsame.nodes, hsame.leaves]
    exact h.start h0
  · rw [hsame.roots] at hr
    obtain ⟨ph, t, hhash, hshows⟩ := h.trees r hr
    exact ⟨ph, t, hhash, hshows.mono hext fun _ => rfl⟩
  rw [hsame.roots] at hr
  obtain ⟨typ, t, hflag, hshows, harch⟩ := h.latest r hr
  exact ⟨typ, t, hsame.firstNode.trans hflag, hshows.mono hext fun _ => rfl,
    harch.congr hsame.nodes hsame.leaves⟩

theorem Built.commitBatch (h : Built p a bk) (batch : MerkleBatch H) (now : Time) (fates : CommitFates) :
    Built (commitBatch batch now fates p).2 a bk := by
  obtain ⟨hnum, hcases, -⟩ := h.numbered.commitBatch batch now fates
  rcases hcases with hkept | ⟨hne, happ⟩
  · have happlied : (Pipeline.commitBatch batch now fates p).2.raft.applied bk = p.raft.applied bk := by
      rw [applied, leavesBefore, leavesOf, readBatch, hkept.batches]
      rfl
    refine ⟨hnum, hkept.batches ▸ h.nonempty, refines_of_sameTree h.refines hkept.tree.withOthers, h.epno,
      hkept.tree.bookkeeping.trans h.bookkeeping, ?_, happlied ▸ h.contents, h.apart.congr hkept.tree.others⟩
    have hrange := h.inRange
    refine ⟨hrange.first, hkept.next ▸ hrange.last, hkept.next ▸ hrange.fresh, hrange.lower, ?_⟩
    rw [readBatch, hkept.batches]
    exact hrange.upper
  have hrange := h.inRange
  have happlied : (Pipeline.commitBatch batch now fates p).2.raft.applied bk = p.raft.applied bk :=
    applied_append happ.batches (happ.batchno.symm ▸ hrange.last) (happ.batchno.symm ▸ hrange.fresh)
  refine ⟨hnum, ?_, refines_of_sameTree h.refines happ.tree.withOthers, h.epno,
    happ.tree.bookkeeping.trans h.bookkeeping, ?_, happlied ▸ h.contents, h.apart.congr happ.tree.others⟩
  · intro b hb
    rw [happ.batches, mem_append, mem_singleton] at hb
    rcases hb with hb | rfl
    · exact h.nonempty b hb
    · exact hne
  have hlast := hrange.last
  refine ⟨hrange.first, ?_, fun heq => ?_, hrange.lower, fun b hb => ?_⟩
  · rw [happ.next]
    omega
  · rw [happ.next] at heq
    omega
  rw [readBatch, happ.batches, List.find?_append, Option.or_eq_some_iff] at hb
  rcases hb with hb | ⟨-, hb⟩
  · exact hrange.upper b hb
  -- the builder waits for the batch that is new
  have hno : (p.numbered batch now).batchno = bk.batchNo := by
    by_contra hne
    simp [hne] at hb
  rw [hrange.fresh (hno.symm.trans happ.batchno)]
  omega

/-- Other hosts leave this one as it is, and the keys of the tree to it. -/
theorem Built.otherHost (h : Built p a bk) (leaf : MerkleLeaf H) (epno : MerkleEpno) :
    Built (p.step (.otherHost leaf epno)) a bk := by
  rcases p.tree.insertOther_cases ⟨leaf.hash, leaf, epno⟩ with hsame | ⟨hkey, hadd⟩
  · rw [Pipeline.step, hsame]
    exact h
  rw [Pipeline.step, hadd]
  refine ⟨h.numbered.withTree _, h.nonempty, refines_of_sameTree h.refines (.refl _), h.epno,
    h.bookkeeping, h.inRange,
    h.contents, fun row hrow => ?_⟩
  rcases mem_append.mp hrow with hrow | hrow
  · exact h.apart row hrow
  obtain rfl := mem_singleton.mp hrow
  refine ⟨rfl, fun hmem => hkey ?_⟩
  -- a key that was inserted leads to a leaf of this host
  obtain ⟨body, ph, t, path, found, -, -, -, hshows, -, htrace⟩ := h.refines.lookup_latest h.epno leaf.key
  obtain ⟨v, hv⟩ := Option.isSome_iff_exists.mp ((isSome_valueAt h.refines.logged).mpr hmem)
  exact htrace.mem_leaves hshows.wf ⟨v, (hshows.mem_iff _ _).mpr hv⟩

theorem initTree_eq (now : Time) : initTree ({} : Store H) now
      = insertKeyValueTryTx {} ⟨(nilLeaf (H := H)).key, nilLeaf.value, none, now, none⟩ now := by
  have htime : (if now = 0 then now else now) = now := ite_self now
  simp only [insertKeyValueTryTx, storeUpdatedPath, storeRoot, htime]
  rfl

/-- The tree of a new host has one leaf, and the builder waits for the first batch. -/
theorem start_built (h : start now = .ok p) :
    Built p ⟨1, [⟨1, (nilLeaf (H := H)).key, nilLeaf.value⟩], none⟩ ⟨1, -1⟩ := by
  obtain ⟨tree, htree, hp⟩ := bind_eq_ok.mp h
  cases hp
  have hbk : tree.selectBookkeeping = some ⟨1, -1⟩ := by
    have hinit : (initTree ({} : Store H) now).map Store.selectBookkeeping = .ok (some ⟨1, -1⟩) := rfl
    rw [htree] at hinit
    exact ok.inj hinit
  have hnext := Refines.insert_first (H := H) .empty rfl ⟨(nilLeaf (H := H)).key, nilLeaf.value,
    none, now, none⟩ now
    ⟨not_mem_nil, not_mem_nil⟩
  rw [← initTree_eq, htree] at hnext
  have hnone : ∀ b ∈ ([] : List (MerkleBatch H)), b.isEmpty = false := nofun
  refine ⟨.start tree, hnone, hnext.refines, one_pos, hbk,
    ⟨le_rfl, le_rfl, fun _ => rfl, le_rfl, nofun⟩, rfl, ?_⟩
  intro row hrow
  rw [hnext.others] at hrow
  exact absurd hrow not_mem_nil

/-- What every step keeps holds after every run. -/
theorem run_invariant {P : Pipeline H → Prop} (hstart : ∀ p, start now = .ok p → P p)
    (hstep : ∀ p st, P p → P (p.step st)) (hrun : run now steps = .ok p) : P p := by
  obtain ⟨p0, hp0, hp⟩ := bind_eq_ok.mp hrun
  cases hp
  exact List.foldlRecOn steps Pipeline.step (hstart p0 hp0) fun p hp st _ => hstep p st hp

section Steps

-- an invariant of the stages that every transaction of the builder and every new batch keep
variable {I : RaftStore H → Stage H → Prop} (hs : SoundHash H)
  (hmove : ∀ (p : Pipeline H) x y, Built { p with tree := x.tree } x.hist x.bk → I p.raft x →
    Moves p.raft x y → I p.raft y)
  (hcommit : ∀ {p p' : Pipeline H} {a : History H} {bk : Bookkeeping}, Built p a bk →
    I p.raft ⟨p.tree, a, bk⟩ → (Kept p p' ∨ ∃ b, Appended b p p') → I p'.raft ⟨p'.tree, a, bk⟩)
  (hother : ∀ {r : RaftStore H} {x : Stage H} others, I r x → I r { x with tree := { x.tree with others } })

include hs hmove hcommit hother

/-- Every step keeps both invariants. -/
theorem Built.step (h : Built p a bk) (hI : I p.raft ⟨p.tree, a, bk⟩) (st : Step H) :
    ∃ a' bk', Built (p.step st) a' bk' ∧ I (p.step st).raft ⟨(p.step st).tree, a', bk'⟩ := by
  cases st with
  | commitBatch batch now fates =>
    obtain ⟨-, hcases, -⟩ := h.numbered.commitBatch batch now fates
    exact ⟨a, bk, h.commitBatch batch now fates, hcommit h hI (hcases.imp_right fun happ => ⟨_, happ.2⟩)⟩
  | doOneLeaf now fates =>
    rw [Pipeline.step]
    rcases h.doOneLeaf hs now fates with ⟨hsame, -⟩ | ⟨y, hstate, hmoves⟩
    · rw [hsame]
      exact ⟨a, bk, h, hI⟩
    obtain ⟨hbuilt, hinv, -⟩ := Built.moves hs (hmove p) h hI hmoves
    rw [hstate]
    exact ⟨y.hist, y.bk, hbuilt, hinv⟩
  | restart =>
    exact ⟨a, bk, ⟨h.numbered.forget, h.nonempty, h.refines, h.epno, h.bookkeeping, h.inRange,
      h.contents, h.apart⟩,
      hI⟩
  | otherHost leaf epno =>
    refine ⟨a, bk, h.otherHost leaf epno, ?_⟩
    rw [Pipeline.step]
    rcases p.tree.insertOther_cases ⟨leaf.hash, leaf, epno⟩ with hsame | ⟨-, hadd⟩
    · rw [hsame]
      exact hI
    · rw [hadd]
      exact hother _ hI

/-- The same for every run. -/
theorem run_built (hstart : ∀ p : Pipeline H, start now = .ok p → ∃ a bk, Built p a bk ∧
    I p.raft ⟨p.tree, a, bk⟩)
    (hrun : run now steps = .ok p) :
    ∃ a bk, Built p a bk ∧ I p.raft ⟨p.tree, a, bk⟩ := by
  refine run_invariant (P := fun p => ∃ a bk, Built p a bk ∧ I p.raft ⟨p.tree, a, bk⟩) hstart ?_ hrun
  rintro p st ⟨a, bk, h, hI⟩
  exact Built.step hs hmove hcommit hother h hI st

end Steps

/-! ## The numbers of the batches -/

/-- The builder changes the tree only: it keeps the row of the bookkeeping, and the leaves. -/
structure TreeOnly (p p' : Pipeline H) : Prop where
  memo : p'.memo = p.memo
  raft : p'.raft = p.raft
  bookkeeping : p.tree.bookkeeping.isSome → p'.tree.bookkeeping.isSome
  leaves : p.tree.allLeaves ⊆ p'.tree.allLeaves

instance : Std.Refl (TreeOnly (H := H)) := ⟨fun _ => ⟨rfl, rfl, id, List.Subset.refl _⟩⟩

instance : IsTrans (Pipeline H) TreeOnly :=
  ⟨fun _ _ _ h h' => ⟨h'.memo.trans h.memo, h'.raft.trans h.raft, h'.bookkeeping ∘ h.bookkeeping,
    List.Subset.trans h.leaves h'.leaves⟩⟩

omit [DecidableEq H] [MerkleHash H] in
/-- A transaction that leaves a row. -/
theorem treeOnly_onTree {fate : Fate} {f : Store H → Except CoreError (Store H)}
    (hf : ∀ t t', f t = .ok t' → (∃ bk, t'.selectBookkeeping = some bk) ∧ t.allLeaves ⊆ t'.allLeaves) :
    Action.Follows TreeOnly (onTree (transact fate cutOff f)) := by
  refine .within_transact (fun _ => rfl) fun p t ht => ?_
  obtain ⟨⟨bk, hbk⟩, hleaves⟩ := hf p.tree t ht
  refine ⟨rfl, rfl, fun _ => ?_, hleaves⟩
  have hsome := congrArg Option.isSome hbk
  rwa [Store.selectBookkeeping, Option.isSome_map] at hsome

theorem treeOnly_doOneLeaf (now : Time) (fates : LeafFates) :
    Action.Follows TreeOnly (doOneLeaf (H := H) now fates) := by
  refine .bind (.read _) fun row => ?_
  split
  · exact .fail _
  · next nxt =>
    refine .bind (.read _) fun found => ?_
    split
    · exact .fail _
    · next batch =>
      refine .bind ?_ fun nxt => ?_
      · unfold storeHostchain
        split
        · exact .pure _
        split
        · refine .bind (treeOnly_onTree fun _ _ h => ?_) fun _ => .pure _
          refine ⟨⟨_, selectBookkeeping_of_storeRoot h⟩, ?_⟩
          rw [leaves_of_engineStoreRoot h]
          exact List.Subset.refl _
        · exact .pure _
      unfold nextLeaf
      split
      · refine treeOnly_onTree fun _ _ h => ⟨⟨_, selectBookkeeping_of_update h⟩, ?_⟩
        obtain ⟨row, -, rfl⟩ := updateBookkeeping_eq_ok.mp h
        exact List.Subset.refl _
      split
      · exact .fail _
      · exact treeOnly_onTree fun _ _ h =>
          ⟨⟨_, selectBookkeeping_of_insert rfl h⟩, leaves_of_insert h⟩

/-- The invariant of the numbers: the tree of the host has its row. -/
structure Ready (p : Pipeline H) : Prop where
  numbered : Numbered p
  row : p.tree.bookkeeping.isSome

theorem Ready.step (h : Ready p) (st : Step H) :
    Ready (p.step st) ∧ p.raft.batches <+: (p.step st).raft.batches := by
  cases st with
  | commitBatch batch now fates =>
    obtain ⟨hnum, hcases, -⟩ := h.numbered.commitBatch batch now fates
    rcases hcases with hkept | ⟨-, happ⟩
    · exact ⟨⟨hnum, hkept.tree.bookkeeping_isSome.trans h.row⟩, hkept.batches ▸ prefix_rfl⟩
    · exact ⟨⟨hnum, happ.tree.bookkeeping_isSome.trans h.row⟩, happ.batches ▸ prefix_append _ _⟩
  | doOneLeaf now fates =>
    have hrun := treeOnly_doOneLeaf now fates p
    refine ⟨⟨⟨?_, ?_, ?_⟩, hrun.bookkeeping h.row⟩, hrun.raft ▸ prefix_rfl⟩
    · rw [Pipeline.step, hrun.raft]
      exact h.numbered.batchnos
    · rw [Pipeline.step, hrun.raft]
      exact h.numbered.pos
    · rw [Pipeline.step, hrun.raft, hrun.memo]
      exact h.numbered.memo
  | restart => exact ⟨⟨h.numbered.forget, h.row⟩, prefix_rfl⟩
  | otherHost leaf epno =>
    refine ⟨⟨h.numbered.withTree _, ?_⟩, prefix_rfl⟩
    rw [Pipeline.step]
    rcases p.tree.insertOther_cases ⟨leaf.hash, leaf, epno⟩ with hsame | ⟨-, hadd⟩
    · rw [hsame]
      exact h.row
    · rw [hadd]
      exact h.row

theorem start_ready (h : start now = .ok p) : Ready p := by
  have hbuilt := start_built h
  refine ⟨hbuilt.numbered, ?_⟩
  have hrow := congrArg Option.isSome hbuilt.bookkeeping
  rwa [Store.selectBookkeeping, Option.isSome_map] at hrow

theorem run_ready (hrun : run now steps = .ok p) : Ready p :=
  run_invariant (fun _ => start_ready) (fun _ st h => (h.step st).1) hrun

/-- **The numbers of the batches.** After every run of the two servers, with any fates of their
transactions: the stored batches are numbered from one to the number before the next one; no step
changes or removes a stored batch; and a call whose transactions are all reported stores its batch
under the next number. -/
theorem numbered_without_gap {now : Time} {steps : List (Step H)} {p : Pipeline H}
    (hrun : run now steps = .ok p) :
    0 < p.raft.next ∧ p.raft.batches.map (·.batchno) = List.range' 1 (p.raft.next - 1) ∧
    (∀ st, p.raft.batches <+: (p.step st).raft.batches) ∧
    ∀ batch now', batch.isEmpty = false →
      (commitBatch batch now' {} p).1 = .ok () ∧
      (commitBatch batch now' {} p).2.raft.batches
        = p.raft.batches ++ [{ batch with batchno := p.raft.next, time := now' }] := by
  have h : Ready p := run_ready hrun
  refine ⟨h.numbered.pos, h.numbered.batchnos, fun st => (h.step st).2, fun batch now' hne => ?_⟩
  obtain ⟨-, -, hok, hdone⟩ := h.numbered.commitBatch batch now' {}
  have hres := hdone h.row rfl
  exact ⟨hres, (hok hres hne).batches⟩

/-- A batch with one leaf. -/
def oneLeaf (key : MerkleTreeRFOutput) : MerkleBatch SymHash := ⟨0, 0, [⟨key, .atom 1⟩], none⟩

/-- The first batch is stored without a report, so the next one is numbered from the store. The third
one is lost. -/
def unsureSteps : List (Step SymHash) :=
  [.commitBatch (oneLeaf twoKeys.2) 5 { raft := .unsure }, .commitBatch (oneLeaf twoKeys.2) 6 {},
    .commitBatch (oneLeaf twoKeys.1) 7 { raft := .lost },
    .doOneLeaf 8 { last := .unsure }, .restart]

theorem numbered_without_gap_unsure :
    ∃ p, run 1 unsureSteps = .ok p ∧ p.raft.batches.map (·.batchno) = [1, 2] ∧
      (commitBatch (oneLeaf twoKeys.1) 9 {} p).1 = .ok () := by
  rcases hrun : run 1 unsureSteps with e | p
  · have hok : (run 1 unsureSteps).isOk := by decide +kernel
    rw [hrun] at hok
    cases hok
  obtain ⟨-, hnos, -, hcommit⟩ := numbered_without_gap hrun
  have hnext : (run 1 unsureSteps).map (·.raft.next) = .ok 3 := by decide +kernel
  rw [hrun] at hnext
  have hnext : p.raft.next = 3 := ok.inj hnext
  rw [hnext] at hnos
  exact ⟨p, rfl, hnos, (hcommit (oneLeaf twoKeys.1) 9 rfl).1⟩

end Pipeline

end Foks.Server
