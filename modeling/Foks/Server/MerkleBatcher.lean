import Foks.Lib.Transact
import Foks.Merkle.Engine

/-!
# Committing batches

`MerkleBatcherServer.commitBatch` (`server/engine/merkle_batcher.go`) numbers a batch of leaves and
stores it for the builder. The next number is kept in three places: in the memory of the server, in
the store of batches next to them, and in the bookkeeping of the tree, which is another database. A
transaction may be committed although the server is told that it failed, so the server forgets the
number that it remembers whenever a call fails.

One host is modelled, since no entry of the server's map is shared between hosts, and no row but those
of the nodes and leaves of the trees.
-/

namespace Foks.Server

open Lib Merkle Action List

section Types

variable (H : Type)

structure MerkleBatch where
  batchno : ℕ
  time : Time
  leaves : List (MerkleLeaf H)
  hostchain : Option (HostchainTail H)
  deriving DecidableEq

/-- The rows of `raft_kv_store` for one host: the state at `BatchStateKey`, which is the next number,
and the batches at their keys `BatchKey`. -/
structure RaftStore where
  state : Option ℕ := none
  batches : List (MerkleBatch H) := []
  deriving DecidableEq

/-- The two servers and their databases, for one host. -/
structure Pipeline where
  -- `Next` in the entry of the host in `MerkleBatcherServer.vhosts`
  memo : Option ℕ := none
  raft : RaftStore H := {}
  tree : Store H
  deriving DecidableEq

end Types

variable {H : Type}

def MerkleBatch.isEmpty (batch : MerkleBatch H) : Bool :=
  batch.hostchain.isNone && batch.leaves.isEmpty

/-- What becomes of the transactions of `commitBatch`, and whether the last of them gets a
connection. -/
structure CommitFates where
  init : Fate := .done
  connects : Bool := true
  bookkeeping : Fate := .done
  raft : Fate := .done
  deriving DecidableEq

/-- The error of a connection that is cut off. -/
def cutOff : CoreError := .errorsNew "connection lost"

namespace RaftStore

variable (r : RaftStore H)

def writeBatchState (next : ℕ) : RaftStore H := { r with state := some next }

/-- The `INSERT` of a batch at its key. -/
def insertBatch (batch : MerkleBatch H) : Except CoreError (RaftStore H) := do
  let batches ← insertRow (·.batchno) (.uniqueViolation "raft_kv_store_pkey") batch r.batches
  return { r with batches }

/-- `readBatch` of the builder. -/
def readBatch (batchNo : ℕ) : Option (MerkleBatch H) :=
  r.batches.find? (·.batchno = batchNo)

/-- The number of the next batch. -/
def next : ℕ := r.state.getD 1

end RaftStore

namespace Pipeline

def onRaft {α : Type} (x : Action (RaftStore H) CoreError α) : Action (Pipeline H) CoreError α :=
  .within raft (fun r p => { p with raft := r }) x

def onTree {α : Type} (x : Action (Store H) CoreError α) : Action (Pipeline H) CoreError α :=
  .within tree (fun t p => { p with tree := t }) x

variable (fate : Fate)

/-- `initBatcherState`: the state that is stored, or a new one. -/
def initBatcherState : Action (Pipeline H) CoreError Unit := do
  onRaft <| transact fate cutOff fun r =>
    match r.state with
    | some _ => .ok r
    | none => .ok (r.writeBatchState 1)
  .update fun p => { p with memo := p.raft.state }

def initVhostState : Action (Pipeline H) CoreError ℕ := do
  match ← Action.read Pipeline.memo with
  | some next => return next
  | none =>
    initBatcherState fate
    match ← Action.read Pipeline.memo with
    | some next => return next
    | none => .fail nilPointer

variable (batch : MerkleBatch H)

/-- The part of `commitBatch` after its transaction has begun. The bookkeeping of the tree is another
database, and it is written first. -/
def storeBatch (fates : CommitFates) : Action (Pipeline H) CoreError Unit := do
  let next := batch.batchno + 1
  onTree <| transact fates.bookkeeping cutOff (·.updateBookkeepingForBatcher next)
  onRaft <| transact fates.raft cutOff fun r => do
    let r ← r.insertBatch batch
    return r.writeBatchState next
  .update fun p => { p with memo := some next }

/-- The deferred function of `commitBatch`, which drops the memory of the host. -/
def dropMemo (p : Pipeline H) : Pipeline H := { p with memo := none }

/-- `commitBatch`; `now` is the clock. -/
def commitBatch (now : Time) (fates : CommitFates) : Action (Pipeline H) CoreError Unit := do
  let next ← initVhostState fates.init
  if batch.isEmpty then return ()
  .refuse (!fates.connects) cutOff
  .onError dropMemo <| storeBatch { batch with time := now, batchno := next } fates

/-! ## What a call does -/

/-- The batches are numbered from one without a gap, and the server remembers the next number if it
remembers one. -/
structure Numbered (p : Pipeline H) : Prop where
  batchnos : p.raft.batches.map (·.batchno) = range' 1 (p.raft.next - 1)
  pos : 0 < p.raft.next
  memo : ∀ n, p.memo = some n → p.raft.state = some n

/-- Trees that differ in the batcher's part of the bookkeeping at most. -/
structure SameTree (t t' : Store H) : Prop where
  roots : t'.roots = t.roots
  nodes : t'.nodes = t.nodes
  leaves : t'.leaves = t.leaves
  others : t'.others = t.others
  hostchainTails : t'.hostchainTails = t.hostchainTails
  firstNode : t'.firstNode = t.firstNode
  bookkeeping : t'.selectBookkeeping = t.selectBookkeeping

/-- Nothing is stored. -/
structure Kept (p p' : Pipeline H) : Prop where
  tree : SameTree p.tree p'.tree
  batches : p'.raft.batches = p.raft.batches
  next : p'.raft.next = p.raft.next

/-- The batch is stored under the next number. -/
structure Appended (b : MerkleBatch H) (p p' : Pipeline H) : Prop where
  tree : SameTree p.tree p'.tree
  batchno : b.batchno = p.raft.next
  batches : p'.raft.batches = p.raft.batches ++ [b]
  next : p'.raft.next = p.raft.next + 1

theorem SameTree.refl (t : Store H) : SameTree t t := ⟨rfl, rfl, rfl, rfl, rfl, rfl, rfl⟩

theorem Numbered.start (tree : Store H) : Numbered ({ tree := tree } : Pipeline H) where
  batchnos := rfl
  pos := one_pos
  memo _ h := nomatch h

variable {p : Pipeline H} {t : Store H} {b : MerkleBatch H}

/-- Forgetting the number is safe. -/
theorem Numbered.forget (h : Numbered p) : Numbered { p with memo := none } :=
  ⟨h.batchnos, h.pos, fun _ h => nomatch h⟩

theorem Numbered.withTree (h : Numbered p) (tree : Store H) : Numbered { p with tree := tree } :=
  ⟨h.batchnos, h.pos, h.memo⟩

/-- The number of the next batch is not taken. -/
theorem Numbered.fresh (h : Numbered p) : p.raft.next ∉ p.raft.batches.map (·.batchno) := by
  rw [h.batchnos, List.mem_range'_1]
  omega

/-- The server learns the next number, and changes nothing but the state that it may have to
create. -/
structure Learns (fate : Fate) (p : Pipeline H) (res : Except CoreError ℕ) (p' : Pipeline H) : Prop where
  numbered : Numbered p'
  tree : p'.tree = p.tree
  batches : p'.raft.batches = p.raft.batches
  next : p'.raft.next = p.raft.next
  ok : ∀ n, res = .ok n → n = p.raft.next ∧ p'.raft.state = some n
  done : fate = .done → res = .ok p.raft.next

/-- The number is stored, and kept in memory. -/
theorem Numbered.learns (h : Numbered p) (fate : Fate) : Learns fate p (.ok p.raft.next)
    ⟨some p.raft.next, { p.raft with state := some p.raft.next }, p.tree⟩ := by
  refine ⟨⟨h.batchnos, h.pos, fun _ hn => hn⟩, rfl, rfl, rfl, fun n hn => ?_, fun _ => rfl⟩
  cases hn
  exact ⟨rfl, rfl⟩

theorem Numbered.initVhostState (h : Numbered p) (fate : Fate) :
    Learns fate p (initVhostState fate p).1 (initVhostState fate p).2 := by
  obtain ⟨memo, ⟨state, batches⟩, tree⟩ := p
  cases memo with
  | some n =>
    -- the number in memory
    obtain rfl : state = some n := h.memo n rfl
    exact h.learns fate
  | none =>
    cases state with
    | some n =>
      -- the number that is stored
      cases fate with
      | done => exact h.learns .done
      | unsure | lost => exact ⟨h, rfl, rfl, rfl, nofun, nofun⟩
    | none =>
      -- the first number, which is stored now
      cases fate with
      | done => exact h.learns .done
      | unsure => exact ⟨(h.learns .unsure).numbered.forget, rfl, rfl, rfl, nofun, nofun⟩
      | lost => exact ⟨h, rfl, rfl, rfl, nofun, nofun⟩

/-- The batcher writes its own part of the bookkeeping only. -/
theorem sameTree_of_updateBookkeepingForBatcher {t' : Store H} {n : ℕ}
    (h : t.updateBookkeepingForBatcher n = .ok t') : SameTree t t' := by
  unfold Store.updateBookkeepingForBatcher at h
  rcases hrow : t.bookkeeping with _ | row
  · simp [hrow] at h
  simp only [hrow, Except.ok.injEq] at h
  obtain rfl := h
  refine ⟨rfl, rfl, rfl, rfl, rfl, rfl, ?_⟩
  simp [Store.selectBookkeeping, hrow]

theorem SameTree.of_transact (t : Store H) (n : ℕ) :
    SameTree t (transact fate cutOff (·.updateBookkeepingForBatcher n) t).2 := by
  rcases transact_cases fate cutOff (·.updateBookkeepingForBatcher n) t with h | h
  · rw [h]
    exact .refl t
  · exact sameTree_of_updateBookkeepingForBatcher h

theorem insertBatch_eq_ok {r : RaftStore H} {batch : MerkleBatch H}
    (h : batch.batchno ∉ r.batches.map (·.batchno)) :
    r.insertBatch batch = .ok { r with batches := r.batches ++ [batch] } := by
  have hins : insertRow (·.batchno) (CoreError.uniqueViolation "raft_kv_store_pkey") batch r.batches
      = .ok (r.batches ++ [batch]) := insertRow_eq_ok.mpr ⟨h, rfl⟩
  rw [RaftStore.insertBatch, hins]
  rfl

theorem Appended.numbered {p' : Pipeline H} (h : Appended b p p')
    (hp : Numbered p) (hmemo : ∀ n, p'.memo = some n → p'.raft.state = some n) : Numbered p' := by
  refine ⟨?_, ?_, hmemo⟩
  · obtain ⟨n, hn⟩ := Nat.exists_eq_succ_of_ne_zero hp.pos.ne'
    rw [h.batches, List.map_append, hp.batchnos, h.next, Nat.add_sub_cancel, List.map_singleton,
      h.batchno, hn, Nat.succ_sub_one, range'_1_concat, add_comm 1 n]
  · rw [h.next]
    exact Nat.succ_pos _

/-- The bookkeeping is written, so the rest depends on the fate of the other transaction. -/
theorem storeBatch_of_ok (p : Pipeline H) (b : MerkleBatch H) (fates : CommitFates)
    (htree : transact fates.bookkeeping cutOff (·.updateBookkeepingForBatcher (b.batchno + 1)) p.tree
      = (.ok (), t)) (hfresh : b.batchno ∉ p.raft.batches.map (·.batchno)) :
    storeBatch b fates p =
      let r : RaftStore H := ⟨some (b.batchno + 1), p.raft.batches ++ [b]⟩
      match fates.raft with
      | .done => (.ok (), ⟨some (b.batchno + 1), r, t⟩)
      | .unsure => (.error cutOff, ⟨p.memo, r, t⟩)
      | .lost => (.error cutOff, { p with tree := t }) := by
  have hbody : (p.raft.insertBatch b >>= fun r => pure (r.writeBatchState (b.batchno + 1)))
      = .ok ⟨some (b.batchno + 1), p.raft.batches ++ [b]⟩ := by
    rw [insertBatch_eq_ok hfresh]
    rfl
  rw [storeBatch, bind_apply, onTree, within_eq htree]
  simp only [onRaft, bind_apply, Action.within, transact, hbody]
  cases fates.raft <;> rfl

theorem Numbered.storeBatch (h : Numbered p) (hb : b.batchno = p.raft.next) (fates : CommitFates) :
    let run := Action.onError dropMemo (storeBatch b fates) p
    Numbered run.2 ∧ (Kept p run.2 ∨ Appended b p run.2) ∧ (run.1 = .ok () → Appended b p run.2) ∧
      (p.tree.bookkeeping.isSome → fates.bookkeeping = .done → fates.raft = .done → run.1 = .ok ()) := by
  have hsame := SameTree.of_transact fates.bookkeeping p.tree (b.batchno + 1)
  rcases htree : transact fates.bookkeeping cutOff (·.updateBookkeepingForBatcher (b.batchno + 1))
    p.tree with ⟨e | ⟨⟩, t⟩ <;> rw [htree] at hsame
  · simp only [Action.onError, Pipeline.storeBatch, bind_apply, onTree, within_eq htree]
    refine ⟨⟨h.batchnos, h.pos, nofun⟩, .inl ⟨hsame, rfl, rfl⟩, nofun, fun hrow hdone => ?_⟩
    obtain ⟨row, hrow⟩ := Option.isSome_iff_exists.mp hrow
    rw [hdone, transact_done, Store.updateBookkeepingForBatcher, hrow] at htree
    cases htree
  have happ : ∀ memo, Appended b p ⟨memo, ⟨some (b.batchno + 1), p.raft.batches ++ [b]⟩, t⟩ :=
    fun _ => ⟨hsame, hb, rfl, congrArg Nat.succ hb⟩
  simp only [Action.onError, storeBatch_of_ok p b fates htree (hb ▸ h.fresh)]
  cases fates.raft with
  | done =>
    exact ⟨(happ _).numbered h fun _ hn => hn, .inr (happ _), fun _ => happ _, fun _ _ _ => rfl⟩
  | unsure => exact ⟨(happ _).numbered h nofun, .inr (happ _), nofun, fun _ _ => nofun⟩
  | lost => exact ⟨⟨h.batchnos, h.pos, nofun⟩, .inl ⟨hsame, rfl, rfl⟩, nofun, fun _ _ => nofun⟩

/-- The batch as a call stores it. -/
def numbered (p : Pipeline H) (batch : MerkleBatch H) (now : Time) : MerkleBatch H :=
  { batch with time := now, batchno := p.raft.next }

/-- Whatever becomes of its transactions, a call keeps the numbering, and stores the batch under the
next number or nothing. -/
theorem Numbered.commitBatch (h : Numbered p) (batch : MerkleBatch H) (now : Time) (fates : CommitFates) :
    let run := commitBatch batch now fates p
    Numbered run.2 ∧ (Kept p run.2 ∨ batch.isEmpty = false ∧ Appended (p.numbered batch now) p run.2) ∧
      (run.1 = .ok () → batch.isEmpty = false → Appended (p.numbered batch now) p run.2) ∧
      (p.tree.bookkeeping.isSome → fates = {} → run.1 = .ok ()) := by
  have hlearn := h.initVhostState fates.init
  have hkept : Kept p (Pipeline.initVhostState fates.init p).2 :=
    ⟨hlearn.tree ▸ .refl p.tree, hlearn.batches, hlearn.next⟩
  rcases hinit : Pipeline.initVhostState fates.init p with ⟨e | n, q⟩ <;>
    rw [hinit] at hlearn hkept <;>
    simp only [Pipeline.commitBatch, bind_apply, hinit]
  · refine ⟨hlearn.numbered, .inl hkept, nofun, fun _ hfates => ?_⟩
    rw [hfates] at hlearn
    cases hlearn.done rfl
  obtain ⟨rfl, hstate⟩ := hlearn.ok n rfl
  cases hempty : batch.isEmpty with
  | true => exact ⟨hlearn.numbered, .inl hkept, fun _ => nofun, fun _ _ => rfl⟩
  | false =>
    obtain ⟨hnum, hcases, hok, hdone⟩ :=
      hlearn.numbered.storeBatch (b := p.numbered batch now) hlearn.next.symm fates
    have happ : ∀ {p'}, Appended (p.numbered batch now) q p' → Appended (p.numbered batch now) p p' := fun ha =>
      ⟨hlearn.tree ▸ ha.tree, rfl, hlearn.batches ▸ ha.batches, hlearn.next ▸ ha.next⟩
    have hkept' : ∀ {p'}, Kept q p' → Kept p p' := fun hk =>
      ⟨hlearn.tree ▸ hk.tree, hk.batches.trans hlearn.batches, hk.next.trans hlearn.next⟩
    cases hconn : fates.connects with
    | false =>
      refine ⟨hlearn.numbered, .inl hkept, nofun, fun _ hfates => ?_⟩
      rw [hfates] at hconn
      cases hconn
    | true =>
      refine ⟨hnum, ?_, fun hres _ => happ (hok hres), fun hrow hfates => ?_⟩
      · exact hcases.imp hkept' fun ha => ⟨rfl, happ ha⟩
      · exact hdone (hlearn.tree ▸ hrow) (by rw [hfates]) (by rw [hfates])

end Pipeline

end Foks.Server
