import Mathlib.Data.String.Basic
import Foks.KvClient.Paths
import Foks.Lib.Map
import Foks.Lib.Threads

/-!
# The outbox of the KV client

A write that fails because the server cannot be reached is queued in the local database of the client
(`client/libkv/outbox.go`): a row for each write, sealed, and an index that lists them, since the database
cannot. A drain sends what is queued: it takes a snapshot of the queued rows and runs them one after the
other, those of one directory in their order, and removes, parks or keeps each of them according to its
outcome. Operations that have reached the server start a drain, unless a hint says that nothing is queued.

The rows and the index are read and written under a lock, but the lock is not held while a drain talks to
the server; instead a flag says that a drain is under way.

What a queued write does when it is sent is the question `drainOne` here, with any outcome.

## Main definitions

* `OutboxDb`: the rows and the index
* `Ask`, `Shared`, `answers`: the steps of a thread, and what each of them does
* `enqueueOutbox`, `listOutbox`, `maybeDrainOutbox`, `drainOutbox`: the operations
* `crash`: what is left when the process ends
-/

namespace Foks.KvClient

open Lib KvStore Prog

/-! ## The local database -/

inductive KVOutboxOp where
  | putSmallFile
  | putSymlink
  | unlink
  | mkdir
  deriving DecidableEq

inductive KVOutboxState where
  | queued
  | conflicted
  | failed
  deriving DecidableEq

/-- `proto.StatusCode`: an error that is stored with a row; no error is zero. -/
abbrev StatusCode := ℕ

/-- `lcl.KVOutboxPayload`: the write, as it is sent later. `DirentVers` is the version of the entry that
the write replaces, or zero if there was none. -/
structure KVOutboxPayload where
  op : KVOutboxOp
  path : KVPath
  nid : KVNodeID
  sfb : Ciphertext
  readRole : Role
  writeRole : Role
  direntVers : KVVersion
  overwriteOk : Bool
  dir : Option KVDir
  deriving DecidableEq

/-- `lcl.KVOutboxEntry`; the box is what was sealed in it. -/
structure KVOutboxEntry where
  state : KVOutboxState
  rg : RoleAndGen
  box : KVOutboxPayload
  attempts : ℕ := 0
  lastErrCode : StatusCode := 0
  ord : ℕ
  deriving DecidableEq

structure KVOutboxIndexEntry where
  ord : ℕ
  eid : KVNodeID
  state : KVOutboxState
  deriving DecidableEq

structure KVOutboxIndex where
  entries : List KVOutboxIndexEntry := []
  nextOrd : ℕ := 0
  deriving DecidableEq

/-- The outbox of a party in the local database. -/
structure OutboxDb where
  index : KVOutboxIndex := {}
  rows : KVNodeID → Option KVOutboxEntry := fun _ => none

/-- The rows of one transaction: a row that is put or deleted, and the index if it changes. -/
structure OutboxTx where
  eid : KVNodeID
  entry : Option KVOutboxEntry
  index : Option KVOutboxIndex

def OutboxDb.putTx (db : OutboxDb) (tx : OutboxTx) : OutboxDb :=
  ⟨tx.index.getD db.index, Function.update db.rows tx.eid tx.entry⟩

/-! ## Threads -/

/-- The hint of the trigger. -/
inductive Hint where
  | unknown
  | empty
  | work
  deriving DecidableEq

/-- A queued write of the snapshot of a drain. -/
structure DrainItem where
  eid : KVNodeID
  ord : ℕ
  payload : KVOutboxPayload
  deriving DecidableEq

inductive DrainOutcome where
  | retired
  | transport
  | conflicted
  | failed
  | retryLater
  deriving DecidableEq

/-- Who reads a row. -/
inductive Reader where
  | listing
  | snapshot
  | update
  deriving DecidableEq

/-- The steps of a thread between which others may go on. -/
inductive Ask where
  | newNodeID
  | lock
  | unlock
  | loadFlag
  | compareAndSwapFlag
  | clearFlag
  | loadHint
  | storeHint (hint : Hint)
  | getOutboxIndex
  | getOutboxEntry (reader : Reader) (eid : KVNodeID)
  | putTx (tx : OutboxTx)
  | openOutboxPayload (reader : Reader) (ent : KVOutboxEntry)
  | drainOne (it : DrainItem)

def Answer : Ask → Type
  | .newNodeID => KVNodeID
  | .lock => Unit
  | .unlock => Unit
  | .loadFlag => Bool
  | .compareAndSwapFlag => Bool
  | .clearFlag => Unit
  | .loadHint => Hint
  | .storeHint _ => Unit
  | .getOutboxIndex => Except CoreError KVOutboxIndex
  | .getOutboxEntry _ _ => Except CoreError (Option KVOutboxEntry)
  | .putTx _ => Except CoreError Unit
  | .openOutboxPayload _ _ => Except CoreError KVOutboxPayload
  | .drainOne _ => DrainOutcome × StatusCode

/-- What the threads of a client share for one party. The lock and the flag remember who holds them, an
ID remembers who has drawn it, and each attempt is recorded with the outbox at that moment; no program
reads any of these. -/
structure Shared where
  db : OutboxDb := {}
  hint : Hint := .unknown
  lock : Option ℕ := none
  flag : Option ℕ := none
  drawn : KVNodeID → Option ℕ := fun _ => none
  attempts : List (DrainItem × OutboxDb) := []

/-- What a step of thread `i` does. The local database may fail to read or to write, a payload may not
open, and IDs are drawn at random, so that each of them is new. -/
def answers (i : ℕ) : (q : Ask) → Shared → Answer q → Shared → Prop
  | .newNodeID, s, nid, s' =>
    s.drawn nid = none ∧ s' = { s with drawn := Function.update s.drawn nid (some i) }
  | .lock, s, _, s' => s.lock = none ∧ s' = { s with lock := some i }
  | .unlock, s, _, s' => s' = { s with lock := none }
  | .loadFlag, s, b, s' => b = s.flag.isSome ∧ s' = s
  | .compareAndSwapFlag, s, b, s' =>
    b = s.flag.isNone ∧ s' = { s with flag := if s.flag.isNone then some i else s.flag }
  | .clearFlag, s, _, s' => s' = { s with flag := none }
  | .loadHint, s, hint, s' => hint = s.hint ∧ s' = s
  | .storeHint hint, s, _, s' => s' = { s with hint }
  | .getOutboxIndex, s, res, s' => (∀ idx, res = .ok idx → idx = s.db.index) ∧ s' = s
  | .getOutboxEntry _ eid, s, res, s' => (∀ ent, res = .ok ent → ent = s.db.rows eid) ∧ s' = s
  | .putTx tx, s, res, s' =>
    s' = match (res : Except CoreError Unit) with
      | .ok _ => { s with db := s.db.putTx tx }
      | .error _ => s
  | .openOutboxPayload _ ent, s, res, s' => (∀ payload, res = .ok payload → payload = ent.box) ∧ s' = s
  | .drainOne it, s, _, s' => s' = { s with attempts := s.attempts ++ [(it, s.db)] }

/-- What is left when the process ends: the database. -/
def crash (s : Shared) : Shared := { s with hint := .unknown, lock := none, flag := none }

abbrev OutboxProg := Prog Ask Answer CoreError

/-! ### Steps -/

def newNodeID : OutboxProg KVNodeID := call Ask.newNodeID

def lock : OutboxProg Unit := call Ask.lock

def unlock : OutboxProg Unit := call Ask.unlock

def loadFlag : OutboxProg Bool := call Ask.loadFlag

def compareAndSwapFlag : OutboxProg Bool := call Ask.compareAndSwapFlag

def clearFlag : OutboxProg Unit := call Ask.clearFlag

def loadHint : OutboxProg Hint := call Ask.loadHint

def storeHint (hint : Hint) : OutboxProg Unit := call (Ask.storeHint hint)

variable (reader : Reader)

/-- `dbGetOutboxEntry`, with its failure as a value. -/
def readEntry (eid : KVNodeID) : OutboxProg (Except CoreError (Option KVOutboxEntry)) :=
  call (Ask.getOutboxEntry reader eid)

/-- `openOutboxPayload`, with its failure as a value. -/
def openPayload (ent : KVOutboxEntry) : OutboxProg (Except CoreError KVOutboxPayload) :=
  call (Ask.openOutboxPayload reader ent)

def drainOne (it : DrainItem) : OutboxProg (DrainOutcome × StatusCode) := call (Ask.drainOne it)

/-- A step that may fail. -/
def failable {α : Type} (x : OutboxProg (Except CoreError α)) : OutboxProg α := do
  let res ← x
  (res : Except CoreError α)

def getOutboxIndex : OutboxProg KVOutboxIndex := failable (call Ask.getOutboxIndex)

def getOutboxEntry (eid : KVNodeID) : OutboxProg (Option KVOutboxEntry) :=
  failable (readEntry reader eid)

def putTx (tx : OutboxTx) : OutboxProg Unit := failable (call (Ask.putTx tx))

/-- The body is run under the lock of the outbox, which is released whatever happens. -/
def withLock {α : Type} (body : OutboxProg α) : OutboxProg α := do
  lock
  let res ← body.tried
  unlock
  (res : Except CoreError α)

/-! ## The operations -/

def hasOutboxWork : OutboxProg Bool := do
  let idx ← getOutboxIndex
  return idx.entries.any (·.state = .queued)

variable (eid : KVNodeID)

def removeOutbox : OutboxProg Unit := do
  let idx ← getOutboxIndex
  putTx ⟨eid, none, some { idx with entries := idx.entries.filter (·.eid ≠ eid) }⟩

variable (state : KVOutboxState) (rg : RoleAndGen) (lastErr : StatusCode)

/-- `noteOutboxAttempt`: the number of attempts. -/
def noteOutboxAttempt : OutboxProg ℕ := do
  match ← getOutboxEntry .update eid with
  | none => return 0
  | some ent => do
    putTx ⟨eid, some { ent with attempts := ent.attempts + 1, lastErrCode := lastErr }, none⟩
    return ent.attempts + 1

def setOutboxStateInner (countAttempt : Bool) : OutboxProg Unit := do
  match ← getOutboxEntry .update eid with
  | none => return ()
  | some ent => do
    let idx ← getOutboxIndex
    putTx ⟨eid, some { ent with
        state
        lastErrCode := lastErr
        attempts := if countAttempt then ent.attempts + 1 else ent.attempts },
      some { idx with
        entries := idx.entries.map fun ie => if ie.eid = eid then { ie with state } else ie }⟩

def setOutboxState : OutboxProg Unit :=
  setOutboxStateInner eid state lastErr true

def setOutboxStateNoCount : OutboxProg Unit :=
  setOutboxStateInner eid state lastErr false

def maxKVOutboxEntries : ℕ := 256

variable (payload : KVOutboxPayload)

/-- The part of `enqueueOutbox` under the lock. -/
def enqueueLocked : OutboxProg Unit := do
  let idx ← getOutboxIndex
  .refuse (maxKVOutboxEntries ≤ idx.entries.length) .kvOutboxFullError
  putTx ⟨eid, some { state := .queued, rg, box := payload, ord := idx.nextOrd },
    some ⟨idx.entries ++ [⟨idx.nextOrd, eid, .queued⟩], idx.nextOrd + 1⟩⟩
  storeHint .work

def enqueueOutbox : OutboxProg Unit :=
  withLock (enqueueLocked eid rg payload)

/-- A write that has failed is queued, under an ID that was drawn for it: that of the node which it has
made, or a new one. -/
def queueWrite (payload : KVNodeID → KVOutboxPayload) : OutboxProg Unit := do
  let eid ← newNodeID
  enqueueOutbox eid rg (payload eid)

/-- Index entries without a row are dropped. -/
def dropOrphans : List KVNodeID → OutboxProg Unit
  | [] => return ()
  | eid :: eids => do
    removeOutbox eid
    dropOrphans eids

/-- The loop of `ListOutbox`, as far as it finds entries without a row. -/
def listOrphans : List KVOutboxIndexEntry → OutboxProg (List KVNodeID)
  | [] => return []
  | ie :: ies => do
    match ← readEntry .listing ie.eid with
    | .error _ => listOrphans ies
    | .ok none => do
      let drop ← listOrphans ies
      return ie.eid :: drop
    | .ok (some ent) => do
      let _ ← openPayload .listing ent
      listOrphans ies

/-- `ListOutbox`, as far as it changes the outbox. -/
def listOutbox : OutboxProg Unit := withLock do
  let idx ← getOutboxIndex
  let drop ← listOrphans (idx.entries.insertionSort fun a b => a.ord ≤ b.ord)
  dropOrphans drop

/-! ### The drain -/

/-- The loop of `snapshot`: the items, and the entries without a row. A row that cannot be read stays
queued for a later drain. -/
def snapshotFrom : List KVOutboxIndexEntry → OutboxProg (List DrainItem × List KVNodeID)
  | [] => return ([], [])
  | ie :: ies =>
    if ie.state ≠ .queued then snapshotFrom ies
    else do
      match ← readEntry .snapshot ie.eid with
      | .error _ => snapshotFrom ies
      | .ok none => do
        let (items, drop) ← snapshotFrom ies
        return (items, ie.eid :: drop)
      | .ok (some ent) =>
        if ent.state ≠ .queued then snapshotFrom ies
        else do
          match ← openPayload .snapshot ent with
          | .error _ => snapshotFrom ies
          | .ok payload => do
            let (items, drop) ← snapshotFrom ies
            return (⟨ie.eid, ent.ord, payload⟩ :: items, drop)

def snapshot : OutboxProg (List DrainItem) := withLock do
  let idx ← getOutboxIndex
  let (items, drop) ← snapshotFrom idx.entries
  dropOrphans drop
  return items

/-- The text that items are grouped by: the parent of the path. -/
def groupKey (it : DrainItem) : Except CoreError KVPath := do
  let (parent, _) ← splitAbsPath it.payload.path
  return parent.exportPath

/-- The items in the order of a drain: group by group, and each group in its order. -/
def drainOrder (items : List DrainItem) : Except CoreError (List DrainItem) := do
  let keyed ← items.mapM fun it => do
    let key ← groupKey it
    return (key, it)
  let order := (keyed.map Prod.fst).dedup.insertionSort fun a b => a ≤ b
  return order.flatMap fun gk =>
    ((keyed.filter (·.1 = gk)).map Prod.snd).insertionSort fun a b => a.ord ≤ b.ord

def settleHint : OutboxProg Unit := withLock do
  let work ← hasOutboxWork.tried
  storeHint (match work with
    | .error _ => .unknown
    | .ok true => .work
    | .ok false => .empty)

structure KVDrainResult where
  retired : ℕ := 0
  stillQueued : ℕ := 0
  conflicted : ℕ := 0
  failed : ℕ := 0
  deriving DecidableEq

def maxKVDrainRetries : ℕ := 8

/-- The loops of `drainOutboxWithParty` over the groups and their items; `n` is the number of items of the
snapshot. -/
def drainItems (n : ℕ) : List DrainItem → KVDrainResult → OutboxProg KVDrainResult
  | [], res => do
    settleHint
    return res
  | it :: its, res => do
    let (outcome, derr) ← drainOne it
    match outcome with
    | .retired => do
      withLock (removeOutbox it.eid)
      drainItems n its { res with retired := res.retired + 1 }
    | .transport => do
      settleHint
      return { res with stillQueued := n - res.retired - res.conflicted - res.failed }
    | .retryLater => do
      let attempts ← withLock (noteOutboxAttempt it.eid derr)
      if maxKVDrainRetries ≤ attempts then do
        withLock (setOutboxStateNoCount it.eid .failed derr)
        drainItems n its { res with failed := res.failed + 1 }
      else drainItems n its { res with stillQueued := res.stillQueued + 1 }
    | .conflicted => do
      withLock (setOutboxState it.eid .conflicted derr)
      drainItems n its { res with conflicted := res.conflicted + 1 }
    | .failed => do
      withLock (setOutboxState it.eid .failed derr)
      drainItems n its { res with failed := res.failed + 1 }

def drainOutboxWithParty : OutboxProg KVDrainResult := do
  let items ← snapshot
  let its ← (drainOrder items : Except CoreError _)
  drainItems items.length its {}

/-- The rest of a drain whose thread has set the flag. -/
def drainFlagged : OutboxProg (Except CoreError KVDrainResult) := do
  let res ← drainOutboxWithParty.tried
  clearFlag
  return res

/-- `DrainOutbox`: none if another drain is under way. -/
def drainOutbox : OutboxProg (Option KVDrainResult) := do
  if ← compareAndSwapFlag then do
    let res ← failable drainFlagged
    return some res
  else return none

/-- The probe of `maybeDrainOutbox`, under the lock. -/
def probeHint : OutboxProg Bool := withLock do
  let work ← hasOutboxWork
  storeHint (if work then .work else .empty)
  return work

/-- The part of `maybeDrainOutbox` after the hint was read. -/
def drainIfFree : OutboxProg Unit := do
  if ← compareAndSwapFlag then do
    let _ ← drainFlagged
    return ()
  else return ()

def maybeDrainOutbox : OutboxProg Unit := do
  if ← loadFlag then return ()
  else do
    match ← loadHint with
    | .empty => return ()
    | .unknown => do
      match ← probeHint.tried with
      | .ok true => drainIfFree
      | _ => return ()
    | .work => drainIfFree

/-- What a client does with the outbox of a party. -/
inductive IsOutboxOp : OutboxProg Unit → Prop
  | queueWrite (rg : RoleAndGen) (payload : KVNodeID → KVOutboxPayload) : IsOutboxOp (queueWrite rg payload)
  | listOutbox : IsOutboxOp listOutbox
  | maybeDrainOutbox : IsOutboxOp maybeDrainOutbox
  | drainOutbox : IsOutboxOp (do
      let _ ← drainOutbox
      return ())

end Foks.KvClient
