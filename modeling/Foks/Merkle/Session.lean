import Foks.Lib.Map
import Foks.Lib.Prog
import Foks.Merkle.Engine

/-!
# Sessions of a client with a Merkle server

`lib/merkle/client.go`: a session notes the latest root that the client knows, and checks a root of
the server against it by the skip pointers between the two. `client/libclient/merkle_agent.go`: the
roots and hashes that were checked are kept in two local databases. The counter of the latest epoch is
in the hard one; the roots and their hashes are in the soft one.

A method of a session is a program that asks the databases and the server, read by read and write by
write. The databases do not fail.

## Main definitions

* `merkleCollectRoots`: the roots and hashes between two epochs
* `Ask`, `Client`: what a client asks, and programs of a client
* `LocalStorage.store`, `LocalStorage.getLatestRootFromCache`: the local databases
* `checkSkipPointersFromAtoB`: the check of a root against an earlier one
* `Session.init`, `Session.run`, `Session.checkHistoricalRoot`: the methods of a session
-/

namespace Foks.Merkle

open Lib MerkleHash

/-! ## The path between two epochs -/

/-- The inner loop of `MerkleCollectRoots`: the last back pointer that is not before `stop`. -/
def nextStart (stop start : MerkleEpno) : MerkleEpno :=
  (merkleBackpointerSequence start).foldl (fun next curr => if stop ≤ curr then curr else next) start

/-- The loop of `MerkleCollectRoots`, for some turns: the path and all back pointers from it. -/
def collectRoots (stop : MerkleEpno) : ℕ → MerkleEpno → List MerkleEpno → Finset MerkleEpno →
    Option (List MerkleEpno × Finset MerkleEpno)
  | 0, start, path, siblings => if start ≤ stop then some (path, siblings) else none
  | turns + 1, start, path, siblings =>
    if start ≤ stop then some (path, siblings)
    else
      let path := path ++ [start]
      let seq := merkleBackpointerSequence start
      collectRoots stop turns (nextStart stop start) path (siblings ∪ (seq.toFinset \ path.toFinset))

/-- `MerkleCollectRoots`: a turn of the loop leads to an earlier epoch, or stays at epoch one and the
loop does not end. -/
def merkleCollectRoots (start stop : MerkleEpno) : Option (List MerkleEpno × List MerkleEpno) :=
  (collectRoots stop start start [] ∅).map fun (path, siblings) => (path, (sorted siblings).reverse)

/-- A loop that does not end. -/
def endlessLoop : CoreError := .internalError "endless loop"

/-! ## Programs of a client -/

section Types

variable (H : Type)

/-- A row of the soft database. -/
inductive Row where
  | merkleRootHashByEpno (ep : MerkleEpno) (h : H)
  | merkleRootByHash (h : H) (r : MerkleRoot H)
  deriving DecidableEq

/-- What a client asks: to read and to write the databases, for roots and hashes, and whatever else it
wants from the server, which comes with a root. The epoch that is known when that question is sent is
not a part of it; an honest server is not behind it. -/
inductive Ask where
  | dbGetCounter
  | dbGetHash (ep : MerkleEpno)
  | dbGetRoot (h : H)
  | dbPutCounter (c : ℤ)
  | dbPutTx (rows : List (Row H))
  | getHistoricalRoots (full hashes : List MerkleEpno)
  | query (known : Option MerkleEpno)

variable {H}

def Ask.Answer : Ask H → Type
  | dbGetCounter => Option ℤ
  | dbGetHash _ => Option H
  | dbGetRoot _ => Option (MerkleRoot H)
  | dbPutCounter _ => Unit
  | dbPutTx _ => Unit
  | getHistoricalRoots _ _ => Except CoreError (List (MerkleRoot H) × List H)
  | query _ => MerkleRoot H

variable (H)

abbrev Client (α : Type) := Prog (Ask H) Ask.Answer CoreError α

/-- `openedRoot`: a root of the known version, with its hash. -/
structure OpenedRoot [MerkleHash H] where
  r : MerkleRoot H
  v1 : MerkleRootV1 H
  h : H
  r_eq : r = .v1 v1
  h_eq : h = hashRoot r

structure Session [MerkleHash H] where
  rootAtStart : Option (OpenedRoot H) := none
  isInit : Bool := false

end Types

variable {H : Type}

/-- A root of the first version is opened as it is. -/
theorem opened_v1 (v1 : MerkleRootV1 H) : MerkleRoot.v1 v1 = .v1 v1 := rfl

def openRoot [MerkleHash H] : MerkleRoot H → Except CoreError (OpenedRoot H)
  | .v1 v1 => .ok ⟨.v1 v1, v1, hashRoot (.v1 v1), opened_v1 v1, rfl⟩
  | .future _ => .error (.versionNotSupportedError "merkle root from the future")

def OpenedRoot.epno [MerkleHash H] (o : OpenedRoot H) : MerkleEpno := o.v1.epno

/-! ## The local databases -/

namespace LocalStorage

variable (ep : MerkleEpno)

def getRootHashFromCache : Client H (Option H) := .call (Ask.dbGetHash ep)

def getRootWithHash (hsh : H) : Client H (Option (MerkleRoot H)) := .call (Ask.dbGetRoot hsh)

def getRootFromCache : Client H (Option (MerkleRoot H)) := do
  match ← getRootHashFromCache ep with
  | none => return none
  | some hsh => getRootWithHash hsh

def dbGetCounter : Client H (Option ℤ) := .call Ask.dbGetCounter

/-- `proto.MerkleEpno` of a counter, which is a signed number. -/
def epnoOfCounter (c : ℤ) : MerkleEpno := (c % 2 ^ 64).toNat

def getLatestRootFromCache : Client H (Option (MerkleRoot H)) := do
  match ← dbGetCounter with
  | none => return none
  | some c => getRootFromCache (epnoOfCounter c)

/-- The part of `Store` that notes the latest epoch. -/
def putLatest (latest : Bool) : Client H Unit :=
  if latest then .call (Ask.dbPutCounter (int64 ep)) else pure ()

/-- The rows that `Store` writes at once. -/
def rowsFor (h : H) (r : Option (MerkleRoot H)) : List (Row H) :=
  (if 0 < ep then [.merkleRootHashByEpno ep h] else []) ++ (r.map (.merkleRootByHash h)).toList

def store (ep : MerkleEpno) (h : Option H) (r : Option (MerkleRoot H)) (latest : Bool) : Client H Unit :=
  match h with
  | none => .fail (.internalError "hash must be non-nil")
  | some h => do
    .refuse (ep = 0 ∧ r.isNone) (.internalError "nothing to store")
    .refuse (latest ∧ ep = 0) (.internalError "cannot store latest without epno")
    putLatest ep latest
    .call (Ask.dbPutTx (rowsFor ep h r))

end LocalStorage

/-! ## Skip pointers -/

section Check

variable [MerkleHash H]

/-- The hash of an epoch: that of the database, or else of a root in it. -/
def getRootHashFromCache (e : MerkleEpno) : Client H (Option H) := do
  match ← LocalStorage.getRootHashFromCache e with
  | some hash => return some hash
  | none => do
    let root ← LocalStorage.getRootFromCache e
    return root.map hashRoot

/-- The closure `getHash` of `computeBackPointers`: a hash goes before a root. -/
def pointerHash (hashes : Map MerkleEpno H) (roots : Map MerkleEpno (MerkleRoot H))
    (e : MerkleEpno) : Option H :=
  (hashes.lookup e).or ((roots.lookup e).map hashRoot)

def computeBackPointers (e : MerkleEpno) (hashes : Map MerkleEpno H)
    (roots : Map MerkleEpno (MerkleRoot H)) : Except CoreError (H × List (MerkleBackPointer H)) := do
  let ret ← (merkleBackpointerSequence e).mapM fun epno =>
    match pointerHash hashes roots epno with
    | none => .error (.merkleBackPointerVerifyError "missing hash" epno)
    | some hash => .ok ⟨epno, hash⟩
  return (hashBackPointers ret, ret)

/-- The loop over the roots of the path that looks for them in the database. -/
def loadRoots : Map MerkleEpno (MerkleRoot H) → List MerkleEpno →
    Client H (Map MerkleEpno (MerkleRoot H) × List MerkleEpno)
  | allRoots, [] => return (allRoots, [])
  | allRoots, epno :: roots =>
    if (allRoots.lookup epno).isSome then loadRoots allRoots roots
    else do
      match ← LocalStorage.getRootFromCache epno with
      | some root => loadRoots (allRoots.insert epno root) roots
      | none => do
        let (allRoots, neededRoots) ← loadRoots allRoots roots
        return (allRoots, epno :: neededRoots)

/-- The loop over the hashes that looks for them in the database. -/
def loadHashes : Map MerkleEpno H → List MerkleEpno → Client H (Map MerkleEpno H × List MerkleEpno)
  | allHashes, [] => return (allHashes, [])
  | allHashes, epno :: hashes => do
    match ← getRootHashFromCache epno with
    | some hash => loadHashes (allHashes.insert epno hash) hashes
    | none => do
      let (allHashes, neededHashes) ← loadHashes allHashes hashes
      return (allHashes, epno :: neededHashes)

def getHistoricalRoots (full hashes : List MerkleEpno) :
    Client H (Except CoreError (List (MerkleRoot H) × List H)) :=
  .call (Ask.getHistoricalRoots full hashes)

/-- `GetRootsFromServer`, unless nothing is needed. -/
def getRootsFromServer (neededRoots neededHashes : List MerkleEpno) : Client H (List (MerkleRoot H) × List H) :=
  if neededRoots = [] ∧ neededHashes = [] then return ([], [])
  else do
    match ← getHistoricalRoots neededRoots neededHashes with
    | .error err => .fail err
    | .ok res => return res

variable [DecidableEq H]

/-- A root of the server has the hash of the database, if there is one. -/
def checkCachedHash (epno : MerkleEpno) (root : MerkleRoot H) : Client H Unit := do
  let hash ← LocalStorage.getRootHashFromCache epno
  .refuse (hash.any (· ≠ hashRoot root)) (.merkleBackPointerVerifyError
    "cached merkle root hash isn't equal to root we just got" epno)

/-- The loop over the roots of the server. -/
def addRoots : Map MerkleEpno (MerkleRoot H) → List MerkleEpno → List (MerkleRoot H) →
    Client H (Map MerkleEpno (MerkleRoot H))
  | allRoots, _, [] => return allRoots
  | _, [], _ :: _ => .fail outOfRange
  | allRoots, epno :: neededRoots, root :: newRoots => do
    checkCachedHash epno root
    addRoots (allRoots.insert epno root) neededRoots newRoots

/-- The loop over the hashes of the server. -/
def addHashes : Map MerkleEpno H → List MerkleEpno → List H → Except CoreError (Map MerkleEpno H)
  | allHashes, _, [] => return allHashes
  | _, [], _ :: _ => .error outOfRange
  | allHashes, epno :: neededHashes, hash :: newHashes =>
    addHashes (allHashes.insert epno hash) neededHashes newHashes

def checkRootAgainstBackPointers (backPointerSet : List (MerkleBackPointer H)) (epno : MerkleEpno)
    (root : MerkleRoot H) : Except CoreError Unit :=
  if backPointerSet = [] then return ()
  else
    match backPointerSet.find? (·.epno = epno) with
    | none => .error (.merkleBackPointerVerifyError "missing backpointer" epno)
    | some bp => refuse (hashRoot root ≠ bp.hash) (.merkleBackPointerVerifyError "backpointer mismatc" epno)

/-- The loop over the roots of the path that checks them: each has the back pointers that are expected,
and is one of those of the root before it. -/
def checkRoots (allRoots : Map MerkleEpno (MerkleRoot H)) (allHashes : Map MerkleEpno H) :
    List (MerkleBackPointer H) → List MerkleEpno → Except CoreError (List (MerkleBackPointer H))
  | backPointerSet, [] => return backPointerSet
  | backPointerSet, rootEpno :: roots =>
    match allRoots.lookup rootEpno with
    | none => .error (.merkleBackPointerVerifyError "missing root" rootEpno)
    | some root => do
      checkRootAgainstBackPointers backPointerSet rootEpno root
      let oRoot ← openRoot root
      refuse (oRoot.epno ≠ rootEpno) (.merkleBackPointerVerifyError "got mismatched root" oRoot.epno)
      let (expected, backPointerSet) ← computeBackPointers rootEpno allHashes allRoots
      refuse (oRoot.v1.backPointers ≠ expected) (.merkleBackPointerVerifyError "bad backpointer hash" rootEpno)
      checkRoots allRoots allHashes backPointerSet roots

section

omit [MerkleHash H] [DecidableEq H]

/-- The loop that stores the roots of the server. -/
def storeRoots (right : MerkleEpno) (allHashes : Map MerkleEpno H) :
    List MerkleEpno → List (MerkleRoot H) → Client H Unit
  | epno :: neededRoots, root :: newRoots =>
    if epno ≠ right then do
      LocalStorage.store epno (allHashes.lookup epno) (some root) false
      storeRoots right allHashes neededRoots newRoots
    else storeRoots right allHashes neededRoots newRoots
  | _, _ => return ()

/-- The loop that stores the hashes of the server. -/
def storeHashes (right : MerkleEpno) : List MerkleEpno → List H → Client H Unit
  | epno :: neededHashes, hash :: newHashes =>
    if epno ≠ right then do
      LocalStorage.store epno (some hash) none false
      storeHashes right neededHashes newHashes
    else storeHashes right neededHashes newHashes
  | _, _ => return ()

end

def checkSkipPointersFromAtoB (right left : OpenedRoot H) : Client H Unit := do
  .refuse (right.epno ≤ left.epno) (.internalError "right epno is less than or equal to left epno")
  match merkleCollectRoots right.epno left.epno with
  | none => .fail endlessLoop
  | some (roots, hashes) => do
    let (allRoots, neededRoots) ←
      loadRoots (((∅ : Map _ _).insert right.epno right.r).insert left.epno left.r) roots
    let (allHashes, neededHashes) ← loadHashes ∅ hashes
    let (newRoots, newHashes) ← getRootsFromServer neededRoots neededHashes
    let allRoots ← addRoots allRoots neededRoots newRoots
    let allHashes ← (addHashes allHashes neededHashes newHashes : Except CoreError _)
    let backPointerSet ← (checkRoots allRoots allHashes [] roots : Except CoreError _)
    (checkRootAgainstBackPointers backPointerSet left.epno left.r : Except CoreError _)
    storeRoots right.epno allHashes neededRoots newRoots
    storeHashes right.epno neededHashes newHashes

end Check

/-! ## Sessions -/

namespace Session

variable [MerkleHash H]

def loadLatestKnownRoot : Client H (Option (OpenedRoot H)) := do
  match ← LocalStorage.getLatestRootFromCache with
  | none => return none
  | some existing => do
    let ret ← (openRoot existing : Except CoreError _)
    return some ret

def init : Client H (Session H) := do
  let root ← loadLatestKnownRoot
  return ⟨root, true⟩

def initWithRoot (mr : MerkleRoot H) : Except CoreError (Session H) := do
  let root ← openRoot mr
  return ⟨some root, true⟩

variable [DecidableEq H]

def checkHistoricalRoot (s : Session H) (root : MerkleRoot H) : Client H Unit := do
  let oRoot ← (openRoot root : Except CoreError _)
  match s.rootAtStart with
  | none => .fail nilPointer
  | some rootAtStart => do
    .refuse (rootAtStart.epno < oRoot.epno)
      (.merkleVerifyError "historical root was newer than the root we just got!")
    if oRoot.epno = rootAtStart.epno then
      .refuse (oRoot.h ≠ rootAtStart.h) (.merkleVerifyError "historical root hash mismatch")
    else checkSkipPointersFromAtoB rootAtStart oRoot

omit [DecidableEq H] in
/-- The closure `storeLatest` of `Run`. -/
def storeLatest (l : OpenedRoot H) : Client H Unit :=
  LocalStorage.store l.epno (some l.h) (some l.r) true

/-- The part of `Run` for a client that knows a root. -/
def runAgainst (s : Session H) (oLatest existing : OpenedRoot H) : Client H Unit := do
  .refuse (s.rootAtStart.any fun r => existing.epno < r.epno)
    (.internalError "merkle root at start is newer than latest known root")
  match s.rootAtStart.filter fun r => oLatest.epno < r.epno with
  | some r => .fail (.merkleRollbackError r.epno oLatest.epno)
  | none =>
    if oLatest.epno = existing.epno then
      .refuse (oLatest.h ≠ existing.h) (.merkleVerifyError s!"hash mismatch at epno {oLatest.epno}")
    else if oLatest.epno < existing.epno then do
      -- a faster request has already seen a later root
      checkSkipPointersFromAtoB existing oLatest
      storeLatest oLatest
    else do
      checkSkipPointersFromAtoB oLatest existing
      storeLatest oLatest

def run (s : Session H) (latest : MerkleRoot H) : Client H Unit := do
  .refuse (!s.isInit) (.internalError "must call Init() before Run()")
  let oLatest ← (openRoot latest : Except CoreError _)
  match ← loadLatestKnownRoot with
  | none => do
    .refuse s.rootAtStart.isSome (.internalError "merkle root was non-nil then nil!")
    storeLatest oLatest
  | some existing => s.runAgainst oLatest existing

end Session

end Foks.Merkle
