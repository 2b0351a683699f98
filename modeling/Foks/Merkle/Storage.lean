import Foks.Lib.Table
import Foks.Merkle.Node

/-!
# The tables of the Merkle tree

`server/shared/merkle_sql_storage.go`: the tables, as one host sees them, and the statements that the
engine runs on them. The statements of one call form a transaction, so a statement that fails leaves
nothing of the ones before it.

Roots are kept without the type of their root node. The type is a flag of the whole tree,
`first_node`, which is set when a root of type node is stored.
-/

namespace Foks.Merkle

open Lib

section Rows

variable (H : Type)

structure RootRow where
  epno : MerkleEpno
  ctime : Time
  hash : H
  body : MerkleRoot H
  rootNode : H
  deriving DecidableEq

structure NodeRow where
  hash : H
  node : Node H
  deriving DecidableEq

structure LeafRow where
  hash : H
  leaf : MerkleLeaf H
  epno : MerkleEpno
  deriving DecidableEq

structure Bookkeeping where
  batchNo : ℕ
  pos : ℤ
  deriving DecidableEq

namespace Bookkeeping

def advance (b : Bookkeeping) : Bookkeeping := ⟨b.batchNo + 1, -1⟩

/-- The order in which the builder goes on. -/
def Before (a b : Bookkeeping) : Prop :=
  a.batchNo < b.batchNo ∨ a.batchNo = b.batchNo ∧ a.pos < b.pos

theorem Before.trans {a b c : Bookkeeping} (h : a.Before b) (h' : b.Before c) : a.Before c := by
  unfold Before at *
  omega

end Bookkeeping

structure BookkeepingRow where
  build : Bookkeeping
  batchNextBatchno : ℕ
  deriving DecidableEq

/-- The tables of one host. The tables `merkle_tree_metadata` and `merkle_bookkeeping` have at
most one row for it. The tables `merkle_nodes` and `merkle_leaves` have no column for the host and
are those of all hosts of the database: the rows of this host, with the leaf of zeroes that all
hosts share, are kept apart from the leaves of the other hosts. Nodes of other hosts are left out.
The hash of a node fixes the leaves below it, and one of them has a key of its host alone. -/
structure Store where
  roots : List (RootRow H) := []
  nodes : List (NodeRow H) := []
  leaves : List (LeafRow H) := []
  others : List (LeafRow H) := []
  hostchainTails : List (HostchainTail H) := []
  firstNode : Option Bool := none
  bookkeeping : Option BookkeepingRow := none
  deriving DecidableEq

/-- `merkle.Root`: a stored root, with the type of its root node. -/
structure Root where
  epno : MerkleEpno
  body : MerkleRoot H
  rootNode : PrefixedHash H
  deriving DecidableEq

end Rows

variable {H : Type} [DecidableEq H]

namespace Store

/-! ## Writing -/

variable (s : Store H) (epno : MerkleEpno)

/-- The flag after a root is stored: created unset with the first root, set by a later root of
type node. -/
def flagAfter (typ : MerkleNodeType) (firstNode : Option Bool) : Except CoreError (Option Bool) :=
  if epno = merkleEpnoFirst then do
    refuse firstNode.isSome (.uniqueViolation "merkle_tree_metadata_pkey")
    return some false
  else return if typ = .node then firstNode.map fun _ => true else firstNode

/-- The bookkeeping is created with the first root. -/
def bookkeepingAfter (bookkeeping : Option BookkeepingRow) : Except CoreError (Option BookkeepingRow) :=
  if epno = merkleEpnoFirst then do
    refuse bookkeeping.isSome (.uniqueViolation "merkle_bookkeeping_pkey")
    return some ⟨⟨1, -1⟩, 1⟩
  else return bookkeeping

def insertTail (hct : Option (HostchainTail H)) (rows : List (HostchainTail H)) :
    Except CoreError (List (HostchainTail H)) :=
  match hct with
  | none => return rows
  | some tail => insertRow (·.seqno) (.uniqueViolation "merkle_hostchain_tails_pkey") tail rows

def insertRoot (time : Time) (rootHash : H)
    (body : MerkleRoot H) (rootNode : PrefixedHash H) (hct : Option (HostchainTail H)) :
    Except CoreError (Store H) := do
  let roots ← insertRow (·.epno) (.uniqueViolation "merkle_roots_pkey")
    ⟨epno, time, rootHash, body, rootNode.hash⟩ s.roots
  let hostchainTails ← insertTail hct s.hostchainTails
  let firstNode ← flagAfter epno rootNode.typ s.firstNode
  let bookkeeping ← bookkeepingAfter epno s.bookkeeping
  return { s with roots, hostchainTails, firstNode, bookkeeping }

omit [DecidableEq H] in
theorem flagAfter_eq_ok {n : ℕ} {firstNode : Option Bool} (typ : MerkleNodeType)
    (h : firstNode.isSome = decide (0 < n)) :
    ∃ flag : Option Bool, flagAfter (n + 1) typ firstNode = .ok flag ∧ flag.isSome = true ∧
      flag = if n = 0 then some false else if typ = .node then some true else firstNode := by
  rcases Nat.eq_zero_or_pos n with rfl | hpos
  · cases firstNode
    · exact ⟨some false, rfl, rfl, rfl⟩
    · cases h
  obtain ⟨b, rfl⟩ := Option.isSome_iff_exists.mp (h.trans (decide_eq_true hpos))
  have hfirst : n + 1 ≠ merkleEpnoFirst := fun h => hpos.ne' (Nat.succ.inj h)
  refine ⟨_, by rw [flagAfter, if_neg hfirst]; rfl, ?_, ?_⟩
  · split <;> rfl
  · rw [if_neg hpos.ne']
    rfl

theorem bookkeepingAfter_eq_ok {n : ℕ} {bookkeeping : Option BookkeepingRow}
    (h : bookkeeping.isSome = decide (0 < n)) :
    ∃ bk : Option BookkeepingRow, bookkeepingAfter (n + 1) bookkeeping = .ok bk ∧ bk.isSome = true := by
  rcases Nat.eq_zero_or_pos n with rfl | hpos
  · cases bookkeeping
    · exact ⟨_, rfl, rfl⟩
    · cases h
  · have hfirst : n + 1 ≠ merkleEpnoFirst := fun h => hpos.ne' (Nat.succ.inj h)
    exact ⟨bookkeeping, by rw [bookkeepingAfter, if_neg hfirst]; rfl, h.trans (decide_eq_true hpos)⟩

def insertNode (hash : H) (node : Node H) : Except CoreError (Store H) := do
  let nodes ← insertRow (·.hash) (.uniqueViolation "merkle_nodes_pkey") ⟨hash, node⟩ s.nodes
  return { s with nodes }

/-- The rows of `merkle_leaves`. -/
def allLeaves : List (LeafRow H) := s.leaves ++ s.others

/-- `Tx.InsertLeaf`: the table has two keys, and only the violation of the first has an error of
its own. -/
def insertLeaf (hash : H) (leaf : MerkleLeaf H) (epno : MerkleEpno) : Except CoreError (Store H) := do
  refuse (hash ∈ s.allLeaves.map (·.hash)) .merkleLeafExistsError
  refuse (leaf.key ∈ s.allLeaves.map (·.leaf.key)) (.uniqueViolation "merkle_leaves_key_idx")
  return { s with leaves := s.leaves ++ [⟨hash, leaf, epno⟩] }

/-- Another host of the database inserts a leaf; an insertion that fails leaves nothing. -/
def insertOther (row : LeafRow H) : Store H :=
  if row.hash ∈ s.allLeaves.map (·.hash) ∨ row.leaf.key ∈ s.allLeaves.map (·.leaf.key) then s
  else { s with others := s.others ++ [row] }

def updateBookkeeping (bk : Bookkeeping) : Except CoreError (Store H) :=
  match s.bookkeeping with
  | none => .error (.insertError "failed to insert bookkeeping")
  | some row => .ok { s with bookkeeping := some { row with build := bk } }

def updateBookkeepingForBatcher (bn : ℕ) : Except CoreError (Store H) :=
  match s.bookkeeping with
  | none => .error (.insertError "failed to insert bookkeeping for batcher")
  | some row => .ok { s with bookkeeping := some { row with batchNextBatchno := bn } }

/-! ## Reading -/

def rootAt : Option (RootRow H) :=
  s.roots.find? (·.epno = epno)

/-- `ORDER BY epno DESC LIMIT 1` -/
def lastRoot : Option (RootRow H) := s.roots.argmax RootRow.epno

/-- `selectRootForTraversal`, without the signature: the latest root, or the one of an epoch. The
row is joined with the metadata of the tree, which has the type. -/
def selectRootForTraversal (findEpno : Option MerkleEpno) : Except CoreError (Root H) :=
  match findEpno.elim s.lastRoot s.rootAt, s.firstNode with
  | some row, some rootIsNode =>
    .ok ⟨row.epno, row.body, ⟨if rootIsNode then .node else .leaf, row.rootNode⟩⟩
  | _, _ => .error .merkleNoRootError

def selectNode (h : PrefixedHash H) : Except CoreError (Node H) :=
  match s.nodes.find? (·.hash = h.hash) with
  | none => .error .noRows
  | some row => .ok row.node

def selectLeaf (h : PrefixedHash H) : Except CoreError (MerkleLeaf H) :=
  match s.leaves.find? (·.hash = h.hash) with
  | none => .error .merkleLeafNotFoundError
  | some row => .ok row.leaf

def selectRootHash : Except CoreError H :=
  match s.rootAt epno with
  | none => .error (.internalError s!"no hash found for epno={epno}")
  | some row => .ok row.hash

def selectRootHashes (seq : List MerkleEpno) : Except CoreError (List H) :=
  seq.mapM s.selectRootHash

def selectCurrentHostchainTail : Option (HostchainTail H) :=
  s.hostchainTails.argmax HostchainTail.seqno

def selectBookkeeping : Option Bookkeeping := s.bookkeeping.map (·.build)

end Store

end Foks.Merkle
