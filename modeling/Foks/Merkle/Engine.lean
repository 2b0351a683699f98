import Foks.Lib.Run
import Foks.Merkle.Storage

/-!
# The engine of the Merkle tree

`lib/merkle/server.go`: looking up the path of a key, inserting a key with its value, and storing
a root. A lookup goes down from the root node as long as the key agrees with the segments on its
way. An insertion adds the leaf and the nodes above it, from the bottom to the root: what is
stored is never changed, and the old roots keep their trees.
-/

namespace Foks.Merkle

open Lib MerkleHash List

section Types

variable (H : Type)

structure LookupPathNode where
  node : Node H
  next : Bool
  keyBitStart : ℕ
  /-- Includes the bit of the pointer that is followed. -/
  keyBitsMatched : ℕ
  deriving DecidableEq

structure LookupLeaf where
  leaf : MerkleLeaf H
  hash : PrefixedHash H
  isMatch : Bool
  deriving DecidableEq

structure LookupPathSingle where
  path : List (LookupPathNode H)
  leaf : Option (LookupLeaf H)
  deriving DecidableEq

structure LookupPathRes where
  epno : MerkleEpno
  rootBody : MerkleRoot H
  path : List (LookupPathNode H)
  leaf : Option (LookupLeaf H)
  deriving DecidableEq

structure InsertKeyValueArg where
  key : MerkleTreeRFOutput
  val : H
  bk : Option Bookkeeping
  time : Time
  hct : Option (HostchainTail H)
  deriving DecidableEq

end Types

variable {H : Type} [DecidableEq H]

/-! ## Lookups -/

/-- What a loop of lookups returns: the path, and the leaf that it leads to. -/
abbrev Walked (H : Type) := Option (List (LookupPathNode H) × Option (PrefixedHash H))

/-- One turn of the loop of `lookupPathWithLockFromRoot`, at a node that is reached at bit
`bitCursor`; `next` is the rest of the loop. An error of the comparison other than a mismatch
returns no path and no error. -/
def visit (key : MerkleTreeRFOutput) (bitCursor : ℕ) (node : Node H)
    (next : ℕ → PrefixedHash H → Except CoreError (Walked H)) : Except CoreError (Walked H) := do
  let bitStart := node.prfx.bitStart
  let bitCount := node.prfx.bitCount
  refuse (bitStart ≠ bitCursor)
    (.merkleTreeError s!"mismatch on path traversal bit location: {bitCursor} != {bitStart}")
  match assertKeyMatch key.bytes node.prfx.bytes bitStart bitCount with
  | .ok () =>
    let bit ← bitAt key.bytes (bitCursor + bitCount)
    let nxt := node.select bit
    let here : LookupPathNode H := ⟨node, bit, bitCursor, bitCount + 1⟩
    match nxt.typ with
    | .leaf => return some ([here], some nxt)
    | .node =>
      let rest ← next (bitCursor + bitCount + 1) nxt
      return rest.map fun (path, leaf) => (here :: path, leaf)
  | .error (.bitPrefixMatchError pos) =>
    return some ([⟨node, false, bitCursor, pos - bitStart⟩], none)
  | .error _ => return none

/-- The loop of `lookupPathWithLockFromRoot`, from the node `currNode` at bit `bitCursor`: the
path to the leaf that is met, or to the node whose segment the key leaves. -/
def walk (db : Store H) (key : MerkleTreeRFOutput) : ℕ → ℕ → PrefixedHash H → Except CoreError (Walked H)
  | 0, _, _ => .error (.internalError "out of turns")
  | turns + 1, bitCursor, currNode => do
    let node ← db.selectNode currNode
    visit key bitCursor node (walk db key turns)

omit [DecidableEq H] in
/-- The rest of the loop starts at a later bit, and within the key. -/
theorem visit_ends {key : MerkleTreeRFOutput} {bitCursor : ℕ} {node : Node H}
    {next : ℕ → PrefixedHash H → Except CoreError (Walked H)}
    (h : ∀ cursor ph, bitCursor < cursor → cursor ≤ keyBits →
      ErrorsIn (· ≠ .internalError "out of turns") (next cursor ph)) :
    ErrorsIn (· ≠ .internalError "out of turns") (visit key bitCursor node next) := by
  refine .bind (.refuse (by simp)) fun _ _ => ?_
  split
  · refine .bind ?_ fun bit hbit => ?_
    · unfold bitAt
      split
      · exact .error (by simp)
      · exact .ok _
    have hlt := (lt_of_bitAt_eq_ok hbit).1
    rw [key.bits_length] at hlt
    dsimp only
    split
    · exact .ok _
    · exact .bind (h _ _ (by omega) (by omega)) fun _ _ => .ok _
  · exact .ok _
  · exact .ok _

/-- **Lookups end.** Whatever rows the store has, the loop ends within as many turns as the key has
bits, and one. -/
theorem walk_ends (db : Store H) (key : MerkleTreeRFOutput) (ph : PrefixedHash H) :
    walk db key (keyBits + 1) 0 ph ≠ .error (.internalError "out of turns") := by
  have hends : ∀ (turns bitCursor : ℕ) (ph : PrefixedHash H), bitCursor ≤ keyBits →
    keyBits < turns + bitCursor →
      ErrorsIn (· ≠ .internalError "out of turns") (walk db key turns bitCursor ph) := by
    intro turns
    induction turns with
    | zero => exact fun bitCursor ph hle hlt => absurd hlt (by omega)
    | succ turns ih =>
      intro bitCursor ph hle hlt
      refine .bind ?_ fun node _ => visit_ends fun cursor ph' hcursor hle' => ih cursor ph' hle' (by omega)
      unfold Store.selectNode
      split
      · exact .error (by simp)
      · exact .ok _
  exact fun hout => hends (keyBits + 1) 0 ph (Nat.zero_le _) (Nat.lt_succ_self _) _ hout rfl

variable (db : Store H) (key : MerkleTreeRFOutput)

/-- `lookupPathWithLockFromRoot`: `currNode` is the root node of a tree of nodes, and `leaf` the
root of a tree that is one leaf. -/
def lookupPathWithLockFromRoot (currNode leaf : Option (PrefixedHash H)) :
    Except CoreError (Option (LookupPathSingle H)) := do
  let res ← match currNode with
    | none => pure (some ([], leaf))
    | some ph => walk db key (keyBits + 1) 0 ph
  match res with
  | none => return none
  | some (path, none) => return some ⟨path, none⟩
  | some (path, some ph) =>
    let pleaf ← db.selectLeaf ph
    return some ⟨path, some ⟨pleaf, ph, key = pleaf.key⟩⟩

/-- The traversal from a root node, by its type. -/
def lookupFromRootNode (rootNode : PrefixedHash H) :
    Except CoreError (Option (LookupPathSingle H)) :=
  match rootNode.typ with
  | .leaf => lookupPathWithLockFromRoot db key none (some rootNode)
  | .node => lookupPathWithLockFromRoot db key (some rootNode) none

/-- `lookupPathWithLock`, and `lookupPathsWithLock` for its one key. -/
def lookupPathWithLock (epno : Option MerkleEpno) :
    Except CoreError (LookupPathRes H) := do
  let root ← db.selectRootForTraversal epno
  let sing ← lookupFromRootNode db key root.rootNode
  return ⟨root.epno, root.body, (sing.map (·.path)).getD [], sing.bind (·.leaf)⟩

/-! ## Storing a root -/

def backpointerLoop (e : MerkleEpno) : ℕ → ℕ → List MerkleEpno
  | 0, _ => []
  | turns + 1, cursor =>
    if cursor < e then
      (e - cursor) :: if e &&& cursor ≠ 0 then [] else backpointerLoop e turns (2 * cursor)
    else []

def merkleBackpointerSequence (e : MerkleEpno) : List MerkleEpno :=
  match e with
  | 0 | 1 => []
  | 2 => [1]
  | 3 => [2, 1]
  | 4 => [3, 2, 1]
  | e => backpointerLoop e e 1

theorem backpointerLoop_lt {e : ℕ} :
    ∀ (turns cursor : ℕ), 0 < cursor → ∀ p : ℕ, p ∈ backpointerLoop e turns cursor → 0 < p ∧ p < e := by
  intro turns
  induction turns with
  | zero => exact fun cursor _ p hp => absurd hp not_mem_nil
  | succ turns ih =>
    intro cursor hpos p hp
    rw [backpointerLoop] at hp
    split at hp
    · rcases mem_cons.mp hp with hp | hp
      · omega
      split at hp
      · exact absurd hp not_mem_nil
      · exact ih (2 * cursor) (by omega) p hp
    · exact absurd hp not_mem_nil

theorem merkleBackpointerSequence_lt {e p : ℕ} (hp : p ∈ merkleBackpointerSequence e) : 0 < p ∧ p < e := by
  unfold merkleBackpointerSequence at hp
  split at hp
  case h_6 => exact backpointerLoop_lt e 1 one_pos p hp
  all_goals simp only [mem_cons, not_mem_nil, or_false] at hp
  all_goals omega

variable [MerkleHash H]

def buildBackPointerHash (db : Store H) (epno : MerkleEpno) : Except CoreError H := do
  let seq := merkleBackpointerSequence epno
  let bps ← db.selectRootHashes seq
  return hashBackPointers (seq.zipWith MerkleBackPointer.mk bps)

/-- The new hostchain tail is older than the stored one. -/
def OlderTail (curr new : Option (HostchainTail H)) : Prop :=
  match new, curr with
  | some new, some curr => curr.seqno > new.seqno
  | _, _ => False

instance (curr new : Option (HostchainTail H)) : Decidable (OlderTail curr new) := by
  unfold OlderTail
  split <;> infer_instance

/-- The tail to insert: the new one, unless its sequence number is stored already. -/
def insertedTail (curr new : Option (HostchainTail H)) : Option (HostchainTail H) :=
  match new, curr with
  | some new, some curr => if curr.seqno = new.seqno then none else some new
  | new, _ => new

/-- `storeRoot`; `now` is the clock, for a call without a time. -/
def storeRoot (db : Store H) (epno : MerkleEpno) (rootNode : PrefixedHash H) (time now : Time)
    (newHct : Option (HostchainTail H)) : Except CoreError (Store H) := do
  let bphash ← buildBackPointerHash db epno
  let currHct := db.selectCurrentHostchainTail
  refuse (OlderTail currHct newHct) (.merkleTreeError "hostchain tail is older than current")
  let r1 : MerkleRootV1 H :=
    { epno
      time := if time = 0 then now else time
      rootNode := rootNode.hash
      backPointers := bphash
      hostchain := (newHct.or currHct).getD ⟨0, zero⟩ }
  db.insertRoot epno r1.time (hashRoot (.v1 r1)) (.v1 r1) rootNode (insertedTail currHct newHct)

def engineStoreRoot (db : Store H) (time now : Time) (hct : HostchainTail H) (bk : Bookkeeping) :
    Except CoreError (Store H) := do
  let root ← db.selectRootForTraversal none
  let db ← storeRoot db (root.epno + 1) root.rootNode time now (some hct)
  db.updateBookkeeping bk

/-! ## Insertion -/

/-- The bit that a path leads to, when it starts at bit `base`. -/
def endOfPath (base : ℕ) (path : List (LookupPathNode H)) : ℕ :=
  match path.getLast? with
  | none => base
  | some last => last.keyBitStart + last.keyBitsMatched

/-- The nodes that an insertion adds at the end of the path, from the bottom up. -/
def outputNodes (bitsMatched : ℕ) (key : MerkleTreeRFOutput) (newLeafHash : H)
    (last : Option (LookupPathNode H)) (leaf : Option (LookupLeaf H)) :
    Except CoreError (List (Node H)) :=
  match leaf, last with
  | some leaf, _ => do
    -- a leaf with another key: a node above the two leaves
    let (bytes, numbits, splitBit) ← computePrefixMatch key.bytes leaf.leaf.key.bytes bitsMatched
    let (left, right) := if !splitBit then (newLeafHash, leaf.hash.hash)
      else (leaf.hash.hash, newLeafHash)
    return [⟨⟨bytes, bitsMatched, numbits⟩, ⟨.leaf, left⟩, ⟨.leaf, right⟩⟩]
  | none, some firstMiss => do
    -- a segment that the key leaves: it is split in two, with the new leaf at the bit between
    let (top, splitBit, bottom) ← firstMiss.node.prfx.split firstMiss.keyBitsMatched
    let pathBottom := { firstMiss.node with prfx := bottom }
    let node : PrefixedHash H := ⟨.node, pathBottom.hash⟩
    let leaf : PrefixedHash H := ⟨.leaf, newLeafHash⟩
    let (left, right) := if splitBit then (leaf, node) else (node, leaf)
    return [pathBottom, ⟨top, left, right⟩]
  | none, none => return []

/-- The part of the path above the new nodes: without the node whose segment is split. -/
def pathAbove (path : List (LookupPathNode H)) (leaf : Option (LookupLeaf H)) : List (LookupPathNode H) :=
  match leaf with
  | some _ => path
  | none => path.dropLast

/-- `propagateUpdates`: the nodes of the path, from its end to the root, with their new
children. -/
def propagateUpdates : List (LookupPathNode H) → List (Node H) → Except CoreError (List (Node H))
  | [], outputPath => .ok outputPath
  | here :: path, outputPath => do
    let outputPath ← propagateUpdates path outputPath
    match outputPath.getLast? with
    | none => .error (.internalError "expected output node in storeUpdatePath")
    | some prev => return outputPath ++ [here.node.setChild here.next ⟨.node, prev.hash⟩]

/-- `storeNode`, for the nodes of the path. -/
def storeNodes (db : Store H) (outputPath : List (Node H)) : Except CoreError (Store H) :=
  outputPath.foldlM (fun db n => db.insertNode n.hash n) db

def updateOptional (db : Store H) : Option Bookkeeping → Except CoreError (Store H)
  | none => .ok db
  | some bk => db.updateBookkeeping bk

/-- The root of the new path: its last node, or the leaf if it has none. -/
def newRootNode (leaf : MerkleLeaf H) (outputPath : List (Node H)) : PrefixedHash H :=
  match outputPath.getLast? with
  | none => ⟨.leaf, leaf.hash⟩
  | some n => ⟨.node, n.hash⟩

def storeUpdatedPath (db : Store H) (epno : MerkleEpno) (leaf : MerkleLeaf H)
    (outputPath : List (Node H)) (arg : InsertKeyValueArg H) (now : Time) :
    Except CoreError (Store H) := do
  let db ← db.insertLeaf leaf.hash leaf epno
  let db ← storeNodes db outputPath
  let db ← storeRoot db epno (newRootNode leaf outputPath) arg.time now arg.hct
  updateOptional db arg.bk

def insertKeyValueTryTx (db : Store H) (arg : InsertKeyValueArg H) (now : Time) : Except CoreError (Store H) :=
  let newLeaf : MerkleLeaf H := ⟨arg.key, arg.val⟩
  match lookupPathWithLock db arg.key none with
  | .error .merkleNoRootError => storeUpdatedPath db merkleEpnoFirst newLeaf [] arg now
  | .error err => .error err
  | .ok lookupRes =>
    if lookupRes.leaf.any (·.isMatch) then updateOptional db arg.bk
    else do
      let path := lookupRes.path
      let outputPath ← outputNodes (endOfPath 0 path) arg.key newLeaf.hash path.getLast? lookupRes.leaf
      let outputPath ← propagateUpdates (pathAbove path lookupRes.leaf) outputPath
      storeUpdatedPath db (lookupRes.epno + 1) newLeaf outputPath arg now

/-! ## The first root -/

/-- The leaf of zeroes. -/
def nilLeaf : MerkleLeaf H := ⟨⟨replicate 32 0, length_zeros⟩, zero⟩

/-- `InitTree`: the tree of the empty leaf, which another host of the database may have stored. -/
def initTree (db : Store H) (now : Time) : Except CoreError (Store H) :=
  let phash : PrefixedHash H := ⟨.leaf, (nilLeaf (H := H)).hash⟩
  let r1 : MerkleRootV1 H :=
    { epno := merkleEpnoFirst
      time := now
      rootNode := phash.hash
      backPointers := hashBackPointers []
      hostchain := ⟨0, zero⟩ }
  match db.selectRootForTraversal none with
  | .error .merkleNoRootError => do
    let db ← match db.selectLeaf phash with
      | .error .merkleLeafNotFoundError => db.insertLeaf phash.hash nilLeaf r1.epno
      | _ => pure db
    db.insertRoot r1.epno r1.time (hashRoot (.v1 r1)) (.v1 r1) phash none
  | _ => .error (.merkleInitError "tree already initialized")

/-! ## Operations -/

/-- The operations of the engine, with the time of the clock. -/
inductive Op (H : Type) where
  | insertKeyValue (arg : InsertKeyValueArg H) (now : Time)
  | storeRoot (time : Time) (hct : HostchainTail H) (bk : Bookkeeping) (now : Time)

def step (db : Store H) : Op H → Except CoreError (Store H)
  | .insertKeyValue arg now => insertKeyValueTryTx db arg now
  | .storeRoot time hct bk now => engineStoreRoot db time now hct bk

end Foks.Merkle
