import Foks.Lib.Radix
import Foks.Merkle.Bits

/-!
# Nodes of the Merkle tree

The tree is kept as a set of nodes that name their children by hash. A node covers a segment of
the key, the bits that all keys below it share, and branches on the bit after the segment. The
bytes of a segment start at the byte of its first bit and may hold other bits around it: a
segment that was split keeps sharing bytes with its neighbours. What is hashed is the segment
with the other bits cleared.

A hash is a value of a type `H` with a distinguished zero, which stands for the array of zeroes.
All that is assumed of the hash of nodes is `SoundHash`: it is injective on encoded nodes, and it
is never zero.
-/

namespace Foks.Merkle

open Lib List

/-- `proto.MerkleTreeRFOutput`: the 32 bytes of a key. -/
structure MerkleTreeRFOutput where
  bytes : List UInt8
  size : bytes.length = 32
  deriving DecidableEq

theorem length_zeros : (replicate 32 (0 : UInt8)).length = 32 := rfl

variable (k : MerkleTreeRFOutput)

/-- The bits of a key. -/
def MerkleTreeRFOutput.bit (i : ℕ) : Bool := bitOf k.bytes i

/-- The number of bits of a key. -/
def keyBits : ℕ := 256

theorem MerkleTreeRFOutput.bits_length : 8 * k.bytes.length = keyBits := by
  rw [k.size]
  rfl

theorem MerkleTreeRFOutput.ext_bit {k k' : MerkleTreeRFOutput}
    (h : ∀ i < keyBits, k.bit i = k'.bit i) : k = k' := by
  obtain ⟨bs, hbs⟩ := k
  obtain ⟨bs', hbs'⟩ := k'
  rw [MerkleTreeRFOutput.mk.injEq]
  refine eq_of_bitOf (hbs.trans hbs'.symm) fun i hi => h i ?_
  rw [hbs] at hi
  exact hi

theorem MerkleTreeRFOutput.bitAt_eq_ok {i : ℕ} (hi : i < keyBits) : bitAt k.bytes i = .ok (k.bit i) :=
  bitAt_of_lt (by rwa [k.bits_length])

/-- `proto.MerkleEpno`: the number of a stored root, from one. -/
abbrev MerkleEpno := ℕ

def merkleEpnoFirst : MerkleEpno := 1

inductive MerkleNodeType where
  | leaf
  | node
  deriving DecidableEq, Repr

section Types

variable (H : Type)

structure MerkleLeaf where
  key : MerkleTreeRFOutput
  value : H
  deriving DecidableEq

structure MerkleInteriorNode where
  prefixBitStart : ℕ
  prefixBitCount : ℕ
  prfx : List UInt8
  left : H
  right : H
  deriving DecidableEq

inductive MerkleNode where
  | leaf (l : MerkleLeaf H)
  | node (n : MerkleInteriorNode H)
  deriving DecidableEq

structure HostchainTail where
  seqno : Seqno
  hash : H
  deriving DecidableEq

@[ext] structure MerkleBackPointer where
  epno : MerkleEpno
  hash : H
  deriving DecidableEq

structure MerkleRootV1 where
  epno : MerkleEpno
  time : Time
  backPointers : H
  rootNode : H
  hostchain : HostchainTail H
  deriving DecidableEq

/-- `proto.MerkleRoot`: a root of the known version, or of a later one. -/
inductive MerkleRoot where
  | v1 (r : MerkleRootV1 H)
  | future (v : ℕ)
  deriving DecidableEq

/-- A hash with the type of what it points to, as the nodes of the server keep it. -/
structure PrefixedHash where
  typ : MerkleNodeType
  hash : H
  deriving DecidableEq

structure Segment where
  bytes : List UInt8
  bitStart : ℕ
  bitCount : ℕ
  deriving DecidableEq

structure Node where
  prfx : Segment
  left : PrefixedHash H
  right : PrefixedHash H
  deriving DecidableEq

/-- The hashes of the tree, and the hash that is all zeroes. -/
class MerkleHash where
  zero : H
  hashNode : MerkleNode H → H
  hashRoot : MerkleRoot H → H
  hashBackPointers : List (MerkleBackPointer H) → H

end Types

variable {H : Type}

/-- What is assumed of the hash of nodes. -/
structure SoundHash (H : Type) [MerkleHash H] : Prop where
  injective : Function.Injective (MerkleHash.hashNode (H := H))
  ne_zero : ∀ n : MerkleNode H, MerkleHash.hashNode n ≠ MerkleHash.zero

open MerkleHash

/-! ## Segments -/

/-- `Segment.Split`: the first `nbits` bits, the bit after them, and the rest. -/
def Segment.split (s : Segment) (nbits : ℕ) : Except CoreError (Segment × Bool × Segment) := do
  refuse (s.bitCount ≤ nbits) (.internalError "attempt to slice a segment would overflow bounds")
  let bitSplit := s.bitStart + nbits
  let offset := s.bitStart - s.bitStart % 8
  let splitBit := bitSplit - offset
  let rightBitStart := splitBit + 1
  let left : Segment :=
    { bitCount := nbits
      bitStart := s.bitStart
      bytes := s.bytes.take (splitBit / 8 + 1) }
  let splitBitValue := s.bytes.getD (splitBit / 8) 0 &&& (1 <<< UInt8.ofNat (7 - splitBit % 8)) ≠ 0
  let right : Segment :=
    { bitCount := s.bitCount - nbits - 1
      bitStart := rightBitStart + offset
      bytes := s.bytes.drop (rightBitStart / 8) }
  return (left, splitBitValue, right)

/-- The bits of the segment are those of the key, and the bytes are long enough for them. -/
structure Segment.Holds (s : Segment) (k : MerkleTreeRFOutput) : Prop where
  long : s.bitStart % 8 + s.bitCount ≤ 8 * s.bytes.length
  bits : ∀ i < s.bitCount, bitOf s.bytes (s.bitStart % 8 + i) = k.bit (s.bitStart + i)

variable {s : Segment}

theorem Segment.Holds.congr {k k' : MerkleTreeRFOutput} (h : s.Holds k)
    (hagree : Radix.Agree MerkleTreeRFOutput.bit k k' s.bitStart (s.bitStart + s.bitCount)) :
    s.Holds k' where
  long := h.long
  bits i hi := (h.bits i hi).trans (hagree _ (by omega) (by omega))

/-- The segment that is cut from a key at the byte of its first bit. -/
theorem Segment.holds_cut {start count : ℕ} (hend : start + count ≤ keyBits) :
    Segment.Holds ⟨(k.bytes.drop (start / 8)).take ((start % 8 + count + 7) / 8), start, count⟩ k where
  long := by
    simp only [length_take, length_drop, k.size]
    unfold keyBits at hend
    omega
  bits i hi := by
    simp only at hi ⊢
    rw [bitOf_take (by omega), bitOf_drop]
    congr 1
    omega

theorem Segment.split_eq_ok {n : ℕ} (hlong : s.bitStart % 8 + s.bitCount ≤ 8 * s.bytes.length)
    (hn : n < s.bitCount) :
    ∃ left right b, s.split n = .ok (left, b, right) ∧
      left.bitStart = s.bitStart ∧ left.bitCount = n ∧
      right.bitStart = s.bitStart + n + 1 ∧ right.bitCount = s.bitCount - n - 1 ∧
      ∀ k, s.Holds k → left.Holds k ∧ right.Holds k ∧ b = k.bit (s.bitStart + n) := by
  have hsplit : s.bitStart + n - (s.bitStart - s.bitStart % 8) = s.bitStart % 8 + n := by omega
  have hstart : s.bitStart % 8 + n + 1 + (s.bitStart - s.bitStart % 8) = s.bitStart + n + 1 := by
    omega
  have hrun : s.split n = .ok (⟨s.bytes.take ((s.bitStart % 8 + n) / 8 + 1), s.bitStart, n⟩,
        bitOf s.bytes (s.bitStart % 8 + n),
        ⟨s.bytes.drop ((s.bitStart % 8 + n + 1) / 8), s.bitStart + n + 1, s.bitCount - n - 1⟩) := by
    rw [Segment.split, refuse, if_neg (by omega)]
    simp only [hsplit, hstart]
    rw [and_shiftLeft_ne_zero (by omega)]
    rfl
  refine ⟨_, _, _, hrun, rfl, rfl, rfl, rfl, fun k hk =>
    ⟨⟨?_, fun i hi => ?_⟩, ⟨?_, fun i hi => ?_⟩, hk.bits n hn⟩⟩
  · simp only [length_take]
    omega
  · simp only at hi ⊢
    rw [bitOf_take (by omega)]
    exact hk.bits i (by omega)
  · simp only [length_drop]
    omega
  -- the bytes before the right part are whole, so its bits keep their place in a byte
  simp only at hi ⊢
  rw [bitOf_drop, show 8 * ((s.bitStart % 8 + n + 1) / 8) + ((s.bitStart + n + 1) % 8 + i)
    = s.bitStart % 8 + (n + 1 + i) by omega, hk.bits _ (by omega)]
  congr 1
  omega

/-- `Segment.ExportToNode`: the segment as it is hashed, with the bits around it cleared. -/
def Segment.exportToNode (s : Segment) (left right : H) : MerkleInteriorNode H :=
  { prefixBitStart := s.bitStart
    prefixBitCount := s.bitCount
    prfx := shiftCopyAndClamp s.bytes s.bitStart s.bitCount
    left := left
    right := right }

theorem Segment.Holds.copyAndClamp {k : MerkleTreeRFOutput} (h : s.Holds k)
    (hend : s.bitStart + s.bitCount ≤ keyBits) (left right : H) :
    Merkle.copyAndClamp k.bytes s.bitStart s.bitCount = some (s.exportToNode left right).prfx :=
  shiftCopyAndClamp_eq_copyAndClamp (by rwa [k.bits_length]) h.long h.bits

/-! ## Nodes -/

variable (n : Node H)

def Node.select (b : Bool) : PrefixedHash H := if b then n.right else n.left

def Node.setChild (b : Bool) (ph : PrefixedHash H) : Node H :=
  if b then { n with right := ph } else { n with left := ph }

def Node.buildNode : MerkleInteriorNode H :=
  n.prfx.exportToNode n.left.hash n.right.hash

def Node.hash [MerkleHash H] (n : Node H) : H := hashNode (.node n.buildNode)

def MerkleLeaf.hash [MerkleHash H] (l : MerkleLeaf H) : H := hashNode (.leaf l)

@[simp] theorem Node.setChild_prfx (b : Bool) (ph : PrefixedHash H) : (n.setChild b ph).prfx = n.prfx := by
  cases b <;> rfl

theorem Node.select_setChild (b c : Bool) (ph : PrefixedHash H) :
    (n.setChild b ph).select c = if c = b then ph else n.select c := by
  cases b <;> cases c <;> rfl

theorem Node.hash_inj [MerkleHash H] (hs : SoundHash H) {n n' : Node H} (h : n.hash = n'.hash) :
    n.prfx.bitStart = n'.prfx.bitStart ∧ ∀ b, (n.select b).hash = (n'.select b).hash := by
  have hbuild := MerkleNode.node.inj (hs.injective h)
  refine ⟨congrArg MerkleInteriorNode.prefixBitStart hbuild, fun b => ?_⟩
  cases b
  · exact congrArg MerkleInteriorNode.left hbuild
  · exact congrArg MerkleInteriorNode.right hbuild

theorem MerkleLeaf.hash_inj [MerkleHash H] (hs : SoundHash H) {l l' : MerkleLeaf H}
    (h : l.hash = l'.hash) : l = l' :=
  MerkleNode.leaf.inj (hs.injective h)

/-- A leaf and a node are never confused. -/
theorem MerkleLeaf.hash_ne [MerkleHash H] (hs : SoundHash H) (l : MerkleLeaf H) (n : Node H) :
    l.hash ≠ n.hash :=
  fun h => by cases hs.injective h

/-! ## Symbolic hashes -/

/-- Hashes as terms: what is hashed can be read off the hash. -/
inductive SymHash where
  | zero
  | atom (n : ℕ)
  | leaf (key : List UInt8) (value : SymHash)
  | node (start count : ℕ) (prfx : List UInt8) (left right : SymHash)
  deriving DecidableEq

instance : MerkleHash SymHash where
  zero := .zero
  hashNode
    | .leaf l => .leaf l.key.bytes l.value
    | .node n => .node n.prefixBitStart n.prefixBitCount n.prfx n.left n.right
  hashRoot
    | .v1 r => .atom r.epno
    | .future v => .atom v
  hashBackPointers _ := .zero

theorem soundHash_symHash : SoundHash SymHash where
  injective := by
    rintro (⟨⟨ks, hk⟩, v⟩ | ⟨s, c, b, l, r⟩) (⟨⟨ks', hk'⟩, v'⟩ | ⟨s', c', b', l', r'⟩) h
    · cases h
      rfl
    · cases h
    · cases h
    · cases h
      rfl
  ne_zero := by
    rintro (l | n) h <;> cases h

end Foks.Merkle
