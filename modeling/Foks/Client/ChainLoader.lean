import Foks.Core.Entity
import Foks.Lib.Action
import Foks.Merkle.Client

/-!
# Checking a chain against the Merkle tree

`client/libclient/base_chain_loader.go`: the loaders of user chains, team chains and side chains
share the object that checks the links of a reply. The links must follow each other, and each of
them must be the leaf of the tree at the location that the link before it has committed to; at
the location after the last link there must be nothing.

The hashes of the links, and the leaves, are appended to lists of the object, also when a check
fails later on.
-/

namespace Foks.Client

open Lib Merkle List Action Prod
open Lib.Action (refuse_bind_eq_ok)

/-- `proto.TreeLocation`: 32 random bytes. -/
abbrev TreeLocation := ℕ

inductive ChainType where
  | user
  | name
  | userSettings
  | team
  | teamMembership
  deriving DecidableEq, Repr

def ChainType.isPartyType : ChainType → Bool
  | .user | .team => true
  | _ => false

def chainEldestSeqno : Seqno := 1

def isEldest (s : Seqno) : Bool := s == chainEldestSeqno

/-- `proto.MerkleTreeRFInput`: what the key of a link in the tree is hashed from. -/
structure MerkleTreeRFInput where
  seqno : Seqno
  entity : EntityID
  ct : ChainType
  location : Option TreeLocation
  deriving DecidableEq

section Types

variable (H : Type)

structure TreeRoot where
  epno : MerkleEpno
  hash : H
  deriving DecidableEq

structure BaseChainer where
  seqno : Seqno
  prev : Option H
  root : TreeRoot H
  time : Time
  deriving DecidableEq

/-- `proto.HidingChainer`: the link is at the location that the link before it has committed to,
and commits to the location of the next one. -/
structure HidingChainer where
  base : BaseChainer H
  nextLocationCommitment : H
  deriving DecidableEq

structure MerklePathCompressedPair where
  path : MerklePathCompressedBlob H
  terminal : MerklePathTerminal H
  deriving DecidableEq

/-- `proto.MerklePathsCompressed`: many paths under one root. -/
structure MerklePathsCompressed where
  root : MerkleRoot H
  paths : List (MerklePathCompressedPair H)
  deriving DecidableEq

/-- `BaseChainLoader`; the object is created with all fields empty. -/
structure BaseChainLoader where
  linkHashes : List H := []
  lastHash : Option H := none
  merkleLeaves : List (MerkleLeaf H) := []
  fatalError : Option CoreError := none
  deriving DecidableEq

end Types

/-- `ChainLoaderTesting`: checks that tests may skip. -/
structure ChainLoaderTesting where
  skipMerkleLeafValueCheck : Bool
  skipPrevCheck : Bool
  deriving DecidableEq

/-- The hash of a link, whose type is `L`. -/
class LinkHash (L H : Type) where
  linkHash : L → H

/-- The hash of a location that is committed to, and of the place of a link in the tree. -/
class LocationHash (H : Type) where
  commit : TreeLocation → H
  keyHash : MerkleTreeRFInput → MerkleTreeRFOutput

/-- What is assumed of the hashes of chains. -/
structure SoundChainHash (L H : Type) [LinkHash L H] [LocationHash H] : Prop where
  link_injective : Function.Injective (LinkHash.linkHash : L → H)
  commit_injective : Function.Injective (LocationHash.commit : TreeLocation → H)

open LinkHash LocationHash

variable {L H : Type} [DecidableEq H] [MerkleHash H] [LinkHash L H] [LocationHash H]

def chainLoaderGenericError (msg : String) : CoreError := .chainLoaderError false (.errorsNew msg)

/-- `queueFatalError`: only the first one is kept. -/
def BaseChainLoader.queueFatalError (b : BaseChainLoader H) (err : CoreError) : BaseChainLoader H :=
  if b.fatalError = none then { b with fatalError := some err } else b

def BaseChainLoader.addHashes (b : BaseChainLoader H) (hashes : List H) : BaseChainLoader H :=
  { b with linkHashes := b.linkHashes ++ hashes }

def BaseChainLoader.addLeaves (b : BaseChainLoader H) (leaves : List (MerkleLeaf H)) : BaseChainLoader H :=
  { b with merkleLeaves := b.merkleLeaves ++ leaves }

section

omit [DecidableEq H] [MerkleHash H] [LocationHash H]

section

variable (b : BaseChainLoader H)

include b

@[simp] theorem BaseChainLoader.addHashes_addHashes (hs hs' : List H) :
    (b.addHashes hs).addHashes hs' = b.addHashes (hs ++ hs') := by
  simp [addHashes]

@[simp] theorem BaseChainLoader.addLeaves_addLeaves
    (ls ls' : List (MerkleLeaf H)) : (b.addLeaves ls).addLeaves ls' = b.addLeaves (ls ++ ls') := by
  simp [addLeaves]

@[simp] theorem BaseChainLoader.addHashes_nil : b.addHashes [] = b := by
  simp [addHashes]

@[simp] theorem BaseChainLoader.addLeaves_nil : b.addLeaves [] = b := by
  simp [addLeaves]

end

end

def verifyTreeLocationCommitment (loc : TreeLocation) (given : H) : Except CoreError Unit :=
  refuse (commit loc ≠ given) (.commitmentError "bad location commitment")

/-! ## The checks -/

/-- An error that a test may have queued instead. -/
def failUnless (skip : Bool) (err : CoreError) : Action (BaseChainLoader H) CoreError Unit :=
  if skip then .update (·.queueFatalError err) else .fail err

/-- One turn of the loop of `checkChain`: the hash of the link. -/
def checkLink (which : String) (testing : Option ChainLoaderTesting) (link : L)
    (chainer : Option (HidingChainer H)) (prev : Option H) (seqno : Seqno) :
    Action (BaseChainLoader H) CoreError H :=
  match chainer with
  | none => .fail (chainLoaderGenericError "chainerAtIndex returned nil")
  | some ch => do
    let found := ch.base.seqno
    .refuse (found ≠ seqno) (.chainLoaderError true (.clBadSeqnoError which seqno found))
    let hsh : H := linkHash link
    .update (·.addHashes [hsh])
    if ch.base.prev ≠ prev then
      failUnless (testing.any (·.skipPrevCheck)) (.chainLoaderError false (.clBadPrevError seqno))
    .refuse (isEldest seqno ≠ prev.isNone) (chainLoaderGenericError "prev==nil iff seqno==1")
    return hsh

/-- The loop of `checkChain`, from link `i` on. -/
def checkLinks (which : String) (testing : Option ChainLoaderTesting)
    (chainerAtIndex : ℕ → Option (HidingChainer H)) : ℕ → List L → Option H → Seqno →
    Action (BaseChainLoader H) CoreError (Option H)
  | _, [], prev, _ => pure prev
  | i, link :: links, prev, seqno => do
    let hsh ← checkLink which testing link (chainerAtIndex i) prev seqno
    checkLinks which testing chainerAtIndex (i + 1) links (some hsh) (seqno + 1)

def checkChain (prev : Option H) (seqno : Seqno) (links : List L)
    (chainerAtIndex : ℕ → Option (HidingChainer H)) (which : String)
    (testing : Option ChainLoaderTesting) : Action (BaseChainLoader H) CoreError Unit := do
  let prev ← checkLinks which testing chainerAtIndex 0 links prev seqno
  .update fun b => { b with lastHash := prev }

/-- `MerklePathsCompressed.Select` -/
def selectPath (root : MerkleRoot H) (p : MerklePathCompressedPair H) : MerklePathCompressed H :=
  ⟨root, p.path, p.terminal⟩

/-- The chain that is checked: of an entity and a type, at a first location that another chain may
have set, under a root. -/
structure ChainArg (H : Type) where
  eid : EntityID
  typ : ChainType
  loc0 : Option TreeLocation
  root : MerkleRoot H
  which : String
  testing : Option ChainLoaderTesting

variable (a : ChainArg H)

/-- The location of the next link, and the locations that are left. -/
def nextLocation (locations : List TreeLocation) (ntlc : Option H) (seqno : Seqno) :
    Except CoreError (Option TreeLocation × List TreeLocation) :=
  match ntlc, locations with
  | some ntlc, loc :: locations =>
    match verifyTreeLocationCommitment loc ntlc with
    | .ok () => .ok (some loc, locations)
    | .error err => .error (.chainLoaderError false (.clBadTreeLocationError seqno err))
  -- not reached, since the locations were counted
  | some _, [] => .error (.internalError "index out of range")
  | none, locations =>
    match a.loc0 with
    | some loc => .ok (some loc, locations)
    | none =>
      if a.typ.isPartyType && isEldest seqno then .ok (none, locations)
      else .error (.internalError "unexpected nil value for next tree location commitment")

/-- The verification of a path in `checkMerklePaths`: its failure may be a race. -/
def verifyAt (p : MerklePathCompressedPair H) (key : MerkleTreeRFOutput)
    (present : Bool) (seqno : Seqno) : Except CoreError (Option H) :=
  match verify (selectPath a.root p) key present with
  | .ok leaf => .ok leaf
  | .error err => .error (.chainLoaderError true (.clBadMerklePathError a.which seqno err))

open BaseChainLoader

/-- What `checkMerklePaths` does with the leaf of link `i`. -/
def checkLeaf (i : ℕ) (key : MerkleTreeRFOutput) (leaf : H) (seqno : Seqno) :
    Action (BaseChainLoader H) CoreError Unit := do
  let linkHashes ← .read linkHashes
  match linkHashes[i]? with
  -- not reached, since the links were hashed
  | none => .fail (.internalError "index out of range")
  | some hsh =>
    if leaf ≠ hsh then
      failUnless (a.testing.any (·.skipMerkleLeafValueCheck))
        (.chainLoaderError false (.clBadMerkleLeafValueError a.which seqno))
    .update (·.addLeaves [⟨key, leaf⟩])

/-- The loop of `checkMerklePaths`, from link `i` on. -/
def checkPaths (a : ChainArg H) (chainerAtIndex : ℕ → Option (HidingChainer H)) :
    ℕ → List (MerklePathCompressedPair H) → List TreeLocation → Option H → Seqno →
    Action (BaseChainLoader H) CoreError Unit
  | _, [], _, _, _ => pure ()
  | i, path :: paths, locations, ntlc, seqno => do
    let (loc, locations) ← (nextLocation a locations ntlc seqno : Except CoreError _)
    let key := keyHash H ⟨seqno, a.eid, a.typ, loc⟩
    let last := paths.isEmpty
    let leaf ← (verifyAt a path key (!last) seqno : Except CoreError _)
    if last then pure ()
    else
      match chainerAtIndex i, leaf with
      | none, _ => .fail (.internalError "chainerAtIndex returned nil")
      | some _, none => .fail (.internalError "unexpected nil leaf")
      | some ch, some leaf => do
        checkLeaf a i key leaf seqno
        checkPaths a chainerAtIndex (i + 1) paths locations (some ch.nextLocationCommitment) (seqno + 1)

def checkMerklePaths (locations : List TreeLocation) (links : List L)
    (chainerAtIndex : ℕ → Option (HidingChainer H)) (merklePaths : List (MerklePathCompressedPair H))
    (ntlc : Option H) (seqno : Seqno) (offset : ℕ) : Action (BaseChainLoader H) CoreError Unit := do
  -- `merklePaths.Paths[offset:]`; a count from 2^63 on is a negative number there
  .refuse (merklePaths.length < offset) outOfRange
  let paths := merklePaths.drop offset
  let l := paths.length
  .refuse (l ≠ links.length + 1)
    (.chainLoaderError false (.clBadCountError "merkle-paths" (links.length + 1) l))
  let neededLocations := if ntlc = none then l - 1 else l
  .refuse (neededLocations ≠ locations.length)
    (.chainLoaderError false (.clBadCountError "locations" neededLocations locations.length))
  checkPaths a chainerAtIndex 0 paths locations ntlc seqno

/-! ## Links that pass -/

/-- The links follow each other, from the link with hash `prev` on. -/
inductive Linked (chainer : L → HidingChainer H) : Option H → Seqno → List L → Prop
  | nil (prev : Option H) (seqno : Seqno) : Linked chainer prev seqno []
  | cons {prev : Option H} {seqno : Seqno} {l : L} {links : List L}
      (hseqno : (chainer l).base.seqno = seqno) (hprev : (chainer l).base.prev = prev)
      (h : Linked chainer (some (linkHash l)) (seqno + 1) links) :
      Linked chainer prev seqno (l :: links)

/-- The location of a link: the one that was committed to, or that of the first link. -/
def Located (ntlc : Option H) (loc : Option TreeLocation) : Prop :=
  match ntlc with
  | some c => ∃ l, loc = some l ∧ commit l = c
  | none => loc = a.loc0

/-- Each link is in the tree, at the location that was committed to, and there is no link after
the last one. -/
inductive Proven (a : ChainArg H) (chainer : L → HidingChainer H) : Option H → Seqno → List L → Prop
  | nil {ntlc : Option H} {seqno : Seqno} {loc : Option TreeLocation}
      {p : MerklePathCompressedPair H} (hloc : Located a ntlc loc)
      (habsent : verifyAbsence (selectPath a.root p) (keyHash H ⟨seqno, a.eid, a.typ, loc⟩) = .ok ()) :
      Proven a chainer ntlc seqno []
  | cons {ntlc : Option H} {seqno : Seqno} {loc : Option TreeLocation}
      {p : MerklePathCompressedPair H} {l : L} {links : List L} (hloc : Located a ntlc loc)
      (hpresent : verifyPresence (selectPath a.root p)
        (keyHash H ⟨seqno, a.eid, a.typ, loc⟩) = .ok (linkHash l))
      (h : Proven a chainer (some (chainer l).nextLocationCommitment) (seqno + 1) links) :
      Proven a chainer ntlc seqno (l :: links)

variable {which : String} {prev : Option H} {seqno : Seqno} {chainerAtIndex : ℕ → Option (HidingChainer H)}
  {chainer : L → HidingChainer H} {links : List L} {i : ℕ} {testing : Option ChainLoaderTesting}
    {a a' : ChainArg H}
  {locations : List TreeLocation} {ntlc : Option H} {key : MerkleTreeRFOutput}

section

omit [MerkleHash H] [LocationHash H]

variable {b b' : BaseChainLoader H}

theorem checkLink_eq_ok {link : L} {ch : HidingChainer H} {hsh : H}
    (h : checkLink which none link (some ch) prev seqno b = (.ok hsh, b')) :
    ch.base.seqno = seqno ∧ ch.base.prev = prev ∧ hsh = linkHash link ∧ b' = b.addHashes [hsh] := by
  unfold checkLink at h
  obtain ⟨hseqno, h1⟩ := refuse_bind_eq_ok.mp h
  have h2 := update_bind_eq_ok.mp h1
  by_cases hprev : ch.base.prev = prev
  · rw [if_neg (not_not.mpr hprev)] at h2
    obtain ⟨-, h3⟩ := refuse_bind_eq_ok.mp h2
    cases h3
    exact ⟨not_not.mp hseqno, hprev, rfl, rfl⟩
  · rw [if_pos hprev] at h2
    cases h2

theorem checkLinks_eq_ok {last : Option H}
    (hch : ∀ j, chainerAtIndex (i + j) = links[j]?.map chainer)
    (h : checkLinks which none chainerAtIndex i links prev seqno b = (.ok last, b')) :
    Linked chainer prev seqno links ∧ last = (links.getLast?.map linkHash).or prev ∧
      b' = b.addHashes (links.map linkHash) := by
  induction links generalizing i prev seqno b with
  | nil =>
    cases h
    exact ⟨.nil _ _, rfl, by simp⟩
  | cons l links ih =>
    obtain ⟨hsh, b1, hlink, h⟩ := bind_eq_ok.mp h
    have hfirst : chainerAtIndex i = some (chainer l) := hch 0
    rw [hfirst] at hlink
    obtain ⟨hseqno, hprev, rfl, rfl⟩ := checkLink_eq_ok hlink
    have hrest : ∀ j, chainerAtIndex (i + 1 + j) = links[j]?.map chainer := by
      intro j
      rw [add_assoc, add_comm 1 j, hch (j + 1), getElem?_cons_succ]
    obtain ⟨hlinked, hlast, rfl⟩ := ih hrest h
    refine ⟨.cons hseqno hprev hlinked, ?_, by simp⟩
    rw [hlast]
    cases links with
    | nil => rfl
    | cons l' links =>
      rw [getLast?_cons_cons, getLast?_eq_some_getLast (cons_ne_nil l' links)]
      rfl

/-- A leaf that passes is the hash of its link, and it is appended. -/
theorem checkLeaf_eq_ok (htest : a.testing = none) {leaf hsh : H}
    (hhash : b.linkHashes[i]? = some hsh) (h : checkLeaf a i key leaf seqno b = (.ok (), b')) :
    leaf = hsh ∧ b' = b.addLeaves [⟨key, leaf⟩] := by
  have h1 := read_bind_eq_ok.mp h
  rw [hhash] at h1
  dsimp only at h1
  by_cases hleaf : leaf = hsh
  · rw [if_neg (not_not.mpr hleaf)] at h1
    cases h1
    exact ⟨hleaf, rfl⟩
  · rw [if_pos hleaf, htest] at h1
    cases h1

end

section

omit [MerkleHash H] [LocationHash H]

/-- The loop reads the chainers of its links only. -/
theorem checkLinks_congr {f g : ℕ → Option (HidingChainer H)} {j : ℕ}
    (h : ∀ n < links.length, g (j + n) = f (i + n)) (prev : Option H) (seqno : Seqno) :
    checkLinks which testing g j links prev seqno = checkLinks which testing f i links prev seqno := by
  induction links generalizing i j prev seqno with
  | nil => rfl
  | cons l links ih =>
    have hfirst : g j = f i := h 0 (Nat.zero_lt_succ _)
    have hrest : ∀ n < links.length, g (j + 1 + n) = f (i + 1 + n) := by
      intro n hn
      rw [add_assoc, add_assoc, add_comm 1 n]
      exact h (n + 1) (Nat.succ_lt_succ hn)
    unfold checkLinks
    rw [hfirst]
    simp only [ih hrest]

theorem checkLinks_append {f : ℕ → Option (HidingChainer H)} {links' : List L} {last : Option H}
    (h : checkLinks which testing f i (links ++ links') prev seqno b = (.ok last, b')) :
    ∃ mid b1, checkLinks which testing f i links prev seqno b = (.ok mid, b1) ∧
      checkLinks which testing f (i + links.length) links' mid (seqno + links.length) b1 = (.ok last, b') := by
  induction links generalizing i prev seqno b with
  | nil => exact ⟨prev, b, rfl, h⟩
  | cons l links ih =>
    obtain ⟨hsh, b1, hlink, h1⟩ := bind_eq_ok.mp h
    obtain ⟨mid, b2, hlinks, hrest⟩ := ih h1
    rw [Nat.add_right_comm, Nat.add_right_comm seqno] at hrest
    exact ⟨mid, b2, bind_eq_ok.mpr ⟨hsh, b1, hlink, hlinks⟩, hrest⟩

/-- Links that pass `checkChain` follow each other, and all their hashes are appended. -/
theorem checkChain_eq_ok
    (h : checkChain prev seqno links (fun n => links[n]?.map chainer) which none b = (.ok (), b')) :
    Linked chainer prev seqno links ∧ b' = { b.addHashes (links.map linkHash) with
        lastHash := (links.getLast?.map linkHash).or prev } := by
  obtain ⟨last, b1, hlinks, h⟩ := bind_eq_ok.mp h
  obtain ⟨hlinked, rfl, rfl⟩ := checkLinks_eq_ok (i := 0) (fun j => by rw [zero_add]) hlinks
  cases h
  exact ⟨hlinked, rfl⟩

end

omit [MerkleHash H] in
theorem nextLocation_eq_ok {rest : List TreeLocation} {loc : Option TreeLocation}
    (h : nextLocation a locations ntlc seqno = .ok (loc, rest)) :
    Located a ntlc loc ∧ locations.length = rest.length + if ntlc = none then 0 else 1 := by
  unfold nextLocation at h
  cases ntlc with
  | some c =>
    cases locations with
    | nil => cases h
    | cons l locations =>
      dsimp only at h
      cases hcommit : verifyTreeLocationCommitment l c with
      | error e =>
        rw [hcommit] at h
        cases h
      | ok u =>
        rw [hcommit] at h
        cases h
        exact ⟨⟨l, rfl, of_refuse hcommit⟩, rfl⟩
  | none =>
    unfold Located
    cases hloc : a.loc0 with
    | some l =>
      rw [hloc] at h
      cases h
      exact ⟨rfl, rfl⟩
    | none =>
      rw [hloc] at h
      dsimp only at h
      split at h
      · cases h
        exact ⟨rfl, rfl⟩
      · cases h

omit [LocationHash H] in
theorem verifyAt_eq_ok {p : MerklePathCompressedPair H} {present : Bool} {leaf : Option H}
    (h : verifyAt a p key present seqno = .ok leaf) :
    verify (selectPath a.root p) key present = .ok leaf := by
  unfold verifyAt at h
  split at h
  · next leaf' hverify =>
    cases h
    exact hverify
  · cases h

/-- Links whose paths pass are proven, and their leaves are appended. -/
theorem checkPaths_eq_ok (htest : a.testing = none) {paths : List (MerklePathCompressedPair H)}
    (hlen : paths.length = links.length + 1)
    (hch : ∀ j, chainerAtIndex (i + j) = links[j]?.map chainer)
    (hhash : ∀ j l, links[j]? = some l → b.linkHashes[i + j]? = some (linkHash l))
    (h : checkPaths a chainerAtIndex i paths locations ntlc seqno b = (.ok (), b')) :
    Proven a chainer ntlc seqno links ∧ ∃ leaves, leaves.map MerkleLeaf.value = links.map linkHash ∧
      b' = b.addLeaves leaves := by
  induction links generalizing i paths locations ntlc seqno b with
  | nil =>
    obtain ⟨path, rfl⟩ : ∃ path, paths = [path] := length_eq_one_iff.mp hlen
    obtain ⟨⟨loc, rest⟩, b1, hloc, h1⟩ := bind_eq_ok.mp h
    obtain ⟨leaf, b2, hverify, h2⟩ := bind_eq_ok.mp h1
    refine ⟨.nil (nextLocation_eq_ok (mk.inj hloc).1).1
      (verify_false_eq_ok (verifyAt_eq_ok (mk.inj hverify).1)), [], rfl, ?_⟩
    obtain rfl : b = b1 := (mk.inj hloc).2
    obtain rfl : b = b2 := (mk.inj hverify).2
    rw [← (mk.inj h2).2, addLeaves_nil]
  | cons l links ih =>
    obtain ⟨path, next, paths, rfl⟩ : ∃ path next paths', paths = path :: next :: paths' := by
      rcases paths with _ | ⟨path, _ | ⟨next, paths⟩⟩
      · cases hlen
      · cases hlen
      · exact ⟨path, next, paths, rfl⟩
    obtain ⟨⟨loc, rest⟩, b1, hloc, h1⟩ := bind_eq_ok.mp h
    obtain ⟨leaf, b2, hverify, h2⟩ := bind_eq_ok.mp h1
    obtain ⟨v, rfl, hpresent⟩ := verify_true_eq_ok (verifyAt_eq_ok (mk.inj hverify).1)
    have hfirst : chainerAtIndex i = some (chainer l) := hch 0
    rw [hfirst] at h2
    obtain ⟨⟨⟩, b3, hleaf, h3⟩ := bind_eq_ok.mp h2
    -- the verification has not touched the object
    obtain rfl : b = b1 := (mk.inj hloc).2
    obtain rfl : b = b2 := (mk.inj hverify).2
    obtain ⟨rfl, rfl⟩ := checkLeaf_eq_ok htest (hhash 0 l rfl) hleaf
    have hrest : ∀ j, chainerAtIndex (i + 1 + j) = links[j]?.map chainer := by
      intro j
      rw [add_assoc, add_comm 1 j, hch (j + 1), getElem?_cons_succ]
    obtain ⟨hproven, leaves, hvalues, rfl⟩ := ih (by simpa using hlen) hrest (fun j l' hl' => by
      rw [add_assoc, add_comm 1 j]
      exact hhash (j + 1) l' hl') h3
    refine ⟨.cons (nextLocation_eq_ok (mk.inj hloc).1).1 hpresent hproven,
      ⟨keyHash H ⟨seqno, a.eid, a.typ, loc⟩, linkHash l⟩ :: leaves, ?_, ?_⟩
    · rw [map_cons, hvalues, map_cons]
    · rw [addLeaves_addLeaves, singleton_append]

theorem checkMerklePaths_eq_ok (htest : a.testing = none) {merklePaths : List (MerklePathCompressedPair H)}
    {offset : ℕ}
    (hhash : b.linkHashes = links.map linkHash)
    (h : checkMerklePaths a locations links (fun n => links[n]?.map chainer) merklePaths ntlc seqno
      offset b = (.ok (), b')) :
    Proven a chainer ntlc seqno links ∧ ∃ leaves, leaves.map MerkleLeaf.value = links.map linkHash ∧
      b' = b.addLeaves leaves := by
  obtain ⟨-, h0⟩ := refuse_bind_eq_ok.mp h
  obtain ⟨hlen, h1⟩ := refuse_bind_eq_ok.mp h0
  obtain ⟨-, h2⟩ := refuse_bind_eq_ok.mp h1
  refine checkPaths_eq_ok htest (not_not.mp hlen) (fun j => ?_) (fun j l hl => ?_) h2
  · rw [zero_add]
  · rw [hhash, zero_add, getElem?_map, hl]
    rfl

/-! ## One root node, one chain -/

omit [DecidableEq H] [MerkleHash H] in
theorem Located.unique (hc : SoundChainHash L H) (hloc0 : a.loc0 = a'.loc0)
    {loc loc' : Option TreeLocation} (h : Located a ntlc loc) (h' : Located a' ntlc loc') : loc = loc' := by
  cases ntlc with
  | none => exact h.trans (hloc0.trans h'.symm)
  | some c =>
    obtain ⟨l, rfl, hl⟩ := h
    obtain ⟨l', rfl, hl'⟩ := h'
    rw [hc.commit_injective (hl.trans hl'.symm)]

/-- The same chain, in trees with one root node. -/
structure SameChain (a a' : ChainArg H) : Prop where
  eid : a.eid = a'.eid
  typ : a.typ = a'.typ
  loc0 : a.loc0 = a'.loc0
  root : ∃ r r', a.root = .v1 r ∧ a'.root = .v1 r' ∧ r.rootNode = r'.rootNode

omit [DecidableEq H] [MerkleHash H] [LocationHash H] in
theorem SameChain.symm (h : SameChain a a') : SameChain a' a := by
  obtain ⟨r, r', hr, hr', hnode⟩ := h.root
  exact ⟨h.eid.symm, h.typ.symm, h.loc0.symm, r', r, hr', hr, hnode.symm⟩

/-- Links that are proven from one commitment on, under one root node, are the same. -/
theorem Proven.unique (hs : SoundHash H) (hc : SoundChainHash L H)
    (hsame : SameChain a a') {links' : List L} (h : Proven a chainer ntlc seqno links)
    (h' : Proven a' chainer ntlc seqno links') : links = links' := by
  obtain ⟨r, r', hr, hr', hnode⟩ := hsame.root
  induction h generalizing links' with
  | nil hloc habsent =>
    cases h' with
    | nil => rfl
    | cons hloc' hpresent' =>
      -- the other list goes on where this one has nothing
      rw [hsame.eid, hsame.typ, hloc.unique hc hsame.loc0 hloc'] at habsent
      exact absurd habsent (not_absent_of_present hs hr' hr hnode.symm hpresent')
  | @cons ntlc seqno loc p l links hloc hpresent h ih =>
    rw [hsame.eid, hsame.typ] at hpresent
    cases h' with
    | nil hloc' habsent' =>
      rw [hloc.unique hc hsame.loc0 hloc'] at hpresent
      exact absurd habsent' (not_absent_of_present hs hr hr' hnode hpresent)
    | @cons _ _ _ p' l' links' hloc' hpresent' h' =>
      rw [hloc.unique hc hsame.loc0 hloc'] at hpresent
      have hhash : (linkHash l : H) = linkHash l' :=
        present_unique hs hr hr' hnode hpresent hpresent'
      obtain rfl : l = l' := hc.link_injective hhash
      rw [ih h']

end Foks.Client
