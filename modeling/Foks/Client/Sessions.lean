import Foks.Client.ChainLoader
import Mathlib.Data.List.Induction

/-!
# Clients that load a chain again and again

A client loads a chain, keeps the last link of it, and continues from there the next time. Its
links are those of all its loads. Clients that have the same root node of the tree have the same
links, as long as what they have kept from earlier loads, under other roots, is a link of the
other client too: the links before it are then the same by their hashes, and the links after it
by the tree.
-/

namespace Foks.Client

open Lib Merkle LinkHash LocationHash List

variable {L H : Type}

/-- What a client keeps of a chain: the fields of `lcl.UserSigchainState`, `lcl.TeamChainState` and
`lcl.GenericChainState` that a load starts from. -/
structure ChainState (H : Type) where
  tail : HidingChainer H
  lastHash : H
  deriving DecidableEq

/-- What a server sends; the first `offset` paths are about the name. -/
structure ChainReply (L H : Type) where
  links : List L
  locations : List TreeLocation
  merkle : MerklePathsCompressed H
  offset : ℕ
  deriving DecidableEq

/-- A chain, as the loaders of a client name it. -/
structure Chain where
  eid : EntityID
  typ : ChainType
  loc0 : Option TreeLocation
  which : String
  deriving DecidableEq

def Chain.arg (c : Chain) (reply : ChainReply L H) : ChainArg H :=
  ⟨c.eid, c.typ, c.loc0, reply.merkle.root, c.which, none⟩

variable (st : Option (ChainState H))

/-- The hash of the link before the next one. -/
def prevOf : Option H := st.map (·.lastHash)

def seqnoOf : Seqno :=
  match st with
  | none => chainEldestSeqno
  | some st => st.tail.base.seqno + 1

/-- The commitment to the location of the next link. -/
def ntlcOf : Option H := st.map (·.tail.nextLocationCommitment)

/-- The state after the links: that of the last one. -/
def stateOf [LinkHash L H] (chainer : L → HidingChainer H) (links : List L) : Option (ChainState H) :=
  links.getLast?.map fun l => ⟨chainer l, linkHash l⟩

variable [DecidableEq H] [MerkleHash H] [LinkHash L H] [LocationHash H]

/-- A load: the checks of the reply, by a new object. The chainers are read from the links. -/
def load (c : Chain) (chainer : L → HidingChainer H) (st : Option (ChainState H))
    (reply : ChainReply L H) : Except CoreError Unit × BaseChainLoader H :=
  (do
    checkChain (prevOf st) (seqnoOf st) reply.links (fun n => reply.links[n]?.map chainer) c.which none
    checkMerklePaths (c.arg reply) reply.locations reply.links
      (fun n => reply.links[n]?.map chainer) reply.merkle.paths (ntlcOf st) (seqnoOf st)
      reply.offset : Action (BaseChainLoader H) CoreError Unit) {}

/-- What is kept after a load: the last link with the last hash, if there are links. -/
def saveState (chainer : L → HidingChainer H) (st : Option (ChainState H)) (reply : ChainReply L H)
    (b : BaseChainLoader H) : Option (ChainState H) :=
  match reply.links.getLast?, b.lastHash with
  | some l, some lastHash => some ⟨chainer l, lastHash⟩
  | _, _ => st

/-- The state of a client after accepted loads, with the links of all of them. -/
inductive Saved (c : Chain) (chainer : L → HidingChainer H) : Option (ChainState H) → List L → Prop
  | start : Saved c chainer none []
  | load {st : Option (ChainState H)} {links : List L} {reply : ChainReply L H}
      {b : BaseChainLoader H} (h : Saved c chainer st links)
      (hload : Client.load c chainer st reply = (.ok (), b)) :
      Saved c chainer (saveState chainer st reply b) (links ++ reply.links)

/-- The kept link is also a link of the list. -/
def TailMatches (st : Option (ChainState H)) (links : List L) : Prop :=
  ∀ s, st = some s → ∃ l, links[s.tail.base.seqno - 1]? = some l ∧ linkHash l = s.lastHash

/-! ## Chains of hashes -/

section Linked

variable {chainer : L → HidingChainer H} {prev : Option H} {seqno : Seqno} {links links' : List L}

omit [DecidableEq H] [MerkleHash H] [LocationHash H]

/-- The hash of the last link, or the one before all links. -/
def lastOf (prev : Option H) (links : List L) : Option H := (links.getLast?.map linkHash).or prev

theorem lastOf_cons (l : L) (links : List L) : lastOf prev (l :: links) = lastOf (some (linkHash l)) links := by
  cases links with
  | nil => rfl
  | cons l' links =>
    rfl

theorem linked_append : Linked chainer prev seqno (links ++ links') ↔
      Linked chainer prev seqno links ∧ Linked chainer (lastOf prev links) (seqno + links.length) links' := by
  induction links generalizing prev seqno with
  | nil => exact ⟨fun h => ⟨.nil _ _, h⟩, fun h => h.2⟩
  | cons l links ih =>
    rw [lastOf_cons, length_cons, add_comm links.length 1, ← add_assoc]
    constructor
    · intro h
      cases h with
      | cons hseqno hprev h => exact ⟨.cons hseqno hprev (ih.mp h).1, (ih.mp h).2⟩
    · rintro ⟨h, h'⟩
      cases h with
      | cons hseqno hprev h => exact .cons hseqno hprev (ih.mpr ⟨h, h'⟩)

theorem Linked.concat_inv {l : L} (h : Linked chainer prev seqno (links ++ [l])) :
    Linked chainer prev seqno links ∧ (chainer l).base.seqno = seqno + links.length ∧
      (chainer l).base.prev = lastOf prev links := by
  obtain ⟨hinit, hlast⟩ := linked_append.mp h
  cases hlast with
  | cons hseqno hprev => exact ⟨hinit, hseqno, hprev⟩

theorem lastOf_concat (links : List L) (l : L) : lastOf prev (links ++ [l]) = some (linkHash l) := by
  rw [lastOf, getLast?_concat]
  rfl

/-- Chains that end in the same link are the same: each link has the hash of the one before it. -/
theorem Linked.eq_of_last (hlink : Function.Injective (linkHash : L → H))
    (h : Linked chainer none seqno links) (h' : Linked chainer none seqno links')
    (hlast : lastOf (none : Option H) links = lastOf none links') : links = links' := by
  induction links using reverseRecOn generalizing links' with
  | nil =>
    rcases eq_nil_or_concat' links' with rfl | ⟨init, l', rfl⟩
    · rfl
    · rw [lastOf_concat] at hlast
      cases hlast
  | append_singleton links l ih =>
    rcases eq_nil_or_concat' links' with rfl | ⟨init, l', rfl⟩
    · rw [lastOf_concat] at hlast
      cases hlast
    rw [lastOf_concat, lastOf_concat, Option.some.injEq] at hlast
    obtain rfl := hlink hlast
    obtain ⟨hinit, -, hprev⟩ := h.concat_inv
    obtain ⟨hinit', -, hprev'⟩ := h'.concat_inv
    rw [ih hinit hinit' (hprev.symm.trans hprev')]

theorem stateOf_concat (links : List L) (l : L) :
    stateOf chainer (links ++ [l]) = some ⟨chainer l, linkHash l⟩ := by
  rw [stateOf, getLast?_concat]
  rfl

/-- The state of a chain says where the next link belongs. -/
theorem Linked.seqnoOf_stateOf (h : Linked chainer none chainEldestSeqno links) :
    seqnoOf (stateOf chainer links) = chainEldestSeqno + links.length := by
  rcases eq_nil_or_concat' links with rfl | ⟨init, l, rfl⟩
  · rfl
  · rw [stateOf_concat, seqnoOf, h.concat_inv.2.1, length_append, length_singleton, add_assoc]

theorem prevOf_stateOf (links : List L) : prevOf (stateOf chainer links) = lastOf (none : Option H) links := by
  rw [prevOf, stateOf, Option.map_map, lastOf, Option.or_none]
  rfl

theorem stateOf_append (hne : links' ≠ []) :
    stateOf chainer (links ++ links') = stateOf chainer links' := by
  rw [stateOf, getLast?_append_of_ne_nil _ hne, stateOf]

theorem ntlcOf_append (links links' : List L) : ntlcOf (stateOf chainer (links ++ links'))
      = (ntlcOf (stateOf chainer links')).or (ntlcOf (stateOf chainer links)) := by
  rcases eq_nil_or_concat' links' with rfl | ⟨init, l, rfl⟩
  · rw [append_nil]
    rfl
  · rw [← append_assoc, stateOf_concat, stateOf_concat]
    rfl

end Linked

section Proven

variable {a : ChainArg H} {chainer : L → HidingChainer H}

/-- What is proven after some of the links. -/
theorem Proven.drop {links links' : List L} {ntlc : Option H} {seqno : Seqno}
    (h : Proven a chainer ntlc seqno (links ++ links')) :
    Proven a chainer ((ntlcOf (stateOf chainer links)).or ntlc) (seqno + links.length) links' := by
  induction links generalizing ntlc seqno with
  | nil => exact h
  | cons l links ih =>
    cases h with
    | cons hloc hpresent h =>
      have hrest := ih h
      rw [length_cons, add_comm links.length 1, ← add_assoc]
      rcases eq_nil_or_concat' links with rfl | ⟨init, l', rfl⟩
      · exact hrest
      rw [← cons_append, stateOf_concat]
      rw [stateOf_concat] at hrest
      exact hrest

end Proven

/-! ## Clients -/

section Saved

variable {c : Chain} {chainer : L → HidingChainer H} {st : Option (ChainState H)} {links : List L}

/-- An accepted load: the links follow the state, and are proven from there. -/
theorem load_eq_ok {reply : ChainReply L H} {b : BaseChainLoader H}
    (h : load c chainer st reply = (.ok (), b)) :
    Linked chainer (prevOf st) (seqnoOf st) reply.links ∧
      Proven (c.arg reply) chainer (ntlcOf st) (seqnoOf st) reply.links ∧
      b.lastHash = lastOf (prevOf st) reply.links := by
  obtain ⟨⟨⟩, b1, hchain, hpaths⟩ := Action.bind_eq_ok.mp h
  obtain ⟨hlinked, rfl⟩ := checkChain_eq_ok hchain
  obtain ⟨hproven, leaves, -, rfl⟩ := checkMerklePaths_eq_ok rfl (nil_append _) hpaths
  exact ⟨hlinked, hproven, rfl⟩

/-- All links that a client has accepted follow each other, and it keeps the last one. -/
theorem Saved.linked (h : Saved c chainer st links) :
    Linked chainer none chainEldestSeqno links ∧ st = stateOf chainer links := by
  induction h with
  | start => exact ⟨.nil _ _, rfl⟩
  | @load st links reply b h hload ih =>
    obtain ⟨hinit, rfl⟩ := ih
    obtain ⟨hlinked, -, hlast⟩ := load_eq_ok hload
    rw [prevOf_stateOf] at hlinked hlast
    rw [hinit.seqnoOf_stateOf] at hlinked
    refine ⟨linked_append.mpr ⟨hinit, hlinked⟩, ?_⟩
    rcases eq_nil_or_concat' reply.links with hnil | ⟨init, l, hconcat⟩
    · rw [saveState, hnil, append_nil]
      rfl
    have hne : reply.links ≠ [] := by
      rw [hconcat]
      exact concat_ne_nil l init
    rw [stateOf_append hne, saveState, hlast, hconcat, lastOf_concat, getLast?_concat, stateOf_concat]

/-- The links that another client has loaded begin with those that this one has kept. -/
theorem Saved.take_eq (hlink : Function.Injective (linkHash : L → H)) (h : Saved c chainer st links)
    {others : List L}
    (hothers : Linked chainer none chainEldestSeqno others) (htail : TailMatches st others) :
    others.take links.length = links := by
  obtain ⟨hlinked, rfl⟩ := h.linked
  rcases eq_nil_or_concat' links with rfl | ⟨init, l, rfl⟩
  · rfl
  rw [stateOf_concat] at htail
  obtain ⟨l', hl', hhash⟩ := htail _ rfl
  -- the kept link stands at its own place
  have hidx : (chainer l).base.seqno - 1 = init.length := by
    rw [hlinked.concat_inv.2.1, chainEldestSeqno, Nat.add_sub_cancel_left]
  rw [hidx] at hl'
  obtain rfl : l' = l := hlink hhash
  have htake : others.take (init ++ [l']).length = others.take init.length ++ [l'] := by
    rw [length_append, length_singleton, take_add_one, hl']
    rfl
  have hinitial : Linked chainer none chainEldestSeqno (others.take (init ++ [l']).length) := by
    rw [← take_append_drop (init ++ [l']).length others] at hothers
    exact (linked_append.mp hothers).1
  refine hinitial.eq_of_last hlink hlinked ?_
  rw [htake, lastOf_concat, lastOf_concat]

end Saved

/-- One of two clients has kept at least as many links as the other. -/
theorem eq_of_kept_le (hs : SoundHash H) (hc : SoundChainHash L H) {c : Chain}
    {chainer : L → HidingChainer H} {st1 st2 : Option (ChainState H)} {links1 links2 : List L}
    {reply1 reply2 : ChainReply L H} {b1 b2 : BaseChainLoader H}
    (h1 : Saved c chainer st1 links1) (h2 : Saved c chainer st2 links2)
    (hload1 : load c chainer st1 reply1 = (.ok (), b1))
    (hload2 : load c chainer st2 reply2 = (.ok (), b2))
    (hsame : SameChain (c.arg reply1) (c.arg reply2)) (hle : links1.length ≤ links2.length)
    (htail : TailMatches st2 (links1 ++ reply1.links)) :
    links1 ++ reply1.links = links2 ++ reply2.links := by
  have hnext : Saved c chainer _ (links1 ++ reply1.links) := h1.load hload1
  have htake := h2.take_eq hc.link_injective hnext.linked.1 htail
  -- the links that the second client has kept and the first one has just loaded
  obtain ⟨mid, rest, hmid, hreply⟩ : ∃ mid rest, links2 = links1 ++ mid ∧ reply1.links = mid ++ rest := by
    refine ⟨reply1.links.take (links2.length - links1.length),
      reply1.links.drop (links2.length - links1.length), ?_, (take_append_drop _ _).symm⟩
    rw [take_append, take_of_length_le hle] at htake
    exact htake.symm
  obtain ⟨-, hproven1, -⟩ := load_eq_ok hload1
  obtain ⟨-, hproven2, -⟩ := load_eq_ok hload2
  obtain ⟨hlinked1, rfl⟩ := h1.linked
  obtain ⟨hlinked2, rfl⟩ := h2.linked
  rw [hreply] at hproven1
  have hrest := hproven1.drop
  rw [← ntlcOf_append, hlinked1.seqnoOf_stateOf, add_assoc, ← length_append, ← hmid,
    ← hlinked2.seqnoOf_stateOf] at hrest
  rw [hreply, ← append_assoc, ← hmid, hrest.unique hs hc hsame hproven2]

/-- Symbolic hashes of chains whose links are numbers. -/
instance : LinkHash ℕ SymHash := ⟨.atom⟩

/-- The first link is at `zeroKey`, and the next ones are at the keys that begin with `10`, `01` and
`11`. -/
instance : LocationHash SymHash where
  commit := .atom
  keyHash inp := ⟨[0, 0, 0x80, 0x40].getD inp.seqno 0xC0 :: replicate 31 0, rfl⟩

theorem soundChainHash_symHash : SoundChainHash ℕ SymHash where
  link_injective _ _ h := SymHash.atom.inj h
  commit_injective _ _ h := SymHash.atom.inj h

namespace OneLink

def chain : Chain := ⟨.ofNat 33 (256 ^ 32 + 11), .user, none, "uid"⟩

/-- All links are first ones, and commit to location 7. -/
def chainer (_ : ℕ) : HidingChainer SymHash := ⟨⟨1, none, ⟨0, .zero⟩, 0⟩, .atom 7⟩

/-- The key of another leaf, which begins with `11`. -/
def otherKey : MerkleTreeRFOutput := ⟨0xC0 :: replicate 31 0, rfl⟩

def firstLeaf : SymHash := .leaf zeroKey.bytes (.atom 5)

def otherLeaf : SymHash := .leaf otherKey.bytes (.atom 9)

def root : MerkleRootV1 SymHash := ⟨1, 0, .zero, .node 0 0 [] firstLeaf otherLeaf, ⟨0, .zero⟩⟩

/-- The path to the link, and the path to where the next link is missing. -/
def present : MerklePathCompressedPair SymHash :=
  ⟨⟨[(0, otherLeaf)], [], short_nil⟩, .toLeaf ⟨.atom 5, none⟩⟩

def absent : MerklePathCompressedPair SymHash :=
  ⟨⟨[(0, firstLeaf)], [], short_nil⟩, .toLeaf ⟨.atom 9, some otherKey⟩⟩

/-- A reply to a client that starts, and one to a client that has the link. -/
def first : ChainReply ℕ SymHash := ⟨[5], [7], ⟨.v1 root, [present, absent]⟩, 0⟩

def again : ChainReply ℕ SymHash := ⟨[], [7], ⟨.v1 root, [absent]⟩, 0⟩

end OneLink

end Foks.Client
