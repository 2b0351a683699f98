import Foks.Client.Sessions
import Foks.Client.UserChain
import Foks.Lib.Retry

/-!
# The checks of a reply, on an object that was used before

The loaders of users and teams ask a server again when a check fails that may fail because of a race:
a link with the wrong number, or a path that does not verify. The object that checks the links is
the same in each attempt, and it may still have hashes, leaves and keys of the earlier replies.

This module says what a failed attempt leaves behind, and when that changes the outcome of a later
one. `ChainClient` is a loader as far as this matters: how it opens links, what it checks, and
what it saves.
-/

namespace Foks.Client

open Lib Merkle LinkHash LocationHash List Option Action BaseChainLoader
open MerkleLeaf (value)

variable {L H : Type} [DecidableEq H] [MerkleHash H] [LinkHash L H] [LocationHash H]
  {which : String} {seqno : Seqno}
  {a : ChainArg H} {links : List L}

/-! ## How far the checks come -/

/-- The links before the first one that does not have the next number. -/
def inSequence (chainerOf : L → Option (HidingChainer H)) : Seqno → List L → List L
  | _, [] => []
  | seqno, l :: links =>
    if (chainerOf l).any (·.base.seqno == seqno) then l :: inSequence chainerOf (seqno + 1) links
    else []

/-- There is a link, and its path verifies. -/
def firstLeaf (a : ChainArg H) (locations : List TreeLocation) (ntlc : Option H) (seqno : Seqno) :
    List (MerklePathCompressedPair H) → Bool
  | path :: _ :: _ =>
    match nextLocation a locations ntlc seqno with
    | .ok (loc, _) => (verify (selectPath a.root path) (keyHash H ⟨seqno, a.eid, a.typ, loc⟩) true).isOk
    | .error _ => false
  | _ => false

/-- The checks end before the first leaf. -/
def StopsEarly (chainerOf : L → Option (HidingChainer H)) (a : ChainArg H)
    (st : Option (ChainState H)) (reply : ChainReply L H) : Prop :=
  inSequence chainerOf (seqnoOf st) reply.links ≠ reply.links ∨
    firstLeaf a reply.locations (ntlcOf st) (seqnoOf st) (reply.merkle.paths.drop reply.offset) = false

/-- The chainer of a link, if the link can be read. -/
def linkChainer [LinkFormat L H] (link : L) : Option (HidingChainer H) :=
  (LinkFormat.openGroupChange link : Except CoreError (GroupChange H)).toOption.map (·.chainer)

/-- An error that makes a loader try again. -/
def isRace : CoreError → Bool
  | .chainLoaderError race _ => race
  | _ => false

/-! ## The numbers of the links -/

section Links

variable {ch : HidingChainer H} {prev : Option H}

section

omit [MerkleHash H] [LocationHash H]

theorem checkLink_of_ne {link : L} (h : ch.base.seqno ≠ seqno) (b : BaseChainLoader H) :
    checkLink which none link (some ch) prev seqno b =
      (.error (.chainLoaderError true (.clBadSeqnoError which seqno ch.base.seqno)), b) := by
  unfold checkLink
  dsimp only
  rw [Action.refuse, if_pos h]
  rfl

/-- A link with the right number is hashed, and no later check is a race. -/
theorem checkLink_of_eq (which : String) (link : L) (prev : Option H) (h : ch.base.seqno = seqno) :
    ∃ res, (∀ b : BaseChainLoader H, checkLink which none link (some ch) prev seqno b =
        (res, b.addHashes [linkHash link])) ∧
      (∀ hsh, res = .ok hsh → hsh = linkHash link) ∧ ∀ e, res = .error e → isRace e = false := by
  unfold checkLink
  by_cases hprev : ch.base.prev = prev
  · by_cases heldest : isEldest seqno = prev.isNone
    · refine ⟨.ok (linkHash link), fun b => ?_, by simp, by simp⟩
      simp [Action.bind_apply, Action.refuse, h, hprev, heldest]
    refine ⟨.error (chainLoaderGenericError "prev==nil iff seqno==1"), fun b => ?_, by simp, ?_⟩
    · simp [Action.bind_apply, Action.refuse, h, hprev, heldest]
    · rintro e ⟨⟩
      rfl
  refine ⟨.error (.chainLoaderError false (.clBadPrevError seqno)), fun b => ?_, by simp, ?_⟩
  · simp [Action.bind_apply, Action.refuse, h, hprev, failUnless]
  · rintro e ⟨⟩
    rfl

/-- The checks of the links read nothing of the object. They hash all links if they succeed, and the
links before the one with the wrong number if they fail with a race. -/
theorem checkLinks_apply (which : String) (prev : Option H) (seqno : Seqno)
    {chainerOf : L → Option (HidingChainer H)}
    {chainerAtIndex : ℕ → Option (HidingChainer H)} {i : ℕ}
    (hch : ∀ j l, links[j]? = some l → chainerAtIndex (i + j) = chainerOf l) :
    ∃ res hashes, (∀ b : BaseChainLoader H,
        checkLinks which none chainerAtIndex i links prev seqno b = (res, b.addHashes hashes)) ∧
      (∀ last, res = .ok last → hashes = links.map linkHash ∧ inSequence chainerOf seqno links = links) ∧
      ∀ e, res = .error e → isRace e → hashes = (inSequence chainerOf seqno links).map linkHash ∧
          inSequence chainerOf seqno links ≠ links := by
  induction links generalizing i prev seqno with
  | nil => exact ⟨.ok prev, [], fun b => by rw [addHashes_nil]; rfl, by simp [inSequence], by simp⟩
  | cons l links ih =>
    have hfirst : chainerAtIndex i = chainerOf l := hch 0 l rfl
    have hrest : ∀ j l', links[j]? = some l' → chainerAtIndex (i + 1 + j) = chainerOf l' := by
      intro j l' hl'
      rw [add_assoc, add_comm 1 j]
      exact hch (j + 1) l' hl'
    cases hl : chainerOf l with
    | none =>
      refine ⟨.error (chainLoaderGenericError "chainerAtIndex returned nil"), [], fun b => ?_, by simp, ?_⟩
      · rw [addHashes_nil]
        simp [checkLinks, Action.bind_apply, hfirst, hl, checkLink]
      · rintro e ⟨⟩ hrace
        exact absurd hrace (by decide)
    | some ch =>
      by_cases hseqno : ch.base.seqno = seqno
      · -- the number is right, and the link is hashed
        obtain ⟨res, hlink, hok, herror⟩ := checkLink_of_eq which l prev hseqno
        have hin : inSequence chainerOf seqno (l :: links) = l :: inSequence chainerOf (seqno + 1) links := by
          simp [inSequence, hl, hseqno]
        cases res with
        | error e =>
          refine ⟨.error e, [linkHash l], fun b => ?_, by simp, ?_⟩
          · rw [checkLinks, Action.bind_apply, hfirst, hl, hlink]
          · rintro e' ⟨⟩ hrace
            rw [herror e rfl] at hrace
            cases hrace
        | ok hsh =>
          obtain rfl := hok hsh rfl
          obtain ⟨res, hashes, hlinks, hok', herror'⟩ := ih (some (linkHash l)) (seqno + 1) hrest
          refine ⟨res, linkHash l :: hashes, fun b => ?_, fun last hlast => ?_, fun e he hrace => ?_⟩
          · rw [checkLinks, Action.bind_apply, hfirst, hl, hlink]
            dsimp only
            rw [hlinks, addHashes_addHashes, singleton_append]
          · obtain ⟨rfl, hall⟩ := hok' last hlast
            rw [hin, hall]
            exact ⟨rfl, rfl⟩
          obtain ⟨rfl, hsome⟩ := herror' e he hrace
          rw [hin]
          exact ⟨rfl, fun h => hsome (List.cons.inj h).2⟩
      · -- the race is here
        have hin : inSequence chainerOf seqno (l :: links) = [] := by
          simp [inSequence, hl, hseqno]
        refine ⟨.error (.chainLoaderError true (.clBadSeqnoError which seqno ch.base.seqno)), [],
          fun b => ?_, by simp, ?_⟩
        · rw [checkLinks, Action.bind_apply, hfirst, hl, checkLink_of_ne hseqno, addHashes_nil]
        · rintro e - -
          rw [hin]
          exact ⟨rfl, (cons_ne_nil l links).symm⟩

end

end Links

/-! ## The paths -/

section Paths

variable {chainerAtIndex : ℕ → Option (HidingChainer H)} {i : ℕ} {key : MerkleTreeRFOutput}
  {b : BaseChainLoader H}
  {leaf : H} {locations rest : List TreeLocation} {ntlc : Option H} {e : CoreError}
  {path : MerklePathCompressedPair H} {paths merklePaths : List (MerklePathCompressedPair H)}
  {loc : Option TreeLocation} {b' : BaseChainLoader H} {offset : ℕ}

section

omit [MerkleHash H] [LocationHash H]

theorem checkLeaf_of_eq (h : b.linkHashes[i]? = some leaf) :
    checkLeaf a i key leaf seqno b = (.ok (), b.addLeaves [⟨key, leaf⟩]) := by
  simp [checkLeaf, Action.bind_apply, h]

/-- A leaf that is not the hash of its link is refused, and that is not a race. -/
theorem checkLeaf_of_ne (htest : a.testing = none) (h : b.linkHashes[i]? ≠ some leaf) :
    ∃ e, checkLeaf a i key leaf seqno b = (.error e, b) ∧ isRace e = false := by
  rcases hhash : b.linkHashes[i]? with _ | hsh
  · refine ⟨.internalError "index out of range", ?_, rfl⟩
    simp [checkLeaf, Action.bind_apply, hhash]
  rw [hhash] at h
  have hne : leaf ≠ hsh := fun heq => h (congrArg some heq.symm)
  refine ⟨.chainLoaderError false (.clBadMerkleLeafValueError a.which seqno), ?_, rfl⟩
  simp [checkLeaf, Action.bind_apply, hhash, hne, failUnless, htest]

end

omit [MerkleHash H] in
theorem isRace_of_nextLocation (h : nextLocation a locations ntlc seqno = .error e) : isRace e = false := by
  unfold nextLocation at h
  split at h
  · split at h <;> cases h
    rfl
  · cases h
    rfl
  split at h
  · cases h
  · split at h <;> cases h
    rfl

theorem firstLeaf_of_verifyAt_error (hloc : nextLocation a locations ntlc seqno = .ok (loc, rest))
    (hpath : verifyAt a path (keyHash H ⟨seqno, a.eid, a.typ, loc⟩) (!paths.isEmpty) seqno = .error e) :
    firstLeaf a locations ntlc seqno (path :: paths) = false := by
  cases paths with
  | nil => rfl
  | cons next paths =>
    unfold verifyAt at hpath
    split at hpath
    · cases hpath
    · next hverify =>
      simp only [firstLeaf, hloc]
      simp only [isEmpty_cons, Bool.not_false] at hverify
      rw [hverify]
      rfl

theorem firstLeaf_of_verifyAt_ok {next : MerklePathCompressedPair H}
    {leaf : Option H} (hloc : nextLocation a locations ntlc seqno = .ok (loc, rest))
    (hpath : verifyAt a path (keyHash H ⟨seqno, a.eid, a.typ, loc⟩) true seqno = .ok leaf) :
    firstLeaf a locations ntlc seqno (path :: next :: paths) = true := by
  simp only [firstLeaf, hloc]
  rw [verifyAt_eq_ok hpath]
  rfl

/-- The leaves that were appended stay when a later path fails. With a race, there are such leaves if
and only if the first path verifies. -/
theorem checkPaths_eq_error (htest : a.testing = none)
    (h : checkPaths a chainerAtIndex i paths locations ntlc seqno b = (.error e, b')) :
    ∃ leaves, b' = b.addLeaves leaves ∧
      (isRace e → (leaves = [] ↔ firstLeaf a locations ntlc seqno paths = false)) := by
  induction paths generalizing i locations ntlc seqno b with
  | nil => cases h
  | cons path paths ih =>
    rcases bind_eq_error.mp h with hloc | ⟨⟨loc, rest⟩, b1, hloc, h1⟩
    · obtain ⟨hnext, rfl⟩ := Prod.mk.inj hloc
      refine ⟨[], (addLeaves_nil b).symm, fun hrace => ?_⟩
      rw [isRace_of_nextLocation hnext] at hrace
      cases hrace
    obtain ⟨hnext, rfl⟩ := lift_eq_ok.mp hloc
    rcases bind_eq_error.mp h1 with hverify | ⟨leaf, b2, hverify, h2⟩
    · -- the path does not verify
      obtain ⟨hpath, rfl⟩ := Prod.mk.inj hverify
      refine ⟨[], (addLeaves_nil _).symm, fun _ => iff_of_true rfl ?_⟩
      exact firstLeaf_of_verifyAt_error hnext hpath
    obtain ⟨hpath, rfl⟩ := lift_eq_ok.mp hverify
    cases paths with
    | nil => cases h2
    | cons next paths =>
      rw [firstLeaf_of_verifyAt_ok hnext hpath]
      simp only [isEmpty_cons, Bool.false_eq_true, if_false] at h2
      rcases hch : chainerAtIndex i with _ | ch
      · rw [hch] at h2
        cases h2
        exact ⟨[], (addLeaves_nil _).symm, fun hrace => nomatch hrace⟩
      rw [hch] at h2
      cases leaf with
      | none =>
        cases h2
        exact ⟨[], (addLeaves_nil _).symm, fun hrace => nomatch hrace⟩
      | some leaf =>
        dsimp only at h2
        by_cases hhash : b2.linkHashes[i]? = some leaf
        · -- the first leaf is appended, whatever comes later
          rw [Action.bind_apply, checkLeaf_of_eq hhash] at h2
          obtain ⟨leaves, rfl, -⟩ := ih h2
          refine ⟨_, addLeaves_addLeaves _ _ _, fun _ => ?_⟩
          simp
        obtain ⟨e', hleaf, hrace⟩ := checkLeaf_of_ne htest hhash
        rw [Action.bind_apply, hleaf] at h2
        cases h2
        refine ⟨[], (addLeaves_nil _).symm, fun hrace' => ?_⟩
        rw [hrace] at hrace'
        cases hrace'

/-- What the checks of paths that succeed have found for the first one. -/
theorem checkPaths_cons_eq_ok
    (h : checkPaths a chainerAtIndex i (path :: paths) locations ntlc seqno b = (.ok (), b')) :
    ∃ loc rest leaf, nextLocation a locations ntlc seqno = .ok (loc, rest) ∧
      verifyAt a path (keyHash H ⟨seqno, a.eid, a.typ, loc⟩) (!paths.isEmpty) seqno = .ok leaf ∧
      match paths with
      | [] => b' = b
      | _ :: _ => ∃ ch v, chainerAtIndex i = some ch ∧ leaf = some v ∧
          (checkLeaf a i (keyHash H ⟨seqno, a.eid, a.typ, loc⟩) v seqno >>= fun _ =>
            checkPaths a chainerAtIndex (i + 1) paths rest (some ch.nextLocationCommitment)
              (seqno + 1)) b = (.ok (), b') := by
  obtain ⟨⟨loc, rest⟩, b1, hloc, h1⟩ := bind_eq_ok.mp h
  obtain ⟨hnext, rfl⟩ := lift_eq_ok.mp hloc
  obtain ⟨leaf, hpath, h2⟩ := lift_bind_eq_ok.mp h1
  refine ⟨loc, rest, leaf, hnext, hpath, ?_⟩
  cases paths with
  | nil =>
    cases h2
    rfl
  | cons next paths =>
    rcases hch : chainerAtIndex i with _ | ch
    · rw [hch] at h2
      cases h2
    rw [hch] at h2
    cases leaf with
    | none => cases h2
    | some v => exact ⟨ch, v, rfl, rfl, h2⟩

/-- Paths that verify over one object, checked over another one: each leaf must also be the hash that
the other object has for the link. -/
theorem checkPaths_used (htest : a.testing = none) {b0 b0' : BaseChainLoader H}
    (h : checkPaths a chainerAtIndex i paths locations ntlc seqno b0 = (.ok (), b0')) :
    ∃ leaves, b0' = b0.addLeaves leaves ∧
      (∀ j < paths.length - 1, b0.linkHashes[i + j]? = (leaves.map value)[j]?) ∧
      leaves.length = paths.length - 1 ∧
      ∀ b : BaseChainLoader H, ((∀ j < paths.length - 1, b.linkHashes[i + j]? = b0.linkHashes[i + j]?) →
          checkPaths a chainerAtIndex i paths locations ntlc seqno b = (.ok (), b.addLeaves leaves)) ∧
        ((¬ ∀ j < paths.length - 1, b.linkHashes[i + j]? = b0.linkHashes[i + j]?) →
          ∃ e b', checkPaths a chainerAtIndex i paths locations ntlc seqno b = (.error e, b')) := by
  induction paths generalizing i locations ntlc seqno b0 with
  | nil =>
    cases h
    refine ⟨[], (addLeaves_nil _).symm, by simp, rfl, fun b => ⟨fun _ => ?_, by simp⟩⟩
    rw [addLeaves_nil]
    rfl
  | cons path paths ih =>
    obtain ⟨loc, rest, leaf, hnext, hpath, h1⟩ := checkPaths_cons_eq_ok h
    cases paths with
    | nil =>
      obtain rfl : b0' = b0 := h1
      refine ⟨[], (addLeaves_nil _).symm, by simp, rfl, fun b => ⟨fun _ => ?_, by simp⟩⟩
      rw [addLeaves_nil]
      simp only [checkPaths, Action.bind_apply, Action.lift_apply, hnext, hpath]
      rfl
    | cons next paths =>
      obtain ⟨ch, v, hch, rfl, h2⟩ := h1
      -- each object is asked for its hash of the link
      have hstep : ∀ b : BaseChainLoader H,
          checkPaths a chainerAtIndex i (path :: next :: paths) locations ntlc seqno b =
            (checkLeaf a i (keyHash H ⟨seqno, a.eid, a.typ, loc⟩) v seqno >>= fun _ =>
              checkPaths a chainerAtIndex (i + 1) (next :: paths) rest
                (some ch.nextLocationCommitment) (seqno + 1)) b := by
        intro b
        rw [checkPaths, Action.bind_apply, Action.lift_apply, hnext]
        dsimp only
        rw [hpath]
        rw [hch]
        rfl
      by_cases hhash : b0.linkHashes[i]? = some v
      · rw [Action.bind_apply, checkLeaf_of_eq hhash] at h2
        obtain ⟨leaves, rfl, hvalues, hlen, hused⟩ := ih h2
        have hshift : ∀ j, i + 1 + j = i + (j + 1) := fun j => by omega
        simp only [hshift] at hvalues hused
        -- the hashes from link `i` on are that of link `i`, and those from the next link on
        have hsplit : ∀ (b : BaseChainLoader H) (hashes : ℕ → Option H),
            (∀ j < (path :: next :: paths).length - 1, b.linkHashes[i + j]? = hashes j) ↔
              b.linkHashes[i]? = hashes 0 ∧
                ∀ j < (next :: paths).length - 1, b.linkHashes[i + (j + 1)]? = hashes (j + 1) :=
          fun b hashes => Nat.forall_lt_succ_left
        refine ⟨_, addLeaves_addLeaves _ _ _, ?_, ?_, fun b => ?_⟩
        · rw [hsplit]
          exact ⟨hhash, hvalues⟩
        · simp [hlen]
        rw [hstep]
        simp only [hsplit b fun j => b0.linkHashes[i + j]?, add_zero, hhash]
        by_cases hb : b.linkHashes[i]? = some v
        · rw [Action.bind_apply, checkLeaf_of_eq hb, ← addLeaves_addLeaves]
          simp only [hb, true_and]
          exact hused (b.addLeaves [⟨keyHash H ⟨seqno, a.eid, a.typ, loc⟩, v⟩])
        obtain ⟨e, hleaf, -⟩ := checkLeaf_of_ne htest hb
        rw [Action.bind_apply, hleaf]
        exact ⟨fun hall => absurd hall.1 hb, fun _ => ⟨e, b, rfl⟩⟩
      · obtain ⟨e, hleaf, -⟩ := checkLeaf_of_ne htest hhash
        rw [Action.bind_apply, hleaf] at h2
        cases h2

section

omit [LinkHash L H]

theorem checkMerklePaths_eq_error (htest : a.testing = none)
    (h : checkMerklePaths a locations links chainerAtIndex merklePaths ntlc seqno offset b
      = (.error e, b')) (hrace : isRace e) :
    ∃ leaves, b' = b.addLeaves leaves ∧
      (leaves = [] ↔ firstLeaf a locations ntlc seqno (merklePaths.drop offset) = false) := by
  -- neither a slice that is out of range nor one of the two counts is a race
  obtain ⟨-, rfl, -⟩ | ⟨-, h0⟩ := refuse_bind_eq_error.mp h
  · cases hrace
  obtain ⟨-, rfl, -⟩ | ⟨-, h1⟩ := refuse_bind_eq_error.mp h0
  · cases hrace
  obtain ⟨-, rfl, -⟩ | ⟨-, h2⟩ := refuse_bind_eq_error.mp h1
  · cases hrace
  obtain ⟨leaves, rfl, hfirst⟩ := checkPaths_eq_error htest h2
  exact ⟨leaves, rfl, hfirst hrace⟩

/-- Links whose paths pass over one object, over another one. -/
theorem checkMerklePaths_used (htest : a.testing = none) {b0 b0' : BaseChainLoader H}
    (h : checkMerklePaths a locations links chainerAtIndex merklePaths ntlc seqno offset b0 = (.ok (), b0')) :
    ∃ leaves, b0' = b0.addLeaves leaves ∧ (∀ j < links.length, b0.linkHashes[j]? = (leaves.map value)[j]?) ∧
      leaves.length = links.length ∧
      ∀ b : BaseChainLoader H, ((∀ j < links.length, b.linkHashes[j]? = b0.linkHashes[j]?) →
          checkMerklePaths a locations links chainerAtIndex merklePaths ntlc seqno offset b
            = (.ok (), b.addLeaves leaves)) ∧
        ((¬ ∀ j < links.length, b.linkHashes[j]? = b0.linkHashes[j]?) →
          ∃ e b', checkMerklePaths a locations links chainerAtIndex merklePaths ntlc seqno offset b
            = (.error e, b')) := by
  unfold checkMerklePaths at h ⊢
  obtain ⟨hoffset, h0⟩ := Action.refuse_bind_eq_ok.mp h
  obtain ⟨hlen, h1⟩ := Action.refuse_bind_eq_ok.mp h0
  obtain ⟨hlocations, h2⟩ := Action.refuse_bind_eq_ok.mp h1
  have hpaths : (merklePaths.drop offset).length - 1 = links.length := by
    rw [not_not.mp hlen, Nat.add_sub_cancel]
  have hused := checkPaths_used htest h2
  simp only [hpaths, zero_add] at hused
  obtain ⟨leaves, rfl, hvalues, hleaves, hused⟩ := hused
  refine ⟨leaves, rfl, hvalues, hleaves, fun b => ?_⟩
  -- the counts do not look at the object
  rw [Action.bind_apply, Action.refuse_of_not hoffset]
  dsimp only
  rw [Action.bind_apply, Action.refuse_of_not hlen]
  dsimp only
  rw [Action.bind_apply, Action.refuse_of_not hlocations]
  exact hused b

end

end Paths

/-! ## Both checks -/

/-- The checks of a reply whose links have been opened: `checkChain` and `checkMerklePaths`. -/
def checkReply (which : String) (a : ChainArg H) (st : Option (ChainState H)) (reply : ChainReply L H)
    (chainers : List (HidingChainer H)) : Action (BaseChainLoader H) CoreError Unit := do
  checkChain (prevOf st) (seqnoOf st) reply.links (fun n => chainers[n]?) which none
  checkMerklePaths a reply.locations reply.links (fun n => chainers[n]?) reply.merkle.paths
    (ntlcOf st) (seqnoOf st) reply.offset

section Reply

variable {st : Option (ChainState H)} {reply : ChainReply L H} {chainers : List (HidingChainer H)}
  {chainerOf : L → Option (HidingChainer H)}

omit [DecidableEq H] [MerkleHash H] [LinkHash L H] [LocationHash H] in
theorem chainers_getElem (hch : chainers.map some = links.map chainerOf) (j : ℕ) (l : L)
    (hl : links[j]? = some l) :
    chainers[0 + j]? = chainerOf l := by
  have hj := congrArg (fun cs => cs[j]?) hch
  simp only [getElem?_map, hl, map_some] at hj
  obtain ⟨ch, hch', hl'⟩ := map_eq_some_iff.mp hj
  rw [zero_add, hch', hl']

omit [DecidableEq H] [MerkleHash H] [LocationHash H] in
/-- The hashes of the links are the first ones of the list. -/
theorem hashes_prefix_iff {hashes : List H} : links.map linkHash <+: hashes ++ links.map linkHash ↔
      ∀ j < links.length, (hashes ++ links.map linkHash)[j]? = (links.map (linkHash (H := H)))[j]? := by
  rw [prefix_iff_getElem?]
  constructor
  · intro hinitial j hj
    rw [hinitial j (by rwa [length_map]), getElem?_eq_getElem]
  · intro hsame j hj
    rw [hsame j (by rwa [length_map] at hj), getElem?_eq_getElem hj]

variable (htest : a.testing = none) (hch : chainers.map some = reply.links.map chainerOf)

include htest hch

/-- What a failed attempt leaves: the hashes of the links in sequence, and a leaf at least unless the
checks end before the first one. -/
theorem checkReply_race {b b' : BaseChainLoader H} {e : CoreError}
    (h : checkReply which a st reply chainers b = (.error e, b'))
    (hrace : isRace e) :
    b'.linkHashes = b.linkHashes ++ (inSequence chainerOf (seqnoOf st) reply.links).map linkHash ∧
      b'.fatalError = b.fatalError ∧
      ∃ leaves, b'.merkleLeaves = b.merkleLeaves ++ leaves ∧
          (leaves = [] ↔ StopsEarly chainerOf a st reply) := by
  obtain ⟨res, hashes, hlinks, hok, herror⟩ :=
    checkLinks_apply which (prevOf st) (seqnoOf st) (chainers_getElem hch)
  rcases bind_eq_error.mp h with hchain | ⟨⟨⟩, b1, hchain, h1⟩
  · -- a link has the wrong number
    rcases bind_eq_error.mp hchain with hlink | ⟨last, b1, -, hlast⟩
    · rw [hlinks] at hlink
      obtain ⟨hres, rfl⟩ := Prod.mk.inj hlink
      obtain ⟨rfl, hne⟩ := herror e hres hrace
      exact ⟨rfl, rfl, [], (append_nil _).symm, iff_of_true rfl (.inl hne)⟩
    · cases hlast
  -- all links are in sequence, and a path does not verify
  obtain ⟨last, b2, hlink, hlast⟩ := bind_eq_ok.mp hchain
  rw [hlinks] at hlink
  obtain ⟨hres, rfl⟩ := Prod.mk.inj hlink
  cases hlast
  obtain ⟨rfl, hall⟩ := hok last hres
  obtain ⟨leaves, rfl, hfirst⟩ := checkMerklePaths_eq_error htest h1 hrace
  refine ⟨by rw [hall]; rfl, rfl, leaves, rfl, hfirst.trans ?_⟩
  simp [StopsEarly, hall]

/-- The checks read the hashes and the leaves of the object, and they leave no fatal error. -/
theorem checkReply_of_used (which : String) (st : Option (ChainState H)) {b : BaseChainLoader H}
    (hfatal : b.fatalError = none) :
    (∃ e b1 b2, checkReply which a st reply chainers b = (.error e, b1) ∧ checkReply which a st reply chainers
          { linkHashes := b.linkHashes, merkleLeaves := b.merkleLeaves } = (.error e, b2)) ∨
      ∃ b', b'.fatalError = none ∧ checkReply which a st reply chainers b = (.ok (), b') ∧
        checkReply which a st reply chainers
          { linkHashes := b.linkHashes, merkleLeaves := b.merkleLeaves } = (.ok (), b') := by
  obtain ⟨res, hashes, hlinks, -, -⟩ :=
    checkLinks_apply which (prevOf st) (seqnoOf st) (chainers_getElem hch)
  obtain ⟨linkHashes, lastHash, leaves, fatalError⟩ := b
  obtain rfl : fatalError = none := hfatal
  simp only [checkReply, checkChain, Action.bind_apply, hlinks]
  cases res with
  | error e => exact .inl ⟨e, _, _, rfl, rfl⟩
  | ok last =>
    -- the hash of the last link is set before it is read
    dsimp only [Action.update_apply, BaseChainLoader.addHashes]
    rcases hpaths : checkMerklePaths a reply.locations reply.links (fun n => chainers[n]?)
      reply.merkle.paths (ntlcOf st) (seqnoOf st) reply.offset
      ⟨linkHashes ++ hashes, last, leaves, none⟩ with ⟨e | ⟨⟩, b'⟩
    · exact .inl ⟨e, b', b', rfl, rfl⟩
    · obtain ⟨leaves', rfl, -⟩ := checkMerklePaths_used htest hpaths
      exact .inr ⟨_, rfl, rfl, rfl⟩

/-- A reply that passes on one object, on another one: the first hashes of both must agree. -/
theorem checkReply_agree {b0 b0' : BaseChainLoader H}
    (h : checkReply which a st reply chainers b0 = (.ok (), b0')) :
    ∃ leaves, b0' = { (b0.addHashes (reply.links.map linkHash)).addLeaves leaves with
        lastHash := b0'.lastHash } ∧
      (∀ j < reply.links.length, (b0.linkHashes ++ reply.links.map linkHash)[j]? = (leaves.map value)[j]?) ∧
      leaves.length = reply.links.length ∧
      ∀ b : BaseChainLoader H, ((∀ j < reply.links.length, (b.linkHashes ++ reply.links.map linkHash)[j]?
            = (b0.linkHashes ++ reply.links.map linkHash)[j]?) →
          checkReply which a st reply chainers b = (.ok (),
            { (b.addHashes (reply.links.map linkHash)).addLeaves leaves with
              lastHash := b0'.lastHash })) ∧
        ((¬ ∀ j < reply.links.length, (b.linkHashes ++ reply.links.map linkHash)[j]?
            = (b0.linkHashes ++ reply.links.map linkHash)[j]?) →
          ∃ e b', checkReply which a st reply chainers b = (.error e, b')) := by
  obtain ⟨res, hashes, hlinks, hok, -⟩ :=
    checkLinks_apply which (prevOf st) (seqnoOf st) (chainers_getElem hch)
  obtain ⟨⟨⟩, b1, hchain, h1⟩ := bind_eq_ok.mp h
  obtain ⟨last, b2, hlink, hlast⟩ := bind_eq_ok.mp hchain
  rw [hlinks] at hlink
  obtain ⟨rfl, rfl⟩ := Prod.mk.inj hlink
  cases hlast
  obtain ⟨rfl, -⟩ := hok last rfl
  obtain ⟨leaves, rfl, hvalues, hleaves, hused⟩ := checkMerklePaths_used htest h1
  refine ⟨leaves, rfl, hvalues, hleaves, fun b => ?_⟩
  have hfirst : checkReply which a st reply chainers b
      = checkMerklePaths a reply.locations reply.links (fun n => chainers[n]?) reply.merkle.paths
        (ntlcOf st) (seqnoOf st) reply.offset
        { b.addHashes (reply.links.map linkHash) with lastHash := last } := by
    rw [checkReply, Action.bind_apply, checkChain, Action.bind_apply, hlinks]
    rfl
  rw [hfirst]
  exact hused { b.addHashes (reply.links.map linkHash) with lastHash := last }

/-- A reply that passes on a new object, on a used one: the hashes that are found for the links are
the first ones of the list. -/
theorem checkReply_used {b0 : BaseChainLoader H} (h : checkReply which a st reply chainers {} = (.ok (), b0)) :
    b0.merkleLeaves.map value = reply.links.map linkHash ∧ ∀ b : BaseChainLoader H,
        (reply.links.map linkHash <+: b.linkHashes ++ reply.links.map linkHash →
          checkReply which a st reply chainers b = (.ok (),
            { (b.addHashes (reply.links.map linkHash)).addLeaves b0.merkleLeaves with
              lastHash := b0.lastHash })) ∧
        (¬ reply.links.map linkHash <+: b.linkHashes ++ reply.links.map linkHash →
          ∃ e b', checkReply which a st reply chainers b = (.error e, b')) := by
  obtain ⟨leaves, hb0, hvalues, hleaves, hused⟩ := checkReply_agree htest hch h
  have hadded : b0.merkleLeaves = leaves := by
    rw [hb0]
    exact nil_append leaves
  refine ⟨?_, fun b => ?_⟩
  · -- one leaf for each link, with its hash
    rw [hadded]
    refine ext_getElem? fun j => ?_
    by_cases hj : j < reply.links.length
    · exact (hvalues j hj).symm
    rw [getElem?_eq_none, getElem?_eq_none]
    · rw [length_map]
      exact Nat.le_of_not_lt hj
    · rw [length_map]
      exact hleaves.trans_le (Nat.le_of_not_lt hj)
  · rw [hashes_prefix_iff, hadded]
    exact hused b

/-- A reply that passes on a used object passes on a new one, if the object has the hashes of the
links first. -/
theorem checkReply_new {b b' : BaseChainLoader H} (h : checkReply which a st reply chainers b = (.ok (), b'))
    (hinitial : reply.links.map linkHash <+: b.linkHashes ++ reply.links.map linkHash) :
    ∃ b0, checkReply which a st reply chainers {} = (.ok (), b0) ∧
      b'.merkleLeaves = b.merkleLeaves ++ b0.merkleLeaves ∧ b'.lastHash = b0.lastHash := by
  obtain ⟨leaves, hb', -, -, hused⟩ := checkReply_agree htest hch h
  refine ⟨_, (hused {}).1 fun j hj => (hashes_prefix_iff.mp hinitial j hj).symm, ?_, rfl⟩
  rw [hb']
  rfl

end Reply

/-! ## Loaders -/

/-- What is left in a loader of earlier attempts. -/
structure Leftover (H : Type) where
  hashes : List H := []
  leaves : List (MerkleLeaf H) := []
  hepks : HEPKSet H := ∅

/-- A loader as far as retries matter. A reply of type `R` has links of type `L`, which are opened to
values of type `O`, and an attempt saves a state of type `S`. -/
structure ChainClient (R L H O S : Type) where
  which : String
  arg : R → ChainArg H
  existing : Option (ChainState H)
  savedLeaves : List (MerkleLeaf H)
  /-- The keys that an attempt starts from; with no saved keys, those of earlier attempts stay. -/
  savedKeys : Option (HEPKSet H)
  /-- Whether the hashes of earlier attempts stay. -/
  keepsHashes : Bool
  reply : R → ChainReply L H
  replyKeys : R → HEPKSet H
  chainerOf : L → Option (HidingChainer H)
  openLinks : HEPKSet H → R → Except CoreError (List O)
  chainer : O → HidingChainer H
  /-- What comes after the checks, with all keys, links and leaves, and the hash of the last link. -/
  finish : HEPKSet H → List O → List (MerkleLeaf H) → Option H → R → Except CoreError S
  /-- Whether the saved leaves and keys stay as they are. -/
  keeps : R → Bool
  leavesOf : S → List (MerkleLeaf H)
  keysOf : S → HEPKSet H
  testing_eq : ∀ r, (arg r).testing = none
  chainers_eq : ∀ {keys r os}, openLinks keys r = .ok os →
    (os.map chainer).map some = (reply r).links.map chainerOf
  links_of_keeps : ∀ {r}, keeps r → (reply r).links = []
  savedKeys_of_keeps : ∀ {keys os leaves last r s}, keeps r →
    finish keys os leaves last r = .ok s → savedKeys ≠ none ∧ leavesOf s = savedLeaves
  finish_of_keeps : ∀ {r}, keeps r → ∀ keys leaves leaves' last,
    finish keys [] leaves last r = finish keys [] leaves' last r
  finish_saves : ∀ {keys os leaves last r s}, keeps r = false →
    finish keys os leaves last r = .ok s → leavesOf s = leaves ∧ keysOf s = keys

namespace ChainClient

variable {R O S : Type} (c : ChainClient R L H O S) {failed : List R} {left : Leftover H} {r : R} {os : List O}
  {b : BaseChainLoader H} {s : S}

/-- The keys of an attempt. -/
def keys (left : Leftover H) (r : R) : HEPKSet H :=
  mergeHEPKs (c.savedKeys.getD left.hepks) (c.replyKeys r)

/-- One attempt: open the links, check the reply, and go on with what the object then has. -/
def attempt (left : Leftover H) (r : R) : Except CoreError S := do
  let os ← c.openLinks (c.keys left r) r
  match checkReply c.which (c.arg r) c.existing (c.reply r) (os.map c.chainer)
      { linkHashes := left.hashes, merkleLeaves := left.leaves } with
  | (.error e, _) => .error e
  | (.ok (), b) => c.finish (c.keys left r) os (c.savedLeaves ++ b.merkleLeaves) b.lastHash r

/-- The hashes of the links of a reply. -/
def hashes (r : R) : List H := (c.reply r).links.map linkHash

/-- The hashes that a failed reply leaves. -/
def leftHashes (r : R) : List H :=
  if c.keepsHashes then
    (inSequence c.chainerOf (seqnoOf c.existing) (c.reply r).links).map linkHash
  else []

/-- The replies `failed`, which fail with a race, leave nothing that matters for the reply `last`. -/
def Clean (failed : List R) (last : R) : Prop :=
  c.keeps last ∨ c.hashes last <+: failed.flatMap c.leftHashes ++ c.hashes last ∧
    (∀ r ∈ failed, StopsEarly c.chainerOf (c.arg r) c.existing (c.reply r)) ∧
    (c.savedKeys = none → ∀ r ∈ failed, ∀ fp ∈ c.replyKeys r, fp ∈ c.replyKeys last)

/-- What the failed replies have left. -/
structure LeftBy (failed : List R) (left : Leftover H) : Prop where
  hashes : left.hashes = failed.flatMap c.leftHashes
  leaves : left.leaves = [] ↔ ∀ r ∈ failed, StopsEarly c.chainerOf (c.arg r) c.existing (c.reply r)
  hepks : c.savedKeys = none → ∀ fp, fp ∈ left.hepks ↔ ∃ r ∈ failed, fp ∈ c.replyKeys r

variable {c}

theorem LeftBy.nil : c.LeftBy [] {} := ⟨rfl, by simp, fun _ fp => by simp [Finmap.notMem_empty]⟩

/-- One more failed reply. -/
theorem LeftBy.concat {left' : Leftover H} (h : c.LeftBy failed left)
    (hhashes : left'.hashes = left.hashes ++ c.leftHashes r) {leaves : List (MerkleLeaf H)}
    (hleaves : left'.leaves = left.leaves ++ leaves)
    (hstops : leaves = [] ↔ StopsEarly c.chainerOf (c.arg r) c.existing (c.reply r))
    (hhepks : c.savedKeys = none → left'.hepks = mergeHEPKs left.hepks (c.replyKeys r)) :
    c.LeftBy (failed ++ [r]) left' := by
  refine ⟨?_, ?_, fun hnone fp => ?_⟩
  · rw [hhashes, h.hashes, flatMap_append, flatMap_singleton]
  · rw [hleaves, append_eq_nil_iff, h.leaves, hstops, forall_mem_append, forall_mem_singleton]
  rw [hhepks hnone, mergeHEPKs, Finmap.mem_union, h.hepks hnone]
  simp only [mem_append, mem_singleton, or_and_right, exists_or, exists_eq_left]
  exact or_comm

omit [MerkleHash H] [LinkHash L H] [LocationHash H] in
theorem keys_eq_iff : c.keys left r = c.keys {} r ↔
    (c.savedKeys = none → ∀ fp ∈ left.hepks, fp ∈ c.replyKeys r) := by
  unfold keys mergeHEPKs
  cases c.savedKeys with
  | none =>
    rw [getD_none, getD_none, Finmap.union_empty, Map.union_eq_left_iff]
    exact ⟨fun h _ => h, fun h => h rfl⟩
  | some saved => exact iff_of_true rfl fun h => nomatch h

/-- The checks of a reply, over what is left. -/
abbrev checked (left : Leftover H) (r : R) (os : List O) : Except CoreError Unit × BaseChainLoader H :=
  checkReply c.which (c.arg r) c.existing (c.reply r) (os.map c.chainer)
    { linkHashes := left.hashes, merkleLeaves := left.leaves }

theorem attempt_of_checked (hopen : c.openLinks (c.keys left r) r = .ok os)
    (hcheck : c.checked left r os = (.ok (), b)) :
    c.attempt left r = c.finish (c.keys left r) os (c.savedLeaves ++ b.merkleLeaves) b.lastHash r := by
  simp only [attempt, hopen, bind, Except.bind, hcheck]

theorem attempt_of_refused {e : CoreError} (hopen : c.openLinks (c.keys left r) r = .ok os)
    (hcheck : c.checked left r os = (.error e, b)) :
    c.attempt left r = .error e := by
  simp only [attempt, hopen, bind, Except.bind, hcheck]

/-- The parts of an attempt that succeeds. -/
theorem attempt_eq_ok (h : c.attempt left r = .ok s) : ∃ os b, c.openLinks (c.keys left r) r = .ok os ∧
      c.checked left r os = (.ok (), b) ∧
      c.finish (c.keys left r) os (c.savedLeaves ++ b.merkleLeaves) b.lastHash r = .ok s := by
  obtain ⟨os, hopen, h1⟩ := bind_eq_ok.mp h
  split at h1
  · cases h1
  · next b hcheck => exact ⟨os, b, hopen, hcheck, h1⟩

/-- A fresh attempt saves one leaf for each link, after those that were saved. -/
theorem attempt_leaves (h : c.attempt {} r = .ok s) :
    ∃ leaves, c.leavesOf s = c.savedLeaves ++ leaves ∧ leaves.map value = c.hashes r := by
  obtain ⟨os, b, hopen, hcheck, hfinish⟩ := attempt_eq_ok h
  cases hkeeps : c.keeps r with
  | true =>
    refine ⟨[], ?_, ?_⟩
    · rw [append_nil, (c.savedKeys_of_keeps hkeeps hfinish).2]
    · rw [hashes, c.links_of_keeps hkeeps]
      rfl
  | false =>
    refine ⟨b.merkleLeaves, (c.finish_saves hkeeps hfinish).1, ?_⟩
    exact (checkReply_used (c.testing_eq r) (c.chainers_eq hopen) hcheck).1

/-- With a saved state, and with keys that the reply has as well, the keys are those of a fresh
attempt. -/
theorem keys_of_clean (hleft : c.LeftBy failed left)
    (hkeys : c.savedKeys = none → ∀ r' ∈ failed, ∀ fp ∈ c.replyKeys r', fp ∈ c.replyKeys r) :
    c.keys left r = c.keys {} r := by
  refine keys_eq_iff.mpr fun hnone fp hfp => ?_
  obtain ⟨r', hr', hfp'⟩ := (hleft.hepks hnone fp).mp hfp
  exact hkeys hnone r' hr' fp hfp'

omit [MerkleHash H] [LinkHash L H] [LocationHash H] in
/-- An attempt that keeps the saved state has its keys. -/
theorem keys_of_keeps {keys : HEPKSet H} {leaves : List (MerkleLeaf H)} (hkeeps : c.keeps r)
    (hfinish : c.finish keys os leaves last r = .ok s) : c.keys left r = c.keys {} r := by
  obtain ⟨hsaved, -⟩ := c.savedKeys_of_keeps hkeeps hfinish
  exact keys_eq_iff.mpr fun hnone => absurd hnone hsaved

omit [DecidableEq H] [MerkleHash H] [LinkHash L H] [LocationHash H] in
theorem opened_of_keeps {keys : HEPKSet H} (hopen : c.openLinks keys r = .ok os)
    (hkeeps : c.keeps r) : os = [] := by
  have hch := c.chainers_eq hopen
  rw [c.links_of_keeps hkeeps] at hch
  simpa using hch

section

variable (hleft : c.LeftBy failed left)

include hleft

/-- What is saved shows what was left. -/
theorem clean_of_attempt (h : c.attempt {} r = .ok s)
    (hused : c.attempt left r = .ok s) : c.Clean failed r := by
  obtain ⟨os, b0, hopen, hcheck, hfinish⟩ := attempt_eq_ok h
  obtain ⟨os', b, hopen', hcheck', hfinish'⟩ := attempt_eq_ok hused
  cases hkeeps : c.keeps r with
  | true => exact .inl hkeeps
  | false =>
    right
    obtain ⟨hleaves0, hkeys0⟩ := c.finish_saves hkeeps hfinish
    obtain ⟨hleaves, hkeys⟩ := c.finish_saves hkeeps hfinish'
    -- the saved keys show that the links were opened with the same ones
    have hkeys' : c.keys left r = c.keys {} r := hkeys.symm.trans hkeys0
    rw [hkeys', hopen] at hopen'
    cases hopen'
    obtain ⟨-, hagree⟩ := checkReply_used (c.testing_eq r) (c.chainers_eq hopen) hcheck
    obtain ⟨hpass, hfail⟩ := hagree { linkHashes := left.hashes, merkleLeaves := left.leaves }
    by_cases hinitial : c.hashes r <+: left.hashes ++ c.hashes r
    · obtain rfl := state_unique hcheck' (hpass hinitial)
      -- the saved leaves show that there are no others
      have hnil : left.leaves = [] := by
        have hsaved := append_cancel_left (hleaves.symm.trans hleaves0)
        exact append_left_eq_self.mp hsaved
      rw [hleft.hashes] at hinitial
      refine ⟨hinitial, hleft.leaves.mp hnil, fun hnone r' hr' fp hfp => ?_⟩
      exact keys_eq_iff.mp hkeys' hnone fp ((hleft.hepks hnone fp).mpr ⟨r', hr', hfp⟩)
    · obtain ⟨e, b', herror⟩ := hfail hinitial
      cases hcheck'.symm.trans herror

/-- A reply that passes after failed ones passes alone, with the same outcome. -/
theorem attempt_new_of_clean (h : c.attempt left r = .ok s)
    (hclean : c.Clean failed r) :
    c.attempt {} r = .ok s := by
  obtain ⟨os, b, hopen, hcheck, hfinish⟩ := attempt_eq_ok h
  rcases hclean with hkeeps | ⟨hinitial, hstops, hkeys⟩
  · -- nothing of what is left is read
    have hkeys' : c.keys left r = c.keys {} r := keys_of_keeps hkeeps hfinish
    obtain rfl := opened_of_keeps hopen hkeeps
    rw [hkeys'] at hopen hfinish
    obtain ⟨b0, hcheck0, -, hlast⟩ := checkReply_new (c.testing_eq r) (c.chainers_eq hopen) hcheck
      (by rw [c.links_of_keeps hkeeps]; exact nil_prefix)
    rw [attempt_of_checked hopen hcheck0, ← hlast, ← hfinish]
    exact c.finish_of_keeps hkeeps _ _ _ _
  have hkeys' : c.keys left r = c.keys {} r := keys_of_clean hleft hkeys
  have hnil : left.leaves = [] := hleft.leaves.mpr hstops
  rw [← hleft.hashes] at hinitial
  rw [hkeys'] at hopen hfinish
  obtain ⟨b0, hcheck0, hleaves, hlast⟩ :=
    checkReply_new (c.testing_eq r) (c.chainers_eq hopen) hcheck hinitial
  rw [attempt_of_checked hopen hcheck0, ← hlast, ← hfinish, hleaves, hnil]
  rfl

/-- A reply that passes alone passes after failed ones, with the same outcome. -/
theorem attempt_of_clean (h : c.attempt {} r = .ok s)
    (hclean : c.Clean failed r) : c.attempt left r = .ok s := by
  obtain ⟨os, b0, hopen, hcheck, hfinish⟩ := attempt_eq_ok h
  obtain ⟨-, hagree⟩ := checkReply_used (c.testing_eq r) (c.chainers_eq hopen) hcheck
  obtain ⟨hpass, -⟩ := hagree { linkHashes := left.hashes, merkleLeaves := left.leaves }
  rcases hclean with hkeeps | ⟨hinitial, hstops, hkeys⟩
  · -- nothing of what is left is read
    have hkeys' : c.keys left r = c.keys {} r := keys_of_keeps hkeeps hfinish
    obtain rfl := opened_of_keeps hopen hkeeps
    have hcheck' := hpass (by rw [c.links_of_keeps hkeeps]; exact nil_prefix)
    rw [attempt_of_checked (hkeys'.symm ▸ hopen) hcheck', hkeys', ← hfinish]
    exact c.finish_of_keeps hkeeps _ _ _ _
  rw [← hleft.hashes] at hinitial
  have hkeys' : c.keys left r = c.keys {} r := keys_of_clean hleft hkeys
  have hnil : left.leaves = [] := hleft.leaves.mpr hstops
  rw [attempt_of_checked (hkeys'.symm ▸ hopen) (hpass hinitial), hkeys', hnil]
  exact hfinish

variable (h : c.attempt left r = .ok s ∨ c.attempt {} r = .ok s)

include h

/-- An attempt that passes, alone or after failed ones, has the same outcome in both cases if and only
if the failed replies leave nothing that matters for it. -/
theorem attempt_eq_iff :
    c.attempt left r = c.attempt {} r ↔ c.Clean failed r := by
  rcases h with hused | hnew
  · rw [hused]
    constructor
    · exact fun hsame => clean_of_attempt hleft hsame.symm hused
    · exact fun hclean => (attempt_new_of_clean hleft hused hclean).symm
  · rw [hnew]
    exact ⟨clean_of_attempt hleft hnew, attempt_of_clean hleft hnew⟩

/-- If nothing that matters is left, one leaf is saved for each link. -/
theorem leaves_of_clean (hclean : c.Clean failed r) :
    ∃ leaves, c.leavesOf s = c.savedLeaves ++ leaves ∧ leaves.map value = c.hashes r :=
  attempt_leaves (h.elim (fun hused => attempt_new_of_clean hleft hused hclean) id)

end

end ChainClient

end Foks.Client
