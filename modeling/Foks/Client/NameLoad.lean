import Foks.Client.Rotation

/-!
# Checking a name, and the lists that a server sends

`checkNameLoad` of `client/libclient/base_chain_loader.go`: the chain commits to names, and the last one of
them must be in the Merkle tree, for the user or team of the chain. The paths to the leaves of names come
before those to the links, and the server says how many they are.

The lists of a reply have lengths that the server chooses. An index that is out of range stops the client,
and so does the slice of the paths after those of the names.
-/

namespace Foks.Client

open Lib Merkle LocationHash LinkHash List Action Sample

variable {L H : Type} [DecidableEq H] [MerkleHash H] [LocationHash H] {skip : Bool}
  {b : BaseChainLoader H} {i : ℕ}

/-! ## The check of a name -/

/-- What the check of a name asks other packages. -/
structure NameServices (H : Type) where
  normalizeName : String → Except CoreError String
  openCommitment : NameCommitmentAndKey → H → Except CoreError Unit
  nameToEntityID : String → HostID → EntityID
  /-- The value of the leaf of a name that a user or a team has. -/
  entityValue : EntityID → H

def firstNameSeqno : Seqno := 1

def hashName (H : Type) [LocationHash H] (eid : EntityID) (seqno : Seqno) : MerkleTreeRFOutput :=
  keyHash H ⟨seqno, eid, .name, none⟩

/-- The loop of `checkNameLoad` over the commitments, from number `i` on: the last name. -/
def checkNames (sv : NameServices H) : ℕ → Option String → List H → List NameCommitmentAndKey →
    Except CoreError (Option String)
  | _, last, [], _ => .ok last
  | _, _, _ :: _, [] => .error outOfRange
  | i, _, unc :: commitments, un :: names => do
    (sv.openCommitment un unc).mapError fun err =>
      .chainLoaderError false (.ulOpenCommitmentError "username" i err)
    checkNames sv (i + 1) (some un.name) commitments names

/-- The verification of path `i` to the leaf of a name. A test may go on with the leaf of a path that does
not verify. -/
def verifyName (skip : Bool) (p : MerklePathCompressed H) (key : MerkleTreeRFOutput) (present : Bool)
    (i : ℕ) : Action (BaseChainLoader H) CoreError (Option H) :=
  match verify p key present with
  | .ok leaf => return leaf
  | .error err => do
    let err := CoreError.chainLoaderError false (.clBadMerklePathError "username" i err)
    if skip then do
      .update (·.queueFatalError err)
      return match p.terminal with
        | .toLeaf t => some t.leaf
        | _ => none
    else .fail err

/-- The loop of `checkNameLoad` over the paths, from path `i` on, with `n` paths left: the number of the
last name that was found. -/
def checkNamePaths (sv : NameServices H) (skip : Bool) (party neid : EntityID)
    (paths : MerklePathsCompressed H) : ℕ → ℕ → Seqno → Seqno → Action (BaseChainLoader H) CoreError Seqno
  | 0, _, _, ret => return ret
  | n + 1, i, seqno, ret =>
    match paths.paths[i]? with
    | none => .fail outOfRange
    | some p => do
      let last := n = 0
      let leaf ← verifyName skip (selectPath paths.root p) (hashName H neid seqno) (¬ last) i
      if last then checkNamePaths sv skip party neid paths n (i + 1) seqno ret
      else
        match leaf with
        | none => .fail (.internalError "expected a leaf at end of username path")
        | some leaf =>
          -- only the path before the last one is to the name of this user or team
          if n ≠ 1 then checkNamePaths sv skip party neid paths n (i + 1) seqno seqno
          else do
            .refuse (sv.entityValue party ≠ leaf)
              (.chainLoaderError false (.clBadMerkleLeafValueError "username" i))
            checkNamePaths sv skip party neid paths n (i + 1) (seqno + 1) seqno

/-- `checkNameLoad`; the number of paths is a signed number. -/
def checkNameLoad (sv : NameServices H) (skip : Bool) (party : EntityID) (host : HostID)
    (commitments : List H) (names : List NameCommitmentAndKey) (existing : Option NameAndSeqnoBundle)
    (proposed : String) (numNamePathsSupplied : ℤ) (paths : MerklePathsCompressed H) :
    Action (BaseChainLoader H) CoreError Seqno := do
  .refuse (commitments.length ≠ names.length)
    (.chainLoaderError false (.clBadCountError "names" commitments.length names.length))
  let last ← (checkNames sv 0 none commitments names : Except CoreError _)
  let nn ← ((sv.normalizeName proposed).mapError (.chainLoaderError false) : Except CoreError _)
  let known := existing.filter (·.b.name = nn)
  .refuse (last = none ∧ known = none) (.linkError "no username commitment found in chain, and one was needed")
  .refuse (last.any (· ≠ nn)) (chainLoaderGenericError "username commitment does not match supplied username")
  let seqno := known.elim firstNameSeqno (·.s + 1)
  let neid := sv.nameToEntityID nn host
  .refuse (numNamePathsSupplied = 0)
    (chainLoaderGenericError "need at least one username link to prove absense of updates")
  .refuse (known = none ∧ numNamePathsSupplied < 2)
    (chainLoaderGenericError "need at least two username links to establish a username")
  checkNamePaths sv skip party neid paths numNamePathsSupplied.toNat 0 seqno (existing.elim 0 (·.s))

/-! ## Indices into the lists of names and paths -/

section Name

variable {sv : NameServices H} {commitments : List H} {names : List NameCommitmentAndKey}
  {paths : MerklePathsCompressed H}

omit [DecidableEq H] [MerkleHash H] [LocationHash H] in
theorem checkNames_in_range {last : Option String} (h : commitments.length = names.length) :
    checkNames sv i last commitments names ≠ .error outOfRange := by
  induction commitments generalizing i last names with
  | nil => exact nofun
  | cons unc commitments ih =>
    cases names with
    | nil => cases h
    | cons un names =>
      unfold checkNames
      cases sv.openCommitment un unc with
      | error err => exact nofun
      | ok u => exact ih (Nat.succ.inj h)

omit [LocationHash H] in
theorem verifyName_in_range {p : MerklePathCompressed H} {key : MerkleTreeRFOutput} {present : Bool}
    : (verifyName skip p key present i).Avoids outOfRange b := by
  unfold verifyName
  split
  · exact avoids_pure _
  split
  · exact (avoids_update _).bind fun _ _ _ => avoids_pure _
  · exact avoids_fail nofun

/-- Each turn of the loop takes a path that the server has sent. -/
theorem checkNamePaths_in_range {party neid : EntityID} {n : ℕ} {seqno ret : Seqno}
    (h : i + n ≤ paths.paths.length) :
    (checkNamePaths sv skip party neid paths n i seqno ret).Avoids outOfRange b := by
  induction n generalizing i seqno ret b with
  | zero => exact avoids_pure _
  | succ n ih =>
    have hi : i < paths.paths.length := by omega
    have hnext : i + 1 + n ≤ paths.paths.length := by omega
    unfold checkNamePaths
    rw [getElem?_eq_getElem hi]
    refine verifyName_in_range.bind fun leaf b' _ => ?_
    split
    · exact ih hnext
    split
    · exact avoids_fail (by decide)
    split
    · exact ih hnext
    · refine .bind (avoids_refuse nofun) fun _ _ _ => ?_
      exact ih hnext

theorem checkNameLoad_in_range {party : EntityID} {host : HostID} {existing : Option NameAndSeqnoBundle}
    {proposed : String} {num : ℤ} (h : num ≤ paths.paths.length) :
    (checkNameLoad sv skip party host commitments names existing proposed num paths).Avoids outOfRange b := by
  refine .bind (avoids_refuse nofun) fun _ b1 hcount => ?_
  have hlength := not_not.mp (refuse_eq_ok.mp hcount).1
  refine .bind (avoids_lift (checkNames_in_range hlength)) fun last b2 _ => ?_
  refine .bind (avoids_lift ?_) fun nn b3 _ => ?_
  · cases sv.normalizeName proposed <;> exact nofun
  refine .bind (avoids_refuse nofun) fun _ b4 _ => ?_
  refine .bind (avoids_refuse nofun) fun _ b5 _ => ?_
  refine .bind (avoids_refuse nofun) fun _ b6 _ => ?_
  refine .bind (avoids_refuse nofun) fun _ b7 _ => ?_
  refine checkNamePaths_in_range ?_
  omega

end Name

/-! ## Indices into the lists of hashes and locations -/

section Chain

variable [LinkHash L H] {b' : BaseChainLoader H}

variable {err : CoreError} {which : String} {testing : Option ChainLoaderTesting}
  {chainer : Option (HidingChainer H)}
  {prev : Option H} {seqno : Seqno} {link : L} {links : List L} {chainerAtIndex : ℕ → Option (HidingChainer H)}
  {a : ChainArg H} {locations : List TreeLocation} {ntlc : Option H} {key : MerkleTreeRFOutput} {leaf : H}

section

omit [DecidableEq H] [MerkleHash H] [LocationHash H]

theorem failUnless_in_range (h : err ≠ outOfRange) : (failUnless skip err).Avoids outOfRange b := by
  unfold failUnless
  split
  · exact avoids_update _
  · exact avoids_fail h

theorem failUnless_linkHashes (h : failUnless skip err b = (.ok (), b')) : b'.linkHashes = b.linkHashes := by
  unfold failUnless at h
  split at h
  · cases h
    change (b.queueFatalError err).linkHashes = b.linkHashes
    unfold BaseChainLoader.queueFatalError
    split <;> rfl
  · cases h

end

section

omit [MerkleHash H] [LocationHash H]

theorem checkLink_in_range : (checkLink which testing link chainer prev seqno).Avoids outOfRange b := by
  unfold checkLink
  split
  · exact avoids_fail nofun
  refine .bind (avoids_refuse nofun) fun _ b1 _ => ?_
  refine .bind (avoids_update _) fun _ b2 _ => ?_
  have hrest (b3 : BaseChainLoader H) : Action.Avoids outOfRange (do
      Action.refuse (isEldest seqno ≠ prev.isNone) (chainLoaderGenericError "prev==nil iff seqno==1")
      return linkHash link : Action (BaseChainLoader H) CoreError H) b3 :=
    Action.Avoids.bind (avoids_refuse nofun) fun _ _ _ =>
      avoids_pure _
  split
  · exact .bind (failUnless_in_range nofun) fun _ b3 _ => hrest b3
  · exact hrest b2

theorem checkChain_in_range : (checkChain prev seqno links chainerAtIndex which testing).Avoids
    outOfRange b := by
  have hlinks (i : ℕ) (prev : Option H) (seqno : Seqno) (b : BaseChainLoader H) :
      (checkLinks which testing chainerAtIndex i links prev seqno).Avoids outOfRange b := by
    induction links generalizing i prev seqno b with
    | nil => exact avoids_pure _
    | cons link links ih => exact checkLink_in_range.bind fun hsh b1 _ => ih _ _ _ _
  exact (hlinks 0 prev seqno b).bind fun _ _ _ => avoids_update _

end

section

omit [MerkleHash H] [LocationHash H]

theorem checkLink_linkHashes {hsh : H} (h : checkLink which testing link chainer prev seqno b = (.ok hsh, b')) :
    b'.linkHashes = b.linkHashes ++ [linkHash link] := by
  cases chainer with
  | none => cases h
  | some ch =>
    obtain ⟨-, h1⟩ := refuse_bind_eq_ok.mp h
    have h2 := update_bind_eq_ok.mp h1
    have hrest {b3 : BaseChainLoader H} (h3 : (do
        Action.refuse (isEldest seqno ≠ prev.isNone) (chainLoaderGenericError "prev==nil iff seqno==1")
        return linkHash link : Action (BaseChainLoader H) CoreError H) b3 = (.ok hsh, b')) :
        b'.linkHashes = b3.linkHashes := by
      obtain ⟨-, h4⟩ := refuse_bind_eq_ok.mp h3
      cases h4
      rfl
    split at h2
    · obtain ⟨⟨⟩, b3, hskip, h3⟩ := bind_eq_ok.mp h2
      exact (hrest h3).trans (failUnless_linkHashes hskip)
    · exact hrest h2

theorem checkLinks_linkHashes {last : Option H}
    (h : checkLinks which testing chainerAtIndex i links prev seqno b = (.ok last, b')) :
    b'.linkHashes.length = b.linkHashes.length + links.length := by
  induction links generalizing i prev seqno b with
  | nil =>
    cases h
    rfl
  | cons link links ih =>
    obtain ⟨hsh, b1, hlink, h1⟩ := bind_eq_ok.mp h
    rw [ih h1, checkLink_linkHashes hlink, length_append, length_singleton, length_cons]
    omega

/-- There is a hash for each link that has passed. -/
theorem checkChain_linkHashes (h : checkChain prev seqno links chainerAtIndex which testing b = (.ok (), b')) :
    links.length ≤ b'.linkHashes.length := by
  obtain ⟨last, b1, hloop, h1⟩ := bind_eq_ok.mp h
  cases h1
  change links.length ≤ b1.linkHashes.length
  rw [checkLinks_linkHashes hloop]
  exact Nat.le_add_left ..

end

omit [MerkleHash H] [LinkHash L H] in
theorem nextLocation_in_range (h : ntlc ≠ none → locations ≠ []) :
    nextLocation a locations ntlc seqno ≠ .error outOfRange := by
  unfold nextLocation
  cases ntlc with
  | some c =>
    cases locations with
    | nil => exact absurd rfl (h (Option.some_ne_none c))
    | cons l locations =>
      dsimp only
      split
      · exact nofun
      · exact nofun
  | none =>
    dsimp only
    split
    · exact nofun
    split
    · exact nofun
    · exact fun herr => absurd (Except.error.inj herr) (by decide)

section

omit [MerkleHash H] [LocationHash H] [LinkHash L H]

theorem checkLeaf_in_range (h : i < b.linkHashes.length) :
    (checkLeaf a i key leaf seqno).Avoids outOfRange b := by
  refine .bind (nofun) fun hashes b1 hread => ?_
  cases hread
  rw [getElem?_eq_getElem h]
  dsimp only
  split
  · exact .bind (failUnless_in_range nofun) fun _ _ _ =>
      avoids_update _
  · exact avoids_update _

theorem checkLeaf_linkHashes (h : checkLeaf a i key leaf seqno b = (.ok (), b')) :
    b'.linkHashes = b.linkHashes := by
  have h1 := read_bind_eq_ok.mp h
  rcases hget : b.linkHashes[i]? with _ | hsh
  · rw [hget] at h1
    cases h1
  rw [hget] at h1
  dsimp only at h1
  split at h1
  · obtain ⟨⟨⟩, b2, hskip, h2⟩ := bind_eq_ok.mp h1
    cases h2
    change b2.linkHashes = b.linkHashes
    exact failUnless_linkHashes hskip
  · cases h1
    rfl

end

section

omit [LinkHash L H]

/-- There is a location for each path that needs one, and a hash for each path but the last one. -/
theorem checkPaths_in_range {paths : List (MerklePathCompressedPair H)}
    (hhash : i + paths.length ≤ b.linkHashes.length + 1)
    (hloc : paths.length ≤ locations.length + if ntlc = none then 1 else 0) :
    (checkPaths a chainerAtIndex i paths locations ntlc seqno).Avoids outOfRange b := by
  induction paths generalizing i locations ntlc seqno b with
  | nil => exact avoids_pure _
  | cons path paths ih =>
    rw [length_cons] at hhash hloc
    refine .bind (avoids_lift (nextLocation_in_range fun hne hnil => ?_)) ?_
    · rw [hnil, if_neg hne] at hloc
      cases hloc
    rintro ⟨loc, rest⟩ b1 hlift
    obtain ⟨hnext, rfl⟩ := lift_eq_ok.mp hlift
    have hrest := (nextLocation_eq_ok hnext).2
    refine .bind (avoids_lift ?_) fun leaf b2 hverify => ?_
    · unfold verifyAt
      split
      · exact nofun
      · exact nofun
    obtain ⟨-, rfl⟩ := lift_eq_ok.mp hverify
    split
    · exact avoids_pure _
    · next hlast =>
      have hpos : 0 < paths.length := length_pos_of_ne_nil (by simpa using hlast)
      split
      · exact avoids_fail (by decide)
      · exact avoids_fail (by decide)
      refine .bind (checkLeaf_in_range (by omega)) fun _ b3 hleaf => ?_
      refine ih ?_ ?_
      · rw [checkLeaf_linkHashes hleaf]
        omega
      · rw [if_neg (Option.some_ne_none _)]
        split at hloc <;> split at hrest <;> omega

/-- `checkMerklePaths` stops if and only if the server says that there are more paths to names than it has
sent paths. -/
theorem checkMerklePaths_outOfRange {merklePaths : List (MerklePathCompressedPair H)} {offset : ℕ}
    (hhash : links.length ≤ b.linkHashes.length) :
    (checkMerklePaths a locations links chainerAtIndex merklePaths ntlc seqno offset).Avoids outOfRange b ↔
      offset ≤ merklePaths.length := by
  unfold checkMerklePaths
  constructor
  · intro h
    by_contra hoffset
    refine h ?_
    rw [bind_apply, Action.refuse, if_pos (not_le.mp hoffset)]
    rfl
  · intro hoffset
    refine .bind (fun herr => ?_) fun _ b1 hrange => ?_
    · rw [refuse_of_not (not_lt.mpr hoffset)] at herr
      cases herr
    obtain ⟨-, rfl⟩ := refuse_eq_ok.mp hrange
    refine .bind (avoids_refuse (by rintro ⟨⟩)) fun _ b2 hcount => ?_
    obtain ⟨hlen, rfl⟩ := refuse_eq_ok.mp hcount
    refine .bind (avoids_refuse (by rintro ⟨⟩)) fun _ b3 hcount' => ?_
    obtain ⟨hneeded, rfl⟩ := refuse_eq_ok.mp hcount'
    rw [not_not] at hlen hneeded
    refine checkPaths_in_range (by omega) ?_
    by_cases hnone : ntlc = none
    · rw [if_pos hnone] at hneeded ⊢
      omega
    · rw [if_neg hnone] at hneeded ⊢
      omega

end

/-- **Replies that stop the client.** `checkChain` stops for no reply. After it has passed,
`checkMerklePaths`, and `checkNameLoad` after that, stop for none if and only if the server does not say that
there are more paths to names than it has sent paths. -/
theorem checks_in_range_iff (prev : Option H) (seqno : Seqno) (links : List L)
    (chainerAtIndex : ℕ → Option (HidingChainer H)) (which : String)
    (testing : Option ChainLoaderTesting) (a : ChainArg H) (locations : List TreeLocation)
    (merkle : MerklePathsCompressed H) (ntlc : Option H) (count : ℕ) (sv : NameServices H) (skip : Bool)
    (party : EntityID) (host : HostID) (commitments : List H) (names : List NameCommitmentAndKey)
    (existing : Option NameAndSeqnoBundle) (proposed : String) (b : BaseChainLoader H) :
    (checkChain prev seqno links chainerAtIndex which testing).Avoids outOfRange b ∧
      ∀ b₁, checkChain prev seqno links chainerAtIndex which testing b = (.ok (), b₁) →
        let check := checkMerklePaths a locations links chainerAtIndex merkle.paths ntlc seqno count
        (check.Avoids outOfRange b₁ ∧ ∀ b₂, check b₁ = (.ok (), b₂) → ∀ b₃ : BaseChainLoader H,
          (checkNameLoad sv skip party host commitments names existing proposed (int64 count)
            merkle).Avoids outOfRange b₃) ↔ count ≤ merkle.paths.length := by
  refine ⟨checkChain_in_range, fun b₁ hchain => ?_⟩
  intro check
  have hpaths : check.Avoids outOfRange b₁ ↔ count ≤ merkle.paths.length :=
    checkMerklePaths_outOfRange (checkChain_linkHashes hchain)
  refine ⟨fun h => hpaths.mp h.1, fun hcount => ⟨hpaths.mpr hcount, fun b₂ _ b₃ => ?_⟩⟩
  refine checkNameLoad_in_range ((int64_le count).trans ?_)
  exact Int.ofNat_le.mpr hcount

end Chain

/-- A reply without links and paths that speaks of two paths to names: `checkChain` passes, and
`checkMerklePaths` takes the paths after the second one. -/
theorem two_names_without_paths :
    let b : BaseChainLoader SymHash := {}
    checkChain none chainEldestSeqno ([] : List ℕ) (fun _ => none) "uid" none b = (.ok (), b) ∧
      (checkMerklePaths ⟨uid.entityID, .user, none, .v1 (root 3), "uid", none⟩ [] ([] : List ℕ)
        (fun _ => none) [] none chainEldestSeqno 2 b).1 = .error outOfRange := by
  exact ⟨rfl, by decide⟩

/-! ## Names with several links -/

section Honest

variable (existing : Option NameAndSeqnoBundle) (nn : String)

/-- The first number that the client asks about. -/
def nameStart : ℕ := (existing.filter (·.b.name = nn)).elim firstNameSeqno (·.s + 1)

/-- An honest reply for a name with the links `1, …, k`, which the client may know up to some number: paths
to the numbers from `nameStart` to `k`, the last of them with the party, and one that shows that `k + 1` is
missing. -/
structure HonestName (sv : NameServices H) (party : EntityID) (host : HostID) (commitments : List H)
    (names : List NameCommitmentAndKey) (proposed : String) (paths : MerklePathsCompressed H)
        (k : ℕ) : Prop where
  count : commitments.length = names.length
  name : sv.normalizeName proposed = .ok nn
  opened : ∃ last, checkNames sv 0 none commitments names = .ok last ∧
    (last = some nn ∨ last = none ∧ existing.filter (·.b.name = nn) ≠ none)
  pos : 1 ≤ k
  known : nameStart existing nn ≤ k + 1
  root : ∃ r, paths.root = .v1 r
  present : ∀ i, nameStart existing nn + i ≤ k → ∃ p leaf, paths.paths[i]? = some p ∧
    verify (selectPath paths.root p) (hashName H (sv.nameToEntityID nn host) (nameStart existing nn + i)) true =
      .ok (some leaf) ∧ (nameStart existing nn + i = k → sv.entityValue party = leaf)
  absent : ∃ p, paths.paths[k + 1 - nameStart existing nn]? = some p ∧
    verify (selectPath paths.root p) (hashName H (sv.nameToEntityID nn host) (k + 1)) false = .ok none

variable {existing nn} {sv : NameServices H} {party : EntityID} {host : HostID} {commitments : List H}
  {names : List NameCommitmentAndKey} {proposed : String} {paths : MerklePathsCompressed H} {k : ℕ}
  (h : HonestName existing nn sv party host commitments names proposed paths k)

include h

/-- What comes before the paths passes. -/
theorem HonestName.checkNameLoad_eq {num : ℕ} (hnum : num = k + 2 - nameStart existing nn) :
    checkNameLoad sv skip party host commitments names existing proposed num paths b =
      checkNamePaths sv skip party (sv.nameToEntityID nn host) paths num 0 (nameStart existing nn)
        (existing.elim 0 (·.s)) b := by
  obtain ⟨last, hnames, hlast⟩ := h.opened
  have hpos : num ≠ 0 := by
    have := h.known
    omega
  have htwo : ¬ (existing.filter (·.b.name = nn) = none ∧ (num : ℤ) < 2) := by
    rintro ⟨heq, hlt⟩
    have hstart : nameStart existing nn = 1 := by rw [nameStart, heq]; rfl
    have := h.pos
    omega
  have hneeded : ¬ (last = none ∧ existing.filter (·.b.name = nn) = none) :=
    fun hno => hlast.elim (fun heq => by simp [heq] at hno) fun heq => heq.2 hno.2
  have hsame : ¬ last.any (· ≠ nn) := by rcases hlast with rfl | ⟨rfl, -⟩ <;> simp
  simp only [checkNameLoad, bind_apply, refuse_of_not (not_not.mpr h.count), lift_apply, hnames,
    h.name, Except.mapError,
    refuse_of_not hneeded, refuse_of_not hsame, refuse_of_not htwo,
      refuse_of_not (mt Int.ofNat_eq_zero.mp hpos)]
  rfl

/-- **Names with several links.** An honest reply passes, with the number of the last link, if and only if
there is at most one link that the client does not know: the number that a path is checked for goes up after
the path before the last one only. -/
theorem checkNameLoad_honest_iff (hs : SoundHash H)
    (hkeys : Set.InjOn (hashName H (sv.nameToEntityID nn host)) (Set.Icc 1 k)) (b : BaseChainLoader H) :
    checkNameLoad sv false party host commitments names existing proposed
      (k + 2 - nameStart existing nn : ℕ) paths b =
      (.ok k, b) ↔ k ≤ nameStart existing nn := by
  have hknown := h.known
  have hverify {p : MerklePathCompressed H} {key present i leaf b₁} :
      verifyName false p key present i b = (.ok leaf, b₁) ↔ verify p key present = .ok leaf ∧ b₁ = b := by
    unfold verifyName
    cases verify p key present <;> simp [eq_comm]
  rw [h.checkNameLoad_eq rfl]
  constructor
  · intro hload
    by_contra hle
    have hlt := not_le.mp hle
    obtain ⟨r, hr⟩ := h.root
    obtain ⟨p, leaf, hp, -⟩ := h.present 0 (by omega)
    obtain ⟨p', leaf', hp', hpresent', -⟩ := h.present 1 (by omega)
    obtain ⟨n, hn⟩ : ∃ n, k + 2 - nameStart existing nn = n + 3 := ⟨k - nameStart existing nn - 1, by omega⟩
    rw [hn, checkNamePaths, hp] at hload
    obtain ⟨leaf₀, b₀, hfirst, hload⟩ := bind_eq_ok.mp hload
    obtain ⟨-, rfl⟩ := hverify.mp hfirst
    cases leaf₀ with
    | none => simp at hload
    | some leaf₀ =>
      -- the second path is to the next number, and is checked for the same one
      rw [if_neg (by omega)] at hload
      simp only [if_pos (show n + 2 ≠ 1 by omega)] at hload
      rw [checkNamePaths, hp'] at hload
      obtain ⟨leaf₁, b₁, hsecond, -⟩ := bind_eq_ok.mp hload
      obtain ⟨v, -, hsecond⟩ := verify_true_eq_ok (hverify.mp hsecond).1
      obtain ⟨v', -, hpresent'⟩ := verify_true_eq_ok hpresent'
      have hpos : 1 ≤ nameStart existing nn := by
        unfold nameStart
        cases existing.filter _ <;> simp [firstNameSeqno]
      have hsame := hkeys ⟨hpos, hlt.le⟩ ⟨Nat.le_add_left .., hlt⟩ (present_key_unique hs hr hsecond hpresent')
      exact (Nat.succ_ne_self _).symm hsame
  · intro hle
    obtain ⟨p, hp, habsent⟩ := h.absent
    rcases (by omega : nameStart existing nn = k + 1 ∨ nameStart existing nn = k) with heq | heq
    · have hret : existing.elim 0 (·.s) = k := by
        have hpos := h.pos
        cases existing with
        | none =>
          cases heq
          cases hpos
        | some x =>
          by_cases hx : x.b.name = nn <;> simp [nameStart, Option.filter_some, hx, firstNameSeqno]
            at heq ⊢ <;> omega
      rw [heq, Nat.sub_self] at hp
      rw [heq, hret, (by omega : k + 2 - (k + 1) = 1), checkNamePaths, hp]
      exact bind_eq_ok.mpr ⟨none, b, hverify.mpr ⟨habsent, rfl⟩, rfl⟩
    obtain ⟨p₀, leaf, hp₀, hpresent, hleaf⟩ := h.present 0 heq.le
    rw [heq, Nat.add_sub_cancel_left] at hp
    rw [heq] at hpresent
    rw [heq, Nat.add_sub_cancel_left, checkNamePaths, hp₀]
    refine bind_eq_ok.mpr ⟨some leaf, b, hverify.mpr ⟨hpresent, rfl⟩, ?_⟩
    refine bind_eq_ok.mpr ⟨(), b, refuse_of_not (not_not.mpr (hleaf heq)), ?_⟩
    rw [checkNamePaths, hp]
    exact bind_eq_ok.mpr ⟨none, b, hverify.mpr ⟨habsent, rfl⟩, rfl⟩

end Honest

namespace NameSample

/-- The party with number `n` has leaves with the value `n`. -/
def services : NameServices SymHash :=
    ⟨.ok, fun _ _ => .ok (), fun _ _ => .ofNat 33 (9 * 256 ^ 32), fun e => .atom e.data⟩

/-- The user with number `n`. -/
def party (n : ℕ) : EntityID := .ofNat 33 (256 ^ 32 + n)

def names : List NameCommitmentAndKey := [⟨"sample", 1, 0⟩]

end NameSample

open NameSample in
theorem checkNameLoad_honest_iff_oneLink :
    (checkNameLoad services false (party 5) host [.atom 0] names none "sample" 2
    ⟨.v1 OneLink.root, [OneLink.present, OneLink.absent]⟩ {}).1 = .ok 1 := by
  have h : HonestName none "sample" services (party 5) host [.atom 0] names "sample"
      ⟨.v1 OneLink.root, [OneLink.present, OneLink.absent]⟩ 1 := by
    refine ⟨rfl, rfl, ⟨_, rfl, .inl rfl⟩, le_rfl, by decide, ⟨_, rfl⟩, fun i hi => ?_, _, rfl, by decide⟩
    obtain rfl : i = 0 := by change 1 + i ≤ 1 at hi; omega
    exact ⟨_, .atom 5, rfl, by decide, fun _ => rfl⟩
  have hkeys : Set.InjOn (hashName SymHash (services.nameToEntityID "sample" host)) (Set.Icc 1 1) := by simp
  exact congrArg Prod.fst ((checkNameLoad_honest_iff h soundHash_symHash hkeys {}).mpr le_rfl)

open NameSample in
/-- A name with three links, for a client that does not know it. -/
theorem threeLinks_refused :
    HonestName none "sample" services (party 3) host [.atom 0] names "sample" ⟨.v1 (root 3), paths 3⟩ 3 ∧
      (checkNameLoad services false (party 3) host [.atom 0] names none "sample" 4
        ⟨.v1 (root 3), paths 3⟩ {}).1 ≠ .ok 3 := by
  refine ⟨⟨rfl, rfl, ⟨_, rfl, .inl rfl⟩, by decide, by decide, ⟨_, rfl⟩, fun i hi => ?_, _,
    rfl, by decide⟩, by decide⟩
  obtain rfl | rfl | rfl : i = 0 ∨ i = 1 ∨ i = 2 := by change 1 + i ≤ 3 at hi; omega
  · exact ⟨_, .atom 1, rfl, by decide, by decide⟩
  · exact ⟨_, .atom 2, rfl, by decide, by decide⟩
  · exact ⟨_, .atom 3, rfl, by decide, fun _ => rfl⟩

end Foks.Client
