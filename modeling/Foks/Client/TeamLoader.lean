import Foks.Client.TeamChain
import Foks.Client.UserLoader

/-!
# Loading a team

`client/libclient/team_loader.go`: a loader asks a server for the chain of a team, opens each link
against the roster before it, checks the reply, and plays the links: it collects the public keys of
the team (`client/libclient/team_keyring.go`) with the leaf of the link that each of them comes from,
the range of the team's index and the floors. At the end it saves a state, from which the next load
continues.

What comes between the name and the saved state (private keys, the removal key, the tokens of remote
members) is one function of `TeamServices`.

## Main definitions

* `TeamKeyRing`, `addPub`: the public keys of the team
* `TeamPlayer`, `playTeamLinks`: the player
* `TeamChainState`: the state that is saved
* `TeamLoader`, `runOnceTeam`: the loader, and one attempt of a load
-/

namespace Foks.Client

open Lib Merkle LinkFormat
open Team (MemberRoleSeqno)

section Types

variable (H : Type)

/-- `lcl.SharedKeyWithInfo`: a key of the team, who added it and who replaced it. -/
structure SharedKeyWithInfo where
  sk : SharedKey H
  pi : ProvisionInfo H
  ri : Option (RevokeInfo H)
  deriving DecidableEq

/-- `TeamKeyRing`: the public keys of each role, from the first generation on. -/
abbrev TeamKeyRing := Map RoleKey (List (SharedKeyWithInfo H))

/-- `lcl.TeamChainState`, without the time of the clock. `X` is what the steps after the name add:
private keys, the removal key, the tokens of remote members and the historical senders. -/
structure TeamChainState (X : Type) where
  tail : HidingChainer H
  lastHash : H
  name : NameAndSeqnoBundle
  merkleLeaves : List (MerkleLeaf H)
  ptks : List (SharedKeyWithInfo H)
  members : List (MemberRoleSeqno H)
  hepks : HEPKSet H
  tir : RationalRange
  sctlsc : H
  memberLoadFloor : Option Role
  rosterDelegationFloor : Option Role
  rosterDelegationFloorTracked : Bool
  boxed : X
  deriving DecidableEq

/-- The fields of `TeamLoader` that playing the links reads and changes. -/
structure TeamPlayer where
  ptks : TeamKeyRing H := ∅
  sctlsc : Option H := none
  memberLoadFloor : Option Role := none
  rosterDelegationFloor : Option Role := none
  tncs : List H := []
  indexRange : Option RationalRange := none

end Types

/-- `rem.TeamChain`: what a server sends; `A` is what the steps after the name read. -/
structure TeamChain (L H A : Type) where
  links : List L
  locations : List TreeLocation
  teamnames : List NameCommitmentAndKey
  merkle : MerklePathsCompressed H
  teamnameUtf8 : String
  numTeamnameLinks : ℕ
  hepks : List HEPK
  remoteViewTokens : List ℕ
  boxes : A

/-- What the servers say during one attempt: the team that comes with a new view token, whether a
token from before is taken, what the session with the Merkle server says about the root, and the
chain. -/
structure TeamAttempt (L H A : Type) where
  token : Except CoreError TeamID
  reuses : Bool
  session : Except CoreError Unit
  raw : TeamChain L H A

/-- `LoadTeamArg`, as far as a load reads it here; the ID of a team that is not known yet is none. -/
structure LoadTeamArg where
  team : Option TeamID
  host : HostID
  name : String
  adHocMashedName : Option ℕ
  keys : Bool
  tok : Bool
  localParentTeamTok : Bool
  asHost : HostID
  deriving DecidableEq

variable (l : LoadTeamArg)

def LoadTeamArg.check : Except CoreError Unit := do
  let nLoadArgs := (if l.name ≠ "" then 1 else 0) + (if l.team.isSome then 1 else 0) +
    (if l.adHocMashedName.isSome then 1 else 0)
  refuse (nLoadArgs = 0) (.internalError "must specify either name or team or ad-hoc mashed name")
  refuse (nLoadArgs ≠ 1)
    (.internalError "must specify either name or team or ad-hoc mashed name, not more than one")
  refuse (l.localParentTeamTok ∧ l.tok)
    (.internalError "must specify either local parent team token or permission token, not both")
  refuse (l.keys ∧ l.tok) (.internalError "must specify either keys or token, not both")
  refuse (¬ l.tok ∧ ¬ l.keys ∧ ¬ l.localParentTeamTok)
    (.internalError "need keys, a permission token, or a local parent team token")
  refuse (l.localParentTeamTok ∧ l.host ≠ l.asHost)
    (.internalError "local parent team token must be for the same host as the As party")

/-- `TeamLoader.TeamID`; the zero ID while the team is not known. -/
def LoadTeamArg.teamID : TeamID := l.team.getD 0

/-- Whether an attempt needs a view token of its own. -/
def LoadTeamArg.mints : Bool := l.keys && !l.tok && !l.localParentTeamTok

variable {L H X A : Type} [DecidableEq H]

/-! ## The keys of the team -/

/-- `TeamKeyRing.AddPub`: the next generation of a role. -/
def addPub (k : SharedKeyWithInfo H) (r : TeamKeyRing H) : Except CoreError (TeamKeyRing H) := do
  let rk ← importRole k.sk.role
  let pub := (r.lookup rk).getD []
  refuse (pub.length + firstGeneration ≠ k.sk.gen)
    (.chainLoaderError false (.clBadKeySequenceError "pub" k.sk.gen k.sk.role))
  -- the source compares the number of keys with the first generation, which is one
  let pub := if firstGeneration < pub.length then
      pub.modify (pub.length - 1) fun last => { last with ri := some ⟨k.pi.signer, k.pi.chain⟩ }
    else pub
  return r.insert rk (pub ++ [k])

def toKeyGens (r : TeamKeyRing H) : Team.KeyGens :=
  Map.ofFinset (r.keys.filter fun rk => r.lookup rk ≠ some [])
    fun rk => (((r.lookup rk).getD []).getLast?.map (·.sk.gen)).getD 0

/-- The public keys of `TeamKeyRing.Export`, role by role. -/
def exportPub (r : TeamKeyRing H) : List (SharedKeyWithInfo H) :=
  (sorted r.keys).flatMap fun rk => (r.lookup rk).getD []

/-! ## Playing the links -/

section Player

/-- What playing the links reads: the fields of `TeamLoader` that stay the same meanwhile. -/
structure TeamPlayArg (H : Type) where
  team : TeamID
  tir : Option RationalRange
  allMerkleLeaves : List (MerkleLeaf H)

def playTeamLinkEldest (otlr : OpenTeamLinkRes H) : Action (TeamPlayer H) CoreError Unit := do
  let res ← (openEldestLinkWithOTLR otlr : Except CoreError _)
  .update fun p => { p with
    sctlsc := some res.stltc
    memberLoadFloor := res.memberLoadFloor
    rosterDelegationFloor := otlr.rosterDelegationFloor.or p.rosterDelegationFloor }

def adHocTeamImmutableMsg : String := "ad-hoc teams have fixed membership and cannot be edited"

def rejectAdHocMembershipChange (team : TeamID) (seqno : Seqno) (nChanges : ℕ) : Except CoreError Unit :=
  refuse (team.isAdHocTeam ∧ ¬ isEldest seqno ∧ nChanges ≠ 0)
    (.chainLoaderError false (.teamError adHocTeamImmutableMsg))

def addIndexRangeEldest (rng : Option RationalRange) : Action (TeamPlayer H) CoreError Unit := do
  .refuse (rng = none) (.internalError "eldest link must have an index range")
  let p ← .read id
  .refuse (p.indexRange ≠ none) (.internalError "eldest link must be the first link")
  .update fun p => { p with indexRange := rng }

def TeamPlayer.getIndexRange (tir : Option RationalRange) (p : TeamPlayer H) : Option RationalRange :=
  p.indexRange.or tir

def addIndexRange (tir r : Option RationalRange) (q : Seqno) : Action (TeamPlayer H) CoreError Unit :=
  if isEldest q then addIndexRangeEldest r
  else do
    let p ← .read id
    match p.getIndexRange tir, r with
    | none, _ => .fail (.internalError "index range must be set after first link")
    | some _, none => return ()
    | some prev, some r => do
      .refuse (prev.eq r)
        (.chainLoaderError false (.clIndexRangeError q "new index range is the same as previous"))
      .refuse (!prev.includes r)
        (.chainLoaderError false (.clIndexRangeError q "new index range does not include previous"))
      .update fun p => { p with indexRange := some r }

/-- The loop of `playLink` over the shared keys. -/
def addPubs (pi : ProvisionInfo H) : List (SharedPublicSuite H) → Action (TeamPlayer H) CoreError Unit
  | [] => return ()
  | sk :: sks => do
    let p ← .read id
    let ptks ← (addPub ⟨sk.toSharedKey, pi, none⟩ p.ptks : Except CoreError _)
    .update fun p => { p with ptks }
    addPubs pi sks

def playTeamLink (a : TeamPlayArg H) (otlr : OpenTeamLinkRes H) : Action (TeamPlayer H) CoreError Unit := do
  let q := otlr.gc.chainer.base.seqno
  (rejectAdHocMembershipChange a.team q otlr.gc.changes.length : Except CoreError _)
  .update fun p => { p with tncs := p.tncs ++ otlr.tnc.toList }
  .refuse (!isValid q) (.internalError "invalid seqno; refusing to -1 on 0")
  -- links are numbered from one on, and the leaves from zero on
  match a.allMerkleLeaves[q - 1]? with
  | none => .fail (.internalError "ran out of merkle leaves for seqno")
  | some leaf => do
    addPubs ⟨otlr.gc.signer.key, otlr.gc.chainer.base, leaf⟩ otlr.sharedKeys
    addIndexRange a.tir otlr.range q
    .update fun p => { p with
      rosterDelegationFloor := otlr.rosterDelegationFloor.or p.rosterDelegationFloor }

/-- The loop of `TeamLoader.playLinks`. -/
def playTeamLinks (a : TeamPlayArg H) : List (OpenTeamLinkRes H) → Action (TeamPlayer H) CoreError Unit
  | [] => return ()
  | otlr :: otlrs => do
    if isEldest otlr.gc.chainer.base.seqno then playTeamLinkEldest otlr
    playTeamLink a otlr
    playTeamLinks a otlrs

end Player

/-! ## The loader -/

/-- What the loader asks other packages: the normal form of a name, whether the tree has the name,
whether saved parcels of keys can be read, and what comes between the name and the saved state: the
private keys, the removal key and the tokens of remote members. -/
structure TeamServices (L H X A : Type) where
  normalizeName : String → Except CoreError String
  checkNameLoad : EntityID → HostID → List H → List NameCommitmentAndKey →
    Option NameAndSeqnoBundle → String → ℕ → MerklePathsCompressed H → Except CoreError Seqno
  readParcels : X → Except CoreError Unit
  openBoxes : LoadTeamArg → TeamKeyRing H → HEPKSet H → Roster H → Option X → TeamChain L H A →
    Except CoreError X

/-- `TeamLoader`; a field `raw` is not needed, since each attempt sets it before it is read. -/
structure TeamLoader (H X : Type) where
  base : BaseChainLoader H := {}
  arg : LoadTeamArg
  ntn : String := ""
  voTok : Bool := false
  existing : Option (TeamChainState H X) := none
  rosterPre : Roster H := {}
  rosterPost : Roster H := {}
  otlrs : List (OpenTeamLinkRes H) := []
  hepks : HEPKSet H := ∅
  allMerkleLeaves : List (MerkleLeaf H) := []
  tnseq : Seqno := 0
  player : TeamPlayer H := {}

def newTeamLoader (arg : LoadTeamArg) : TeamLoader H X := { arg }

def TeamLoader.resetState (l : TeamLoader H X) : TeamLoader H X :=
  { l with
    otlrs := []
    existing := none
    player := { l.player with tncs := [] }
    base := { l.base with linkHashes := [] } }

open TeamLoader

/-- A method of the player. -/
def TeamLoader.playing {α : Type} (x : Action (TeamPlayer H) CoreError α) :
    Action (TeamLoader H X) CoreError α :=
  .within player (fun p l => { l with player := p }) x

/-- A method of the embedded `BaseChainLoader`. -/
def TeamLoader.checking {α : Type} (x : Action (BaseChainLoader H) CoreError α) :
    Action (TeamLoader H X) CoreError α :=
  .within base (fun b l => { l with base := b }) x

def TeamChainState.chainState (st : TeamChainState H X) : ChainState H := ⟨st.tail, st.lastHash⟩

/-- What the loader has for the player after the checks. -/
def TeamLoader.playArg (l : TeamLoader H X) : TeamPlayArg H :=
  ⟨l.arg.teamID, l.existing.map (·.tir), l.allMerkleLeaves⟩

/-- `chainerAtIndex` -/
def teamChainerAtIndex (otlrs : List (OpenTeamLinkRes H)) (n : ℕ) : Option (HidingChainer H) :=
  otlrs[n]?.map (·.gc.chainer)

section Run

variable [MerkleHash H] [LinkHash L H] [LocationHash H] [LinkFormat L H] [KeyHash H]

variable (sv : TeamServices L H X A)

/-- `checkArg` -/
def checkTeamArg : Action (TeamLoader H X) CoreError Unit := do
  let arg ← .read arg
  (arg.check : Except CoreError _)
  if arg.name ≠ "" then
    let ntn ← (sv.normalizeName arg.name : Except CoreError _)
    .update fun l => { l with ntn }

/-- The state that `loadExistingTeam` starts from, with its keys and its roster: one that was saved
without the delegation floor, or with a roster that does not load, is not used. -/
def readTeamState (host : HostID) (saved : Option (TeamChainState H X)) :
    Except CoreError (Option (TeamChainState H X × TeamKeyRing H × Roster H)) :=
  match saved with
  | none => return none
  | some st =>
    if !st.rosterDelegationFloorTracked then return none
    else do
      -- `readKeysFromState`
      let ptks ← st.ptks.foldlM (fun r k => addPub k r) ∅
      sv.readParcels st.boxed
      match Roster.load (toKeyGens ptks) st.members host with
      | .error _ => return none
      | .ok roster => return some (st, ptks, roster)

variable (saved : Option (TeamChainState H X))

def loadExistingTeam : Action (TeamLoader H X) CoreError Unit := do
  let arg ← .read arg
  match ← (readTeamState sv arg.host saved : Except CoreError _) with
  | none => return ()
  | some (st, ptks, roster) =>
    .update fun l => { l with
      existing := some st
      rosterPre := roster
      hepks := st.hepks
      player := { l.player with
        ptks
        sctlsc := some st.sctlsc
        memberLoadFloor := st.memberLoadFloor
        rosterDelegationFloor := st.rosterDelegationFloor } }

variable (r : TeamAttempt L H A)

/-- `reuseViewToken` and `makeViewToken`: a new token comes with the ID of the team. -/
def getViewToken : Action (TeamLoader H X) CoreError Unit := do
  let l ← .read id
  if !l.arg.mints || l.voTok && r.reuses then return ()
  else do
    let tid ← (r.token : Except CoreError _)
    .refuse (l.arg.team.any (· ≠ tid))
      (.chainLoaderError false (.teamError "wrong team ID came back with view token"))
    .update fun l => { l with arg := { l.arg with team := some tid }, voTok := true }

/-- The loop of `openLinks`, from link `n` on: each link is opened with the roster and the floor that
the links before it have left. -/
def openTeamLinks (host : HostID) : ℕ → Roster H → Option Role → List L → Action (TeamLoader H X) CoreError Unit
  | _, roster, _, [] => .update fun l => { l with rosterPost := roster }
  | n, roster, floor, link :: links => do
    let l ← .read id
    let otlr ← ((openTeamLink link l.hepks (some l.arg.teamID) host roster floor).mapError fun err =>
      .chainLoaderError false (.clOpenLinkError n err) : Except CoreError _)
    .update fun l => { l with otlrs := l.otlrs ++ [otlr] }
    openTeamLinks host (n + 1) otlr.rosterPost (otlr.rosterDelegationFloor.or floor) links

variable (raw : TeamChain L H A)

def checkTeamChain : Action (TeamLoader H X) CoreError Unit := do
  let l ← .read id
  let st := l.existing.map (·.chainState)
  checking (checkChain (prevOf st) (seqnoOf st) raw.links (teamChainerAtIndex l.otlrs) "team_id" none)

def checkMerkleTeamIDPaths : Action (TeamLoader H X) CoreError Unit := do
  let l ← .read id
  let st := l.existing.map (·.chainState)
  checking (checkMerklePaths ⟨l.arg.teamID.entityID, .team, none, raw.merkle.root, "team", none⟩ raw.locations
      raw.links (teamChainerAtIndex l.otlrs) raw.merkle.paths (ntlcOf st) (seqnoOf st)
      raw.numTeamnameLinks)
  .update fun l => { l with
    allMerkleLeaves := (l.existing.map (·.merkleLeaves)).getD [] ++ l.base.merkleLeaves }

/-- `TeamLoader.checkRes` -/
def checkTeamRes : Action (TeamLoader H X) CoreError Unit := do
  -- `checkMerkleRoot`
  (r.session.mapError (.chainLoaderError false) : Except CoreError _)
  let l ← .read id
  openTeamLinks l.arg.host 0 l.rosterPre l.player.rosterDelegationFloor r.raw.links
  checkTeamChain r.raw
  checkMerkleTeamIDPaths r.raw

/-- `checkTeamname`: ad-hoc teams have no name. -/
def checkTeamname : Action (TeamLoader H X) CoreError Unit := do
  let l ← .read id
  if l.arg.teamID.isAdHocTeam then return ()
  else do
    let nseq ← (sv.checkNameLoad l.arg.teamID.entityID l.arg.host l.player.tncs raw.teamnames
      (l.existing.map (·.name)) raw.teamnameUtf8 raw.numTeamnameLinks raw.merkle : Except CoreError _)
    if l.arg.name ≠ "" then
      let ntn ← (sv.normalizeName raw.teamnameUtf8 : Except CoreError _)
      .refuse (ntn ≠ l.ntn) (.chainLoaderError false (.nameError "teamname mismatch"))
    .update fun l => { l with tnseq := nseq }

/-- The name that is saved: that of an ad-hoc team is empty. -/
def teamNameBundle (team : TeamID) (un : String) : Except CoreError NameBundle :=
  if team.isAdHocTeam then return ⟨"", ""⟩
  else do
    let name ← sv.normalizeName un
    return ⟨name, un⟩

/-- The part of `saveState` for a state that changes: the tail is the last link that was opened. -/
def newTeamState (b : NameBundle) (boxed : X) (l : TeamLoader H X) : Except CoreError (TeamChainState H X) :=
  match l.player.getIndexRange (l.existing.map (·.tir)),
    (l.otlrs.getLast?.map (·.gc.chainer)).or (l.existing.map (·.tail)), l.base.lastHash with
  | none, _, _ => .error (.internalError "no index range loaded")
  | some tir, some tail, some lastHash => do
    let members ← l.rosterPost.exportMembers l.arg.host
    (match l.player.sctlsc with
    | none => .error (.internalError "no 'sctlsc' set; it should be set in save(); refusing to save")
    | some sctlsc => return {
        tail, lastHash, tir, sctlsc, boxed, members
        name := ⟨b, l.tnseq⟩
        merkleLeaves := l.allMerkleLeaves
        ptks := exportPub l.player.ptks
        hepks := l.hepks
        memberLoadFloor := l.player.memberLoadFloor
        rosterDelegationFloor := l.player.rosterDelegationFloor
        rosterDelegationFloorTracked := true })
  -- not reached: the links were opened and checked
  | _, _, _ => .error (.internalError "nil pointer")

/-- `TeamLoader.saveState`: the state that is saved. -/
def saveTeamState (boxed : X) (l : TeamLoader H X) : Except CoreError (TeamChainState H X) := do
  refuse (l.existing.isNone ∧ raw.links.isEmpty) (.internalError "no links in team sigchain")
  let b ← teamNameBundle sv l.arg.teamID raw.teamnameUtf8
  match raw.links, raw.remoteViewTokens, l.existing with
  | [], [], some st => return { st with name := ⟨b, st.name.s⟩ }
  | _, _, _ => newTeamState b boxed l

/-- `runOnce`, up to the reply of the server. -/
def prepareTeam : Action (TeamLoader H X) CoreError Unit := do
  checkTeamArg sv
  loadExistingTeam sv saved
  getViewToken r
  -- `updateHEPKs`
  .update fun l => { l with hepks := mergeHEPKs l.hepks (importHEPKSet r.raw.hepks) }

/-- `runOnce`, after the checks of the reply. -/
def finishTeam : Action (TeamLoader H X) CoreError (TeamChainState H X) := do
  let l ← .read id
  playing (playTeamLinks l.playArg l.otlrs)
  checkTeamname sv r.raw
  let l ← .read id
  let boxed ← (sv.openBoxes l.arg l.player.ptks l.hepks l.rosterPost (l.existing.map (·.boxed)) r.raw :
    Except CoreError _)
  match l.base.fatalError with
  | some err => .fail err
  | none => (saveTeamState sv r.raw boxed l : Except CoreError _)

/-- `TeamLoader.runOnce`: one attempt, and the state that it saves. -/
def runOnceTeam : Action (TeamLoader H X) CoreError (TeamChainState H X) := do
  prepareTeam sv saved r
  checkTeamRes r
  finishTeam sv r

end Run

end Foks.Client
