import Foks.Client.UserChain

/-!
# Opening the links of a team

`lib/team/hilev.go`: a roster with the generations of the team's keys and the keys of its members;
a link of the team takes it to the next one. `lib/team/chain.go`: what a client checks of a link of
a team against the roster before it.

## Main definitions

* `Roster`, `Roster.load`, `Roster.gameplan`, `Roster.exportMembers`: rosters with keys
* `openTeamLink`: a link, and the roster after it
* `openEldestLinkWithOTLR`: what is read from the eldest link
-/

namespace Foks.Client

open Lib Merkle LinkFormat EntityID
open Team (MemberID Change ChangeSet RosterCore KeyGens KeySchedule GameplanOpts MemberRole MemberRoleSeqno
  TeamMemberKeys MemberKeysSet makeChangeSet)

/-! ## Rosters -/

section Types

variable (H : Type)

/-- `team.Roster`; no roster at all and a roster without fields are the same. -/
structure Roster where
  core : Option RosterCore := none
  keyGens : Option KeyGens := none
  mks : Option (MemberKeysSet H) := none

end Types

variable {L H : Type}

/-- New keys of a member with the commitment from before, if they come without one. -/
def keepTrkc (existing v : Option (TeamMemberKeys H)) : Option (TeamMemberKeys H) :=
  match existing, v with
  | some existing, some v =>
    some (if existing.trkc ≠ none ∧ v.trkc = none then { v with trkc := existing.trkc } else v)
  | _, v => v

def cloneAndOverwriteWith (a : Option (MemberKeysSet H)) (b : MemberKeysSet H) : MemberKeysSet H :=
  match a with
  | none => b
  | some a =>
    Map.ofFinset b.keys (fun k => keepTrkc ((a.lookup k).getD none) ((b.lookup k).getD none)) ∪ a

/-- `matchSigningKey`: the key that signs, if there is one, is the key of the member. -/
def matchSigningKey (m : Option (MemberKeysSet H)) (membID : MemberID) (vk : Option EntityID) :
    Except CoreError Unit :=
  match m, vk with
  | none, _ => return ()
  | some _, none => .error (.teamError "need to check verify key for an update")
  | some m, some vk =>
    match m.lookup membID with
    | none => .error (.teamError "member not found")
    -- the member was removed
    | some none => .error nilPointer
    | some (some memb) => refuse (!vk.eq memb.verifyKey) (.teamError "member verify key mismatch")

namespace Roster

/-- `NewRosterWithKeyGens` and `Roster.Load` -/
def load (kg : KeyGens) (mr : List (MemberRoleSeqno H)) (host : HostID) : Except CoreError (Roster H) := do
  let (changes, ad) ← makeChangeSet host mr
  return ⟨some (RosterCore.newRosterCore.apply changes), some kg, some ad⟩

def gameplan (r : Roster H) (doerKO : KeyOwner) (host : HostID) (v : List (MemberRoleSeqno H))
    (verifyKey : Option EntityID) (opts : GameplanOpts) : Except CoreError (Roster H × KeySchedule) := do
  let (changes, mks) ← makeChangeSet host v
  let doerSrcRole ← importRole doerKO.srcRole
  let doer ← FQEntity.fixed ⟨doerKO.party, host⟩
  let membID := ⟨doer, doerSrcRole⟩
  matchSigningKey r.mks membID verifyKey
  let (rPost, sched, keysPost) ← Team.gameplan changes membID r.core r.keyGens (some opts)
  return (⟨some rPost, some keysPost, some (cloneAndOverwriteWith r.mks mks)⟩, sched)

/-- A plan for the changes of a link is the plan for the members, with the keys beside it. -/
theorem exists_of_gameplan {r rosterPost : Roster H} {doerKO : KeyOwner} {host : HostID}
    {v : List (MemberRoleSeqno H)}
    {verifyKey : Option EntityID} {opts : GameplanOpts} {sched : KeySchedule}
    (h : r.gameplan doerKO host v verifyKey opts = .ok (rosterPost, sched)) :
    ∃ changes mks doer rPost keysPost, makeChangeSet host v = .ok (changes, mks) ∧
      Team.gameplan changes doer r.core r.keyGens (some opts) = .ok (rPost, sched, keysPost) ∧
      rosterPost = ⟨some rPost, some keysPost, some (cloneAndOverwriteWith r.mks mks)⟩ := by
  obtain ⟨⟨changes, mks⟩, hchanges, h1⟩ := bind_eq_ok.mp h
  obtain ⟨doerSrcRole, -, h2⟩ := bind_eq_ok.mp h1
  obtain ⟨doer, -, h3⟩ := bind_eq_ok.mp h2
  have h4 := of_bind_eq_ok h3
  obtain ⟨⟨rPost, sched', keysPost⟩, hplan, h5⟩ := bind_eq_ok.mp h4
  cases h5
  exact ⟨changes, mks, _, rPost, keysPost, hchanges, hplan, rfl⟩

/-- The members by role, and by ID at one role. -/
def sortedMembers (c : RosterCore) : List (MemberID × Team.MemberInfo) :=
  let order := c.members.keys.image fun id =>
    toLex (((c.members.lookup id).map (·.role)).getD .noneRole, id)
  (sorted order).filterMap fun k =>
    let id := (ofLex k).2
    (c.members.lookup id).map (Prod.mk id)

/-- One turn of the loop of `Roster.Export`. -/
def exportMember (r : Roster H) (host : HostID) (id : MemberID) (mi : Team.MemberInfo) :
    Except CoreError (MemberRoleSeqno H) := do
  let entity ← unfix id.fqe.entity
  return {
    mr := {
      dstRole := mi.role.exportRole
      member := {
        id := ⟨entity, if id.fqe.host = host then none else some id.fqe.host⟩
        srcRole := id.srcRole.exportRole
        keys := match r.mks.bind (·.lookup id) with
          | some (some tmk) => .team tmk
          | _ => .none } }
    seqno := mi.seqno
    time := mi.time }

/-- `Roster.Export` -/
def exportMembers (r : Roster H) (host : HostID) : Except CoreError (List (MemberRoleSeqno H)) :=
  (sortedMembers (r.core.getD .newRosterCore)).mapM fun m => r.exportMember host m.1 m.2

end Roster

/-! ## Links -/

variable [DecidableEq H]

/-- `OpenTeamLinkRes`, without the key that signs, which is also in the group change. -/
structure OpenTeamLinkRes (H : Type) where
  gc : GroupChange H
  sharedKeys : List (SharedPublicSuite H)
  rosterPost : Roster H
  sched : KeySchedule
  tnc : Option H
  range : Option RationalRange
  rosterDelegationFloor : Option Role

/-- The metadata of a link that `OpenTeamLink` opens. -/
structure LinkMetadata (H : Type) where
  tnc : Option H := none
  range : Option RationalRange := none
  rosterDelegationFloor : Option Role := none

/-- One turn of the loop of `OpenTeamLink` over the metadata; other types are skipped. -/
def openMetadata (found : LinkMetadata H) (md : ChangeMetadata H) : Except CoreError (LinkMetadata H) :=
  match md with
  | .teamname tnc => do
    refuse (found.tnc ≠ none) (.linkError "only one teamname commitment allowed")
    return { found with tnc }
  | .teamIndexRange range => do
    refuse (found.range ≠ none) (.linkError "only one team index range allowed")
    return { found with range }
  | .rosterDelegationFloor floor => do
    refuse (found.rosterDelegationFloor ≠ none) (.linkError "only one roster delegation floor allowed")
    Team.checkRosterDelegationFloor floor
    return { found with rosterDelegationFloor := floor }
  | _ => return found

def openTeamLink [MerkleHash H] [LinkFormat L H] (link : L) (hepks : HEPKSet H)
    (team : Option TeamID) (hostID : HostID) (rPre : Roster H) (priorFloor : Option Role) :
    Except CoreError (OpenTeamLinkRes H) := do
  let gc ← (openGroupChange link : Except CoreError (GroupChange H))
  refuse (¬ (typ gc.entity.entity).any (·.isTeam)) (.linkError "expected a link for a Team entity")
  refuse (hostID ≠ gc.entity.host) (.linkError "wrong host given")
  (if typ gc.entity.entity = some .adHocTeam then Team.checkAdHocMembersAreLocalUsers gc.changes
    else return () : Except CoreError Unit)
  refuse (team.any fun team => !team.entityID.eq gc.entity.entity) (.linkError "wrong user given")
  let sharedKeys ← openSharedKeys gc hepks
  let signer ← importEntityPublic gc.signer.key
  match gc.signer.keyOwner with
  | none => .error (.linkError "team links must specify siging key owners")
  | some keyOwner => do
    verifyStackedSignature H link (sharedKeys.map (·.verifyKey) ++ [signer])
    openChainer gc
    let mrq := gc.changes.map fun ch => ⟨ch, gc.chainer.base.seqno, gc.chainer.base.time⟩
    let md ← gc.metadata.foldlM openMetadata {}
    let floorKey ← Team.rosterDelegationFloorActive priorFloor
    let (rosterPost, sched) ← rPre.gameplan keyOwner hostID mrq (some gc.signer.key)
      { delegationFloor := floorKey
        linkHasAdminMetadata :=
          md.tnc.isSome || md.range.isSome || md.rosterDelegationFloor.isSome }
    return ⟨gc, sharedKeys, rosterPost, sched, md.tnc, md.range, md.rosterDelegationFloor⟩

/-- The changes in a link, with its number and time. -/
def GroupChange.memberRoleSeqnos (gc : GroupChange H) : List (MemberRoleSeqno H) :=
  gc.changes.map fun ch => ⟨ch, gc.chainer.base.seqno, gc.chainer.base.time⟩

/-- What an opened link is: the contents of the link, its keys, and the plan for its changes. -/
theorem openTeamLink_eq_ok [MerkleHash H] [LinkFormat L H] {link : L} {hepks : HEPKSet H}
    {team : Option TeamID} {hostID : HostID} {rPre : Roster H} {priorFloor : Option Role}
    {otlr : OpenTeamLinkRes H}
    (h : openTeamLink link hepks team hostID rPre priorFloor = .ok otlr) :
    openGroupChange link = .ok otlr.gc ∧ openSharedKeys otlr.gc hepks = .ok otlr.sharedKeys ∧
      ∃ keyOwner opts, otlr.gc.signer.keyOwner = some keyOwner ∧ opts.testingNoCheck = false ∧
        rPre.gameplan keyOwner hostID otlr.gc.memberRoleSeqnos (some otlr.gc.signer.key) opts
          = .ok (otlr.rosterPost, otlr.sched) := by
  obtain ⟨gc, hgc, h1⟩ := bind_eq_ok.mp h
  have h2 := of_bind_eq_ok h1
  have h3 := of_bind_eq_ok h2
  have h4 := of_bind_eq_ok h3
  have h5 := of_bind_eq_ok h4
  obtain ⟨sharedKeys, hkeys, h6⟩ := bind_eq_ok.mp h5
  obtain ⟨signer, -, h7⟩ := bind_eq_ok.mp h6
  split at h7
  · cases h7
  · next keyOwner howner =>
    have h8 := of_bind_eq_ok h7
    have h9 := of_bind_eq_ok h8
    obtain ⟨md, -, h10⟩ := bind_eq_ok.mp h9
    obtain ⟨floorKey, -, h11⟩ := bind_eq_ok.mp h10
    obtain ⟨⟨rosterPost, sched⟩, hplan, h12⟩ := bind_eq_ok.mp h11
    cases h12
    exact ⟨hgc, hkeys, keyOwner, _, howner, rfl, hplan⟩

/-! ## The eldest link -/

/-- What is read from the eldest link of a team. -/
structure OpenTeamEldestRes (H : Type) where
  stltc : H
  memberLoadFloor : Option Role

def findChangeForMember (changes : List (MemberRole H)) (ko : KeyOwner) : Option (MemberRole H) :=
  changes.find? fun chng => chng.member.id.entity.eq ko.party && chng.member.id.host = none &&
    chng.member.srcRole = ko.srcRole

/-- The metadata of an eldest link after the name. -/
def openEldestMetadata : List (ChangeMetadata H) → Except CoreError (OpenTeamEldestRes H)
  | .eldest stltc :: .teamIndexRange _ :: mds =>
    match mds with
    | [] => return ⟨stltc, none⟩
    | .memberLoadFloor floor :: _ => return ⟨stltc, some floor⟩
    | _ => .error (.linkError "fourth metadata entry must be a member load floor")
  | .eldest _ :: _ => .error (.linkError "third metadata entry must be a team index range")
  | _ => .error (.linkError "second metadata entry must be an eldest metadata")

def openEldestLinkWithOTLR (otlr : OpenTeamLinkRes H) : Except CoreError (OpenTeamEldestRes H) := do
  let gc := otlr.gc
  let isNamed := typ gc.entity.entity = some .namedTeam
  let nNeededMetadata := if isNamed then 3 else 2
  refuse (gc.metadata.length < nNeededMetadata)
    (.linkError "eldest link must have at least three metadata entries")
  if isNamed then
    match gc.metadata.head? with
    | some (.teamname _) =>
      refuse (otlr.tnc = none) (.linkError "eldest link must have a teamname commitment")
    | _ => .error (.linkError "first metadata entry must be a teamname commitment")
  let res ← openEldestMetadata (if isNamed then gc.metadata.tail else gc.metadata)
  checkEldestChainer gc.chainer.base
  match gc.signer.keyOwner with
  -- not reached, since the link was opened
  | none => .error nilPointer
  | some keyOwner =>
    match findChangeForMember gc.changes keyOwner with
    | none => .error (.linkError "signer must be a member of the team")
    | some signerChange => do
      refuse (signerChange.dstRole ≠ .owner) (.linkError "signer must be an owner")
      match gc.sharedKeys.find? (·.role = .admin) with
      | none => .error (.linkError "an owner key must exist for a new team")
      | some adminKey => do
        refuse (!rollingEq gc.entity.entity adminKey.verifyKey) (.linkError "team ID mismatch")
        return res

end Foks.Client
