import Foks.Core.Role
import Foks.Lib.Except
import Foks.Lib.Map

/-!
# Team rosters and their gameplans

The core algebra of team membership (`lib/team/core.go`, `lib/team/delegation.go`). A roster maps
members to their roles. A change set adds, removes, promotes, demotes or rekeys members, and
`gameplan` checks it, applies it and computes which team keys have to be rotated and for whom
every key has to be boxed.

## Main definitions

* `RosterCore`, `Change`, `KeyGens`: rosters, changes and the generations of the team keys
* `RosterCore.checkChangesLocked`: who may make which changes
* `RosterCore.apply`: the roster after a change set
* `RosterCore.planChangesLocked`, `WorkingSchedule.exportSchedule`: the key schedule
* `gameplan`: all of it, as `ChangeSet.Gameplan`
-/

namespace Foks.Team

open Lib

structure FQEntityFixed where
  host : HostID
  entity : FixedEntityID
  deriving DecidableEq

/-- `MemberID`: a party, with the role that its own key has at home. -/
structure MemberID where
  fqe : FQEntityFixed
  srcRole : RoleKey
  deriving DecidableEq

namespace MemberID

/-- `MemberID.Cmp` compares hosts, then entities, then source roles. -/
def toTriple (m : MemberID) : HostID ×ₗ FixedEntityID ×ₗ RoleKey :=
  toLex (m.fqe.host, toLex (m.fqe.entity, m.srcRole))

theorem toTriple_injective : Function.Injective toTriple := by
  rintro ⟨⟨h, e⟩, s⟩ ⟨⟨h', e'⟩, s'⟩ heq
  have h1 : (h, toLex (e, s)) = (h', toLex (e', s')) := toLex.injective heq
  have h2 : (e, s) = (e', s') := toLex.injective (Prod.mk.inj h1).2
  obtain ⟨rfl, rfl⟩ := Prod.mk.inj h2
  obtain ⟨rfl, -⟩ := Prod.mk.inj h1
  rfl

instance : LinearOrder MemberID := LinearOrder.lift' toTriple toTriple_injective

end MemberID

structure MemberInfo where
  role : RoleKey
  gen : Generation
  -- the link of the last change, and its time
  seqno : Seqno
  time : Time
  deriving DecidableEq

/-- `MemberInfo.Eq`: the time is not compared. -/
def MemberInfo.eq (i i2 : MemberInfo) : Bool :=
  i.role == i2.role && i.gen == i2.gen && i.seqno == i2.seqno

structure Change where
  member : MemberID
  info : MemberInfo
  deriving DecidableEq

abbrev ChangeSet := List Change

/-- A change of role type `NONE` removes its member. -/
def Change.rm (chng : Change) : Bool := chng.info.role.typ == .none

/-- `KeyGens`: the generation of the team key of each role that has one. -/
abbrev KeyGens := Map RoleKey Generation

structure RosterCore where
  members : Map MemberID MemberInfo
  roleIndex : Map RoleKey (Finset MemberID)

structure GameplanOpts where
  -- only tests skip the checks
  testingNoCheck : Bool := false
  requireOwner : Bool := false
  delegationFloor : Option RoleKey := none
  linkHasAdminMetadata : Bool := false

/-- `KeyScheduleItem`: the key of one role and generation, and who it is boxed for. -/
structure KeyScheduleItem where
  role : RoleKey
  newKeyGen : Bool
  gen : Generation
  members : List MemberID
  deriving DecidableEq

structure KeySchedule where
  items : List KeyScheduleItem
  additions : List MemberID
  removals : List MemberID
  deriving DecidableEq

structure WorkingSchedule where
  -- the keys to rotate, the keys in the schedule, and which of them is boxed for whom
  incrs : Finset RoleKey := ∅
  includes : Finset RoleKey := ∅
  rekeys : Finset (RoleKey × MemberID) := ∅
  newMembs : Finset MemberID := ∅
  delMembs : Finset MemberID := ∅

/-! ## Rosters -/

namespace RosterCore

def newRosterCore : RosterCore := ⟨∅, ∅⟩

variable (r : RosterCore)

/-- The members that a loop over the roster keeps when it tests `k.LessThanOrEqual(i.Role)`. -/
def holders (k : RoleKey) : Finset MemberID :=
  r.members.keys.filter fun m => (r.members.lookup m).any fun i => k.lessThanOrEqual i.role

def hasOwnerLocked : Bool :=
  decide (∃ m ∈ r.members.keys, (r.members.lookup m).any fun i => i.role.typ == .owner)

variable (doer : MemberID) (chng : Change)

/-- The step of `RosterCore.Apply` for one change. -/
def applyChange : RosterCore :=
  let roleIndex := match r.members.lookup chng.member with
    | some existing => match r.roleIndex.lookup existing.role with
      | some ind => r.roleIndex.insert existing.role (ind.erase chng.member)
      | none => r.roleIndex
    | none => r.roleIndex
  if chng.rm then ⟨r.members.erase chng.member, roleIndex⟩
  else
    ⟨r.members.insert chng.member chng.info, roleIndex.insert chng.info.role
        (insert chng.member ((roleIndex.lookup chng.info.role).getD ∅))⟩

variable (changes : ChangeSet)

def apply : RosterCore := changes.foldl applyChange r

/-! ## The checks -/

/-- The first pass of `checkChangesLocked`: every member shows up once. -/
def checkNoDuplicates (found : Finset MemberID) : ChangeSet → Except CoreError Unit
  | [] => .ok ()
  | chng :: changes => do
    refuse (chng.member ∈ found) (.teamRosterError "duplicate member in change set")
    checkNoDuplicates (insert chng.member found) changes

def find (m : MemberID) (r : RoleKey) : Option MemberInfo :=
  (changes.find? fun chng => chng.member == m && chng.info.role == r).map (·.info)

/-- `plainMemberCeiling`: the highest role that a delegated change may add or remove. -/
def plainMemberCeiling : RoleKey := .memberRole

/-- One turn of the loop of `delegatedChangesAllowedLocked`. -/
def delegatedChangeAllowed : Except CoreError Unit := do
  refuse (chng.member = doer) (.teamRosterError "a delegated change may not touch the doer")
  if chng.rm then
    match r.members.lookup chng.member with
    | none => throw (.teamRosterError "can't remove non-existent member")
    | some existing =>
      refuse (plainMemberCeiling.lessThan existing.role)
        (.teamRosterError "a delegated change may only remove members at m/0 or below")
  else
    refuse (r.members.lookup chng.member).isSome
      (.teamRosterError "a delegated change may not change an existing member")
    refuse (plainMemberCeiling.lessThan chng.info.role)
      (.teamRosterError "a delegated change may only add members at m/0 or below")

def delegatedChangesAllowedLocked (opts : Option GameplanOpts)
    (doerInfo : MemberInfo) (doer : MemberID) (changes : ChangeSet) : Except CoreError Unit := do
  match opts.bind (·.delegationFloor) with
  | none => throw (.teamRosterError "doer doesn't have privileged role")
  | some floor =>
    refuse (doerInfo.role.typ ≠ .member ∨ doerInfo.role.lessThan floor)
      (.teamRosterError "doer is below the team's roster delegation floor")
    refuse (opts.any (·.linkHasAdminMetadata))
      (.teamRosterError "a delegated change may not carry link metadata")
    refuse (changes = []) (.teamRosterError "a delegated change must change the roster")
    forM changes (r.delegatedChangeAllowed doer)

variable (create : Bool) (opts : Option GameplanOpts)

/-- The part of `checkChangesLocked` that finds the doer: the new owner when the team is
created, else a member of the roster with a privileged or a delegated role. -/
def doerInfo : Except CoreError MemberInfo :=
  if create then do
    refuse (r.members.keys.card ≠ 0) (.teamRosterError "can't create roster with existing members")
    match find changes doer .ownerRole with
    | none => throw (.teamRosterError "doer must be included as an owner")
    | some info => return info
  else
    match r.members.lookup doer with
    | none => throw (.teamRosterError "doer not in roster")
    | some info => do
      if info.role.typ ≠ .admin ∧ info.role.typ ≠ .owner then
        r.delegatedChangesAllowedLocked opts info doer changes
      return info

/-- The doer is above what it grants and above what it takes away. -/
def checkDoerRole (doerInfo : MemberInfo) (chng : Change) : Except CoreError Unit := do
  refuse (doerInfo.role.lessThan chng.info.role) (.teamRosterError "doer role insufficient for change")
  refuse ((r.members.lookup chng.member).any fun existing => doerInfo.role.lessThan existing.role)
    (.teamRosterError "doer role insufficient for change")

/-- Admins and owners are on the host of the doer. -/
def checkLocal : Except CoreError Unit :=
  refuse (chng.info.role.typ.isAdminOrAbove ∧ doer.fqe.host ≠ chng.member.fqe.host)
    (.teamRosterError "only local members can be admins or above")

/-- Removals are of members, updates change something and generations do not go back. -/
def checkChange : Except CoreError Unit := do
  let existing := r.members.lookup chng.member
  refuse (existing.isNone ∧ chng.rm) (.teamRosterError "can't remove non-existent member")
  refuse (chng.rm ∧ ¬ chng.info.gen.isVoid) (.teamRosterError "must supply 0-generation for removal")
  refuse (existing.any fun e => e.eq chng.info) (.teamRosterError "no change to member")
  refuse (¬ chng.rm ∧ existing.any fun e => chng.info.gen < e.gen)
    (.teamRosterError "can't decrease generation")
  refuse (existing.isSome ∧ ¬ chng.rm ∧ ¬ chng.info.gen.isValid)
    (.teamRosterError "must supply valid key generation (>= 1)")

def checkChangesLocked : Except CoreError Unit := do
  checkNoDuplicates ∅ changes
  let info ← r.doerInfo doer changes create opts
  forM changes (r.checkDoerRole info)
  forM changes (checkLocal doer)
  forM changes r.checkChange

end RosterCore

/-! ## The key schedule -/

namespace WorkingSchedule

variable (r newRoster : RosterCore) (allKeyRoles : Finset RoleKey) (ws : WorkingSchedule)

variable (keyGensPre : KeyGens) (k : RoleKey)

/-- The closure `keyAtLevel`: box the key of role `k` for everyone who may see it. -/
def keyAtLevel : WorkingSchedule :=
  { ws with
    includes := insert k ws.includes
    rekeys := ws.rekeys ∪ (newRoster.holders k).image (k, ·) }

variable (floor : Option RoleKey)

/-- The pairs of a role and a member that the double loop of `keyFlood` keeps. -/
def floodPairs : Finset (RoleKey × MemberID) :=
  (allKeyRoles.filter fun role =>
      role.lessThanOrEqual k && floor.all fun f => f.lessThan role).biUnion
    fun role => (newRoster.holders role).image (role, ·)

/-- The closure `keyFlood`: rotate every key up to `k` and above `floor`. -/
def keyFlood : WorkingSchedule :=
  let pairs := floodPairs newRoster allKeyRoles k floor
  { ws with
    incrs := ws.incrs ∪ pairs.image Prod.fst
    includes := ws.includes ∪ pairs.image Prod.fst
    rekeys := ws.rekeys ∪ pairs }

/-- The closure `keySingle`: box every key up to `k` and above `prev` for one member. -/
def keySingle (m : MemberID) (k : RoleKey) (prev : Option RoleKey) : WorkingSchedule :=
  let roles := allKeyRoles.filter fun role =>
    role.lessThanOrEqual k && prev.all fun p => p.lessThan role
  { ws with
    includes := ws.includes ∪ roles
    rekeys := ws.rekeys ∪ roles.image (·, m) }

/-- A role that has no key yet gets one, for everyone who may see it. -/
def planNewRole (newRoster : RosterCore) (chng : Change) (ws : WorkingSchedule) : WorkingSchedule :=
  if (keyGensPre.lookup chng.info.role).isNone ∧ ¬ chng.rm then
    keyAtLevel newRoster ws chng.info.role
  else ws

variable (chng : Change)

/-- A downgrade, a removal and a new generation of a member's own key rotate the keys that the
member has seen and may see no longer. -/
def planDowngrade (ws : WorkingSchedule) : WorkingSchedule :=
  match r.members.lookup chng.member with
  | none => ws
  | some existing =>
    let cmp := existing.role.cmp chng.info.role
    if 0 < cmp ∨ cmp = 0 ∧ existing.gen < chng.info.gen then
      keyFlood newRoster allKeyRoles ws existing.role
        (if existing.gen = chng.info.gen then some chng.info.role else none)
    else ws

/-- A new or an upgraded member gets the keys that it has not seen yet. -/
def planUpgrade (ws : WorkingSchedule) : WorkingSchedule :=
  match r.members.lookup chng.member with
  | none => keySingle allKeyRoles ws chng.member chng.info.role none
  | some existing =>
    if existing.role.cmp chng.info.role < 0 then
      keySingle allKeyRoles ws chng.member chng.info.role (some existing.role)
    else ws

/-- Who is new and who is gone. -/
def planMembership (ws : WorkingSchedule) : WorkingSchedule :=
  { ws with
    newMembs :=
      if (r.members.lookup chng.member).isNone then insert chng.member ws.newMembs
      else ws.newMembs
    delMembs := if chng.rm then insert chng.member ws.delMembs else ws.delMembs }

/-- One turn of the loop of `planChangesLocked`. -/
def planChange (newRoster : RosterCore)
    (allKeyRoles : Finset RoleKey) (ws : WorkingSchedule) (chng : Change) : WorkingSchedule :=
  planMembership r chng <| planUpgrade r allKeyRoles chng <|
    planDowngrade r newRoster allKeyRoles chng <| planNewRole keyGensPre newRoster chng ws

/-- Whether `export` starts a new generation for a scheduled role. -/
def newKey (role : RoleKey) : Bool :=
  match keyGensPre.lookup role with
  | some _ => decide (role ∈ ws.incrs)
  | none => true

/-- The generation that `export` gives to a scheduled role. -/
def postGen (role : RoleKey) : Generation :=
  match keyGensPre.lookup role with
  | some pre => if role ∈ ws.incrs then pre + 1 else pre
  | none => firstGeneration

/-- The generations after the change set. -/
def keyGensPost : KeyGens :=
  Map.ofFinset ws.includes (ws.postGen keyGensPre) ∪ keyGensPre

/-- `workingSchedule.export`: one item for each role with a box, sorted by role, with its
members sorted. -/
def exportSchedule : KeySchedule × KeyGens :=
  ({ items := (sorted (ws.rekeys.image Prod.fst)).map fun role =>
      { role := role
        newKeyGen := decide (role ∈ ws.includes) && ws.newKey keyGensPre role
        gen := (ws.keyGensPost keyGensPre).get role
        members := sorted ((ws.rekeys.filter fun x => x.1 = role).image Prod.snd) }
     additions := sorted ws.newMembs
     removals := sorted ws.delMembs },
   ws.keyGensPost keyGensPre)

end WorkingSchedule

variable (r : RosterCore) (changes : ChangeSet) (keyGensPre : KeyGens) (newRoster : RosterCore)
  (forceNewKeyGens : Finset RoleKey)

/-- The working schedule at the end of the loop of `planChangesLocked`. -/
def RosterCore.workingSchedule : WorkingSchedule :=
  changes.foldl (WorkingSchedule.planChange r keyGensPre newRoster (keyGensPre.keys ∪ forceNewKeyGens)) {}

def RosterCore.planChangesLocked : KeySchedule × KeyGens :=
  (r.workingSchedule changes keyGensPre newRoster forceNewKeyGens).exportSchedule keyGensPre

/-- The roles that get a key when the team is created, even with nobody to hold it. -/
def forcedNewKeyGens : Finset RoleKey := {.adminRole, .memberRole, .kvMinRole}

/-- `ChangeSet.Gameplan`: the roster, the schedule and the generations after the change set
`d`; no roster and no generations create the team. -/
def gameplan (d : ChangeSet) (doer : MemberID) (rPre : Option RosterCore)
    (keysPre : Option KeyGens) (opts : Option GameplanOpts) :
    Except CoreError (RosterCore × KeySchedule × KeyGens) := do
  refuse (rPre.isNone ≠ keysPre.isNone)
    (.teamRosterError "must supply both roster and keys, or both nil for create")
  let create := rPre.isNone
  let forced := if create then forcedNewKeyGens else ∅
  let keysPre := keysPre.getD ∅
  let rPre := rPre.getD .newRosterCore
  if opts.all fun o => !o.testingNoCheck then
    rPre.checkChangesLocked doer d create opts
  let rPost := rPre.apply d
  refuse (opts.any (·.requireOwner) ∧ rPre.hasOwnerLocked ∧ ¬ rPost.hasOwnerLocked)
    (.teamRosterError "change would leave team without an owner")
  let (sched, keysPost) := rPre.planChangesLocked d keysPre rPost forced
  return (rPost, sched, keysPost)

end Foks.Team
