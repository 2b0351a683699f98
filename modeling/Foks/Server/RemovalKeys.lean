import Foks.Lib.Run
import Foks.Lib.Table
import Foks.Team.Link
import Foks.Team.Schedule

/-!
# Removal keys of teams

Whoever joins a named team gets a removal key, and whoever leaves it gets a removal that is
authenticated with this key (`server/shared/team.go`). The table `team_removal_keys` has a row
for each time a member joins; the row is found by a commitment to the key, and is closed when the
removal is recorded.

A team edit inserts a row for every addition and closes the row of every removal. An admin may
also record a removal by itself, with `PostTeamRemoval`.

## Main definitions

* `checkAndInsertRemovalKeys`, `checkAndInsertRemovals`, `postTeamRemoval`,
  `processDelegateRemovalKeys`: what the server does to the table
-/

namespace Foks.Server

open Lib Team

/-- Encoded bytes that the server stores and returns unread. -/
abbrev Blob := ℕ

/-! ## The requests and the table -/

structure FQTeam where
  team : TeamID
  host : HostID
  deriving DecidableEq

structure TeamRemovalKeyMetadata where
  tm : FQTeam
  member : FQEntityFixed
  srcRole : Role

/-- `rem.TeamRemovalBoxData`: a removal key, boxed for the member, for the admins and, in teams
with a delegation floor, for the floor role. -/
structure TeamRemovalBoxData where
  md : TeamRemovalKeyMetadata
  comm : KeyCommitment
  member : Blob
  team : Blob
  delegate : Option (Blob × Role)

structure TeamRemovalAndComm where
  rm : Blob
  comm : KeyCommitment

structure TeamDelegateRemovalKeyFill where
  member : FQEntityFixed
  srcRole : Role
  box : Blob
  boxRole : Role

/-- A row of `team_removal_keys`. -/
structure RemovalKeyRow where
  shortHostID : ShortHostID
  teamID : TeamID
  member : MemberID
  createSeqno : Seqno
  rkComm : KeyCommitment
  rkMember : Blob
  rkTeam : Blob
  rkRemoval : Option Blob
  rkDelegate : Option (Blob × RoleKey)
  deriving DecidableEq

namespace RemovalKeyRow

/-- The primary key. -/
def key (row : RemovalKeyRow) : ShortHostID × TeamID × MemberID × Seqno :=
  (row.shortHostID, row.teamID, row.member, row.createSeqno)

/-- The unique index `team_removal_keys_hash_idx`. -/
def hashIdx (row : RemovalKeyRow) : ShortHostID × KeyCommitment := (row.shortHostID, row.rkComm)

end RemovalKeyRow

/-! ## Insertions -/

variable (m : HostContext)

def insertRemovalKey (seqno : Seqno) (team : TeamID)
    (rows : List RemovalKeyRow) (rk : TeamRemovalBoxData) : Except CoreError (List RemovalKeyRow) :=
  do
  let delegate ← rk.delegate.mapM fun d => do return (d.1, ← importRole d.2)
  let srk ← importRole rk.md.srcRole
  let row : RemovalKeyRow :=
    { shortHostID := m.shortHostID
      teamID := team
      member := ⟨rk.md.member, srk⟩
      createSeqno := seqno
      rkComm := rk.comm
      rkMember := rk.member
      rkTeam := rk.team
      rkRemoval := none
      rkDelegate := delegate }
  refuse (row.key ∈ rows.map RemovalKeyRow.key) (.insertError "team_removal_keys")
  insertRow RemovalKeyRow.hashIdx (.insertError "team_removal_keys") row rows

/-- The map `cmap` of `CheckAndInsertRemovalKeys`: the changes by their member. -/
def changesByMember (host : HostID) (changes : List (MemberRole Blob)) :
    Except CoreError (Map MemberID (MemberRole Blob)) :=
  changes.foldlM (fun cmap chng => do
    let key ← memberRoleToMemberID chng host
    refuse (key ∈ cmap) (.teamError "duplicate member in changes")
    return cmap.insert key chng) ∅

def checkRemovalKeyCommitment (cmap : Map MemberID (MemberRole Blob)) (id : MemberID)
    (expected : KeyCommitment) : Except CoreError Unit :=
  match cmap.lookup id with
  | none => throw (.teamError "addition wasn't found in changes")
  | some chng =>
    match chng.member.keys with
    | .team tk =>
      match tk.trkc with
      | none => throw (.teamError "missing removal key commitment in change")
      | some trkc => refuse (trkc ≠ expected) (.teamError "removal key commitment doesn't match")
    | _ => throw (.teamError "bad member keys type")

variable (rows : List RemovalKeyRow) (teamID : TeamID)

/-- The closure `eq` of `CheckAndInsertRemovalKeys`. -/
def matchesMember (md : TeamRemovalKeyMetadata) (mr : MemberID) : Bool :=
  md.srcRole = mr.srcRole.exportRole ∧ md.tm = ⟨teamID, m.hostID⟩ ∧ md.member = mr.fqe

def checkAndInsertRemovalKeys (seqno : Seqno) (teamID : TeamID) (sched : KeySchedule)
    (rks : List TeamRemovalBoxData)
    (changes : List (MemberRole Blob)) : Except CoreError (List RemovalKeyRow) :=
  if teamID.isAdHocTeam then do
    refuse (rks ≠ []) (.teamError "removal keys are not allowed for adhoc teams")
    return rows
  else do
    refuse (rks.length ≠ sched.additions.length)
      (.teamError "wrong number of removal keys; should equal number of new members")
    let cmap ← changesByMember m.hostID changes
    forM (rks.zip sched.additions) fun (rk, id) => do
      refuse (¬ matchesMember m teamID rk.md id) (.teamError "removal key doesn't match member")
      checkRemovalKeyCommitment cmap id rk.comm
    rks.foldlM (insertRemovalKey m seqno teamID) rows

/-! ## Removals -/

/-- `PostTeamRemoval`: the row is found by its commitment alone, whatever the team. -/
def postTeamRemoval (_tid : TeamID) (rm : TeamRemovalAndComm) : Except CoreError (List RemovalKeyRow) := do
  let hit := fun row : RemovalKeyRow =>
    decide (row.shortHostID = m.shortHostID ∧ row.rkComm = rm.comm)
  refuse (rows.countP hit ≠ 1) (.updateError "team_removal_keys")
  return updateRows hit (fun row => { row with rkRemoval := some rm.rm }) rows

def checkAndInsertSingleRemoval (rows : List RemovalKeyRow) (r : TeamRemovalAndComm) (target : MemberID) :
    Except CoreError (List RemovalKeyRow) :=
  match rows.find? fun row => row.shortHostID = m.shortHostID ∧ row.teamID = teamID ∧
      row.rkComm = r.comm ∧ row.rkRemoval = none with
  | none => throw (.keyNotFoundError "team removal key")
  | some row => do
    refuse (target ≠ row.member) (.teamError "removal doesn't match member")
    postTeamRemoval m rows teamID r

def checkAndInsertRemovals (sched : KeySchedule) (rms : List TeamRemovalAndComm) :
    Except CoreError (List RemovalKeyRow) := do
  refuse (rms.length ≠ sched.removals.length)
    (.teamError "wrong number of removals; should equal number of removed members")
  (rms.zip sched.removals).foldlM (fun rows x => checkAndInsertSingleRemoval m teamID rows x.1 x.2) rows

/-! ## Boxes for the delegation floor -/

def storeDelegateRemovalKeyFill (floor : RoleKey) (rows : List RemovalKeyRow)
    (fill : TeamDelegateRemovalKeyFill) :
    Except CoreError (List RemovalKeyRow) := do
  let brk ← importRole fill.boxRole
  refuse (brk ≠ floor) (.teamError "delegate removal key box is not for the delegation floor role")
  let srk ← importRole fill.srcRole
  let hit := fun row : RemovalKeyRow =>
    decide (row.shortHostID = m.shortHostID ∧ row.teamID = teamID ∧
      row.member = ⟨fill.member, srk⟩ ∧ row.rkRemoval = none)
  refuse (rows.countP hit = 0) (.teamError "delegate removal key fill matched no member")
  return updateRows hit (fun row => { row with rkDelegate := some (fill.box, floor) }) rows

def checkDelegateRemovalKeyCoverage (roster : RosterCore) (floor : RoleKey) : Except CoreError Unit :=
  refuse (∃ id ∈ roster.members.keys,
    ((roster.members.lookup id).any fun i => i.role.typ = .member ∧ i.role.lev ≤ 0) ∧
      ¬ ∃ row ∈ rows, row.shortHostID = m.shortHostID ∧ row.teamID = teamID ∧ row.member = id ∧
        row.rkRemoval = none ∧ row.rkDelegate.any fun d => d.2 = floor)
    (.teamError "every plain member of a team with a delegation floor needs a removal key boxed for the floor role; include the fills with this link")

def processDelegateRemovalKeys (roster : RosterCore) (floor : Option RoleKey)
    (signerPreRole : Option RoleKey) (fills : List TeamDelegateRemovalKeyFill) :
    Except CoreError (List RemovalKeyRow) :=
  match floor with
  | none => do
    refuse (fills ≠ []) (.teamError "delegate removal key fills on a team with no delegation floor")
    return rows
  | some floor => do
    refuse (fills ≠ [] ∧ signerPreRole.any fun r => !r.typ.isAdminOrAbove)
      (.permissionError "only an admin may send delegate removal key fills")
    let rows ← fills.foldlM (storeDelegateRemovalKeyFill m teamID floor) rows
    checkDelegateRemovalKeyCoverage m rows teamID roster floor
    return rows

end Foks.Server
