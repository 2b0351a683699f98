import Foks.Core.Role
import Foks.Lib.Except

/-!
# The channels of the realtime server

Every access to one channel goes through `authorizeChannel`, a sequence of gates with early returns
(`server/realtime/acl.go`). The listing of the channels of a team reads many rows at once and repeats the
gates as a condition of its query, followed by two filters that withhold parts of a row
(`server/realtime/channels.go`). The two agree, but for roles that are stored and cannot be read back: one
such row fails the whole listing.
-/

namespace Foks

def RoleKey.isAdminOrAbove (r : RoleKey) : Bool := r.typ.isAdminOrAbove

namespace Realtime

open Lib

/-- `proto.RTChannelIDShort`: 63 bits. -/
abbrev ChannelID := ℕ

/-- A box that the server does not open, with the role and the generation of its key. -/
structure RTBox where
  role : RoleKey
  gen : Generation
  ctext : ℕ
  deriving DecidableEq

inductive AppID where
  | chat
  | crdt
  | notif
  deriving DecidableEq

inductive ChannelTier where
  | bottom
  | admin
  deriving DecidableEq

inductive MsgType where
  | text
  | edit
  | delete
  | reactji
  | attachment
  | reply
  | system
  | join
  | leave
  deriving DecidableEq

/-- The columns of a channel that tell its last message; all of them are set by the first one. -/
structure LastMsg where
  typ : MsgType
  seq : ℕ
  sender : UID
  sendTime : Time
  deriving DecidableEq

/-- A row of `channels`. -/
structure ChannelRow where
  team : TeamID
  app : AppID
  seqno : ℕ
  nameBox : RTBox
  tier : ChannelTier
  descBox : Option RTBox
  readRole : RoleKey
  writeRole : RoleKey
  lastMsg : Option LastMsg
  updatedAt : ℕ
  isPrivate : Bool
  noPush : Bool
  archived : Bool
  deriving DecidableEq

inductive AclRole where
  | member
  | owner
  deriving DecidableEq

/-- The tables `channels`, `channel_acl` and `channel_sets`; a set without a row is at version zero. All
channels are among `ids`, and each was stored with a version of its set. -/
structure Channels where
  channels : ChannelID → Option ChannelRow
  acl : ChannelID → UID → Option AclRole
  sets : TeamID → AppID → ℕ
  ids : List ChannelID
  mem_ids : ∀ c row, channels c = some row → c ∈ ids
  versioned : ∀ c row, channels c = some row → 0 < row.updatedAt ∧ 0 < sets row.team row.app

inductive FloorAction where
  | createOpen
  | edit
  | archiveOpen
  | revokePrivate
  deriving DecidableEq

/-- What the realtime server reads of the database of users and of its configuration: the role of an
active direct member of a team, the roster delegation floor of a team, and the actions that are opened at
the floor. -/
structure UsersDb where
  role : TeamID → UID → Option RoleKey
  floor : TeamID → Option RoleKey
  floorActions : List FloorAction

variable (t : Channels) (db : UsersDb) (uid : UID) (team : TeamID)

def authorizeUserForTeam : Except CoreError RoleKey :=
  match db.role team uid with
  | none => .error (.permissionError "no authorization for team")
  | some role => .ok role

/-! ### Access to one channel -/

inductive AccessKind where
  | read
  | write
  | manage
  | roster
  | mutate
  | archive
  | revoke
  deriving DecidableEq

namespace AccessKind

variable (a : AccessKind)

def managementKind : Bool := a = .manage ∨ a = .roster ∨ a = .revoke

def isMutation : Bool := a = .mutate ∨ a = .archive

def adminBypassesAcl : Bool := a.managementKind ∨ a.isMutation

end AccessKind

/-- `channelAuth`: the row of the channel, and what was decided about the caller. -/
structure ChannelAuth where
  row : ChannelRow
  teamRole : RoleKey
  aclOwner : Bool
  deriving DecidableEq

def floorOpens (role : RoleKey) (action : FloorAction) : Bool :=
  action ∈ db.floorActions ∧ (db.floor team).any fun floor => !role.lessThan floor

variable (row : ChannelRow)

def floorOpensMutation (want : AccessKind) (role : RoleKey) : Bool :=
  if want = .archive then !row.isPrivate && floorOpens db row.team role .archiveOpen
  else floorOpens db row.team role .edit

/-- The stored roles can be read back, which a role of type `NONE` cannot. -/
def ChannelRow.Importable : Prop := row.readRole.typ ≠ .none ∧ row.writeRole.typ ≠ .none

instance : Decidable row.Importable := inferInstanceAs (Decidable (_ ∧ _))

/-- `Role.ImportFromDB`, for both roles. -/
def ChannelRow.importRoles : Except CoreError Unit := refuse (¬ row.Importable) (.dataError "invalid role type")

variable (app : AppID) (role : RoleKey)

/-- The role that reads and writes need. -/
def checkRole : AccessKind → Except CoreError Unit
  | .write => refuse (role.lessThan row.writeRole) (.permissionError "user role too low to send into channel")
  | .read => refuse (role.lessThan row.readRole) (.permissionError "user role too low to read channel")
  | _ => .ok ()

/-- The authority over the members of a private channel. -/
def checkAcl (owner : Bool) (want : AccessKind) : Except CoreError Unit := do
  if want.managementKind then
    refuse (!row.isPrivate) (.badArgsError "channel is not private; it has no ACL")
    refuse ((want = .manage ∨ want = .revoke) ∧ ¬ owner ∧ ¬ role.isAdminOrAbove ∧
        ¬ (want = .revoke ∧ floorOpens db row.team role .revokePrivate))
      (.permissionError "must be a channel owner or team admin to manage membership")

variable (c : ChannelID)

/-- The one gate for access to a channel. A private channel that the caller is not in is answered like one
that does not exist. -/
def authorizeChannel (want : AccessKind) : Except CoreError ChannelAuth :=
  match t.channels c with
  | none => .error .rowNotFoundError
  | some row => do
    row.importRoles
    let role ← authorizeUserForTeam db uid row.team
    refuse (row.isPrivate ∧ t.acl c uid = none ∧ ¬ (want.adminBypassesAcl ∧ role.isAdminOrAbove))
      .rowNotFoundError
    let aclOwner : Bool := row.isPrivate ∧ t.acl c uid = some .owner
    refuse (row.tier = .admin ∧ ¬ role.isAdminOrAbove)
      (.permissionError "user role too low for an admin-tier channel")
    refuse (want.isMutation ∧ ¬ role.isAdminOrAbove ∧ ¬ floorOpensMutation db row want role)
      (.permissionError "must be a team admin to change channel metadata")
    checkRole row role want
    checkAcl db row role aclOwner want
    -- the last gate: only who may have the access learns that the channel is archived
    refuse (row.archived ∧ (want = .write ∨ want = .manage ∨ want = .revoke)) .rtChannelArchivedError
    return ⟨row, role, aclOwner⟩

/-! ### The listing -/

/-- `rem.RTChannelMetadata` -/
structure ChannelMetadata where
  id : ChannelID
  team : TeamID
  app : AppID
  seqno : ℕ
  nameBox : RTBox
  descBox : Option RTBox
  readRole : RoleKey
  writeRole : RoleKey
  lastMsg : Option LastMsg
  updatedAt : ℕ
  tier : ChannelTier
  archived : Bool
  isPrivate : Bool
  noPush : Bool
  unreadable : Bool
  deriving DecidableEq

/-- What `export` makes of a row whose roles can be imported. -/
def ChannelRow.metadata : ChannelMetadata :=
  ⟨c, row.team, app, row.seqno, row.nameBox, row.descBox, row.readRole, row.writeRole, row.lastMsg,
    row.updatedAt, row.tier, row.archived, row.isPrivate, row.noPush, false⟩

/-- What a caller does not get of a channel that they may not read. -/
def ChannelMetadata.withhold (md : ChannelMetadata) : ChannelMetadata :=
  { md with descBox := none, lastMsg := none, unreadable := true }

def applyReadRoleGate (md : ChannelMetadata) : ChannelMetadata :=
  if role.lessThan md.readRole then md.withhold else md

def applyPrivateGate (aclMember : Bool) (md : ChannelMetadata) : ChannelMetadata :=
  if aclMember then md else md.withhold

/-- `privateVisibleToCaller`, the condition of both queries over many channels. -/
def privateVisibleToCaller (row : ChannelRow) : Bool :=
  !row.isPrivate || (t.acl c uid).isSome

variable (last : ℕ)

/-- The condition of the query. -/
def listed (c : ChannelID) (row : ChannelRow) : Bool :=
  row.team = team ∧ row.app = app ∧ (row.tier = .admin → role.isAdminOrAbove) ∧ last < row.updatedAt ∧
    (role.isAdminOrAbove ∨ privateVisibleToCaller t uid c row)

/-- The rows of the query, by their channels. -/
def selectedRow (c : ChannelID) : Option ChannelRow := (t.channels c).filter (listed t uid team app role last c)

/-- The rows after the two filters. -/
def gatedRow (c : ChannelID) : Option ChannelMetadata :=
  (selectedRow t uid team app role last c).map fun row =>
    applyPrivateGate (privateVisibleToCaller t uid c row) (applyReadRoleGate role (row.metadata app c))

/-- The loop over the rows: it ends at the first one that cannot be exported. -/
def readAllChannels : Except CoreError (ChannelID → Option ChannelMetadata) := do
  forM t.ids fun c => (selectedRow t uid team app role last c).forM ChannelRow.importRoles
  return gatedRow t uid team app role last

/-- `rem.RTChannelSet` -/
structure ChannelSet where
  vers : ℕ
  lst : ChannelID → Option ChannelMetadata

/-- `ListAllChannels`. A caller whose version is the current one gets no rows. -/
def listAllChannels : Except CoreError ChannelSet := do
  let role ← authorizeUserForTeam db uid team
  let vers := t.sets team app
  if vers = last then return ⟨vers, fun _ => none⟩
  let lst ← readAllChannels t uid team app role last
  return ⟨vers, lst⟩

/-! ### The versions of a set -/

/-- A channel at the next version of its set: what `MakeChannel` stores, and what `touchChannelSet` makes of
a channel whose members or whose name change. -/
def Channels.put (row : ChannelRow) : Channels where
  channels := Function.update t.channels c (some { row with updatedAt := t.sets row.team row.app + 1 })
  acl := t.acl
  sets team app := if team = row.team ∧ app = row.app then t.sets team app + 1 else t.sets team app
  ids := c :: t.ids
  mem_ids c' row' h := by
    by_cases hc : c' = c
    · exact List.mem_cons.mpr (.inl hc)
    rw [Function.update_of_ne hc] at h
    exact List.mem_cons_of_mem c (t.mem_ids c' row' h)
  versioned c' row' h := by
    by_cases hc : c' = c
    · subst hc
      rw [Function.update_self] at h
      cases h
      simp
    rw [Function.update_of_ne hc] at h
    obtain ⟨hupdated, hset⟩ := t.versioned c' row' h
    refine ⟨hupdated, ?_⟩
    split
    · exact Nat.succ_pos _
    · exact hset

/-- No channel was ever made. -/
def Channels.empty : Channels where
  channels _ := none
  acl _ _ := none
  sets _ _ := 0
  ids := []
  mem_ids _ _ h := by cases h
  versioned _ _ h := by cases h

/-! ### Agreement -/

section Agreement

variable {t : Channels} {db : UsersDb} {uid : UID} {c : ChannelID} {row : ChannelRow} {role : RoleKey}
  {md : ChannelMetadata} {aclMember : Bool}

theorem importRoles_eq_ok {u : Unit} : row.importRoles = .ok u ↔ row.Importable := by
  simp [ChannelRow.importRoles]

theorem authorizeUserForTeam_eq_ok {team : TeamID} :
    authorizeUserForTeam db uid team = .ok role ↔ db.role team uid = some role := by
  unfold authorizeUserForTeam
  cases db.role team uid <;> simp

/-- All rows of the query can be exported. -/
def ExportableFor (t : Channels) (uid : UID) (team : TeamID) (app : AppID) (role : RoleKey) (last : ℕ) : Prop :=
  ∀ c row, t.channels c = some row → listed t uid team app role last c row → row.Importable

theorem readAllChannels_eq_ok {team : TeamID} {app : AppID} {last : ℕ}
    {lst : ChannelID → Option ChannelMetadata} :
    readAllChannels t uid team app role last = .ok lst ↔
      ExportableFor t uid team app role last ∧ lst = gatedRow t uid team app role last := by
  have hrows : (∀ c ∈ t.ids, (selectedRow t uid team app role last c).forM ChannelRow.importRoles = .ok ()) ↔
      ExportableFor t uid team app role last := by
    constructor
    · intro h c row hrow hlisted
      have hc := h c (t.mem_ids c row hrow)
      rw [selectedRow, hrow, Option.filter_some, if_pos hlisted] at hc
      exact importRoles_eq_ok.mp hc
    · intro h c _
      rcases hrow : selectedRow t uid team app role last c with _ | row
      · rfl
      obtain ⟨hrow, hlisted⟩ := Option.filter_eq_some_iff.mp hrow
      exact importRoles_eq_ok.mpr (h c row hrow hlisted)
  rw [← hrows]
  simp [readAllChannels, bind_eq_ok, forM_eq_ok, pure, Except.pure, eq_comm (a := lst)]

section

variable (hrow : t.channels c = some row)

include hrow

/-- The gates that a read has to pass. -/
theorem authorizeChannel_read_iff :
    (∃ ca, authorizeChannel t db uid c .read = .ok ca) ↔ row.Importable ∧
      ∃ role, db.role row.team uid = some role ∧ privateVisibleToCaller t uid c row ∧
        (row.tier = .admin → role.isAdminOrAbove) ∧ ¬ role.lessThan row.readRole := by
  simp only [authorizeChannel, hrow, bind_eq_ok, importRoles_eq_ok, authorizeUserForTeam_eq_ok,
    checkRole, checkAcl,
    privateVisibleToCaller, AccessKind.adminBypassesAcl, AccessKind.managementKind, AccessKind.isMutation]
  cases row.isPrivate <;> cases t.acl c uid <;> simp [pure, Except.pure]

/-- What the query and the two filters make of a channel, at the version of a caller who has nothing. -/
theorem gatedRow_eq_some :
    gatedRow t uid row.team row.app role 0 c = some md ↔ (row.tier = .admin → role.isAdminOrAbove) ∧
      (role.isAdminOrAbove ∨ privateVisibleToCaller t uid c row) ∧
      md = applyPrivateGate (privateVisibleToCaller t uid c row)
          (applyReadRoleGate role (row.metadata row.app c)) := by
  simp [gatedRow, selectedRow, hrow, listed, (t.versioned c row hrow).1, eq_comm (a := md),
    and_assoc, imp_iff_not_or]

theorem listAllChannels_eq_ok {set : ChannelSet} :
    listAllChannels t db uid row.team row.app 0 = .ok set ↔ ∃ role, db.role row.team uid = some role ∧
      ExportableFor t uid row.team row.app role 0 ∧
      set = ⟨t.sets row.team row.app, gatedRow t uid row.team row.app role 0⟩ := by
  have hset : t.sets row.team row.app ≠ 0 := Nat.pos_iff_ne_zero.mp (t.versioned c row hrow).2
  simp [listAllChannels, bind_eq_ok, authorizeUserForTeam_eq_ok, readAllChannels_eq_ok, hset, pure, Except.pure,
    eq_comm (a := set), and_assoc]

end

theorem unreadable_gates (h : md.unreadable = false) :
    (applyPrivateGate aclMember (applyReadRoleGate role md)).unreadable = false ↔
      aclMember ∧ ¬ role.lessThan md.readRole := by
  unfold applyPrivateGate applyReadRoleGate
  cases aclMember <;> cases role.lessThan md.readRole <;> simp [ChannelMetadata.withhold, h]

theorem withheld_of_unreadable
    (hmd : md.unreadable = false) (h : (applyPrivateGate aclMember (applyReadRoleGate role md)).unreadable) :
    (applyPrivateGate aclMember (applyReadRoleGate role md)).descBox = none ∧
      (applyPrivateGate aclMember (applyReadRoleGate role md)).lastMsg = none := by
  revert h
  unfold applyPrivateGate applyReadRoleGate
  cases aclMember <;> cases role.lessThan md.readRole <;> simp [ChannelMetadata.withhold, hmd]

/-- The listing shows a channel as readable exactly to who may read it, if all rows of its query can be
exported. It shows an unreadable channel to members of the team whom its tier admits and who may know of it,
without its description and its last message. -/
theorem listing_agrees_iff (t : Channels) (db : UsersDb) (uid : UID) (c : ChannelID) (row : ChannelRow)
    (hrow : t.channels c = some row) :
    ((∃ set md, listAllChannels t db uid row.team row.app 0 = .ok set ∧ set.lst c = some md ∧
        md.unreadable = false) ↔
      (∃ ca, authorizeChannel t db uid c .read = .ok ca) ∧
        ∀ role, db.role row.team uid = some role → ExportableFor t uid row.team row.app role 0) ∧
    ∀ set md, listAllChannels t db uid row.team row.app 0 = .ok set → set.lst c = some md →
      md.unreadable = true →
      (∃ role, db.role row.team uid = some role ∧ (row.tier = .admin → role.isAdminOrAbove) ∧
        (t.acl c uid ≠ none ∨ row.isPrivate = false ∨ role.isAdminOrAbove)) ∧
      md.descBox = none ∧ md.lastMsg = none := by
  constructor
  · rw [authorizeChannel_read_iff hrow]
    constructor
    · rintro ⟨set, md, hset, hmd, hreadable⟩
      obtain ⟨role, hrole, hexport, rfl⟩ := (listAllChannels_eq_ok hrow).mp hset
      obtain ⟨htier, hknown, rfl⟩ := (gatedRow_eq_some hrow).mp hmd
      obtain ⟨hvisible, hread⟩ := (unreadable_gates rfl).mp hreadable
      have hlisted : listed t uid row.team row.app role 0 c row :=
        decide_eq_true ⟨rfl, rfl, htier, (t.versioned c row hrow).1, hknown⟩
      refine ⟨⟨hexport c row hrow hlisted, role, hrole, hvisible, htier, hread⟩, fun role' hrole' => ?_⟩
      cases hrole.symm.trans hrole'
      exact hexport
    · rintro ⟨⟨-, role, hrole, hvisible, htier, hread⟩, hexport⟩
      refine ⟨_, _, (listAllChannels_eq_ok hrow).mpr ⟨role, hrole, hexport role hrole, rfl⟩,
        (gatedRow_eq_some hrow).mpr ⟨htier, .inr hvisible, rfl⟩, ?_⟩
      exact (unreadable_gates rfl).mpr ⟨hvisible, hread⟩
  · intro set md hset hmd hunreadable
    obtain ⟨role, hrole, -, rfl⟩ := (listAllChannels_eq_ok hrow).mp hset
    obtain ⟨htier, hvisible, rfl⟩ := (gatedRow_eq_some hrow).mp hmd
    refine ⟨⟨role, hrole, htier, ?_⟩, withheld_of_unreadable rfl hunreadable⟩
    rcases hvisible with hadmin | hvisible
    · exact .inr (.inr hadmin)
    rcases Bool.or_eq_true_iff.mp hvisible with hpublic | hmember
    · exact .inr (.inl (by simpa using hpublic))
    · exact .inl (Option.isSome_iff_ne_none.mp hmember)

end Agreement

/-- A channel that every member of team 1 may read. -/
def exampleChannel : ChannelRow :=
  ⟨1, .chat, 1, ⟨.memberRole, 1, 0⟩, .bottom, none, .memberRole, .memberRole, none, 0, false, false, false⟩

/-- User 1 is an admin of team 1, and user 2 is a member. -/
def exampleUsers : UsersDb where
  role team uid := if team = 1 ∧ uid = 1 then some .adminRole
    else if team = 1 ∧ uid = 2 then some .memberRole else none
  floor _ := none
  floorActions := []

theorem listing_agrees_iff_oneChannel :
    ∃ ca, authorizeChannel (Channels.empty.put 7 exampleChannel) exampleUsers 2 7 .read = .ok ca :=
  ((listing_agrees_iff (Channels.empty.put 7 exampleChannel) exampleUsers 2 7 _ rfl).1.mp
    ⟨_, _, rfl, rfl, rfl⟩).1

end Realtime

end Foks
