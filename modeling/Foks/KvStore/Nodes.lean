import Foks.Core.Role
import Foks.Lib.Table

/-!
# The nodes of the KV store

The server keeps the directories, files and symlinks of a party in tables
(`server/kv-store/dir.go`, `file.go`). A node may carry the tag of a private channel; the tables of the
realtime server say who is a member of a channel, and who is not is answered as if the node did not
exist (`server/kv-store/acl.go`).

## Main definitions

* `KVNodeID`: the identifier of a node, with its type
* `Tables`: the tables of the store without the directory entries, and those of the realtime server
* `authorizeKVNodeRead`, `authorizeKVNodeCreate`: the gates of channel storage
* `loadDir`, `putDir`, `kvMkdir`: directories
* `checkChannelContainment`: a node is linked under a directory of its own channel
* `dirRef`, `fileRef`, `smallFileRef`: the reference counts
-/

namespace Foks.KvStore

open Lib Except

/-- `proto.PartyID`: 33 bytes, of which the first is the entity type. -/
abbrev PartyID := ℕ

/-- `proto.ShortPartyID`: the first 17 bytes of a party ID. -/
abbrev ShortPartyID := ℕ

def PartyID.shorten (p : PartyID) : ShortPartyID := p / 256 ^ 16

/-- `PartyID.TeamID`: the entity type is `EntityType_NamedTeam` or `EntityType_AdHocTeam`. -/
def PartyID.teamID (p : PartyID) : Except CoreError TeamID := do
  refuse (p / 256 ^ 32 ≠ 3 ∧ p / 256 ^ 32 ≠ 20) (.entityError "wrong leading byte for team ID")
  return p

abbrev KVVersion := ℕ

abbrev DirID := ℕ

abbrev FileID := ℕ

abbrev DirentID := ℕ

abbrev HMAC := ℕ

/-- A box that the server does not open. -/
abbrev Ciphertext := ℕ

/-- `proto.KVNodeID`: one byte for the type, then the identifier. The tombstone of an entry that was
removed is the node of no type. -/
inductive KVNodeID where
  | none
  | dir (id : DirID)
  | file (id : FileID)
  | smallFile (id : ℕ)
  | symlink (id : ℕ)
  | unknown (bytes : ℕ)
  deriving DecidableEq

namespace KVNodeID

/-- The error of `KVNodeID.Type` for a byte that is no type. -/
def badType : CoreError := .dataError "bad kv node id"

def isTombstone (n : KVNodeID) : Bool := n = .none

end KVNodeID

inductive KVDirStatus where
  | active
  | encrypting
  | dead
  deriving DecidableEq

/-- `proto.RTChannelID`: 16 bytes. -/
abbrev RTChannelID := ℕ

/-- `proto.RTChannelIDShort`: 63 bits. -/
abbrev ChannelID := ℕ

def RTChannelID.short (c : RTChannelID) : ChannelID := c / 256 ^ 8 % 2 ^ 63

structure RoleAndGen where
  role : Role
  gen : Generation
  deriving DecidableEq

structure SeedBoxExternalNonce where
  rg : RoleAndGen
  ctext : Ciphertext
  deriving DecidableEq

structure KVDir where
  id : DirID
  version : KVVersion
  box : SeedBoxExternalNonce
  writeRole : Role
  status : KVDirStatus := .active
  deriving DecidableEq

/-! ### Columns -/

/-- A value for a column of type `INT`. -/
def integer (v : ℕ) : Except CoreError Unit := refuse (2 ^ 31 ≤ v) .numericValueOutOfRange

/-- The two columns of a role, of type `SMALLINT`. -/
def roleColumns (r : Role) : Except CoreError Unit :=
  refuse (r.level < -0x8000 ∨ 0x8000 ≤ r.level) .numericValueOutOfRange

/-- `ImportRoleFromDB`. The role `NONE` can be stored but is not read back. -/
def importRoleFromDB : Role → Except CoreError Role
  | .none => .error (.dataError "invalid role type")
  | .member l => do
    refuse (l < -0xffff ∨ 0xffff < l) (.dataError "invalid level for member")
    return .member l
  | r => .ok r

theorem importRoleFromDB_eq_ok {r r2 : Role} (h : importRoleFromDB r = .ok r2) : r2 = r := by
  cases r with
  | none => cases h
  | member l =>
    have hr := of_bind_eq_ok h
    exact (ok.inj hr).symm
  | admin | owner => exact (ok.inj h).symm

/-! ### Tables -/

/-- The columns that the primary keys of all tables begin with. -/
abbrev Owner := ShortHostID × ShortPartyID

/-- A row of `dir`. -/
structure DirRow where
  owner : Owner
  dirID : DirID
  version : KVVersion
  ptkGen : Generation
  readRole : Role
  writeRole : Role
  seedBox : Ciphertext
  status : KVDirStatus
  channelID : Option ChannelID
  deriving DecidableEq

def DirRow.pkey (r : DirRow) : Owner × DirID × KVVersion := (r.owner, r.dirID, r.version)

/-- A row of `dir_refcount`. -/
structure DirRefcountRow where
  owner : Owner
  dirID : DirID
  refcount : ℤ
  deriving DecidableEq

def DirRefcountRow.pkey (r : DirRefcountRow) : Owner × DirID := (r.owner, r.dirID)

inductive LargeFileStatus where
  | active
  | dead
  | uploading
  deriving DecidableEq

/-- A row of `large_file`. -/
structure LargeFileRow where
  owner : Owner
  fileID : FileID
  size : ℕ
  refcount : ℤ
  status : LargeFileStatus
  channelID : Option ChannelID
  deriving DecidableEq

def LargeFileRow.pkey (r : LargeFileRow) : Owner × FileID := (r.owner, r.fileID)

/-- A row of `large_file_key`. -/
structure LargeFileKeyRow where
  owner : Owner
  fileID : FileID
  version : KVVersion
  ptkGen : Generation
  keyBox : Ciphertext
  readRole : Role
  deriving DecidableEq

def LargeFileKeyRow.pkey (r : LargeFileKeyRow) : Owner × FileID × KVVersion := (r.owner, r.fileID, r.version)

/-- A row of `large_file_chunk`. -/
structure LargeFileChunkRow where
  owner : Owner
  fileID : FileID
  chunkOffset : ℕ
  data : List UInt8
  final : Bool
  deriving DecidableEq

def LargeFileChunkRow.pkey (r : LargeFileChunkRow) : Owner × FileID × ℕ := (r.owner, r.fileID, r.chunkOffset)

/-- A row of `small_file_or_symlink`. -/
structure SmallFileRow where
  owner : Owner
  nodeID : KVNodeID
  ptkGen : Generation
  readRole : Role
  box : List UInt8
  refcount : ℤ
  channelID : Option ChannelID
  deriving DecidableEq

def SmallFileRow.pkey (r : SmallFileRow) : Owner × KVNodeID := (r.owner, r.nodeID)

/-- A row of `root`. -/
structure RootRow where
  shortHostID : ShortHostID
  partyID : PartyID
  rootNodeID : DirID
  rootNodeVersion : KVVersion
  ptkGen : Generation
  readRole : Role
  bindingMac : HMAC
  deriving DecidableEq

namespace RootRow

def pkey (r : RootRow) : ShortHostID × PartyID := (r.shortHostID, r.partyID)

def owner (r : RootRow) : Owner := (r.shortHostID, PartyID.shorten r.partyID)

end RootRow

/-- A row of `channel_kv_root`. -/
structure ChannelRootRow where
  owner : Owner
  channelID : ChannelID
  dirID : DirID
  deriving DecidableEq

/-- A row of `channels`, of the realtime server. -/
structure ChannelRow where
  shortHostID : ShortHostID
  channelID : ChannelID
  parentTeamID : TeamID
  deriving DecidableEq

/-- A row of `channel_acl`, of the realtime server. -/
structure ChannelAclRow where
  shortHostID : ShortHostID
  channelID : ChannelID
  uid : UID
  deriving DecidableEq

/-- The tables of the store, without the directory entries, and those of the realtime server that it
reads. -/
structure Tables where
  dirs : List DirRow := []
  dirRefcounts : List DirRefcountRow := []
  largeFiles : List LargeFileRow := []
  largeFileKeys : List LargeFileKeyRow := []
  largeFileChunks : List LargeFileChunkRow := []
  smallFiles : List SmallFileRow := []
  roots : List RootRow := []
  channelRoots : List ChannelRootRow := []
  channels : List ChannelRow := []
  channelAcls : List ChannelAclRow := []
  deriving DecidableEq

/-- What a request brings along: the host it is for, the user that acts, and the time of its
transaction. There is no user for a remote member and for a team that is a member. -/
structure MetaContext where
  shortHostID : ShortHostID
  actorUID : Option UID
  now : Time := 0

variable (m : MetaContext) (t : Tables) (pid : PartyID)

/-- The rows of a party. -/
def MetaContext.owner : Owner := (m.shortHostID, PartyID.shorten pid)

/-! ### Channel storage -/

/-- The caller may not know that this node exists. -/
def errKVNodeMasked : CoreError := .errorsNew "kv node masked by channel acl"

/-- The answer for a masked node is the one for a node that does not exist. -/
def unmask (missing e : CoreError) : CoreError := if e = errKVNodeMasked then missing else e

/-- The user that acts and the team that owns the store; channel storage exists in stores of teams
only. -/
def kvChannelCheckSetup : Except CoreError (UID × TeamID) := do
  let tid ← (PartyID.teamID pid).mapError fun _ => errKVNodeMasked
  match m.actorUID with
  | none => .error errKVNodeMasked
  | some uid => return (uid, tid)

/-- `kvChannelMembership`. The memo of a request holds what the tables say, since they are read at one
moment here. -/
def kvChannelMembership (chid : ChannelID) : Except CoreError Unit := do
  let (uid, tid) ← kvChannelCheckSetup m pid
  refuse (¬ ((∃ a ∈ t.channelAcls, a.shortHostID = m.shortHostID ∧ a.channelID = chid ∧ a.uid = uid) ∧
    ∃ c ∈ t.channels, c.shortHostID = m.shortHostID ∧ c.channelID = chid ∧ c.parentTeamID = tid))
    errKVNodeMasked

/-- A node without a tag is ordinary storage. -/
def authorizeKVNodeRead : Option ChannelID → Except CoreError Unit
  | none => .ok ()
  | some chid => kvChannelMembership m t pid chid

/-- The only refusal is that of a masked node. -/
theorem authorizeKVNodeRead_error {m : MetaContext} {t : Tables} {pid : PartyID}
    {chid : Option ChannelID} {e : CoreError} (h : authorizeKVNodeRead m t pid chid = .error e) :
    e = errKVNodeMasked := by
  cases chid with
  | none => cases h
  | some chid =>
    rcases bind_eq_error.mp h with hsetup | ⟨⟨uid, tid⟩, -, hmember⟩
    · rcases bind_eq_error.mp hsetup with hteam | ⟨tid, -, hactor⟩
      · obtain ⟨_, -, rfl⟩ := mapError_eq_error.mp hteam
        rfl
      cases hm : m.actorUID with
      | none =>
        rw [hm] at hactor
        exact (error.inj hactor).symm
      | some uid =>
        rw [hm] at hactor
        cases hactor
    simp only [refuse] at hmember
    split at hmember
    · exact (error.inj hmember).symm
    · cases hmember

/-- The tag that a new node gets. -/
def authorizeKVNodeCreate : Option RTChannelID → Except CoreError (Option ChannelID)
  | none => .ok none
  | some channelID => do
    let chid := RTChannelID.short channelID
    (kvChannelMembership m t pid chid).mapError (unmask (.notFoundError "channel"))
    return some chid

def assertAtOrAbove (r1 r2 : Role) (op : KVOp) (rsrc : KVNodeType) : Except CoreError Unit :=
  refuse (r1.isAtOrAbove r2 = false) (.kvPermssionError op rsrc)

@[simp] theorem assertAtOrAbove_eq_ok {r1 r2 : Role} {op : KVOp} {rsrc : KVNodeType} {u : Unit} :
    assertAtOrAbove r1 r2 op rsrc = .ok u ↔ r2 ≤ r1 := by
  rw [assertAtOrAbove, refuse_eq_ok, Bool.not_eq_false, Role.isAtOrAbove_iff]

/-! ### Directories -/

/-- The row of a directory at a version; version zero stands for the latest one. -/
def selectDir (dirid : DirID) (vers : KVVersion) : Except CoreError (Option DirRow) :=
  let rows := t.dirs.filter fun r => r.owner = m.owner pid ∧ r.dirID = dirid
  if vers = 0 then .ok (rows.argmax DirRow.version)
  else do
    integer vers
    return rows.find? (·.version = vers)

def loadDir (dirid : DirID) (vers : KVVersion) : Except CoreError (KVDir × Option ChannelID) := do
  match ← selectDir m t pid dirid vers with
  | none => .error (.notFoundError "dir")
  | some row =>
    (authorizeKVNodeRead m t pid row.channelID).mapError (unmask (.notFoundError "dir"))
    let readRole ← importRoleFromDB row.readRole
    let writeRole ← importRoleFromDB row.writeRole
    return (⟨dirid, row.version, ⟨⟨readRole, row.ptkGen⟩, row.seedBox⟩, writeRole, row.status⟩, row.channelID)

/-- `putDir`. A directory that is there already, with the same contents, is a replay. -/
def putDir (role : Role) (dir : KVDir) (chid : Option ChannelID) : Except CoreError (Tables × Bool) := do
  assertAtOrAbove role dir.box.rg.role .write .dir
  assertAtOrAbove role dir.writeRole .write .dir
  refuse (dir.version ≠ 1) (.badArgsError "dir version must be 1 for mkdir")
  integer dir.box.rg.gen
  roleColumns dir.box.rg.role
  roleColumns dir.writeRole
  let row : DirRow := ⟨m.owner pid, dir.id, dir.version, dir.box.rg.gen, dir.box.rg.role, dir.writeRole,
    dir.box.ctext, .active, chid⟩
  match t.dirs.find? (fun r => r.pkey = row.pkey) with
  | some stored =>
    if stored = row then return (t, true)
    else .error (.kvRaceError "dir id reused with different contents")
  | none =>
    let counts ← insertRow DirRefcountRow.pkey (.uniqueViolation "dir_refcount_pkey")
      ⟨m.owner pid, dir.id, 0⟩ t.dirRefcounts
    return ({ t with dirs := t.dirs ++ [row], dirRefcounts := counts }, false)

def kvMkdir (role : Role) (dir : KVDir) (channelID : Option RTChannelID) :
    Except CoreError (Tables × Bool) := do
  let chid ← authorizeKVNodeCreate m t pid channelID
  putDir m t pid role dir chid

/-! ### Containment -/

/-- The tag of a node of any kind; a node without a row reads as untagged. -/
def loadNodeChannelTag : KVNodeID → Except CoreError (Option ChannelID)
  | .dir id =>
    let rows := t.dirs.filter fun r => r.owner = m.owner pid ∧ r.dirID = id
    .ok ((rows.argmax DirRow.version).bind DirRow.channelID)
  | .file id =>
    .ok ((t.largeFiles.find? fun r => r.owner = m.owner pid ∧ r.fileID = id).bind LargeFileRow.channelID)
  | .none => .ok none
  | .unknown _ => .error KVNodeID.badType
  | id => .ok ((t.smallFiles.find? fun r => r.owner = m.owner pid ∧ r.nodeID = id).bind SmallFileRow.channelID)

/-- The directory that is registered as the storage root of the channel, and no other node. -/
def assertIsChannelRoot (chid : ChannelID) (child : KVNodeID) : Except CoreError Unit :=
  let denied := CoreError.kvPermssionError .write .dir
  match child with
  | .dir did =>
    match t.channelRoots.find? fun r => r.owner = m.owner pid ∧ r.channelID = chid with
    | none => .error denied
    | some root => refuse (root.dirID ≠ did) denied
  | .unknown _ => .error KVNodeID.badType
  | _ => .error denied

/-- A node is linked under a parent that carries the same tag. Only the storage root of a channel may
hang beneath an untagged parent. -/
def checkChannelContainment (parent : Option ChannelID) (child : KVNodeID) : Except CoreError Unit := do
  if child.isTombstone then return
  let childTag ← loadNodeChannelTag m t pid child
  match parent, childTag with
  | none, none => return
  | none, some tag => assertIsChannelRoot m t pid tag child
  | some p, some tag => refuse (p ≠ tag) (.kvPermssionError .write .dir)
  | some _, none => .error (.kvPermssionError .write .dir)

/-! ### Reference counts -/

def dirRef (dir : DirID) (delta : ℤ) : Except CoreError Tables := do
  let rows ← updateOne (fun r => r.owner = m.owner pid ∧ r.dirID = dir)
    (fun r => { r with refcount := r.refcount + delta }) (.updateError "dir_refcount") t.dirRefcounts
  return { t with dirRefcounts := rows }

def fileRef (id : FileID) (v : ℤ) : Except CoreError Tables := do
  let rows ← updateOne (fun r => r.owner = m.owner pid ∧ r.fileID = id)
    (fun r => { r with refcount := r.refcount + v }) (.updateError "large_file") t.largeFiles
  return { t with largeFiles := rows }

def smallFileRef (id : KVNodeID) (v : ℤ) : Except CoreError Tables := do
  let rows ← updateOne (fun r => r.owner = m.owner pid ∧ r.nodeID = id)
    (fun r => { r with refcount := r.refcount + v }) (.updateError "small_file") t.smallFiles
  return { t with smallFiles := rows }

/-- `direntRef`: a tombstone has no count. -/
def direntRef : KVNodeID → ℤ → Except CoreError Tables
  | .dir id, v => dirRef m t pid id v
  | .file id, v => fileRef m t pid id v
  | .smallFile id, v => smallFileRef m t pid (.smallFile id) v
  | .symlink id, v => smallFileRef m t pid (.symlink id) v
  | .none, _ => .ok t
  | .unknown _, _ => .error KVNodeID.badType

end Foks.KvStore
