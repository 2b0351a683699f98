import Foks.KvStore.Nodes
import Foks.Lib.Run
import Foks.Lib.Versions

/-!
# Directory entries of the KV store

An entry of a directory is kept in versions: a client that changes an entry sends the next version of
it (`server/kv-store/dirent.go`). The server looks for the row of the version before, checks the caller
against it, and then inserts the new row and takes all rows with smaller versions out of use. The
identifier of the entry and the version are the client's choice, and a version whose predecessor is
not there is treated as a new entry.
-/

namespace Foks.KvStore

open Lib List

structure KVDirent where
  parentDir : DirID
  id : DirentID
  value : KVNodeID
  version : KVVersion
  dirVersion : KVVersion
  writeRole : Role
  nameMac : HMAC
  nameBox : Ciphertext
  bindingMac : HMAC
  dirStatus : KVDirStatus := .active
  deriving DecidableEq

/-- What the versions of an entry have in common: the party, the directory and the identifier. -/
abbrev EntryKey := Owner × DirID × DirentID

/-- A row of `dirent`. -/
structure DirentRow where
  owner : Owner
  dirID : DirID
  direntID : DirentID
  version : KVVersion
  dirVersion : KVVersion
  nameBox : Ciphertext
  value : KVNodeID
  writeRole : Role
  nameMac : HMAC
  bindingMac : HMAC
  ctime : Time
  active : Bool
  deriving DecidableEq

namespace DirentRow

def key (r : DirentRow) : EntryKey := (r.owner, r.dirID, r.direntID)

def pkey (r : DirentRow) : EntryKey × KVVersion := (r.key, r.version)

def toVersion (r : DirentRow) : Version := ⟨r.version, r.active⟩

end DirentRow

structure Store extends Tables where
  dirents : List DirentRow := []
  deriving DecidableEq

variable (m : MetaContext) (s : Store) (pid : PartyID) (de : KVDirent)

/-- The key of an entry that a client sends. -/
def KVDirent.key (o : Owner) : EntryKey := (o, de.parentDir, de.id)

/-- The row that is inserted for an entry. -/
def KVDirent.row (m : MetaContext) (pid : PartyID) : DirentRow where
  owner := m.owner pid
  dirID := de.parentDir
  direntID := de.id
  version := de.version
  dirVersion := de.dirVersion
  nameBox := de.nameBox
  value := de.value
  writeRole := de.writeRole
  nameMac := de.nameMac
  bindingMac := de.bindingMac
  ctime := m.now
  active := true

/-! ### Loading an entry -/

/-- The entries of a directory, each with the row of the directory version that it was put under. -/
def Store.joined (o : Owner) (dirid : DirID) : List (DirentRow × DirRow) :=
  (s.dirents.filter fun e => e.owner = o ∧ e.dirID = dirid).flatMap fun e =>
    (s.dirs.filter fun d => d.pkey = (e.owner, e.dirID, e.dirVersion)).map fun d => (e, d)

variable (role : Role)

/-- The row of an entry as it is given to a caller, who has to be at or above the read role of the
directory. -/
def importDirent (dirid : DirID) (p : DirentRow × DirRow) : Except CoreError KVDirent := do
  let readRole ← importRoleFromDB p.2.readRole
  assertAtOrAbove role readRole .read .dir
  let writeRole ← importRoleFromDB p.1.writeRole
  return ⟨dirid, p.1.direntID, p.1.value, p.1.version, p.1.dirVersion, writeRole, p.1.nameMac,
    p.1.nameBox, p.1.bindingMac, p.2.status⟩

/-- `loadDirent`: the entry that a query selects. An entry in a channel that the caller is not a
member of is no entry. -/
def loadDirent (dirid : DirID) (select : List (DirentRow × DirRow) → Option (DirentRow × DirRow))
    (role : Role) :
    Except CoreError (Option KVDirent) :=
  match select (s.joined (m.owner pid) dirid) with
  | none => .ok none
  | some p =>
    match authorizeKVNodeRead m s.toTables pid p.2.channelID with
    | .error err => if err = errKVNodeMasked then .ok none else .error err
    | .ok _ => (importDirent role dirid p).map some

def loadDirentByID (dirid : DirID) (id : DirentID)
    (vers : KVVersion) (role : Role) : Except CoreError (Option KVDirent) := do
  integer vers
  loadDirent m s pid dirid (fun rows => rows.find? fun p => p.1.direntID = id ∧ p.1.version = vers) role

/-! ### Putting an entry -/

/-- The row of the version before the one that is sent; there need not be one. -/
def loadExistingDirent (de : KVDirent) : Except CoreError (Option KVDirent) := do
  if de.version = 1 then return none
  let existing ← loadDirentByID m s pid de.parentDir de.id (de.version - 1) role
  match existing with
  | none => return none
  | some ex =>
    refuse (de.dirVersion ≠ ex.dirVersion ∧ de.dirVersion ≠ ex.dirVersion + 1)
      (.kvRaceError "dir version wasn't current or prev")
    return some ex

def checkPermissions (dir : KVDir) (existing : Option KVDirent) : Except CoreError Unit := do
  match existing with
  | none => pure ()
  | some ex => assertAtOrAbove role ex.writeRole .write .dir
  assertAtOrAbove role dir.writeRole .write .dir
  assertAtOrAbove role dir.box.rg.role .read .dir

/-- The new value is referred to once more, unless it is a tombstone. -/
def increfValue (t : Tables) (pid : PartyID) (de : KVDirent) : Except CoreError Tables :=
  if de.value.isTombstone then .ok t else direntRef m t pid de.value 1

/-- The value of the version before is referred to once less. -/
def decrefExisting (t : Tables) (pid : PartyID) : Option KVDirent → Except CoreError Tables
  | none => .ok t
  | some ex => direntRef m t pid ex.value (-1)

def updateRefcounts (t : Tables) (pid : PartyID) (de : KVDirent)
    (existing : Option KVDirent) : Except CoreError Tables := do
  let t ← increfValue m t pid de
  decrefExisting m t pid existing

/-- Whether an update for `de` takes a row out of use. -/
def KVDirent.replaces (o : Owner) (r : DirentRow) : Bool :=
  r.key = de.key o ∧ r.version < de.version

open DirentRow

/-- `insertNewDirent`. Every lower version is taken out of use, not only the one before. -/
def insertNewDirent : Except CoreError Store := do
  integer de.version
  integer de.dirVersion
  roleColumns de.writeRole
  let rows ← insertRow pkey (.duplicateError "dirent") (de.row m pid) s.dirents
  refuse ((m.owner pid, de.parentDir, de.dirVersion) ∉ s.dirs.map DirRow.pkey) (.foreignKeyViolation "dirent")
  let rows := updateRows (de.replaces (m.owner pid)) (fun r => { r with active := false }) rows
  return { s with dirents := rows }

/-- `direntUpdater.run` -/
def direntUpdater (s : Store) (de : KVDirent) : Except CoreError Store := do
  refuse (de.version < 1) (.badArgsError "dirent version must be >= 1")
  let (dir, dirChid) ← loadDir m s.toTables pid de.parentDir de.dirVersion
  let existing ← loadExistingDirent m s pid role de
  checkPermissions role dir existing
  checkChannelContainment m s.toTables pid dirChid de.value
  let tables ← updateRefcounts m s.toTables pid de existing
  insertNewDirent m { s with toTables := tables } pid de

/-- `putDirent`: the entries of one call, in their order, in one transaction. -/
def putDirent (dirents : List KVDirent) (s : Store) : Except CoreError Store :=
  dirents.foldlM (direntUpdater m pid role) s

/-! ### What a call does -/

variable {m : MetaContext} {pid : PartyID} {role : Role} {s s' : Store} {de : KVDirent}
  {dirents : List KVDirent}

/-- The table of entries after an entry was put. -/
def Store.withRow (s : Store) (m : MetaContext) (pid : PartyID) (de : KVDirent) : List DirentRow :=
  updateRows (de.replaces (m.owner pid)) (fun r => { r with active := false }) (s.dirents ++ [de.row m pid])

/-- The constraints of the table of entries. -/
structure Insertable (m : MetaContext) (s : Store) (pid : PartyID) (de : KVDirent) : Prop where
  version : integer de.version = .ok ()
  dirVersion : integer de.dirVersion = .ok ()
  writeRole : roleColumns de.writeRole = .ok ()
  fresh : (de.row m pid).pkey ∉ s.dirents.map pkey
  dir : (m.owner pid, de.parentDir, de.dirVersion) ∈ s.dirs.map DirRow.pkey

theorem insertNewDirent_eq_ok : insertNewDirent m s pid de = .ok s' ↔
      Insertable m s pid de ∧ s' = { s with dirents := s.withRow m pid de } := by
  simp only [insertNewDirent, bind_eq_ok, insertRow_eq_ok, refuse_eq_ok, not_not, pure, Except.pure,
    Except.ok.injEq]
  constructor
  · rintro ⟨_, hv, _, hd, _, hw, rows, ⟨hfresh, rfl⟩, _, hdir, rfl⟩
    exact ⟨⟨hv, hd, hw, hfresh, hdir⟩, rfl⟩
  · rintro ⟨h, rfl⟩
    exact ⟨(), h.version, (), h.dirVersion, (), h.writeRole, _, ⟨h.fresh, rfl⟩, (), h.dir, rfl⟩

theorem direntUpdater_eq_ok : direntUpdater m pid role s de = .ok s' ↔
      ∃ dir dirChid existing tables, 1 ≤ de.version ∧
        loadDir m s.toTables pid de.parentDir de.dirVersion = .ok (dir, dirChid) ∧
        loadExistingDirent m s pid role de = .ok existing ∧
        checkPermissions role dir existing = .ok () ∧
        checkChannelContainment m s.toTables pid dirChid de.value = .ok () ∧
        updateRefcounts m s.toTables pid de existing = .ok tables ∧
        insertNewDirent m { s with toTables := tables } pid de = .ok s' := by
  simp only [direntUpdater, bind_eq_ok, refuse_eq_ok, not_lt]
  constructor
  · rintro ⟨_, hv, ⟨dir, dirChid⟩, hdir, existing, hex, _, hperm, _, hcont, tables, hrefs, hins⟩
    exact ⟨dir, dirChid, existing, tables, hv, hdir, hex, hperm, hcont, hrefs, hins⟩
  · rintro ⟨dir, dirChid, existing, tables, hv, hdir, hex, hperm, hcont, hrefs, hins⟩
    exact ⟨(), hv, (dir, dirChid), hdir, existing, hex, (), hperm, (), hcont, tables, hrefs, hins⟩

/-- An entry that was put is in the table, and what it replaces is not in use any more. -/
theorem dirents_direntUpdater (h : direntUpdater m pid role s de = .ok s') :
    s'.dirents = s.withRow m pid de := by
  obtain ⟨_, _, _, _, _, _, _, _, _, _, hins⟩ := direntUpdater_eq_ok.mp h
  obtain ⟨-, rfl⟩ := insertNewDirent_eq_ok.mp hins
  rfl

/-! ### The versions of an entry -/

/-- The versions of the entry `k`. -/
def Store.chain (s : Store) (k : EntryKey) : List Version :=
  (s.dirents.filter (·.key = k)).map toVersion

/-- The versions that a call sends for the entry `k`. -/
def sentVersions (o : Owner) (dirents : List KVDirent) (k : EntryKey) : List KVVersion :=
  (dirents.filter (·.key o = k)).map KVDirent.version

/-- Taking rows out of use, as the versions of the entry see it. -/
theorem toVersion_replaces {o : Owner} {r : DirentRow} (hkey : r.key = de.key o) :
    (if de.replaces o r then { r with active := false } else r).toVersion = r.toVersion.under de.version := by
  by_cases hlt : r.version < de.version
  · simp [KVDirent.replaces, Version.under, toVersion, hkey, hlt]
  · simp [KVDirent.replaces, Version.under, toVersion, hlt]

open Store

theorem chain_direntUpdater (h : direntUpdater m pid role s de = .ok s') (k : EntryKey) :
    s'.chain k = if de.key (m.owner pid) = k then addVersion (s.chain k) de.version else s.chain k := by
  rw [chain, dirents_direntUpdater h, withRow]
  have hkeys : ∀ r : DirentRow, ({ r with active := false } : DirentRow).key = r.key := fun _ => rfl
  split
  · next hk =>
    subst hk
    have hrow : (de.row m pid).key = de.key (m.owner pid) := rfl
    rw [updateRows, filter_map]
    have hsel : (fun r : DirentRow => decide (r.key = de.key (m.owner pid))) ∘
        (fun r => if de.replaces (m.owner pid) r then { r with active := false } else r)
        = fun r => decide (r.key = de.key (m.owner pid)) := by
      funext r
      by_cases hr : de.replaces (m.owner pid) r <;> simp [hr, hkeys]
    rw [hsel, filter_append, filter_singleton, addVersion, chain]
    simp only [hrow, map_append, map_map]
    congr 1
    · refine map_congr_left fun r hr => ?_
      exact toVersion_replaces (by simpa using (mem_filter.mp hr).2)
    · exact congrArg (fun w => [w]) (toVersion_replaces hrow)
  · next hk =>
    have hrow : (de.row m pid).key ≠ k := hk
    rw [filter_updateRows, filter_append, filter_cons_of_neg (by simpa using hrow), filter_nil,
      append_nil, chain]
    · intro r _ hr
      have hr : r.key = de.key (m.owner pid) := (by simpa [KVDirent.replaces] using hr : _ ∧ _).1
      simpa [hr] using hk
    · exact fun _ => rfl

/-- The versions of an entry after a call: those that it sent were added one after the other. -/
theorem chain_putDirent (h : putDirent m pid role dirents s = .ok s') (k : EntryKey) :
    s'.chain k = (sentVersions (m.owner pid) dirents k).foldl addVersion (s.chain k) := by
  induction dirents generalizing s with
  | nil =>
    cases h
    rfl
  | cons de dirents ih =>
    obtain ⟨s1, hde, hrest⟩ := bind_eq_ok.mp h
    rw [ih hrest, chain_direntUpdater hde]
    by_cases hk : de.key (m.owner pid) = k
    · simp [sentVersions, hk]
    · simp [sentVersions, hk]

/-- Every entry is a linear chain: its rows carry the versions from `1` on, each of them once, and the
last one is the only one in use. -/
def Chained (s : Store) : Prop := ∀ k, ∃ n, Linear n (s.chain k)

/-- The entries of a call continue the chains that they belong to. -/
def Extends (s : Store) (o : Owner) (dirents : List KVDirent) : Prop :=
  ∀ de ∈ dirents, Continues (s.chain (de.key o)).length (sentVersions o dirents (de.key o))

instance (s : Store) (o : Owner) (dirents : List KVDirent) : Decidable (Extends s o dirents) := by
  unfold Extends
  infer_instance

theorem extends_iff {o : Owner} :
    Extends s o dirents ↔ ∀ k, Continues (s.chain k).length (sentVersions o dirents k) := by
  refine ⟨fun h k => ?_, fun h de _ => h (de.key o)⟩
  rcases hnone : dirents.filter (·.key o = k) with _ | ⟨de, l⟩
  · simp [sentVersions, hnone, Continues]
  have hmem : de ∈ dirents.filter (·.key o = k) := hnone ▸ mem_cons_self
  obtain ⟨hde, hk⟩ := mem_filter.mp hmem
  have hk : de.key o = k := by simpa using hk
  exact hk ▸ h de hde

/-- A call that is accepted keeps the entries linear exactly when it extends their chains. -/
theorem chained_putDirent_iff (hs : Chained s) (h : putDirent m pid role dirents s = .ok s') :
    Chained s' ↔ Extends s (m.owner pid) dirents := by
  rw [extends_iff]
  refine forall_congr' fun k => ?_
  obtain ⟨n, hn⟩ := hs k
  rw [chain_putDirent h, linear_foldl_iff hn, hn.length]

/-! ### Runs -/

/-- A call of `KvPut`, or a transaction of another handler: none of the others writes an entry. -/
inductive Event where
  | put (m : MetaContext) (pid : PartyID) (role : Role) (dirents : List KVDirent)
  | other (t : Tables)

def Store.step (s : Store) : Event → Except CoreError Store
  | .put m pid role dirents => putDirent m pid role dirents s
  | .other t => .ok { s with toTables := t }

/-- A sequence of requests that the server accepts. -/
def Store.run (s : Store) (l : List Event) : Except CoreError Store := l.foldlM step s

/-- In every run from a store without entries: the entries are linear chains in every state of the run,
exactly when every call extends the chains that it finds. -/
theorem dirents_linear_iff {l : List Event} (h0 : s.dirents = []) (hrun : s.run l = .ok s') :
    (∀ l₁ l₂ s₁, l = l₁ ++ l₂ → s.run l₁ = .ok s₁ → Chained s₁) ↔
      ∀ l₁ m pid role dirents l₂ s₁, l = l₁ ++ .put m pid role dirents :: l₂ → s.run l₁ = .ok s₁ →
        Extends s₁ (m.owner pid) dirents := by
  let Q : Store → Event → Prop := fun s a =>
    match a with
    | .put m pid _ dirents => Extends s (m.owner pid) dirents
    | .other _ => True
  have hstart : Chained s := fun k => ⟨0, by simp [chain, h0, Linear]⟩
  have hstep : ∀ s a s', Chained s → s.step a = .ok s' → (Chained s' ↔ Q s a) := by
    rintro s (⟨m, pid, role, dirents⟩ | ⟨t⟩) s' hs h
    · exact chained_putDirent_iff hs h
    · cases h
      exact iff_of_true hs trivial
  rw [run] at hrun
  simp only [run, run_forall_iff hstep hstart hrun]
  constructor
  · intro h l₁ m pid role dirents l₂ s₁ hl hl₁
    exact h l₁ _ l₂ s₁ hl hl₁
  · rintro h l₁ (⟨m, pid, role, dirents⟩ | ⟨t⟩) l₂ s₁ hl hl₁
    · exact h l₁ m pid role dirents l₂ s₁ hl hl₁
    · trivial

/-! ### A version without the one before -/

section Example

/-- A named team. -/
def exampleTeam : PartyID := 3 * 256 ^ 32

def exampleUser : MetaContext where
  shortHostID := 1
  actorUID := some 7

/-- A directory that every member may read and write. -/
def exampleDir : KVDir where
  id := 10
  version := 1
  box := ⟨⟨.member 0, 1⟩, 0⟩
  writeRole := .member 0

/-- The tables of a team with one directory. -/
def oneDir : Tables where
  dirs := [⟨exampleUser.owner exampleTeam, 10, 1, 1, .member 0, .member 0, 0, .active, none⟩]
  dirRefcounts := [⟨exampleUser.owner exampleTeam, 10, 0⟩]

theorem kvMkdir_exampleDir :
    kvMkdir exampleUser {} exampleTeam .owner exampleDir none = .ok (oneDir, false) := by
  decide +kernel

/-- An entry of that directory, without a value. -/
def exampleEntry (version : KVVersion) (writeRole : Role) : KVDirent where
  parentDir := 10
  id := 20
  value := .none
  version := version
  dirVersion := 1
  writeRole := writeRole
  nameMac := 0
  nameBox := 0
  bindingMac := 0

/-- The entry is created, and then changed twice by one call. -/
def examplePuts : List Event :=
  [.other oneDir, .put exampleUser exampleTeam .owner [exampleEntry 1 .admin],
    .put exampleUser exampleTeam .owner [exampleEntry 2 .admin, exampleEntry 3 .admin]]

theorem dirents_linear_iff_examplePuts :
    ∃ s', run {} examplePuts = .ok s' ∧
      ((∀ l₁ l₂ s₁, examplePuts = l₁ ++ l₂ → run {} l₁ = .ok s₁ → Chained s₁) ↔
        ∀ l₁ m pid role dirents l₂ s₁, examplePuts = l₁ ++ .put m pid role dirents :: l₂ →
          run {} l₁ = .ok s₁ → Extends s₁ (m.owner pid) dirents) := by
  have hrun : (run {} examplePuts).map (fun s => s.dirents.length) = .ok 3 := by decide +kernel
  obtain ⟨s', hs', -⟩ := map_eq_ok.mp hrun
  exact ⟨s', hs', dirents_linear_iff rfl hs'⟩

/-- An entry that is put for the first time, at version `2`: there is no version `1`. -/
theorem firstPut_skips_version :
    kvMkdir exampleUser {} exampleTeam .owner exampleDir none = .ok (oneDir, false) ∧
      ∃ s', run {} [.other oneDir, .put exampleUser exampleTeam .owner [exampleEntry 2 .admin]]
          = .ok s' ∧
        s'.chain ((exampleEntry 2 .admin).key (exampleUser.owner exampleTeam)) = [⟨2, true⟩] ∧
        ¬ Chained s' := by
  refine ⟨kvMkdir_exampleDir, ?_⟩
  have hrun : (run {} [.other oneDir, .put exampleUser exampleTeam .owner [exampleEntry 2 .admin]]).map
      (fun s => s.chain ((exampleEntry 2 .admin).key (exampleUser.owner exampleTeam)))
      = .ok [⟨2, true⟩] := by
    decide +kernel
  obtain ⟨s', hs', hchain⟩ := map_eq_ok.mp hrun
  refine ⟨s', hs', hchain, fun hall => ?_⟩
  obtain ⟨n, hn⟩ := hall ((exampleEntry 2 .admin).key (exampleUser.owner exampleTeam))
  rw [hchain] at hn
  obtain rfl : 1 = n := hn.length
  revert hn
  decide

end Example

end Foks.KvStore
