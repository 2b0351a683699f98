import Foks.KvStore.Dirents

/-!
# The write roles of directory entries

A row of an entry carries the role that a caller needs to change the entry. The server compares the
caller with the row of the version before the one that is sent, but it takes every row with a smaller
version out of use. A caller who skips a version is compared with the roles of the directory only.

The roles that a call is checked against can be read off the store and the entries that are sent. A
call that is accepted for one role is accepted for every role above the highest of them, so the write
role of a row is respected exactly when it is not above all of them.
-/

namespace Foks.KvStore

open Lib List Except DirentRow

variable {m : MetaContext} {pid : PartyID} {role : Role} {s s' : Store} {de : KVDirent}
  {existing : Option KVDirent}
  {dirid : DirID} {p : DirentRow × DirRow} {dir : KVDir} {chid : Option ChannelID} {dirents : List KVDirent}

/-! ### The row before -/

/-- The row of the version before the one that is sent, with its directory. A row in a channel that the
caller is not a member of is not found. -/
def previous (m : MetaContext) (s : Store) (pid : PartyID) (de : KVDirent) : Option (DirentRow × DirRow) :=
  if de.version = 1 then none
  else ((s.joined (m.owner pid) de.parentDir).find? fun p =>
      p.1.direntID = de.id ∧ p.1.version = de.version - 1).filter fun p =>
    (authorizeKVNodeRead m s.toTables pid p.2.channelID).isOk

theorem loadDirent_eq (dirid : DirID) (select : List (DirentRow × DirRow) → Option (DirentRow × DirRow)) :
    loadDirent m s pid dirid select role =
      match (select (s.joined (m.owner pid) dirid)).filter fun p =>
        (authorizeKVNodeRead m s.toTables pid p.2.channelID).isOk with
      | none => .ok none
      | some p => (importDirent role dirid p).map some := by
  unfold loadDirent
  rcases select (s.joined (m.owner pid) dirid) with _ | p
  · rfl
  cases hauth : authorizeKVNodeRead m s.toTables pid p.2.channelID with
  | error err =>
    cases authorizeKVNodeRead_error hauth
    simp [Option.filter, hauth, Except.toBool]
  | ok u => simp [Option.filter, hauth, Except.toBool]

theorem loadExistingDirent_eq_ok : loadExistingDirent m s pid role de = .ok existing ↔
      (de.version = 1 ∨ integer (de.version - 1) = .ok ()) ∧
      match previous m s pid de with
      | none => existing = none
      | some p => ∃ ex, importDirent role de.parentDir p = .ok ex ∧
        (de.dirVersion = ex.dirVersion ∨ de.dirVersion = ex.dirVersion + 1) ∧ existing = some ex := by
  unfold loadExistingDirent previous
  by_cases hv : de.version = 1
  · simp [hv, pure, Except.pure, eq_comm]
  simp only [hv, if_false, false_or, loadDirentByID, loadDirent_eq, bind_eq_ok]
  split
  · constructor
    · rintro ⟨found, ⟨⟨⟩, hint, hfound⟩, hrest⟩
      cases hfound
      exact ⟨hint, (ok.inj hrest).symm⟩
    · rintro ⟨hint, rfl⟩
      exact ⟨none, ⟨(), hint, rfl⟩, rfl⟩
  constructor
  · rintro ⟨found, ⟨⟨⟩, hint, hfound⟩, hrest⟩
    obtain ⟨ex, hex, rfl⟩ := map_eq_ok.mp hfound
    obtain ⟨_, hver, hret⟩ := bind_eq_ok.mp hrest
    refine ⟨hint, ex, hex, ?_, (ok.inj hret).symm⟩
    simpa [or_iff_not_imp_left] using refuse_eq_ok.mp hver
  · rintro ⟨hint, ex, hex, hver, rfl⟩
    refine ⟨some ex, ⟨(), hint, map_eq_ok.mpr ⟨ex, hex, rfl⟩⟩, bind_eq_ok.mpr ⟨(), ?_, rfl⟩⟩
    simpa [or_iff_not_imp_left] using hver

/-- A caller gets to see a row when an owner does and their role is at or above the read role. -/
theorem importDirent_eq_ok {ex : KVDirent} :
    importDirent role dirid p = .ok ex ↔ importDirent .owner dirid p = .ok ex ∧ p.2.readRole ≤ role := by
  simp only [importDirent, bind_eq_ok, assertAtOrAbove_eq_ok]
  constructor
  · rintro ⟨readRole, hread, _, hle, hrest⟩
    exact ⟨⟨readRole, hread, (), Role.le_owner readRole, hrest⟩, importRoleFromDB_eq_ok hread ▸ hle⟩
  · rintro ⟨⟨readRole, hread, _, -, hrest⟩, hle⟩
    exact ⟨readRole, hread, (), (importRoleFromDB_eq_ok hread).symm ▸ hle, hrest⟩

/-- The write role of the entry that is found is that of the row. -/
theorem writeRole_importDirent {ex : KVDirent} (h : importDirent role dirid p = .ok ex) :
    ex.writeRole = p.1.writeRole := by
  simp only [importDirent, bind_eq_ok] at h
  obtain ⟨_, _, _, _, writeRole, hwrite, hret⟩ := h
  cases hret
  exact importRoleFromDB_eq_ok hwrite

/-! ### The roles of a call -/

def dirRoles : Except CoreError (Option DirRow) → List Role
  | .ok (some row) => [row.writeRole, row.readRole]
  | _ => []

def previousRoles : Option (DirentRow × DirRow) → List Role
  | some p => [p.2.readRole, p.1.writeRole]
  | none => []

/-- The roles that the caller is compared with when the entry `de` is put: those of the directory, and
those of the row before. -/
def checkedRoles (m : MetaContext) (s : Store) (pid : PartyID) (de : KVDirent) : List Role :=
  dirRoles (selectDir m s.toTables pid de.parentDir de.dirVersion) ++ previousRoles (previous m s pid de)

variable {t t' : Tables}

theorem loadDir_eq_ok {vers : KVVersion} (h : loadDir m t pid dirid vers = .ok (dir, chid)) :
    ∃ row, selectDir m t pid dirid vers = .ok (some row) ∧ dir.writeRole = row.writeRole ∧
      dir.box.rg.role = row.readRole ∧ authorizeKVNodeRead m t pid row.channelID = .ok () := by
  obtain ⟨found, hsel, hrest⟩ := bind_eq_ok.mp h
  cases found with
  | none => cases hrest
  | some row =>
    simp only [bind_eq_ok] at hrest
    obtain ⟨_, hauth, readRole, hread, writeRole, hwrite, hret⟩ := hrest
    cases hret
    exact ⟨row, hsel, importRoleFromDB_eq_ok hwrite, importRoleFromDB_eq_ok hread, mapError_eq_ok.mp hauth⟩

theorem checkPermissions_eq_ok : checkPermissions role dir existing = .ok () ↔
      (∀ ex ∈ existing, ex.writeRole ≤ role) ∧ dir.writeRole ≤ role ∧ dir.box.rg.role ≤ role := by
  cases existing with
  | none | some ex => simp [checkPermissions, bind_eq_ok]

theorem loadExistingDirent_role : loadExistingDirent m s pid role de = .ok existing ↔
      loadExistingDirent m s pid .owner de = .ok existing ∧ ∀ p ∈ previous m s pid de, p.2.readRole ≤ role := by
  simp only [loadExistingDirent_eq_ok]
  cases previous m s pid de with
  | none => simp
  | some p =>
    simp only [Option.mem_some_iff, forall_eq']
    constructor
    · rintro ⟨hint, ex, hex, hver, rfl⟩
      obtain ⟨hex, hle⟩ := importDirent_eq_ok.mp hex
      exact ⟨⟨hint, ex, hex, hver, rfl⟩, hle⟩
    · rintro ⟨⟨hint, ex, hex, hver, rfl⟩, hle⟩
      exact ⟨hint, ex, importDirent_eq_ok.mpr ⟨hex, hle⟩, hver, rfl⟩

theorem forall_existing_iff {bound : Role} (h : loadExistingDirent m s pid role de = .ok existing) :
    (∀ ex ∈ existing, ex.writeRole ≤ bound) ↔ ∀ p ∈ previous m s pid de, p.1.writeRole ≤ bound := by
  obtain ⟨-, h⟩ := loadExistingDirent_eq_ok.mp h
  cases hprev : previous m s pid de with
  | none =>
    rw [hprev] at h
    subst h
    simp
  | some p =>
    rw [hprev] at h
    obtain ⟨ex, hex, -, rfl⟩ := h
    simp [writeRole_importDirent hex]

theorem forall_checkedRoles_iff (hdir : loadDir m s.toTables pid de.parentDir de.dirVersion = .ok (dir, chid)) :
    (∀ c ∈ checkedRoles m s pid de, c ≤ role) ↔ (dir.writeRole ≤ role ∧ dir.box.rg.role ≤ role) ∧
        (∀ p ∈ previous m s pid de, p.2.readRole ≤ role) ∧
        ∀ p ∈ previous m s pid de, p.1.writeRole ≤ role := by
  obtain ⟨row, hsel, hwrite, hread, -⟩ := loadDir_eq_ok hdir
  rw [checkedRoles, hsel, hwrite, hread]
  cases previous m s pid de with
  | none => simp [dirRoles, previousRoles]
  | some p => simp [dirRoles, previousRoles, and_assoc]

/-- An entry is accepted for a role when it is accepted for an owner and the role is at or above all
that it is compared with. -/
theorem direntUpdater_role : direntUpdater m pid role s de = .ok s' ↔
      direntUpdater m pid .owner s de = .ok s' ∧ ∀ c ∈ checkedRoles m s pid de, c ≤ role := by
  simp only [direntUpdater_eq_ok, checkPermissions_eq_ok]
  constructor
  · rintro ⟨dir, dirChid, existing, tables, hv, hdir, hex, ⟨hw, hdw, hdr⟩, hrest⟩
    have hwrite := (forall_existing_iff hex).mp hw
    obtain ⟨hex, hread⟩ := loadExistingDirent_role.mp hex
    refine ⟨⟨dir, dirChid, existing, tables, hv, hdir, hex, ?_, hrest⟩,
      (forall_checkedRoles_iff hdir).mpr ⟨⟨hdw, hdr⟩, hread, hwrite⟩⟩
    exact ⟨fun ex _ => Role.le_owner _, Role.le_owner _, Role.le_owner _⟩
  · rintro ⟨⟨dir, dirChid, existing, tables, hv, hdir, hex, -, hrest⟩, hroles⟩
    obtain ⟨⟨hdw, hdr⟩, hread, hwrite⟩ := (forall_checkedRoles_iff hdir).mp hroles
    have hex := loadExistingDirent_role.mpr ⟨hex, hread⟩
    exact ⟨dir, dirChid, existing, tables, hv, hdir, hex,
      ⟨(forall_existing_iff hex).mpr hwrite, hdw, hdr⟩, hrest⟩

/-! ### A call with several entries -/

/-- A row, whether or not it is in use. -/
def DirentRow.renew (r : DirentRow) : DirentRow := { r with active := true }

/-- Two stores that differ in the reference counts and in which rows are in use. -/
structure SameRows (s t : Store) : Prop where
  dirs : s.dirs = t.dirs
  channels : s.channels = t.channels
  channelAcls : s.channelAcls = t.channelAcls
  dirents : s.dirents.map renew = t.dirents.map renew

/-- The loads of an entry do not ask whether a row is in use. -/
theorem joined_renew (s : Store) (o : Owner) (dirid : DirID) :
    Store.joined { s with dirents := s.dirents.map renew } o dirid
      = (s.joined o dirid).map (Prod.map renew id) := by
  simp only [Store.joined, filter_map, flatMap_map, map_flatMap, map_map]
  rfl

theorem previous_renew (s : Store) : previous m { s with dirents := s.dirents.map renew } pid de
      = (previous m s pid de).map (Prod.map renew id) := by
  unfold previous
  split
  · rfl
  · rw [joined_renew, find?_map, Option.filter_map]
    rfl

theorem authorizeKVNodeRead_congr (hchannels : t.channels = t'.channels)
    (hacls : t.channelAcls = t'.channelAcls) (chid : Option ChannelID) :
    authorizeKVNodeRead m t pid chid = authorizeKVNodeRead m t' pid chid := by
  cases chid with
  | none => rfl
  | some chid => simp only [authorizeKVNodeRead, kvChannelMembership, hchannels, hacls]

theorem previousRoles_renew (found : Option (DirentRow × DirRow)) :
    previousRoles (found.map (Prod.map renew id)) = previousRoles found := by
  cases found <;> rfl

namespace SameRows

variable {t : Store}

theorem previous (h : SameRows s t) (m : MetaContext) (pid : PartyID) (de : KVDirent) :
    (KvStore.previous m s pid de).map (Prod.map renew id)
      = (KvStore.previous m t pid de).map (Prod.map renew id) := by
  rw [← previous_renew, ← previous_renew]
  simp only [KvStore.previous, Store.joined, h.dirs, h.dirents,
    authorizeKVNodeRead_congr h.channels h.channelAcls]

theorem checkedRoles (h : SameRows s t) :
    KvStore.checkedRoles m s pid de = KvStore.checkedRoles m t pid de := by
  have hsel : selectDir m s.toTables pid de.parentDir de.dirVersion
      = selectDir m t.toTables pid de.parentDir de.dirVersion := by
    simp only [selectDir, h.dirs]
  rw [KvStore.checkedRoles, KvStore.checkedRoles, hsel, ← previousRoles_renew, h.previous m pid de,
    previousRoles_renew]

end SameRows

/-- The store with one more row, without any check. -/
def Store.sent (s : Store) (m : MetaContext) (pid : PartyID) (de : KVDirent) : Store :=
  { s with dirents := s.dirents ++ [de.row m pid] }

/-- The roles that the caller of a call is compared with. The row before an entry may be one that the
same call has put. -/
def callRoles (m : MetaContext) (pid : PartyID) : Store → List KVDirent → List Role
  | _, [] => []
  | s, de :: dirents => checkedRoles m s pid de ++ callRoles m pid (s.sent m pid de) dirents

/-- Reference counts are all that `direntRef` changes. -/
theorem direntRef_frame {id : KVNodeID} {v : ℤ} (h : direntRef m t pid id v = .ok t') :
    t'.dirs = t.dirs ∧ t'.channels = t.channels ∧ t'.channelAcls = t.channelAcls := by
  cases id with
  | none =>
    cases h
    exact ⟨rfl, rfl, rfl⟩
  | unknown bytes => cases h
  | _ =>
    obtain ⟨rows, -, hret⟩ := bind_eq_ok.mp h
    cases hret
    exact ⟨rfl, rfl, rfl⟩

theorem updateRefcounts_frame (h : updateRefcounts m t pid de existing = .ok t') :
    t'.dirs = t.dirs ∧ t'.channels = t.channels ∧ t'.channelAcls = t.channelAcls := by
  obtain ⟨t1, hinc, hdec⟩ := bind_eq_ok.mp h
  have hfirst : t1.dirs = t.dirs ∧ t1.channels = t.channels ∧ t1.channelAcls = t.channelAcls := by
    unfold increfValue at hinc
    split at hinc
    · cases hinc
      exact ⟨rfl, rfl, rfl⟩
    · exact direntRef_frame hinc
  cases existing with
  | none =>
    cases hdec
    exact hfirst
  | some ex =>
    obtain ⟨hdirs, hchannels, hacls⟩ := direntRef_frame hdec
    exact ⟨hdirs.trans hfirst.1, hchannels.trans hfirst.2.1, hacls.trans hfirst.2.2⟩

/-- An entry that was put is one more row. -/
theorem sameRows_direntUpdater (h : direntUpdater m pid role s de = .ok s') :
    SameRows s' (s.sent m pid de) := by
  obtain ⟨_, _, _, tables, -, -, -, -, -, hrefs, hins⟩ := direntUpdater_eq_ok.mp h
  obtain ⟨-, rfl⟩ := insertNewDirent_eq_ok.mp hins
  obtain ⟨hdirs, hchannels, hacls⟩ := updateRefcounts_frame hrefs
  refine ⟨hdirs, hchannels, hacls, ?_⟩
  refine map_updateRows ?_ _
  exact fun _ => rfl

theorem SameRows.callRoles {t : Store} (h : SameRows s t) (dirents : List KVDirent) :
    KvStore.callRoles m pid s dirents = KvStore.callRoles m pid t dirents := by
  induction dirents generalizing s t with
  | nil => rfl
  | cons de dirents ih =>
    have hnext : SameRows (s.sent m pid de) (t.sent m pid de) :=
      ⟨h.dirs, h.channels, h.channelAcls, by simp [Store.sent, h.dirents]⟩
    rw [KvStore.callRoles, KvStore.callRoles, h.checkedRoles, ih hnext]

/-- A call is accepted for a role when it is accepted for an owner and the role is at or above all that
it is compared with. -/
theorem putDirent_role : putDirent m pid role dirents s = .ok s' ↔
      putDirent m pid .owner dirents s = .ok s' ∧ ∀ c ∈ callRoles m pid s dirents, c ≤ role := by
  induction dirents generalizing s with
  | nil => simp [putDirent, callRoles]
  | cons de dirents ih =>
    simp only [putDirent, foldlM_cons, bind_eq_ok, callRoles, forall_mem_append]
    constructor
    · rintro ⟨s1, hde, hrest⟩
      obtain ⟨hde, hroles⟩ := direntUpdater_role.mp hde
      obtain ⟨hrest, hmore⟩ := ih.mp hrest
      rw [(sameRows_direntUpdater hde).callRoles] at hmore
      exact ⟨⟨s1, hde, hrest⟩, hroles, hmore⟩
    · rintro ⟨⟨s1, hde, hrest⟩, hroles, hmore⟩
      rw [← (sameRows_direntUpdater hde).callRoles] at hmore
      exact ⟨s1, direntUpdater_role.mpr ⟨hde, hroles⟩, ih.mpr ⟨hrest, hmore⟩⟩

/-! ### Rows that a call may replace -/

/-- Each row in use that has the key of an entry of the call has a write role at or below one of the
roles that the caller is compared with. -/
def RolesCovered (m : MetaContext) (pid : PartyID) (s : Store) (dirents : List KVDirent) : Prop :=
  ∀ de ∈ dirents, ∀ row ∈ s.dirents, row.active = true → row.key = de.key (m.owner pid) →
    ∃ c ∈ callRoles m pid s dirents, row.writeRole ≤ c

instance (m : MetaContext) (pid : PartyID) (s : Store) (dirents : List KVDirent) :
    Decidable (RolesCovered m pid s dirents) := by
  unfold RolesCovered
  infer_instance

/-- The directory of an entry that was accepted is compared with the caller. -/
theorem callRoles_ne_nil (h : putDirent m pid role dirents s = .ok s') (hne : dirents ≠ []) :
    callRoles m pid s dirents ≠ [] := by
  cases dirents with
  | nil => exact absurd rfl hne
  | cons de dirents =>
    obtain ⟨s1, hde, -⟩ := bind_eq_ok.mp h
    obtain ⟨_, _, _, _, -, hdir, -⟩ := direntUpdater_eq_ok.mp hde
    obtain ⟨row, hsel, -⟩ := loadDir_eq_ok hdir
    simp [callRoles, checkedRoles, dirRoles, hsel]

/-- For a call that the server accepts from some caller: all callers that it accepts the call from are
at or above the write role of every row in use of the entries that are sent, exactly when these write
roles are covered by the roles that the call is checked against. -/
theorem write_role_respected_iff {dirents : List KVDirent}
    (hacc : ∃ role s', putDirent m pid role dirents s = .ok s') :
    (∀ role s', putDirent m pid role dirents s = .ok s' →
      ∀ de ∈ dirents, ∀ row ∈ s.dirents, row.active = true → row.key = de.key (m.owner pid) →
        role.isAtOrAbove row.writeRole = true) ↔
      RolesCovered m pid s dirents := by
  simp only [Role.isAtOrAbove_iff]
  constructor
  · intro h de hde row hrow hactive hkey
    obtain ⟨role₀, s', hacc⟩ := hacc
    -- the lowest role that the call is accepted for
    have hpos := length_pos_of_ne_nil (callRoles_ne_nil hacc (ne_nil_of_mem hde))
    have hlowest :=
      putDirent_role.mpr ⟨(putDirent_role.mp hacc).1, fun c hc =>
        le_maximum_of_length_pos_of_mem hc hpos⟩
    exact ⟨_, maximum_of_length_pos_mem hpos, h _ s' hlowest de hde row hrow hactive hkey⟩
  · intro h role s' hput de hde row hrow hactive hkey
    obtain ⟨c, hc, hle⟩ := h de hde row hrow hactive hkey
    exact hle.trans ((putDirent_role.mp hput).2 c hc)

/-! ### A version that is skipped -/

section Example

/-- An entry that only admins may change, in a directory that all members may write. -/
def adminEntry : Store :=
  { oneDir with dirents := [(exampleEntry 1 .admin).row exampleUser exampleTeam] }

theorem run_adminEntry :
    Store.run {} [.other oneDir, .put exampleUser exampleTeam .admin [exampleEntry 1 .admin]]
      = .ok adminEntry := by
  decide +kernel

/-- The next version of the entry is compared with the row in use. -/
theorem write_role_respected_iff_nextVersion :
    (∃ role s', putDirent exampleUser exampleTeam role [exampleEntry 2 .admin] adminEntry = .ok s') ∧
      ((∀ role s', putDirent exampleUser exampleTeam role [exampleEntry 2 .admin] adminEntry = .ok s' →
        ∀ de ∈ [exampleEntry 2 .admin], ∀ row ∈ adminEntry.dirents, row.active = true →
          row.key = de.key (exampleUser.owner exampleTeam) → role.isAtOrAbove row.writeRole = true) ↔
        RolesCovered exampleUser exampleTeam adminEntry [exampleEntry 2 .admin]) ∧
      RolesCovered exampleUser exampleTeam adminEntry [exampleEntry 2 .admin] := by
  have hput : (putDirent exampleUser exampleTeam .admin [exampleEntry 2 .admin] adminEntry).map
      (fun s => s.dirents.length) = .ok 2 := by
    decide +kernel
  obtain ⟨s', hs', -⟩ := map_eq_ok.mp hput
  have hacc : ∃ role s', putDirent exampleUser exampleTeam role [exampleEntry 2 .admin] adminEntry
      = .ok s' := ⟨.admin, s', hs'⟩
  exact ⟨hacc, write_role_respected_iff hacc, by decide +kernel⟩

/-- A member puts version `3` of an entry that is at version `1` and that only admins may change. -/
theorem skipped_version_bypasses_writeRole :
    kvMkdir exampleUser {} exampleTeam .owner exampleDir none = .ok (oneDir, false) ∧
    Store.run {} [.other oneDir, .put exampleUser exampleTeam .admin [exampleEntry 1 .admin]]
      = .ok adminEntry ∧
    ∃ s' row, putDirent exampleUser exampleTeam (.member 0) [exampleEntry 3 (.member 0)] adminEntry
        = .ok s' ∧
      row ∈ adminEntry.dirents ∧ row.active = true ∧
      row.key = (exampleEntry 3 (.member 0)).key (exampleUser.owner exampleTeam) ∧
      (Role.member 0).isAtOrAbove row.writeRole = false ∧
      { row with active := false } ∈ s'.dirents := by
  refine ⟨kvMkdir_exampleDir, run_adminEntry, ?_⟩
  let row := (exampleEntry 1 .admin).row exampleUser exampleTeam
  have hput : (putDirent exampleUser exampleTeam (.member 0) [exampleEntry 3 (.member 0)]
      adminEntry).map (fun s => decide ({ row with active := false } ∈ s.dirents)) = .ok true := by
    decide +kernel
  obtain ⟨s', hs', hrow⟩ := map_eq_ok.mp hput
  exact ⟨s', row, hs', mem_cons_self, rfl, rfl, rfl, of_decide_eq_true hrow⟩

end Example

end Foks.KvStore
