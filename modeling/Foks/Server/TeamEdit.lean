import Foks.Server.RemovalKeys

/-!
# Team creations, team edits and posted removals

The requests that touch the removal keys of teams (`server/engine/team_admin.go`), and what they
keep. A team edit opens its link against the roster, which gives the additions and the removals;
then it inserts removal keys, records removals and stores boxes for the delegation floor, all in
one transaction. Signatures, names, limits and the other tables are left to one check that may
refuse the request.

The membership table is the roster: a link is opened against the roster that the last link left.
-/

namespace Foks.Server

open Lib Team List Except RemovalKeyRow

/-! ## The requests -/

/-- A team as the server has it: the roster, the generations and the delegation floor. -/
structure TeamEntry where
  roster : RosterCore
  keyGens : KeyGens
  floor : Option RoleKey

/-- A link of a team, with the data that goes along with it. -/
structure EditTeamArg where
  teamID : TeamID
  seqno : Seqno
  time : Time
  doer : MemberID
  changes : List (MemberRole Blob)
  rosterDelegationFloor : Option Role
  -- a name commitment or an index range in the link
  hasOtherMetadata : Bool
  removalKeys : List TeamRemovalBoxData
  removals : List TeamRemovalAndComm
  fills : List TeamDelegateRemovalKeyFill
  -- the outcome of the checks and statements on other tables
  otherChecks : Except CoreError Unit

structure RemovalDB where
  teams : Map TeamID TeamEntry
  rows : List RemovalKeyRow

inductive TeamRequest where
  | createTeam (arg : EditTeamArg)
  | editTeam (arg : EditTeamArg)
  -- `tid` is the team of the caller's admin token
  | postTeamRemoval (tid : TeamID) (rm : TeamRemovalAndComm)

/-- The team that a request is authorized for. -/
def TeamRequest.team : TeamRequest → TeamID
  | .createTeam arg => arg.teamID
  | .editTeam arg => arg.teamID
  | .postTeamRemoval tid _ => tid

variable (m : HostContext) (db : RemovalDB) (arg : EditTeamArg) (pre : Option TeamEntry)

/-- The roster part of `OpenTeamLink`. -/
def openTeamLink : Except CoreError (RosterCore × KeySchedule × KeyGens) := do
  let (changes, _) ← makeChangeSet m.hostID (arg.changes.map fun mr => ⟨mr, arg.seqno, arg.time⟩)
  gameplan changes arg.doer (pre.map TeamEntry.roster) (pre.map TeamEntry.keyGens)
    (some { delegationFloor := pre.bind TeamEntry.floor
            linkHasAdminMetadata := arg.hasOtherMetadata || arg.rosterDelegationFloor.isSome })

/-- The floor after a link: the one it sets, or the one from before. -/
def floorAfter : Except CoreError (Option RoleKey) :=
  match arg.rosterDelegationFloor with
  | some r => rosterDelegationFloorActive (some r)
  | none => return pre.bind TeamEntry.floor

/-- The part of `runEditCommon` after the link is open. -/
def runEditCommon (opened : RosterCore × KeySchedule × KeyGens) : Except CoreError RemovalDB := do
  arg.otherChecks
  let (roster, sched, keyGens) := opened
  let rows ← checkAndInsertRemovalKeys m db.rows arg.seqno arg.teamID sched arg.removalKeys arg.changes
  let rows ← checkAndInsertRemovals m rows arg.teamID sched arg.removals
  let floor ← floorAfter arg pre
  let signerPreRole := pre.bind fun e => (e.roster.members.lookup arg.doer).map MemberInfo.role
  let rows ← processDelegateRemovalKeys m rows arg.teamID roster floor signerPreRole arg.fills
  return { teams := db.teams.insert arg.teamID ⟨roster, keyGens, floor⟩, rows }

def createTeam : Except CoreError RemovalDB := do
  let opened ← openTeamLink m arg none
  refuse (arg.teamID ∈ db.teams) (.insertError "teams")
  runEditCommon m db arg none opened

def editTeam : Except CoreError RemovalDB := do
  refuse arg.teamID.isAdHocTeam (.teamError "ad-hoc teams have fixed membership and cannot be edited")
  match db.teams.lookup arg.teamID with
  | none => throw (.internalError "need a roster or cannot continue")
  | some entry =>
    let opened ← openTeamLink m arg (some entry)
    refuse (entry.roster.hasOwnerLocked ∧ ¬ opened.1.hasOwnerLocked)
      (.teamRosterError "edit would leave team without an owner")
    runEditCommon m db arg (some entry) opened

namespace RemovalDB

def empty : RemovalDB := ⟨∅, []⟩

def handle (m : HostContext) (db : RemovalDB) : TeamRequest → Except CoreError RemovalDB
  | .createTeam arg => createTeam m db arg
  | .editTeam arg => editTeam m db arg
  | .postTeamRemoval tid rm => do
    let rows ← Server.postTeamRemoval m db.rows tid rm
    return { db with rows }

/-- The condition that `PostTeamRemoval` does not check: the row with the commitment of the
request, if there is one, is a row of the caller's team. -/
def NamesOwnRow (m : HostContext) (db : RemovalDB) : TeamRequest → Prop
  | .postTeamRemoval tid rm => ∀ row ∈ db.rows,
      row.shortHostID = m.shortHostID → row.rkComm = rm.comm → row.teamID = tid
  | _ => True

end RemovalDB

/-! ## Open rows -/

variable {m : HostContext} {rows rows' : List RemovalKeyRow} {T : TeamID} {id : MemberID} {c : KeyCommitment}
  {S : MemberID → Prop} {p : RemovalKeyRow → Bool} {f : RemovalKeyRow → RemovalKeyRow} {seqno : Seqno}
  {rks : List TeamRemovalBoxData} {ids : List MemberID} {sched : KeySchedule} {changes : List (MemberRole Blob)}
  {rm r : TeamRemovalAndComm} {B : TeamID} {target : MemberID} {rms : List TeamRemovalAndComm}
    {roster : RosterCore}
  {db db' : RemovalDB} {arg : EditTeamArg} {pre : Option TeamEntry} {keyGens : KeyGens}

/-- The rows of one team. -/
def rowsOf (T : TeamID) (rows : List RemovalKeyRow) : List RemovalKeyRow :=
  rows.filter fun row => row.teamID = T

variable (rows T id)

/-- The member `id` of `T` has a row with commitment `c` and no recorded removal. -/
def Live (c : KeyCommitment) : Prop :=
  ∃ row ∈ rows, row.teamID = T ∧ row.member = id ∧ row.rkRemoval = none ∧ row.rkComm = c

/-- The open rows of a member. -/
def openRows : List RemovalKeyRow :=
  rows.filter fun row => row.teamID = T ∧ row.member = id ∧ row.rkRemoval = none

variable {rows T id}

theorem live_iff_openRows : Live rows T id c ↔ ∃ row ∈ openRows rows T id, row.rkComm = c := by
  simp only [Live, openRows, mem_filter, decide_eq_true_eq, and_assoc]

/-- Exactly the members in `S` have an open row, and each of them has one. -/
structure Fits (rows : List RemovalKeyRow) (T : TeamID) (S : MemberID → Prop) : Prop where
  one : ∀ id, S id → ∃ c, ∀ c', Live rows T id c' ↔ c' = c
  none : ∀ id, ¬ S id → ∀ c, ¬ Live rows T id c

/-- All rows are of this host, and no two have the same commitment. -/
structure TableOk (m : HostContext) (rows : List RemovalKeyRow) : Prop where
  host : ∀ row ∈ rows, row.shortHostID = m.shortHostID
  unique : Unique hashIdx rows

theorem TableOk.eq_of_comm (h : TableOk m rows) {row row' : RemovalKeyRow} (hrow : row ∈ rows)
    (hrow' : row' ∈ rows) (hcomm : row.rkComm = row'.rkComm) : row = row' := by
  refine h.unique.eq_of_key hrow hrow' ?_
  rw [hashIdx, hashIdx, h.host row hrow, h.host row' hrow', hcomm]

/-- A commitment is that of one member. -/
theorem TableOk.member_eq (h : TableOk m rows) {id' : MemberID} (hlive : Live rows T id c)
    (hlive' : Live rows T id' c) : id = id' := by
  obtain ⟨row, hrow, -, rfl, -, hc⟩ := hlive
  obtain ⟨row', hrow', -, rfl, -, hc'⟩ := hlive'
  rw [h.eq_of_comm hrow hrow' (hc.trans hc'.symm)]

/-- A member with one commitment has one open row. -/
theorem TableOk.openRows_eq (h : TableOk m rows) (hc : ∀ c', Live rows T id c' ↔ c' = c) :
    ∃ row, openRows rows T id = [row] := by
  obtain ⟨row, hrow, hcomm⟩ := live_iff_openRows.mp ((hc c).mpr rfl)
  have hnodup : (openRows rows T id).Nodup := h.unique.of_map.filter _
  refine ⟨row, perm_singleton.mp ?_⟩
  refine (perm_ext_iff_of_nodup hnodup (nodup_singleton row)).mpr fun row' => ?_
  rw [mem_singleton]
  constructor
  · intro hrow'
    have hcomm' : row'.rkComm = c := (hc _).mp (live_iff_openRows.mpr ⟨row', hrow', rfl⟩)
    exact h.eq_of_comm (mem_of_mem_filter hrow') (mem_of_mem_filter hrow) (hcomm'.trans hcomm.symm)
  · rintro rfl
    exact hrow

theorem live_congr (h : rowsOf T rows' = rowsOf T rows) : Live rows' T id c ↔ Live rows T id c := by
  have hmem : ∀ row, row.teamID = T → (row ∈ rows' ↔ row ∈ rows) := by
    intro row hT
    have hiff : row ∈ rowsOf T rows' ↔ row ∈ rowsOf T rows := by rw [h]
    simpa [rowsOf, hT] using hiff
  constructor
  · rintro ⟨row, hrow, hT, hrest⟩
    exact ⟨row, (hmem row hT).mp hrow, hT, hrest⟩
  · rintro ⟨row, hrow, hT, hrest⟩
    exact ⟨row, (hmem row hT).mpr hrow, hT, hrest⟩

theorem Fits.congr (h : ∀ id c, Live rows' T id c ↔ Live rows T id c) (hfits : Fits rows T S) :
    Fits rows' T S := by
  refine ⟨fun id hid => ?_, fun id hid c => ?_⟩
  · obtain ⟨c, hc⟩ := hfits.one id hid
    exact ⟨c, fun c' => (h id c').trans (hc c')⟩
  · rw [h id c]
    exact hfits.none id hid c

/-- What a statement for the team `T` does to the table: no two rows share a commitment, and
the rows of the other teams stay as they are. -/
structure Frame (m : HostContext) (T : TeamID) (rows rows' : List RemovalKeyRow) : Prop where
  ok : TableOk m rows'
  others : ∀ B, B ≠ T → rowsOf B rows' = rowsOf B rows

theorem Frame.refl (h : TableOk m rows) : Frame m T rows rows := ⟨h, fun _ _ => rfl⟩

theorem Frame.trans {rows1 rows2 rows3 : List RemovalKeyRow} (h1 : Frame m T rows1 rows2)
    (h2 : Frame m T rows2 rows3) : Frame m T rows1 rows3 :=
  ⟨h2.ok, fun B hB => (h2.others B hB).trans (h1.others B hB)⟩

/-- An update of rows of `T` that touches neither host, team nor commitment. -/
theorem frame_updateRows (h : TableOk m rows) (hp : ∀ row ∈ rows, p row → row.teamID = T)
    (hhost : ∀ row, (f row).shortHostID = row.shortHostID) (hteam : ∀ row, (f row).teamID = row.teamID)
    (hcomm : ∀ row, (f row).rkComm = row.rkComm) :
    Frame m T rows (updateRows p f rows) := by
  refine ⟨⟨fun row hrow => ?_, h.unique.updateRows fun row => ?_⟩, fun B hB => ?_⟩
  · obtain ⟨old, hold, rfl⟩ := mem_updateRows.mp hrow
    split
    · rw [hhost, h.host old hold]
    · exact h.host old hold
  · rw [hashIdx, hashIdx, hhost, hcomm]
  · refine filter_updateRows (fun row hrow hrowp => ?_) fun row => by rw [hteam]
    simpa [hp row hrow hrowp] using hB.symm

/-! ## Insertions -/

/-- What the insertion of removal keys adds: open rows of `T`, one for each of `ids`. -/
structure Inserted (m : HostContext) (T : TeamID)
    (ids : List MemberID) (rows rows' : List RemovalKeyRow) : Prop where
  frame : TableOk m rows → Frame m T rows rows'
  added : ∃ new, rows' = rows ++ new ∧ new.map member = ids ∧
    ∀ row ∈ new, row.teamID = T ∧ row.rkRemoval = none

theorem insertRemovalKey_eq_ok {rk : TeamRemovalBoxData}
    (h : insertRemovalKey m seqno T rows rk = .ok rows') (hid : rk.md.srcRole = id.srcRole.exportRole)
    (hmember : rk.md.member = id.fqe) :
    Inserted m T [id] rows rows' := by
  simp only [insertRemovalKey, bind_eq_ok] at h
  obtain ⟨delegate, -, srk, hsrk, ⟨⟩, -, hins⟩ := h
  rw [hid, importRole_exportRole] at hsrk
  cases hsrk
  obtain ⟨-, hrows⟩ := insertRow_eq_ok.mp hins
  refine ⟨fun hok => ⟨⟨?_, hok.unique.insertRow hins⟩, ?_⟩, _, hrows, ?_, ?_⟩
  · intro row hrow
    rw [hrows] at hrow
    rcases mem_append.mp hrow with hold | hnew
    · exact hok.host row hold
    · rw [mem_singleton.mp hnew]
  · intro B hB
    rw [hrows]
    simp [rowsOf, hB.symm]
  · simp [hmember]
  · simp

theorem Inserted.trans {ids1 ids2 : List MemberID} {rows1 rows2 rows3 : List RemovalKeyRow}
    (h1 : Inserted m T ids1 rows1 rows2) (h2 : Inserted m T ids2 rows2 rows3) :
    Inserted m T (ids1 ++ ids2) rows1 rows3 := by
  obtain ⟨new1, rfl, rfl, hnew1⟩ := h1.added
  obtain ⟨new2, rfl, rfl, hnew2⟩ := h2.added
  refine ⟨fun hok => ?_, new1 ++ new2, append_assoc _ _ _, map_append, ?_⟩
  · have hfirst := h1.frame hok
    exact hfirst.trans (h2.frame hfirst.ok)
  intro row hrow
  rcases mem_append.mp hrow with h | h
  · exact hnew1 row h
  · exact hnew2 row h

theorem inserted_foldlM (hids : List.Forall₂ (fun rk id => rk.md.srcRole = id.srcRole.exportRole ∧
      rk.md.member = id.fqe) rks ids)
    (h : rks.foldlM (insertRemovalKey m seqno T) rows = .ok rows') :
    Inserted m T ids rows rows' := by
  induction hids generalizing rows with
  | nil =>
    cases h
    exact ⟨Frame.refl, [], by simp⟩
  | cons hhead _ ih =>
    rw [foldlM_cons, bind_eq_ok] at h
    obtain ⟨rows1, hfirst, hrest⟩ := h
    exact (insertRemovalKey_eq_ok hfirst hhead.1 hhead.2).trans (ih hrest)

theorem checkAndInsertRemovalKeys_eq_ok (hT : ¬ T.isAdHocTeam)
    (h : checkAndInsertRemovalKeys m rows seqno T sched rks changes = .ok rows') :
    Inserted m T sched.additions rows rows' := by
  simp only [checkAndInsertRemovalKeys, hT, Bool.false_eq_true, if_false, bind_eq_ok, refuse_eq_ok,
    not_not, forM_eq_ok] at h
  obtain ⟨⟨⟩, hlen, cmap, -, ⟨⟩, hchecks, hins⟩ := h
  refine inserted_foldlM (forall₂_iff_zip.mpr ⟨hlen, fun {rk id} hmem => ?_⟩) hins
  obtain ⟨⟨⟩, hmatch, -⟩ := hchecks (rk, id) hmem
  obtain ⟨hrole, -, hmember⟩ := by simpa [matchesMember] using hmatch
  exact ⟨hrole, hmember⟩

theorem checkAndInsertRemovalKeys_adHoc (hT : T.isAdHocTeam)
    (h : checkAndInsertRemovalKeys m rows seqno T sched rks changes = .ok rows') :
    rows' = rows := by
  simp only [checkAndInsertRemovalKeys, hT, if_true, bind_eq_ok] at h
  obtain ⟨⟨⟩, -, hres⟩ := h
  exact (ok.inj hres).symm

theorem Inserted.fits (h : Inserted m T ids rows rows') (hfits : Fits rows T S) (hnodup : ids.Nodup)
    (hnew : ∀ id ∈ ids, ¬ S id) :
    Fits rows' T fun id => S id ∨ id ∈ ids := by
  obtain ⟨new, rfl, rfl, hrows⟩ := h.added
  have hlive : ∀ id c, Live (rows ++ new) T id c ↔
      Live rows T id c ∨ ∃ row ∈ new, row.member = id ∧ row.rkComm = c := by
    intro id c
    constructor
    · rintro ⟨row, hrow, hT, hid, hopen, hc⟩
      rcases mem_append.mp hrow with hold | hadded
      · exact .inl ⟨row, hold, hT, hid, hopen, hc⟩
      · exact .inr ⟨row, hadded, hid, hc⟩
    · rintro (⟨row, hrow, hrest⟩ | ⟨row, hrow, hid, hc⟩)
      · exact ⟨row, mem_append_left _ hrow, hrest⟩
      · exact ⟨row, mem_append_right _ hrow, (hrows row hrow).1, hid, (hrows row hrow).2, hc⟩
  refine ⟨fun id hid => ?_, fun id hid c => ?_⟩
  · by_cases hin : id ∈ new.map member
    · -- a new member: its old rows are closed, and it has one new row
      obtain ⟨row, hrow, rfl⟩ := mem_map.mp hin
      refine ⟨row.rkComm, fun c => ?_⟩
      rw [hlive]
      constructor
      · rintro (hold | ⟨row', hrow', hsame, rfl⟩)
        · exact absurd hold (hfits.none _ (hnew _ hin) c)
        · rw [inj_on_of_nodup_map hnodup hrow' hrow hsame]
      · rintro rfl
        exact .inr ⟨row, hrow, rfl, rfl⟩
    have hS : S id := hid.resolve_right hin
    obtain ⟨c, hc⟩ := hfits.one id hS
    refine ⟨c, fun c' => ?_⟩
    rw [hlive, hc]
    refine or_iff_left ?_
    rintro ⟨row, hrow, rfl, -⟩
    exact hin (mem_map_of_mem hrow)
  rw [hlive]
  rintro (hold | ⟨row, hrow, rfl, -⟩)
  · exact hfits.none id (fun h => hid (.inl h)) c hold
  · exact hid (.inr (mem_map_of_mem hrow))

/-! ## Removals -/

/-- The update of `PostTeamRemoval`. -/
theorem postTeamRemoval_eq_ok (h : postTeamRemoval m rows T rm = .ok rows') :
    rows' = updateRows (fun row => row.shortHostID = m.shortHostID ∧ row.rkComm = rm.comm)
      (fun row => { row with rkRemoval := some rm.rm }) rows := by
  simp only [postTeamRemoval, bind_eq_ok] at h
  obtain ⟨⟨⟩, -, hres⟩ := h
  exact (ok.inj hres).symm

section TableOk

variable (hok : TableOk m rows)

include hok

theorem frame_postTeamRemoval
    (hown : ∀ row ∈ rows, row.shortHostID = m.shortHostID → row.rkComm = rm.comm → row.teamID = T)
    (h : postTeamRemoval m rows T rm = .ok rows') : Frame m T rows rows' := by
  rw [postTeamRemoval_eq_ok h]
  refine frame_updateRows hok (fun row hrow hhit => ?_) (fun _ => rfl) (fun _ => rfl) fun _ => rfl
  obtain ⟨hhost, hcomm⟩ := by simpa using hhit
  exact hown row hrow hhost hcomm

/-- A recorded removal closes the row with its commitment and no other. -/
theorem live_postTeamRemoval (h : postTeamRemoval m rows T rm = .ok rows') :
    Live rows' B id c ↔ Live rows B id c ∧ c ≠ rm.comm := by
  rw [postTeamRemoval_eq_ok h]
  constructor
  · rintro ⟨row, hrow, hB, hid, hopen, hc⟩
    obtain ⟨old, hold, rfl⟩ := mem_updateRows.mp hrow
    by_cases hhit : old.shortHostID = m.shortHostID ∧ old.rkComm = rm.comm
    · simp [hhit] at hopen
    simp only [hhit] at hB hid hopen hc
    refine ⟨⟨old, hold, hB, hid, hopen, hc⟩, ?_⟩
    rintro rfl
    exact hhit ⟨hok.host old hold, hc⟩
  · rintro ⟨⟨row, hrow, hB, hid, hopen, rfl⟩, hne⟩
    have hhit : ¬ (row.shortHostID = m.shortHostID ∧ row.rkComm = rm.comm) := fun h => hne h.2
    exact ⟨row, mem_updateRows.mpr ⟨row, hrow, by simp [hhit]⟩, hB, hid, hopen, rfl⟩

/-- What `CheckAndInsertRemovals` does for one member. -/
theorem checkAndInsertSingleRemoval_eq_ok
    (h : checkAndInsertSingleRemoval m T rows r target = .ok rows') :
    Live rows T target r.comm ∧ Frame m T rows rows' ∧ ∀ id c, Live rows' T id c ↔
        Live rows T id c ∧ c ≠ r.comm := by
  unfold checkAndInsertSingleRemoval at h
  split at h
  · cases h
  · next row hfind =>
    have hrow := mem_of_find?_eq_some hfind
    obtain ⟨-, hT, hcomm, hopen⟩ := by simpa using find?_some hfind
    simp only [bind_eq_ok, refuse_eq_ok, not_not] at h
    obtain ⟨⟨⟩, rfl, hpost⟩ := h
    refine ⟨⟨row, hrow, hT, rfl, hopen, hcomm⟩, ?_, fun id c => live_postTeamRemoval hok hpost⟩
    refine frame_postTeamRemoval hok (fun row' hrow' _ hcomm' => ?_) hpost
    rw [hok.eq_of_comm hrow' hrow (hcomm'.trans hcomm.symm), hT]

theorem Fits.remove {c0 : KeyCommitment} (hfits : Fits rows T S)
    (htarget : Live rows T target c0) (hlive : ∀ id c, Live rows' T id c ↔ Live rows T id c ∧ c ≠ c0) :
    Fits rows' T fun id => S id ∧ id ≠ target := by
  refine ⟨fun id hid => ?_, fun id hid c => ?_⟩
  · obtain ⟨c, hc⟩ := hfits.one id hid.1
    refine ⟨c, fun c' => ?_⟩
    rw [hlive, hc]
    refine and_iff_left_of_imp ?_
    rintro rfl rfl
    exact hid.2 (hok.member_eq ((hc c').mpr rfl) htarget)
  rw [hlive]
  rintro ⟨hold, hne⟩
  by_cases hS : S id
  · obtain ⟨c1, hc1⟩ := hfits.one id hS
    have hsame : id = target := by
      by_contra hdiff
      exact hid ⟨hS, hdiff⟩
    subst hsame
    exact hne (((hc1 c).mp hold).trans ((hc1 c0).mp htarget).symm)
  · exact hfits.none id hS c hold

theorem fits_checkAndInsertRemovals (h : checkAndInsertRemovals m rows T sched rms = .ok rows') :
    Frame m T rows rows' ∧ ∀ S, Fits rows T S → Fits rows' T fun id => S id ∧ id ∉ sched.removals := by
  simp only [checkAndInsertRemovals, bind_eq_ok, refuse_eq_ok, not_not] at h
  obtain ⟨⟨⟩, hlen, hfold⟩ := h
  -- by induction along the two lists, of equal length
  generalize sched.removals = targets at hlen hfold ⊢
  induction rms generalizing targets rows with
  | nil =>
    cases hfold
    obtain rfl : targets = [] := length_eq_zero_iff.mp hlen.symm
    exact ⟨Frame.refl hok, fun S hS => by simpa using hS⟩
  | cons r rms ih =>
    obtain _ | ⟨target, targets⟩ := targets
    · simp at hlen
    rw [zip_cons_cons, foldlM_cons, bind_eq_ok] at hfold
    obtain ⟨rows1, hfirst, hrest⟩ := hfold
    obtain ⟨htarget, hframe, hlive⟩ := checkAndInsertSingleRemoval_eq_ok hok hfirst
    obtain ⟨hframe', hfits⟩ := ih hframe.ok targets (by simpa using hlen) hrest
    refine ⟨hframe.trans hframe', fun S hS => ?_⟩
    have hS' := hfits _ (hS.remove hok htarget hlive)
    simpa [and_assoc] using hS'

theorem checkAndInsertSingleRemoval_ok (hlive : Live rows T target r.comm) :
    ∃ rows', checkAndInsertSingleRemoval m T rows r target = .ok rows' := by
  obtain ⟨row, hrow, hT, rfl, hopen, hcomm⟩ := hlive
  unfold checkAndInsertSingleRemoval
  split
  · next hfind =>
    have hmiss := find?_eq_none.mp hfind row hrow
    exact absurd (hok.host row hrow) (by simpa [hT, hcomm, hopen] using hmiss)
  · next row' hfind =>
    obtain ⟨-, -, hcomm', -⟩ := by simpa using find?_some hfind
    -- the row that is found is the member's: there is one with this commitment
    obtain rfl : row' = row :=
      hok.eq_of_comm (mem_of_find?_eq_some hfind) hrow (hcomm'.trans hcomm.symm)
    have hcount : rows.countP
        (fun row => decide (row.shortHostID = m.shortHostID ∧ row.rkComm = r.comm)) = 1 := by
      refine hok.unique.countP_eq_one hrow fun x hx => ?_
      simp [hashIdx, hok.host row' hrow, hcomm]
    exact ⟨_, bind_eq_ok.mpr ⟨(), by simp, bind_eq_ok.mpr ⟨(), by simpa using hcount, rfl⟩⟩⟩

/-- Members with open rows can be removed, when the removals carry their commitments. -/
theorem checkAndInsertRemovals_ok (hnodup : sched.removals.Nodup)
    (hlive : List.Forall₂ (fun r target => Live rows T target r.comm) rms sched.removals) :
    ∃ rows', checkAndInsertRemovals m rows T sched rms = .ok rows' := by
  suffices hfold : ∃ rows', (rms.zip sched.removals).foldlM
      (fun rows x => checkAndInsertSingleRemoval m T rows x.1 x.2) rows = .ok rows' by
    obtain ⟨rows', hfold⟩ := hfold
    refine ⟨rows', ?_⟩
    simp only [checkAndInsertRemovals, bind_eq_ok, refuse_eq_ok, not_not]
    exact ⟨(), hlive.length_eq, hfold⟩
  generalize sched.removals = targets at hnodup hlive ⊢
  induction rms generalizing targets rows with
  | nil =>
    exact ⟨rows, rfl⟩
  | cons r rms ih =>
    obtain _ | ⟨hhead, htail⟩ := hlive
    next target targets =>
    obtain ⟨hfresh, hnodup⟩ := nodup_cons.mp hnodup
    obtain ⟨rows1, hfirst⟩ := checkAndInsertSingleRemoval_ok hok hhead
    obtain ⟨-, hframe, hlive1⟩ := checkAndInsertSingleRemoval_eq_ok hok hfirst
    -- the rows of the members that are still to be removed stay open
    have htail1 : List.Forall₂ (fun r target => Live rows1 T target r.comm) rms targets := by
      refine forall₂_iff_zip.mpr ⟨htail.length_eq, fun {r' target'} hmem => ?_⟩
      have hlive' := (forall₂_iff_zip.mp htail).2 hmem
      refine (hlive1 target' r'.comm).mpr ⟨hlive', fun hsame => ?_⟩
      obtain rfl : target' = target := hok.member_eq (hsame ▸ hlive') hhead
      exact hfresh (of_mem_zip hmem).2
    obtain ⟨rows', hrest⟩ := ih hframe.ok targets hnodup htail1
    exact ⟨rows', by rw [zip_cons_cons, foldlM_cons, hfirst]; exact hrest⟩

end TableOk

/-! ## Boxes for the delegation floor -/

/-- A statement that keeps the table in order, touches the rows of `T` only and opens or closes
none of them. -/
structure Harmless (m : HostContext) (T : TeamID) (rows rows' : List RemovalKeyRow) : Prop where
  frame : Frame m T rows rows'
  live : ∀ id c, Live rows' T id c ↔ Live rows T id c

theorem live_updateRows (hf : ∀ row, (f row).teamID = row.teamID ∧ (f row).member = row.member ∧
      (f row).rkRemoval = row.rkRemoval ∧ (f row).rkComm = row.rkComm) :
    Live (updateRows p f rows) T id c ↔ Live rows T id c := by
  have hsame : ∀ row, (if p row then f row else row).teamID = row.teamID ∧
      (if p row then f row else row).member = row.member ∧
      (if p row then f row else row).rkRemoval = row.rkRemoval ∧
      (if p row then f row else row).rkComm = row.rkComm := by
    intro row
    split
    · exact hf row
    · exact ⟨rfl, rfl, rfl, rfl⟩
  constructor
  · rintro ⟨row, hrow, hrest⟩
    obtain ⟨old, hold, rfl⟩ := mem_updateRows.mp hrow
    obtain ⟨hT, hid, hopen, hc⟩ := hsame old
    rw [hT, hid, hopen, hc] at hrest
    exact ⟨old, hold, hrest⟩
  · rintro ⟨row, hrow, hrest⟩
    obtain ⟨hT, hid, hopen, hc⟩ := hsame row
    refine ⟨_, mem_updateRows.mpr ⟨row, hrow, rfl⟩, ?_⟩
    rw [hT, hid, hopen, hc]
    exact hrest

theorem harmless_storeDelegateRemovalKeyFill {floor : RoleKey} {fill : TeamDelegateRemovalKeyFill}
    (hok : TableOk m rows) (h : storeDelegateRemovalKeyFill m T floor rows fill = .ok rows') :
    Harmless m T rows rows' := by
  simp only [storeDelegateRemovalKeyFill, bind_eq_ok] at h
  obtain ⟨brk, -, ⟨⟩, -, srk, -, ⟨⟩, -, hres⟩ := h
  cases hres
  refine ⟨?_, fun id c => ?_⟩
  · refine frame_updateRows hok (fun row _ hhit => ?_) (fun _ => rfl) (fun _ => rfl) fun _ => rfl
    obtain ⟨-, hT, -⟩ := by simpa using hhit
    exact hT
  · exact live_updateRows fun _ => ⟨rfl, rfl, rfl, rfl⟩

theorem harmless_processDelegateRemovalKeys {floor signerPreRole : Option RoleKey}
    {fills : List TeamDelegateRemovalKeyFill} (hok : TableOk m rows)
    (h : processDelegateRemovalKeys m rows T roster floor signerPreRole fills = .ok rows') :
    Harmless m T rows rows' := by
  have hrefl : Harmless m T rows rows := ⟨Frame.refl hok, fun _ _ => Iff.rfl⟩
  cases floor with
  | none =>
    simp only [processDelegateRemovalKeys, bind_eq_ok] at h
    obtain ⟨⟨⟩, -, hres⟩ := h
    cases hres
    exact hrefl
  | some floor =>
    simp only [processDelegateRemovalKeys, bind_eq_ok] at h
    obtain ⟨⟨⟩, -, rows1, hfold, ⟨⟩, -, hres⟩ := h
    cases hres
    refine foldlM_invariant (P := fun r => Harmless m T rows r) ?_ hfold hrefl
    intro fill _ s s' hstep hs
    have hnext := harmless_storeDelegateRemovalKeyFill hs.frame.ok hstep
    exact ⟨hs.frame.trans hnext.frame, fun id c => (hnext.live id c).trans (hs.live id c)⟩

/-! ## One request -/

/-- What a link does to the table: the rows of the other teams stay, and the open rows of a
named team follow its roster. -/
theorem runEditCommon_eq_ok (hok : TableOk m db.rows)
    (h : runEditCommon m db arg pre (roster, sched, keyGens) = .ok db') :
    Frame m arg.teamID db.rows db'.rows ∧
    (∃ floor, db'.teams = db.teams.insert arg.teamID ⟨roster, keyGens, floor⟩) ∧
    ∀ S, ¬ arg.teamID.isAdHocTeam → sched.additions.Nodup → (∀ id ∈ sched.additions, ¬ S id) →
      Fits db.rows arg.teamID S →
      Fits db'.rows arg.teamID fun id => (S id ∨ id ∈ sched.additions) ∧ id ∉ sched.removals := by
  simp only [runEditCommon, bind_eq_ok] at h
  obtain ⟨⟨⟩, -, rows1, hins, rows2, hrem, floor, -, rows3, hdel, hres⟩ := h
  cases hres
  have hframe1 : Frame m arg.teamID db.rows rows1 := by
    by_cases hT : arg.teamID.isAdHocTeam
    · rw [checkAndInsertRemovalKeys_adHoc hT hins]
      exact Frame.refl hok
    · exact (checkAndInsertRemovalKeys_eq_ok hT hins).frame hok
  obtain ⟨hframe2, hfits2⟩ := fits_checkAndInsertRemovals hframe1.ok hrem
  have hharmless := harmless_processDelegateRemovalKeys hframe2.ok hdel
  refine ⟨(hframe1.trans hframe2).trans hharmless.frame, ⟨floor, rfl⟩, ?_⟩
  intro S hT hnodup hnew hS
  have hS1 := (checkAndInsertRemovalKeys_eq_ok hT hins).fits hS hnodup hnew
  exact (hfits2 _ hS1).congr hharmless.live

/-- The additions and the removals of an opened link, and the roster that it leaves. -/
theorem openTeamLink_eq_ok (h : openTeamLink m arg pre = .ok (roster, sched, keyGens)) :
    let rPre := (pre.map TeamEntry.roster).getD .newRosterCore
    sched.additions.Nodup ∧ (∀ id ∈ sched.additions, id ∉ rPre.members) ∧ ∀ id, id ∈ roster.members ↔
        (id ∈ rPre.members ∨ id ∈ sched.additions) ∧ id ∉ sched.removals := by
  obtain ⟨changes, -, hplan⟩ := bind_eq_ok.mp h
  exact gameplan_members rfl hplan

/-! ## Runs -/

/-- A request is a bare `PostTeamRemoval` for the team `B`. -/
def TeamRequest.IsPostFor (B : TeamID) : TeamRequest → Prop
  | .postTeamRemoval tid _ => tid = B
  | _ => False

/-- The table is in order, a team that does not exist has no rows, and the open rows of an
existing named team are those of its members. -/
structure Serviceable (m : HostContext) (B : TeamID) (db : RemovalDB) : Prop where
  ok : TableOk m db.rows
  absent : db.teams.lookup B = none → Fits db.rows B fun _ => False
  fits : ∀ entry, db.teams.lookup B = some entry → Fits db.rows B (· ∈ entry.roster.members)

theorem fits_of_frame (h : Frame m T rows rows') (hB : B ≠ T) (hfits : Fits rows B S) : Fits rows' B S :=
  hfits.congr fun _ _ => live_congr (h.others B hB)

/-- A link keeps the rows of every named team in step with the roster. -/
theorem serviceable_runEditCommon {opened : RosterCore × KeySchedule × KeyGens} (hB : ¬ B.isAdHocTeam)
    (hdb : Serviceable m B db) (hpre : db.teams.lookup arg.teamID = pre)
    (hopen : openTeamLink m arg pre = .ok opened) (h : runEditCommon m db arg pre opened = .ok db') :
    Serviceable m B db' := by
  obtain ⟨roster, sched, keyGens⟩ := opened
  obtain ⟨hframe, ⟨floor, hteams⟩, hfits⟩ := runEditCommon_eq_ok hdb.ok h
  obtain ⟨hnodup, hnew, hroster⟩ := openTeamLink_eq_ok hopen
  by_cases hT : B = arg.teamID
  · subst hT
    have hlookup : db'.teams.lookup arg.teamID = some ⟨roster, keyGens, floor⟩ := by
      rw [hteams]
      exact Finmap.lookup_insert _
    have hbefore : Fits db.rows arg.teamID (· ∈ ((pre.map TeamEntry.roster).getD .newRosterCore).members) := by
      cases pre with
      | none =>
        have hempty : (fun _ => False) = (· ∈ RosterCore.newRosterCore.members) :=
          funext fun id => propext ⟨False.elim, fun hmem => Finmap.notMem_empty hmem⟩
        exact hempty ▸ hdb.absent hpre
      | some entry => exact hdb.fits entry hpre
    refine ⟨hframe.ok, fun hnone => ?_, fun entry hentry => ?_⟩
    · rw [hlookup] at hnone
      cases hnone
    rw [hlookup] at hentry
    cases hentry
    have hafter := hfits _ hB hnodup hnew hbefore
    have hsets : (· ∈ roster.members) = fun id =>
        (id ∈ ((pre.map TeamEntry.roster).getD .newRosterCore).members ∨ id ∈ sched.additions) ∧
          id ∉ sched.removals := funext fun id => propext (hroster id)
    rw [hsets]
    exact hafter
  · have hlookup : db'.teams.lookup B = db.teams.lookup B := by
      rw [hteams]
      exact Finmap.lookup_insert_of_ne _ hT
    refine ⟨hframe.ok, fun hnone => ?_, fun entry hentry => ?_⟩
    · exact fits_of_frame hframe hT (hdb.absent (hlookup ▸ hnone))
    · exact fits_of_frame hframe hT (hdb.fits entry (hlookup ▸ hentry))

variable {e : TeamRequest}

open RemovalDB

theorem serviceable_handle (hB : ¬ B.isAdHocTeam) (hcond : RemovalDB.NamesOwnRow m db e)
    (hpost : ¬ e.IsPostFor B) (hdb : Serviceable m B db) (h : handle m db e = .ok db') :
    Serviceable m B db' := by
  cases e with
  | createTeam arg =>
    simp only [handle, createTeam, bind_eq_ok, refuse_eq_ok] at h
    obtain ⟨opened, hopen, ⟨⟩, hfresh, hrun⟩ := h
    exact serviceable_runEditCommon hB hdb (Finmap.lookup_eq_none.mpr hfresh) hopen hrun
  | editTeam arg =>
    simp only [handle, editTeam, bind_eq_ok] at h
    obtain ⟨⟨⟩, -, h⟩ := h
    split at h
    · cases h
    · next entry hentry =>
      simp only [bind_eq_ok] at h
      obtain ⟨opened, hopen, ⟨⟩, -, hrun⟩ := h
      exact serviceable_runEditCommon hB hdb hentry hopen hrun
  | postTeamRemoval tid rm =>
    obtain ⟨rows, hrows, hres⟩ := bind_eq_ok.mp h
    cases hres
    have hframe := frame_postTeamRemoval hdb.ok hcond hrows
    have hne : B ≠ tid := fun heq => hpost heq.symm
    exact ⟨hframe.ok, fun hnone => fits_of_frame hframe hne (hdb.absent hnone),
      fun entry hentry => fits_of_frame hframe hne (hdb.fits entry hentry)⟩

/-- One request changes the rows of its own team only. -/
theorem frame_handle (hcond : RemovalDB.NamesOwnRow m db e)
    (hok : TableOk m db.rows) (h : handle m db e = .ok db') :
    Frame m e.team db.rows db'.rows := by
  cases e with
  | createTeam arg =>
    simp only [handle, createTeam, bind_eq_ok] at h
    obtain ⟨⟨roster, sched, keyGens⟩, -, ⟨⟩, -, hrun⟩ := h
    exact (runEditCommon_eq_ok hok hrun).1
  | editTeam arg =>
    simp only [handle, editTeam, bind_eq_ok] at h
    obtain ⟨⟨⟩, -, h⟩ := h
    split at h
    · cases h
    simp only [bind_eq_ok] at h
    obtain ⟨⟨roster, sched, keyGens⟩, -, ⟨⟩, -, hrun⟩ := h
    exact (runEditCommon_eq_ok hok hrun).1
  | postTeamRemoval tid rm =>
    obtain ⟨rows, hrows, hres⟩ := bind_eq_ok.mp h
    cases hres
    exact frame_postTeamRemoval hok hcond hrows

/-- **Removals stay inside the team.** In every run whose posted removals name rows of their own
team, such a request changes the rows of its own team only; and in a named team whose own admins
have posted no bare removal, every member has exactly one open row, and a removal of members that
carries their commitments is not refused. -/
theorem removals_stay_inside {requests : List TeamRequest}
    (hrun : Along (handle m) (RemovalDB.NamesOwnRow m) .empty requests) :
    let db := serve (handle m) .empty requests
    (∀ e, RemovalDB.NamesOwnRow m db e → ∀ B, B ≠ e.team →
      rowsOf B (attempt (handle m) db e).rows = rowsOf B db.rows) ∧
    ∀ B entry, ¬ B.isAdHocTeam → (∀ e ∈ requests, ¬ e.IsPostFor B) →
      db.teams.lookup B = some entry →
      (∀ id ∈ entry.roster.members, ∃ row, openRows db.rows B id = [row]) ∧
      ∀ sched rms, sched.removals.Nodup →
        List.Forall₂ (fun r target => ∃ row ∈ openRows db.rows B target, row.rkComm = r.comm) rms
          sched.removals →
        ∃ rows', checkAndInsertRemovals m db.rows B sched rms = .ok rows' := by
  intro db
  have hok : TableOk m db.rows := by
    refine serve_invariant (P := fun db => TableOk m db.rows) (fun s e s' hcond hs h => ?_) hrun ?_
    · exact (frame_handle hcond hs h).ok
    · exact ⟨fun row hrow => absurd hrow not_mem_nil, nodup_nil⟩
  refine ⟨fun e hcond B hB => ?_, fun B entry hnamed hposts hentry => ?_⟩
  · refine attempt_invariant (P := fun db' : RemovalDB => rowsOf B db'.rows = rowsOf B db.rows) ?_ rfl
    exact fun db' h => (frame_handle hcond hok h).others B hB
  have hserviceable : Serviceable m B db := by
    refine serve_invariant (fun s e s' hcond hs h => ?_) (hrun.and hposts) ?_
    · exact serviceable_handle hnamed hcond.1 hcond.2 hs h
    refine ⟨⟨fun row hrow => absurd hrow not_mem_nil, nodup_nil⟩, fun _ => ?_, ?_⟩
    · exact ⟨fun _ h => h.elim, fun _ _ _ ⟨_, hrow, _⟩ => absurd hrow not_mem_nil⟩
    · exact fun entry hentry => absurd hentry (by simp [empty])
  refine ⟨fun id hid => ?_, fun sched rms hnodup hopen => ?_⟩
  · obtain ⟨c, hc⟩ := (hserviceable.fits entry hentry).one id hid
    exact hok.openRows_eq hc
  · exact checkAndInsertRemovals_ok hok hnodup (hopen.imp fun r target hrow => live_iff_openRows.mpr hrow)

/-! ## Two teams -/

section Example

def home : HostContext := ⟨1, 1⟩

/-- A named team. -/
def namedTeam (n : ℕ) : TeamID := 3 * 256 ^ 32 + n

/-- The user with number `n`. -/
def userMember (n : ℕ) : MemberID := ⟨⟨1, (256 ^ 32 + n) * 256⟩, .ownerRole⟩

/-- A key that the user with number `n` signs with. -/
def userKey (n : ℕ) : EntityID := .ofNat 33 (14 * 256 ^ 32 + n)

/-- The user with number `n` joins with the commitment `n`. -/
def joins (n : ℕ) (role : Role) : MemberRole Blob :=
  ⟨role, ⟨.ofNat 33 (256 ^ 32 + n), none⟩, .owner, .team ⟨userKey n, 0, 1, some n, none⟩⟩

def removalKeyFor (team : TeamID) (n : ℕ) : TeamRemovalBoxData :=
  ⟨⟨⟨team, 1⟩, (userMember n).fqe, .owner⟩, n, 0, 0, none⟩

/-- The first of the users `ns` creates a team, and the others join as admins. -/
def createWith (team : TeamID) (n : ℕ) (ns : List ℕ) : TeamRequest :=
  .createTeam
    { teamID := team, seqno := 1, time := 0, doer := userMember n
      changes := joins n .owner :: ns.map (joins · .admin)
      rosterDelegationFloor := none, hasOtherMetadata := false
      removalKeys := (n :: ns).map (removalKeyFor team)
      removals := [], fills := [], otherChecks := .ok () }

/-- User 1 has a team, and users 2 and 3 have another one. -/
def twoTeams : List TeamRequest :=
  [createWith (namedTeam 1) 1 [], createWith (namedTeam 2) 2 [3]]

/-- An admin of the first team posts a removal with the commitment of user 3 in the second: the
row of user 3 is closed, and the second team cannot remove user 3 any more. -/
theorem not_removals_stay_inside :
    let db := serve (handle home) .empty twoTeams
    let db' := attempt (handle home) db (.postTeamRemoval (namedTeam 1) ⟨0, 3⟩)
    rowsOf (namedTeam 2) db'.rows ≠ rowsOf (namedTeam 2) db.rows ∧
      (∃ entry, db'.teams.lookup (namedTeam 2) = some entry ∧
        userMember 3 ∈ entry.roster.members.keys) ∧
      openRows db'.rows (namedTeam 2) (userMember 3) = [] ∧
      checkAndInsertRemovals home db'.rows (namedTeam 2) ⟨[], [], [userMember 3]⟩ [⟨0, 3⟩] =
        .error (.keyNotFoundError "team removal key") := by
  intro db db'
  have hentry : (db'.teams.lookup (namedTeam 2)).any fun entry =>
      userMember 3 ∈ entry.roster.members.keys := by
    decide +kernel
  refine ⟨by decide +kernel, ?_, by decide +kernel, by decide +kernel⟩
  obtain ⟨entry, hlookup, hmem⟩ := (Option.any_eq_true _ _).mp hentry
  exact ⟨entry, hlookup, by simpa using hmem⟩

/-- User 1 has posted the removal of its own row. -/
theorem removals_stay_inside_twoTeams :
    let db := serve (handle home) .empty (twoTeams ++ [.postTeamRemoval (namedTeam 1) ⟨0, 1⟩])
    openRows db.rows (namedTeam 1) (userMember 1) = [] ∧
      (openRows db.rows (namedTeam 2) (userMember 3)).length = 1 ∧
      ∃ rows', checkAndInsertRemovals home db.rows (namedTeam 2) ⟨[], [], [userMember 3]⟩
        [⟨0, 3⟩] = .ok rows' := by
  intro db
  have hentry : (db.teams.lookup (namedTeam 2)).any fun entry =>
      userMember 3 ∈ entry.roster.members.keys := by
    decide +kernel
  obtain ⟨entry, hlookup, hmem⟩ := (Option.any_eq_true _ _).mp hentry
  have hown : RemovalDB.NamesOwnRow home (serve (handle home) .empty twoTeams)
      (.postTeamRemoval (namedTeam 1) ⟨0, 1⟩) := by
    unfold RemovalDB.NamesOwnRow
    decide +kernel
  have hrun : Along (handle home) (RemovalDB.NamesOwnRow home) .empty
      (twoTeams ++ [.postTeamRemoval (namedTeam 1) ⟨0, 1⟩]) :=
    ⟨trivial, trivial, hown, trivial⟩
  have hmain := (removals_stay_inside hrun).2 (namedTeam 2) entry (by decide +kernel)
    (by simp [twoTeams, createWith, TeamRequest.IsPostFor, namedTeam]) hlookup
  obtain ⟨row, hrow⟩ := hmain.1 (userMember 3) (Finmap.mem_keys.mp (by simpa using hmem))
  refine ⟨by decide +kernel, by rw [hrow]; rfl, hmain.2 _ _ (nodup_singleton _) ?_⟩
  refine .cons ⟨row, ?_, ?_⟩ .nil
  · rw [hrow]
    exact mem_singleton_self row
  have hcomm : (openRows db.rows (namedTeam 2) (userMember 3)).all fun row => row.rkComm = 3 := by
    decide +kernel
  rw [hrow] at hcomm
  simpa using hcomm

end Example

end Foks.Server
