import Foks.Server.TeamEdit

/-!
# Index ranges of teams

A team that is a member of another team could have that team among its own members, and keys would go
around in circles. To rule that out every team has a range of numbers (`server/shared/team.go`). A team is
admitted as a member only while its range is below that of the team it joins, and a team may narrow its
range but never move it.

The range of a member is in the keys that the link brings along; the server compares it with its own
copy of the range of a local team, and then with the range of the team, both in the transaction of the
link.
-/

namespace Foks.Server

open Lib Team List Finmap RationalRange

/-! ## The table of ranges -/

/-- `RationalRange.Validate` -/
def validateRange (r : RationalRange) : Except CoreError Unit := do
  refuse (r.low.isValid = false) (.dataError "bad rational")
  refuse (r.high.isValid = false) (.dataError "bad rational")
  refuse (r.low.cmp r.high > 0) .badRangeError

/-- A row of `team_index_ranges`. -/
structure IndexRangeRow where
  teamID : TeamID
  seqno : Seqno
  range : RationalRange
  deriving DecidableEq

def IndexRangeRow.pkey (r : IndexRangeRow) : TeamID × Seqno := (r.teamID, r.seqno)

variable (rows : List IndexRangeRow) (teamID : TeamID)

/-- `ORDER BY seqno DESC LIMIT 1` -/
def latestRow : Option IndexRangeRow :=
  (rows.filter (·.teamID = teamID)).argmax IndexRangeRow.seqno

def getLatestTeamIndexRange : Except CoreError (Option (RationalRange × Seqno)) :=
  match latestRow rows teamID with
  | none => .ok none
  | some row => do
    validateRange row.range
    return some (row.range, row.seqno)

/-- The part of `InsertTeamIndexRange` that compares with the range before. -/
def checkPreviousRange (prev : Option (RationalRange × Seqno)) (seqno : Seqno) (ir : RationalRange) :
    Except CoreError Unit :=
  match prev with
  | none => refuse (seqno ≠ 1) (.badServerDataError "no previous index range")
  | some (prev, prevSeqno) => do
    refuse (seqno = 1) (.badServerDataError "previous index range exists")
    refuse (prevSeqno ≥ seqno) (.badServerDataError "seqno not greater than previous")
    refuse (ir.eq prev) (.teamError "index range is the same as the previous")
    refuse (prev.includes ir = false) (.teamError "previous range does not include new range")

def insertTeamIndexRange (seqno : Seqno) (ir : RationalRange) : Except CoreError (List IndexRangeRow) := do
  let prev ← getLatestTeamIndexRange rows teamID
  checkPreviousRange prev seqno ir
  insertRow IndexRangeRow.pkey (.uniqueViolation "team_index_ranges_pkey") ⟨teamID, seqno, ir⟩ rows

/-! ## The checks -/

variable (changes : List (MemberRole Blob)) (arg : IndexedEditArg)
  (f : MemberRole Blob → Option RationalRange → Except CoreError Unit)

/-- One turn of `forAllTeamChanges`; of the keys, the check reads the index range. -/
def forTeamChange (chng : MemberRole Blob) : Except CoreError Unit :=
  if chng.dstRole = .none then .ok ()
  else match chng.member.keys with
    | .team tk => f chng tk.tir
    | _ => .error (.linkError "bad member keys type")

def forAllTeamChanges : Except CoreError Unit :=
  forM changes (forTeamChange f)

/-- The range of the member keys is the one that the server has; without a stored range, the comparison
dereferences nil. -/
def matchTeamIndexRange : Option (RationalRange × Seqno) → Option RationalRange → Except CoreError Unit
  | _, none => .error (.linkError "no team index range for added team")
  | none, some _ => .error nilPointer
  | some (tir, _), some tmp =>
    refuse (tir.eq tmp = false) (.teamRaceError "bad team index range for member")

/-- `EntityType.IsTeam`, of the type of an entity ID. -/
def isTeam (e : EntityID) : Bool := e.typ.any (·.isTeam)

def checkTeamIndexRange (chng : MemberRole Blob) (tir : Option RationalRange) : Except CoreError Unit :=
  if isTeam chng.member.id.entity then do
    let tid ← chng.member.id.entity.toTeamID
    let latest ← getLatestTeamIndexRange rows tid
    matchTeamIndexRange latest tir
  else .ok ()

/-- The part of `CheckLocalMembers` that is about index ranges. -/
def checkLocalMembers : Except CoreError Unit :=
  forAllTeamChanges changes fun chng tir =>
    if chng.member.id.host.isSome then .ok () else checkTeamIndexRange rows chng tir

/-- The range of a member that is a team is below the range of the team. -/
def checkAgainstRange : Option (RationalRange × Seqno) → Option RationalRange → Except CoreError Unit
  | _, none => .error (.teamError "missing team index range in addition")
  | none, some _ => .error nilPointer
  | some (high, _), some tmp => refuse (tmp.lessThan high = false) (.teamCycleError tmp high)

def checkMemberIndexRangesAgainstTeam : Except CoreError Unit := do
  let high ← getLatestTeamIndexRange rows teamID
  forAllTeamChanges changes fun chng tir =>
    if isTeam chng.member.id.entity then checkAgainstRange high tir else .ok ()

/-- A range that has to be there. -/
def needRange : Option (RationalRange × Seqno) → Except CoreError RationalRange
  | none => .error (.teamError "no index range")
  | some (r, _) => .ok r

/-- The check when a local team asks to join another one. -/
def checkTeamIndexRanges (joiner joinee : TeamID) : Except CoreError Unit := do
  let left ← getLatestTeamIndexRange rows joiner
  let left ← needRange left
  let right ← getLatestTeamIndexRange rows joinee
  let right ← needRange right
  refuse (left.lessThan right = false) (.teamCycleError left right)

/-! ## The requests -/

/-- The teams of a host with their removal keys and their index ranges. -/
structure TeamDB extends RemovalDB where
  ranges : List IndexRangeRow

/-- A link of a team with its index range. -/
structure IndexedEditArg extends EditTeamArg where
  range : Option RationalRange

/-- The link for the roster: an index range is metadata. -/
def IndexedEditArg.link : EditTeamArg :=
  { arg.toEditTeamArg with hasOtherMetadata := arg.hasOtherMetadata || arg.range.isSome }

inductive IndexedRequest where
  | createTeam (arg : IndexedEditArg)
  | editTeam (arg : IndexedEditArg)
  | postTeamRemoval (tid : TeamID) (rm : TeamRemovalAndComm)
  -- a local team accepts the invitation of another one; a later edit makes it a member
  | acceptInviteLocal (joiner joinee : TeamID)

/-- The part of `OpenTeamLink` before the roster. -/
def checkAdHoc : Except CoreError Unit :=
  if arg.teamID.isAdHocTeam then checkAdHocMembersAreLocalUsers arg.changes else .ok ()

/-- `insertTeamIndexRange` of a team editor: the index range of the link, if it has one. -/
def insertLinkRange : Except CoreError (List IndexRangeRow) :=
  match arg.range with
  | none => .ok rows
  | some rng => insertTeamIndexRange rows arg.teamID arg.seqno rng

namespace TeamDB

variable (m : HostContext) (db : TeamDB) (arg : IndexedEditArg)

/-- `runEditCommon` with the index ranges. -/
def runEdit (pre : Option TeamEntry) (opened : RosterCore × KeySchedule × KeyGens) :
    Except CoreError TeamDB := do
  checkLocalMembers db.ranges arg.changes
  let ranges ← insertLinkRange db.ranges arg
  checkMemberIndexRangesAgainstTeam ranges arg.teamID arg.changes
  let removals ← runEditCommon m db.toRemovalDB arg.link pre opened
  return ⟨removals, ranges⟩

def createTeam : Except CoreError TeamDB := do
  checkAdHoc arg
  let opened ← openTeamLink m arg.link none
  refuse arg.range.isNone (.linkError "third metadata entry must be a team index range")
  refuse (arg.seqno ≠ 1) (.linkError "need seqno=0 for eldest chainlink")
  refuse (arg.teamID ∈ db.teams) (.insertError "teams")
  runEdit m db arg none opened

def editTeam : Except CoreError TeamDB := do
  refuse arg.teamID.isAdHocTeam (.teamError "ad-hoc teams have fixed membership and cannot be edited")
  match db.teams.lookup arg.teamID with
  | none => .error (.internalError "need a roster or cannot continue")
  | some entry =>
    let opened ← openTeamLink m arg.link (some entry)
    refuse (entry.roster.hasOwnerLocked ∧ ¬ opened.1.hasOwnerLocked)
      (.teamRosterError "edit would leave team without an owner")
    runEdit m db arg (some entry) opened

def empty : TeamDB := ⟨.empty, []⟩

def handle (m : HostContext) (db : TeamDB) : IndexedRequest → Except CoreError TeamDB
  | .createTeam arg => db.createTeam m arg
  | .editTeam arg => db.editTeam m arg
  | .postTeamRemoval tid rm => do
    let removals ← db.toRemovalDB.handle m (.postTeamRemoval tid rm)
    return ⟨removals, db.ranges⟩
  | .acceptInviteLocal joiner joinee => do
    checkTeamIndexRanges db.ranges joiner joinee
    return db

end TeamDB

/-- The local team `A` is a member of the local team `B`, with any source role. -/
def MemberOf (m : HostContext) (db : TeamDB) (A B : TeamID) : Prop :=
  ∃ entry, db.teams.lookup B = some entry ∧ ∃ id ∈ entry.roster.members,
    id.fqe.host = m.hostID ∧ ∃ e, EntityID.unfix id.fqe.entity = .ok e ∧ e.toTeamID = .ok A

/-! ## Stored ranges -/

variable {rows rows' : List IndexRangeRow} {T A : TeamID} {r ir : RationalRange} {n seqno : Seqno}
  {row : IndexRangeRow} {changes : List (MemberRole Blob)} {chng : MemberRole Blob} {pre : Option TeamEntry}
  {opened : RosterCore × KeySchedule × KeyGens} {arg : EditTeamArg} {m : HostContext} {db db' : TeamDB}

theorem validateRange_eq_ok (h : validateRange r = .ok ()) : ∃ i, r.span = some i := by
  simp only [validateRange, bind_eq_ok, refuse_eq_ok] at h
  obtain ⟨⟨⟩, -, ⟨⟩, -, hcmp⟩ := h
  exact ⟨⟨(r.low.places, r.high.places), Rational.cmp_nonpos_iff.mp (not_lt.mp hcmp)⟩,
    span_eq_some.mpr ⟨rfl, rfl⟩⟩

theorem getLatestTeamIndexRange_eq_none (h : getLatestTeamIndexRange rows T = .ok none) :
    latestRow rows T = none := by
  unfold getLatestTeamIndexRange at h
  split at h
  · next hrow => exact hrow
  · obtain ⟨⟨⟩, -, hres⟩ := bind_eq_ok.mp h
    cases hres

theorem getLatestTeamIndexRange_eq_some (h : getLatestTeamIndexRange rows T = .ok (some (r, n))) :
    ∃ row, latestRow rows T = some row ∧ row.range = r ∧ row.seqno = n ∧ validateRange r = .ok () := by
  unfold getLatestTeamIndexRange at h
  split at h
  · cases h
  · next row hrow =>
    obtain ⟨⟨⟩, hvalid, hres⟩ := bind_eq_ok.mp h
    cases hres
    exact ⟨row, hrow, rfl, rfl, hvalid⟩

/-- The range of a team as an interval; a team without a valid range has none. -/
noncomputable def spanOf (rows : List IndexRangeRow) (T : TeamID) :
    Option (NonemptyInterval (WithTop (Colex (ℤ → ℕ)))) :=
  match getLatestTeamIndexRange rows T with
  | .ok (some (r, _)) => r.span
  | _ => none

theorem spanOf_eq_some {i : NonemptyInterval (WithTop (Colex (ℤ → ℕ)))} : spanOf rows T = some i ↔
      ∃ r n, getLatestTeamIndexRange rows T = .ok (some (r, n)) ∧ r.span = some i := by
  unfold spanOf
  split
  · next r n hlatest => simp [hlatest]
  · next hother =>
    constructor
    · intro hnone
      cases hnone
    · rintro ⟨r, n, hlatest, -⟩
      exact absurd hlatest (hother r n)

/-- A range that the server has read is an interval. -/
theorem exists_spanOf (h : getLatestTeamIndexRange rows T = .ok (some (r, n))) :
    ∃ i, spanOf rows T = some i ∧ r.span = some i := by
  obtain ⟨row, -, -, -, hvalid⟩ := getLatestTeamIndexRange_eq_some h
  obtain ⟨i, hi⟩ := validateRange_eq_ok hvalid
  exact ⟨i, spanOf_eq_some.mpr ⟨r, n, h, hi⟩, hi⟩

/-- A row with a greater sequence number is the latest one. -/
theorem latestRow_concat (h : ∀ prev, latestRow rows row.teamID = some prev → prev.seqno < row.seqno) :
    latestRow (rows ++ [row]) row.teamID = some row := by
  have hfilter : (rows ++ [row]).filter (fun r => decide (r.teamID = row.teamID)) =
      rows.filter (fun r => decide (r.teamID = row.teamID)) ++ [row] := by
    simp
  rw [latestRow, hfilter, argmax_concat]
  cases hprev : latestRow rows row.teamID with
  | none =>
    rw [latestRow] at hprev
    simp [hprev]
  | some prev =>
    have hlt := h prev hprev
    rw [latestRow] at hprev
    simp [hprev, hlt]

/-- What an insertion has checked: the team has no range yet, or the new one is inside the one before and
has a greater sequence number. -/
theorem insertTeamIndexRange_eq_ok (h : insertTeamIndexRange rows T seqno ir = .ok rows') :
    rows' = rows ++ [⟨T, seqno, ir⟩] ∧ (latestRow rows T = none ∨
      ∃ prev n, getLatestTeamIndexRange rows T = .ok (some (prev, n)) ∧ n < seqno ∧
          prev.includes ir = true) := by
  simp only [insertTeamIndexRange, bind_eq_ok] at h
  obtain ⟨prev, hprev, ⟨⟩, hcheck, hins⟩ := h
  refine ⟨(insertRow_eq_ok.mp hins).2, ?_⟩
  cases prev with
  | none => exact Or.inl (getLatestTeamIndexRange_eq_none hprev)
  | some prev =>
    simp only [checkPreviousRange, bind_eq_ok, refuse_eq_ok, not_le, Bool.not_eq_false] at hcheck
    obtain ⟨⟨⟩, -, ⟨⟩, hseqno, ⟨⟩, -, hincludes⟩ := hcheck
    exact Or.inr ⟨prev.1, prev.2, hprev, hseqno, hincludes⟩

/-- An insertion narrows the range of one team and leaves those of the others. -/
theorem narrows_insertTeamIndexRange
    {latest : Option (RationalRange × Seqno)} (h : insertTeamIndexRange rows T seqno ir = .ok rows')
    (hread : getLatestTeamIndexRange rows' T = .ok latest) :
    Narrows (spanOf rows) (spanOf rows') := by
  obtain ⟨rfl, hprev⟩ := insertTeamIndexRange_eq_ok h
  intro B i hi
  by_cases hB : T = B
  · subst hB
    obtain ⟨r, n, hlatest, hspan⟩ := spanOf_eq_some.mp hi
    obtain ⟨row, hrow, rfl, rfl, -⟩ := getLatestTeamIndexRange_eq_some hlatest
    rcases hprev with hnone | ⟨prev, n, hprev, hlt, hincludes⟩
    · cases hrow.symm.trans hnone
    -- the new row is the latest one, and it was read back, so its range is an interval
    cases hlatest.symm.trans hprev
    have hnew : latestRow (rows ++ [⟨T, seqno, ir⟩]) T = some ⟨T, seqno, ir⟩ := by
      refine latestRow_concat fun prev hprev => ?_
      cases hrow.symm.trans hprev
      exact hlt
    cases latest with
    | none => cases hnew.symm.trans (getLatestTeamIndexRange_eq_none hread)
    | some latest =>
      obtain ⟨row', hrow', hrange, -, -⟩ := getLatestTeamIndexRange_eq_some hread
      obtain ⟨i', hi', hspan'⟩ := exists_spanOf hread
      cases hnew.symm.trans hrow'
      rw [← hrange] at hspan'
      exact ⟨i', (includes_iff_le hspan hspan').mp hincludes, hi'⟩
  refine ⟨i, le_rfl, ?_⟩
  have hsame : latestRow (rows ++ [⟨T, seqno, ir⟩]) B = latestRow rows B := by
    simp [latestRow, hB]
  rw [← hi, spanOf, spanOf, getLatestTeamIndexRange, getLatestTeamIndexRange, hsame]

/-! ## Checked members -/

theorem forAllTeamChanges_eq_ok {f : MemberRole Blob → Option RationalRange → Except CoreError Unit}
    (h : forAllTeamChanges changes f = .ok ()) (hchng : chng ∈ changes)
    (hrole : chng.dstRole ≠ .none) :
    ∃ tk, chng.member.keys = .team tk ∧ f chng tk.tir = .ok () := by
  have hturn := forM_eq_ok.mp h chng hchng
  rw [forTeamChange, if_neg hrole] at hturn
  split at hturn
  · next tk hkeys => exact ⟨tk, hkeys, hturn⟩
  · cases hturn

/-- A local team that a checked link adds is below the team. -/
theorem below_of_checks (hlocal : checkLocalMembers rows changes = .ok ())
    (hteam : checkMemberIndexRangesAgainstTeam rows' T changes = .ok ())
    (hchng : chng ∈ changes) (hrole : chng.dstRole ≠ .none) (hhost : chng.member.id.host = none)
    (hisTeam : isTeam chng.member.id.entity = true) :
    ∃ tid, chng.member.id.entity.toTeamID = .ok tid ∧
      ∃ i j, spanOf rows tid = some i ∧ spanOf rows' T = some j ∧ Below i j := by
  obtain ⟨high, hhigh, hall⟩ := bind_eq_ok.mp hteam
  obtain ⟨⟨_, _, _, _, tir⟩, hkeys, hmatch⟩ := forAllTeamChanges_eq_ok hlocal hchng hrole
  obtain ⟨_, hkeys', hless⟩ := forAllTeamChanges_eq_ok hall hchng hrole
  cases hkeys.symm.trans hkeys'
  simp only [hhost, Option.isSome_none, Bool.false_eq_true, if_false, checkTeamIndexRange, hisTeam,
    if_true, bind_eq_ok] at hmatch
  obtain ⟨tid, htid, latest, hlatest, hmatch⟩ := hmatch
  refine ⟨tid, htid, ?_⟩
  rw [if_pos hisTeam] at hless
  -- both comparisons are with the range of the member keys
  cases tir with
  | none => cases hless
  | some tmp =>
    cases latest with
    | none => cases hmatch
    | some latest =>
      cases high with
      | none => cases hless
      | some high =>
        simp only [matchTeamIndexRange, refuse_eq_ok, Bool.not_eq_false] at hmatch
        simp only [checkAgainstRange, refuse_eq_ok, Bool.not_eq_false] at hless
        obtain ⟨i, hi, hspan⟩ := exists_spanOf hlatest
        obtain ⟨j, hj, hspan'⟩ := exists_spanOf hhigh
        rw [span_congr hmatch] at hspan
        exact ⟨i, j, hi, hj, (lessThan_iff_below hspan hspan').mp hless⟩

/-- A member after a link was one before, or the link has a change that adds it. -/
theorem mem_openTeamLink (h : openTeamLink m arg pre = .ok opened)
    {id : MemberID} (hid : id ∈ opened.1.members) :
    id ∈ ((pre.map TeamEntry.roster).getD .newRosterCore).members ∨
      ∃ mr ∈ arg.changes, ∃ chng keys, makeChange m.hostID ⟨mr, arg.seqno, arg.time⟩ = .ok (chng, keys) ∧
        chng.member = id ∧ chng.rm = false := by
  obtain ⟨⟨changes, mks⟩, hchanges, hplan⟩ := bind_eq_ok.mp h
  obtain ⟨-, -, rfl⟩ := gameplan_eq_ok hplan
  obtain ⟨info, hinfo⟩ := Map.mem_iff.mp hid
  rw [RosterCore.lookup_apply] at hinfo
  split at hinfo
  · next chng hlast =>
    obtain ⟨hmem, hmember⟩ := lastChange_eq_some hlast
    obtain ⟨mrq, hmrq, keys, hmake⟩ := exists_of_mem_makeChangeSet hchanges hmem
    obtain ⟨mr, hmr, rfl⟩ := mem_map.mp hmrq
    refine Or.inr ⟨mr, hmr, chng, keys, hmake, hmember, ?_⟩
    by_contra hrm
    simp [hrm] at hinfo
  · exact Or.inl (Map.mem_iff.mpr ⟨info, hinfo⟩)

/-- A change that adds a member of this host names no host. -/
theorem makeChange_local {mh : HostID} {mrq : MemberRoleSeqno Blob} {chng : Change}
    {keys : Option (TeamMemberKeys Blob)}
    (h : makeChange mh mrq = .ok (chng, keys)) (hrm : chng.rm = false) (hhost : chng.member.fqe.host = mh) :
    mrq.mr.dstRole ≠ .none ∧ mrq.mr.member.id.host = none ∧
      mrq.mr.member.id.entity.fixed = .ok chng.member.fqe.entity := by
  obtain ⟨hdst, hforeign, -, -, hfqe, -⟩ := makeChange_iff.mp h
  obtain ⟨hentity, hscope⟩ := FQEntity.fixed_eq_ok.mp hfqe
  refine ⟨fun hnone => ?_, ?_, hentity⟩
  · rw [hnone] at hdst
    have hrole : chng.info.role = .noneRole := (Except.ok.inj hdst).symm
    rw [Change.rm_iff.mpr hrole] at hrm
    cases hrm
  rw [hhost] at hscope
  cases hid : mrq.mr.member.id.host with
  | none => rfl
  | some host =>
    simp only [FQEntityInHostScope.withHost, hid] at hscope
    exact absurd (hid.trans (congrArg some hscope.symm)) hforeign

/-- A team in the roster is named by its team ID in the change that adds it. -/
theorem toTeamID_unfix {e u : EntityID} {f : FixedEntityID} (h : e.fixed = .ok f)
    (hu : EntityID.unfix f = .ok u)
    (hA : u.toTeamID = .ok A) : isTeam e = true ∧ ∀ tid, e.toTeamID = .ok tid → tid = A := by
  obtain ⟨htyp, hsame⟩ := EntityID.of_unfix_fixed h hu
  simp only [EntityID.toTeamID, bind_eq_ok, refuse_eq_ok, not_not, exists_const] at hA ⊢
  obtain ⟨hlen, hteam, hnum⟩ := hA
  refine ⟨by rw [isTeam, ← htyp]; exact hteam, ?_⟩
  rintro tid ⟨hlen', -, htid⟩
  cases htid
  rw [← hsame (hlen'.trans hlen.symm)]
  exact Except.ok.inj hnum

/-! ## Runs -/

theorem runEditCommon_teams {rdb rdb' : RemovalDB} (h : runEditCommon m rdb arg pre opened = .ok rdb') :
    ∃ entry, entry.roster = opened.1 ∧ rdb'.teams = rdb.teams.insert arg.teamID entry := by
  obtain ⟨roster, sched, keyGens⟩ := opened
  simp only [runEditCommon, bind_eq_ok] at h
  obtain ⟨⟨⟩, -, rows1, -, rows2, -, floor, -, rows3, -, hres⟩ := h
  cases hres
  exact ⟨⟨roster, keyGens, floor⟩, rfl, rfl⟩

/-- A link keeps local teams below the teams that they are members of. -/
theorem climbs_runEdit {arg : IndexedEditArg} (hdb : Climbs (MemberOf m db) (spanOf db.ranges))
    (hpre : db.teams.lookup arg.teamID = pre) (hopen : openTeamLink m arg.link pre = .ok opened)
    (h : db.runEdit m arg pre opened = .ok db') : Climbs (MemberOf m db') (spanOf db'.ranges) := by
  simp only [TeamDB.runEdit, bind_eq_ok] at h
  obtain ⟨⟨⟩, hlocal, ranges, hranges, ⟨⟩, hteam, removals, hedit, hres⟩ := h
  cases hres
  obtain ⟨entry, hroster, hteams⟩ := runEditCommon_teams hedit
  change removals.teams = db.teams.insert arg.teamID entry at hteams
  have hnarrows : Narrows (spanOf db.ranges) (spanOf ranges) := by
    unfold insertLinkRange at hranges
    split at hranges
    · cases hranges
      exact Narrows.refl _
    · obtain ⟨latest, hread, -⟩ := bind_eq_ok.mp hteam
      exact narrows_insertTeamIndexRange hranges hread
  have hold := hdb.narrow hnarrows
  rintro A B ⟨entry', hlookup, id, hid, hhost, e, hunfix, hA⟩
  simp only [hteams] at hlookup
  obtain ⟨rfl, rfl⟩ | ⟨-, hlookup⟩ := Map.lookup_insert_cases hlookup
  · rw [hroster] at hid
    rcases mem_openTeamLink hopen hid with hbefore | ⟨mr, hmr, chng, keys, hmake, rfl, hrm⟩
    · -- a member from before
      cases pre with
      | none => exact absurd hbefore notMem_empty
      | some old => exact hold A arg.teamID ⟨old, hpre, id, hbefore, hhost, e, hunfix, hA⟩
    obtain ⟨hrole, hscope, hentity⟩ := makeChange_local hmake hrm hhost
    obtain ⟨hisTeam, hsame⟩ := toTeamID_unfix hentity hunfix hA
    obtain ⟨tid, htid, i, j, hi, hj, hij⟩ := below_of_checks hlocal hteam hmr hrole hscope hisTeam
    cases hsame tid htid
    obtain ⟨i', hle, hi'⟩ := hnarrows _ i hi
    exact ⟨i', j, hi', hj, hij.mono hle le_rfl⟩
  · exact hold A B ⟨entry', hlookup, id, hid, hhost, e, hunfix, hA⟩

theorem climbs_handle {e : IndexedRequest} (hdb : Climbs (MemberOf m db) (spanOf db.ranges))
    (h : db.handle m e = .ok db') : Climbs (MemberOf m db') (spanOf db'.ranges) := by
  cases e with
  | createTeam arg =>
    simp only [TeamDB.handle, TeamDB.createTeam, bind_eq_ok, refuse_eq_ok] at h
    obtain ⟨⟨⟩, -, opened, hopen, ⟨⟩, -, ⟨⟩, -, ⟨⟩, hfresh, hrun⟩ := h
    exact climbs_runEdit hdb (lookup_eq_none.mpr hfresh) hopen hrun
  | editTeam arg =>
    simp only [TeamDB.handle, TeamDB.editTeam, bind_eq_ok] at h
    obtain ⟨⟨⟩, -, h⟩ := h
    split at h
    · cases h
    · next entry hentry =>
      simp only [bind_eq_ok] at h
      obtain ⟨opened, hopen, ⟨⟩, -, hrun⟩ := h
      exact climbs_runEdit hdb hentry hopen hrun
  | postTeamRemoval tid rm =>
    simp only [TeamDB.handle, RemovalDB.handle, bind_eq_ok] at h
    obtain ⟨removals, ⟨rows, -, hremovals⟩, hres⟩ := h
    cases hremovals
    cases hres
    exact hdb
  | acceptInviteLocal joiner joinee =>
    simp only [TeamDB.handle, bind_eq_ok] at h
    obtain ⟨⟨⟩, -, hres⟩ := h
    cases hres
    exact hdb

/-- **Team membership stays acyclic.** In every run from an empty host, a local team that is a member of a
local team has a stored range strictly below the range of that team, and there is no cycle of teams that
are members of each other. -/
theorem membership_acyclic (m : HostContext) (requests : List IndexedRequest) :
    let db := serve (TeamDB.handle m) .empty requests
    (∀ A B, MemberOf m db A B → ∃ ra na rb nb,
      getLatestTeamIndexRange db.ranges A = .ok (some (ra, na)) ∧
      getLatestTeamIndexRange db.ranges B = .ok (some (rb, nb)) ∧ ra.lessThan rb = true) ∧
    ∀ A, ¬ Relation.TransGen (MemberOf m db) A A := by
  intro db
  have hclimbs : Climbs (MemberOf m db) (spanOf db.ranges) := by
    refine foldl_invariant (P := fun db => Climbs (MemberOf m db) (spanOf db.ranges)) ?_ requests ?_
    · intro db e hdb
      exact attempt_invariant (P := fun db => Climbs (MemberOf m db) (spanOf db.ranges))
        (fun db' h => climbs_handle hdb h) hdb
    · rintro A B ⟨entry, hlookup, -⟩
      cases hlookup
  refine ⟨fun A B hAB => ?_, hclimbs.not_transGen⟩
  obtain ⟨i, j, hi, hj, hij⟩ := hclimbs A B hAB
  obtain ⟨ra, na, hra, hspan⟩ := spanOf_eq_some.mp hi
  obtain ⟨rb, nb, hrb, hspan'⟩ := spanOf_eq_some.mp hj
  exact ⟨ra, na, rb, nb, hra, hrb, (lessThan_iff_below hspan hspan').mpr hij⟩

section Example

/-- The range from `low` to `high`, of numbers with one place. -/
def oneByteRange (low high : UInt8) : RationalRange := ⟨⟨false, [low], 0⟩, ⟨false, [high], 0⟩⟩

/-- User `n` creates the team `n`. -/
def createIndexed (n : ℕ) (rng : RationalRange) : IndexedRequest :=
  .createTeam
    { teamID := namedTeam n, seqno := 1, time := 0, doer := userMember n, changes := [joins n .owner]
      rosterDelegationFloor := none, hasOtherMetadata := false
      removalKeys := [removalKeyFor (namedTeam n) n]
      removals := [], fills := [], otherChecks := .ok (), range := some rng }

/-- User `n` makes the team `k` an admin of the team `n`. -/
def addTeam (n k : ℕ) (rng : RationalRange) : IndexedRequest :=
  let joiner := namedTeam k
  .editTeam
    { teamID := namedTeam n, seqno := 2, time := 0, doer := userMember n
      changes := [⟨.admin, ⟨joiner.entityID, none⟩, .admin,
        .team ⟨.ofNat 33 (15 * 256 ^ 32 + k), 0, 1, some joiner, some rng⟩⟩]
      rosterDelegationFloor := none, hasOtherMetadata := false
      removalKeys := [⟨⟨⟨namedTeam n, 1⟩, ⟨1, joiner * 256⟩, .admin⟩, joiner, 0, 0, none⟩]
      removals := [], fills := [], otherChecks := .ok (), range := none }

/-- Team 1 joins team 2, and then team 2 cannot join team 1. -/
example :
    let db := serve (TeamDB.handle home) .empty
      [createIndexed 1 (oneByteRange 1 2), createIndexed 2 (oneByteRange 3 4), addTeam 2 1 (oneByteRange 1 2)]
    ((db.teams.lookup (namedTeam 2)).any fun entry =>
      ⟨⟨1, namedTeam 1 * 256⟩, .adminRole⟩ ∈ entry.roster.members.keys) = true ∧
    (db.handle home (addTeam 1 2 (oneByteRange 3 4))).map (fun _ => ()) =
      .error (.teamCycleError (oneByteRange 3 4) (oneByteRange 1 2)) := by
  decide +kernel

end Example

end Foks.Server
