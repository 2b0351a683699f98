import Foks.Lib.Run
import Foks.Realtime.Hidden

/-!
# Making and changing channels

The calls that store the boxes of a channel (`server/realtime/channels.go`). An update checks at which roles
its boxes are sealed. A creation does not: it leaves that, and the tier, to the client.
-/

namespace Foks.Realtime

open Lib Function List Except

variable (t : Channels) (db : UsersDb)

def floorActionGated (team : TeamID) (role : RoleKey) (action : FloorAction) : Bool :=
  !role.isAdminOrAbove && action ∈ db.floorActions && (db.floor team).any role.lessThan

variable (row : ChannelRow) (uid : UID)

/-- `channelMaker.checkPerms` -/
def checkPerms (md : ChannelRow) : Except CoreError Unit := do
  let role ← authorizeUserForTeam db uid md.team
  refuse (role.lessThan md.readRole) (.permissionError "read role too high for user")
  refuse (role.lessThan md.writeRole) (.permissionError "write role too high for user")
  refuse (md.writeRole.lessThan md.readRole) (.permissionError "write role is less than read role")
  refuse (md.tier = .admin ∧ ¬ role.isAdminOrAbove)
    (.permissionError "user role too low to make an admin tier channel")
  refuse (floorActionGated db md.team role .createOpen)
    (.permissionError "channel creation requires the team's roster delegation floor role")
  refuse (md.isPrivate ∧ ¬ role.isAdminOrAbove)
    (.permissionError "only team admins may create a private channel")

variable (c : ChannelID)

def Channels.setAcl (uid : UID) (role : Option AclRole) : Channels :=
  { t with acl := update t.acl c (update (t.acl c) uid role) }

/-- `MakeChannel`. The set has to be at the version before `vers`, where version zero is a set without a row. -/
def makeChannel (vers : ℕ) (md : ChannelRow) : Except CoreError Channels := do
  checkPerms db uid md
  refuse (vers = 0) (.badArgsError "c.vers must be 1 or greater")
  refuse (vers ≠ md.updatedAt) (.badArgsError "c.vers must match c.md.UpdatedAt")
  refuse ((t.channels c).isSome) (.rtRaceError "channels")
  refuse (vers ≠ t.sets md.team md.app + 1) (.rtRaceError "channels")
  let made := t.put c { md with lastMsg := none, archived := false }
  return if md.isPrivate then made.setAcl c uid (some .owner) else made

/-- The role at which the name of a channel is sealed. -/
def ChannelTier.nameRole : ChannelTier → RoleKey
  | .bottom => .kvMinRole
  | .admin => .adminRole

def checkNameBoxRole (box : RTBox) : Except CoreError Unit :=
  refuse (box.role ≠ row.tier.nameRole)
    (.badArgsError "channel name must be sealed at the channel tier's name role")

def checkDescBoxRole (box : RTBox) : Except CoreError Unit :=
  refuse (box.role ≠ row.readRole)
    (.badArgsError "channel description must be sealed at the channel's read role")

def DescUpdate.apply (old : Option RTBox) : DescUpdate → Option RTBox
  | keep => old
  | clear => none
  | set box => some box

/-- The box that is to be stored. -/
def DescUpdate.box : DescUpdate → Option RTBox := apply none

/-- `UpdateChannel` -/
def updateChannel (seqno : ℕ) (nameBox : Option RTBox) (desc : DescUpdate) : Except CoreError Channels := do
  refuse (nameBox = none ∧ desc = .keep) (.badArgsError "channel update changes nothing")
  let ca ← authorizeChannel t db uid c .mutate
  nameBox.forM (checkNameBoxRole ca.row)
  desc.box.forM (checkDescBoxRole ca.row)
  refuse (ca.row.seqno ≠ seqno) (.rtRaceError "channels")
  return t.put c { ca.row with
    seqno := seqno + 1, nameBox := nameBox.getD ca.row.nameBox, descBox := desc.apply ca.row.descBox }

section Calls

variable {t t' : Channels} {db : UsersDb} {uid : UID} {c : ChannelID} {row md : ChannelRow} {vers seqno : ℕ}

/-- What every access has passed, and what the management of the members needs. -/
theorem authorizeChannel_row {want : AccessKind} {ca : ChannelAuth}
    (h : authorizeChannel t db uid c want = .ok ca) :
    t.channels c = some ca.row ∧ ∃ role, db.role ca.row.team uid = some role ∧
      (ca.row.tier = .admin → role.isAdminOrAbove) ∧
      (want = .manage → t.acl c uid = some .owner ∨ role.isAdminOrAbove) := by
  unfold authorizeChannel at h
  rcases hrow : t.channels c with _ | row
  · simp [hrow] at h
  simp only [hrow, bind_eq_ok, authorizeUserForTeam_eq_ok, refuse_eq_ok] at h
  obtain ⟨-, -, role, hrole, -, -, -, htier, -, -, -, -, _, hacl, -, -, hca⟩ := h
  cases hca
  refine ⟨rfl, role, hrole, by simpa using htier, ?_⟩
  rintro rfl
  by_cases hadmin : role.isAdminOrAbove
  · exact .inr hadmin
  · simp [checkAcl, AccessKind.managementKind, bind_eq_ok, hadmin] at hacl
    exact .inl hacl.2

theorem makeChannel_eq_ok (h : makeChannel t db uid c vers md = .ok t') :
    (∃ role, db.role md.team uid = some role ∧ (md.tier = .admin → role.isAdminOrAbove)) ∧ t.channels c = none ∧
      vers = t.sets md.team md.app + 1 ∧
      t' = if md.isPrivate
        then (t.put c { md with lastMsg := none, archived := false }).setAcl c uid (some .owner)
        else t.put c { md with lastMsg := none, archived := false } := by
  simp only [makeChannel, checkPerms, bind_eq_ok, refuse_eq_ok, authorizeUserForTeam_eq_ok] at h
  obtain ⟨-, ⟨role, hrole, -, -, -, -, -, -, -, htier, -⟩, -, -, -, -, -, hfresh, -, hvers, ht⟩ := h
  refine ⟨⟨role, hrole, ?_⟩, by simpa using hfresh, not_not.mp hvers, (ok.inj ht).symm⟩
  simpa using htier

theorem updateChannel_eq_ok {nameBox : Option RTBox} {desc : DescUpdate}
    (h : updateChannel t db uid c seqno nameBox desc = .ok t') :
    ∃ row role, t.channels c = some row ∧ db.role row.team uid = some role ∧
      (row.tier = .admin → role.isAdminOrAbove) ∧ row.seqno = seqno ∧
      (∀ box ∈ nameBox, box.role = row.tier.nameRole) ∧ (∀ box ∈ desc.box, box.role = row.readRole) ∧
      t' = t.put c { row with
        seqno := seqno + 1, nameBox := nameBox.getD row.nameBox, descBox := desc.apply row.descBox } := by
  simp only [updateChannel, bind_eq_ok, refuse_eq_ok] at h
  obtain ⟨-, -, ca, hca, _, hname, _, hdesc, -, hseqno, ht⟩ := h
  obtain ⟨hrow, role, hrole, htier, -⟩ := authorizeChannel_row hca
  refine ⟨ca.row, role, hrow, hrole, htier, not_not.mp hseqno, ?_, ?_, (ok.inj ht).symm⟩
  · rintro box ⟨⟩
    simpa [checkNameBoxRole] using hname
  intro box hbox
  rw [hbox] at hdesc
  simpa [checkDescBoxRole] using hdesc

end Calls

/-- An admin makes a channel that all may read, at role `NONE`. Then user 2 may read channel 7, and nobody
gets a listing of the channels. -/
theorem listing_fails_at_none : ∃ t t',
    makeChannel .empty exampleUsers 1 7 1 { exampleChannel with updatedAt := 1 } = .ok t ∧
    makeChannel t exampleUsers 1 8 2 { exampleChannel with readRole := .noneRole, updatedAt := 2 } = .ok t' ∧
    (∃ ca, authorizeChannel t' exampleUsers 2 7 .read = .ok ca) ∧
    listAllChannels t' exampleUsers 2 1 .chat 0 = .error (.dataError "invalid role type") :=
  ⟨_, _, rfl, rfl, ⟨_, rfl⟩, rfl⟩

/-! ### The roles of the boxes -/

/-- The boxes of a channel are sealed for those who are to open them: the name at the role of the tier, the
description at the read role. Who may read the channel can open its name. -/
def ChannelRow.Sealed : Prop :=
  row.nameBox.role = row.tier.nameRole ∧ (∀ box ∈ row.descBox, box.role = row.readRole) ∧
    (row.tier = .admin ↔ row.readRole.isAdminOrAbove) ∧ row.nameBox.role ≤ row.readRole

def Channels.Sealed (t : Channels) : Prop := ∀ c row, t.channels c = some row → row.Sealed

/-- The calls that store boxes, with the arguments of the client. -/
inductive Call where
  | newChannel (c : ChannelID) (vers : ℕ) (md : ChannelRow)
  | updateChannel (c : ChannelID) (seqno : ℕ) (nameBox : Option RTBox) (desc : DescUpdate)

/-- A call by a user, at what the database of users is at its time. -/
def handle : UsersDb × UID × Call → Except CoreError Channels
  | (db, uid, .newChannel c vers md) => makeChannel t db uid c vers md
  | (db, uid, .updateChannel c seqno nameBox desc) => updateChannel t db uid c seqno nameBox desc

/-- What the server leaves to the client. -/
def Call.Sealed : Call → Prop
  | newChannel _ _ md => md.Sealed
  | updateChannel .. => True

section Sealed

variable {t t' : Channels} {c : ChannelID} {row : ChannelRow}

theorem Channels.Sealed.put_iff (h : t.Sealed) : (t.put c row).Sealed ↔ row.Sealed := by
  constructor
  · intro hput
    exact hput c { row with updatedAt := t.sets row.team row.app + 1 } (update_self ..)
  · intro hrow c' row' hrow'
    by_cases hc : c' = c
    · subst hc
      cases (update_self ..).symm.trans hrow'
      exact hrow
    · exact h c' row' ((update_of_ne hc ..).symm.trans hrow')

/-- Sealed boxes stay sealed by every update, and by the creations that the client has sealed. -/
theorem Channels.Sealed.handle_iff (h : t.Sealed) {db : UsersDb} {uid : UID} {call : Call}
    (hcall : handle t (db, uid, call) = .ok t') : t'.Sealed ↔ call.Sealed := by
  cases call with
  | newChannel c vers md =>
    obtain ⟨-, -, -, rfl⟩ := makeChannel_eq_ok hcall
    split <;> exact h.put_iff
  | updateChannel c seqno nameBox desc =>
    obtain ⟨row, -, hrow, -, -, -, hname, hdesc, rfl⟩ := updateChannel_eq_ok hcall
    obtain ⟨hold, hbox, htier, hread⟩ := h c row hrow
    have hnew : (nameBox.getD row.nameBox).role = row.tier.nameRole := by
      cases nameBox with
      | none => exact hold
      | some box => exact hname box rfl
    refine iff_of_true (h.put_iff.mpr ⟨hnew, ?_, htier, hnew.trans_le (hold ▸ hread)⟩) trivial
    cases desc with
    | keep => exact hbox
    | clear => rintro _ ⟨⟩
    | set box => exact hdesc

end Sealed

/-- Along every run of accepted calls, the boxes of all channels are sealed for those who are to open them
exactly when the client has sealed those of every channel it made. -/
theorem boxes_sealed_iff (l : List (UsersDb × UID × Call)) (t : Channels)
    (hrun : l.foldlM handle .empty = .ok t) :
    (∀ l₁ l₂ t₁, l = l₁ ++ l₂ → l₁.foldlM handle .empty = .ok t₁ → t₁.Sealed) ↔ ∀ a ∈ l, a.2.2.Sealed := by
  rw [run_forall_iff (Q := fun _ a => a.2.2.Sealed) (fun _ _ _ hs h => hs.handle_iff h) (by rintro _ _ ⟨⟩) hrun]
  constructor
  · intro h a ha
    obtain ⟨l₁, l₂, rfl⟩ := append_of_mem ha
    rw [foldlM_append] at hrun
    obtain ⟨t₁, ht₁, -⟩ := bind_eq_ok.mp hrun
    exact h l₁ a l₂ t₁ rfl ht₁
  · rintro h l₁ a l₂ _ rfl _
    exact h a (by simp)

/-- The client makes a channel for members whose name is sealed at the lowest role, and then renames it and
gives it a description. -/
def sealedCalls : List (UsersDb × UID × Call) :=
  [(exampleUsers, 1, .newChannel 7 1 { exampleChannel with nameBox := ⟨.kvMinRole, 1, 0⟩, updatedAt := 1 }),
    (exampleUsers, 1, .updateChannel 7 1 (some ⟨.kvMinRole, 1, 4⟩) (.set ⟨.memberRole, 1, 2⟩))]

theorem boxes_sealed_iff_renamed : ∃ t, sealedCalls.foldlM handle .empty = .ok t ∧
    (t.channels 7).map (·.nameBox.ctext) = some 4 ∧ t.Sealed := by
  have hsealed : ∀ a ∈ sealedCalls, a.2.2.Sealed := by
    simpa [sealedCalls, Call.Sealed] using ⟨rfl, by rintro _ ⟨⟩, by decide, by decide⟩
  exact ⟨_, rfl, rfl, (boxes_sealed_iff sealedCalls _ rfl).mpr hsealed sealedCalls [] _ rfl rfl⟩

/-- The server accepts a channel of the bottom tier whose name is sealed above the lowest role. -/
theorem unsealed_name_accepted :
    ∃ t, [(exampleUsers, 1, .newChannel 7 1 { exampleChannel with updatedAt := 1 })].foldlM handle
      .empty = .ok t ∧
      ¬ t.Sealed := by
  refine ⟨_, rfl, fun h => ?_⟩
  exact absurd (h 7 _ rfl).1 (by decide)

end Foks.Realtime
