import Foks.Realtime.Inbox

/-!
# Private channels are hidden

A request that names a channel is checked by `authorizeChannel` before anything else that depends on the
tables. A private channel that the caller is not in is answered like one that does not exist, but only
after its roles are read back and after the gate of the team: a private channel with a role that cannot be
read back shows itself by another error, and so does every private channel to who is not in the team.
-/

namespace Foks.Realtime

open Lib List Function

/-- `rem.RTChannelDescUpdate` -/
inductive DescUpdate where
  | keep
  | clear
  | set (box : RTBox)
  deriving DecidableEq

/-- The requests that name one channel, with the arguments that are checked first. -/
inductive Request where
  | getThread
  | getThreadRecents
  | sendMessage
  | markReadThrough
  | setChannelMuted
  | listChannelMembers
  | grantChannelMember
  | revokeChannelMember (uid : UID)
  | updateChannel (nameBox : Option RTBox) (desc : DescUpdate)
  | setChannelArchived
  | releasePushes
  | notifyMembers (handles : List (List UInt8))
  deriving DecidableEq

namespace Request

/-- The checks of the arguments alone. -/
def checkArgs : Request → Except CoreError Unit
  | updateChannel nameBox desc =>
    refuse (nameBox = none ∧ desc = .keep) (.badArgsError "channel update changes nothing")
  | notifyMembers handles => do
    refuse (10000 < handles.length) (.badArgsError "too many push notify entries")
    refuse (∃ handle ∈ handles, 32 < handle.length) (.badArgsError "push handle too long")
  | _ => .ok ()

/-- Who removes themselves leaves the channel, for which no authority over its members is needed. -/
def want (caller : UID) : Request → AccessKind
  | sendMessage => .write
  | listChannelMembers => .roster
  | grantChannelMember => .manage
  | revokeChannelMember uid => if uid = caller then .roster else .revoke
  | updateChannel _ _ => .mutate
  | setChannelArchived => .archive
  | _ => .read

end Request

/-- The answer to a request. `body` is what the request does once the caller is let in, and `replay` what
sending into an archived channel does. -/
def answer {α : Type} (t : Inboxes) (db : UsersDb) (caller : UID) (c : ChannelID) (req : Request)
    (body : Inboxes → ChannelAuth → Except CoreError α) (replay : Inboxes → Except CoreError α) :
    Except CoreError α := do
  req.checkArgs
  match authorizeChannel t.toChannels db caller c (req.want caller) with
  | .ok ca => body t ca
  | .error e => if req = .sendMessage ∧ e = .rtChannelArchivedError then replay t else .error e

/-- `findMissingChannels`: the channels that a user is added to late. -/
def missingChannel (t : Inboxes) (db : UsersDb) (uid : UID) (app : AppID) (c : ChannelID) : Bool :=
  (t.channels c).any fun row => row.app = app ∧ !row.isPrivate ∧ !row.archived ∧
    (∀ r ∈ t.userChannels, r.channel = c → r.uid ≠ uid) ∧
    (db.role row.team uid).any fun role => !role.lessThan row.readRole

/-- The same tables, in which there is no such channel. -/
def Inboxes.without (t : Inboxes) (c : ChannelID) : Inboxes where
  channels := Function.update t.channels c none
  acl := Function.update t.acl c fun _ => none
  sets := t.sets
  ids := t.ids
  mem_ids c' row h := by
    by_cases hc : c' = c
    · subst hc
      rw [update_self] at h
      cases h
    · exact t.mem_ids c' row (by rwa [update_of_ne hc] at h)
  versioned c' row h := by
    by_cases hc : c' = c
    · subst hc
      rw [update_self] at h
      cases h
    · exact t.versioned c' row (by rwa [update_of_ne hc] at h)
  userChannels := t.userChannels.filter (·.channel ≠ c)
  inbox := t.inbox
  receiptsOff := t.receiptsOff
  pkey := t.pkey.sublist (filter_sublist.map _)
  index := t.index.sublist (filter_sublist.map _)

/-- A caller cannot tell the tables from those without the channel: by requests that name it, by the
listing, by the inbox, or by the channels that they are added to. -/
structure HiddenFrom (t : Inboxes) (db : UsersDb) (caller : UID) (c : ChannelID) : Prop where
  requests : ∀ (α : Type) req (body : Inboxes → ChannelAuth → Except CoreError α) replay,
    answer t db caller c req body replay = answer (t.without c) db caller c req body replay
  listing : ∀ team app last, listAllChannels t.toChannels db caller team app last
    = listAllChannels (t.without c).toChannels db caller team app last
  inbox : ∀ app since max, getChangedThreads t db caller app since max
    = getChangedThreads (t.without c) db caller app since max
  missing : ∀ app c', missingChannel t db caller app c' = missingChannel (t.without c) db caller app c'

section Hidden

variable {t : Inboxes} {db : UsersDb} {caller : UID} {c : ChannelID} {row : ChannelRow}

open Inboxes

theorem authorizeChannel_without (want : AccessKind) :
    authorizeChannel (t.without c).toChannels db caller c want = .error .rowNotFoundError := by
  simp [authorizeChannel, without]

/-- The gates up to that of private channels, for a caller who is not in the channel. -/
theorem authorizeChannel_private (hrow : t.channels c = some row) (hprivate : row.isPrivate)
    (hacl : t.acl c caller = none) (hadmin : ∀ role, db.role row.team caller = some role →
      ¬ role.isAdminOrAbove)
    (want : AccessKind) :
    authorizeChannel t.toChannels db caller c want = .error
      (if ¬ row.Importable then .dataError "invalid role type"
      else if (db.role row.team caller).isSome then .rowNotFoundError
      else .permissionError "no authorization for team") := by
  by_cases himport : row.Importable
  · have hok : row.importRoles = .ok () := importRoles_eq_ok.mpr himport
    cases hrole : db.role row.team caller with
    | none => simp [authorizeChannel, hrow, hok, authorizeUserForTeam, hrole, bind, Except.bind, himport]
    | some role =>
      have hnot := hadmin role hrole
      simp [authorizeChannel, hrow, hok, authorizeUserForTeam, hrole, bind, Except.bind, refuse,
        hprivate, hacl, hnot,
        himport]
  · simp [authorizeChannel, hrow, ChannelRow.importRoles, refuse, bind, Except.bind, himport]

theorem readAllChannels_without (hrow : t.channels c = some row) (hprivate : row.isPrivate)
    (hacl : t.acl c caller = none) {team : TeamID} {role : RoleKey} (hadmin : row.team = team →
      ¬ role.isAdminOrAbove)
    (app : AppID) (last : ℕ) :
    readAllChannels t.toChannels caller team app role last
      = readAllChannels (t.without c).toChannels caller team app role last := by
  have hselected : ∀ c', selectedRow t.toChannels caller team app role last c'
        = selectedRow (t.without c).toChannels caller team app role last c' ∧
      gatedRow t.toChannels caller team app role last c'
        = gatedRow (t.without c).toChannels caller team app role last c' := by
    intro c'
    by_cases hc : c' = c
    · subst hc
      have hnot : listed t.toChannels caller team app role last c' row = false := by
        by_cases hteam : row.team = team <;> simp [listed, privateVisibleToCaller, hprivate, hacl,
          hteam, hadmin]
      simp [gatedRow, selectedRow, hrow, without, hnot]
    have hchannel : (t.without c).channels c' = t.channels c' := update_of_ne hc _ _
    have hsame : (t.without c).acl c' = t.acl c' := update_of_ne hc _ _
    have hlisted : listed (t.without c).toChannels caller team app role last c'
        = listed t.toChannels caller team app role last c' := by
      funext row
      simp [listed, privateVisibleToCaller, hsame]
    simp only [gatedRow, selectedRow, privateVisibleToCaller, hchannel, hsame, hlisted, and_self]
  rw [readAllChannels, readAllChannels, funext fun c' => (hselected c').1, funext fun c' => (hselected c').2]
  rfl

/-- The rows of a user who has none in the channel. -/
theorem inboxRows_without (hnone : ∀ r ∈ t.userChannels, r.channel = c → r.uid ≠ caller) (app : AppID) :
    inboxRows t caller app = inboxRows (t.without c) caller app := by
  unfold inboxRows
  congr 1
  change _ = (t.userChannels.filter (·.channel ≠ c)).filter _
  rw [filter_filter]
  refine filter_congr fun r hr => ?_
  by_cases hc : r.channel = c
  · simp [hnone r hr hc]
  · simp [without, hc]

theorem shown_without (app : AppID) {r : UserChannelRow} (hc : r.channel ≠ c) :
    shown t db app r = shown (t.without c) db app r := by
  have hrows : (t.without c).userChannels.filter (·.channel = r.channel)
      = t.userChannels.filter (·.channel = r.channel) := by
    change (t.userChannels.filter (·.channel ≠ c)).filter _ = _
    rw [filter_filter]
    refine filter_congr fun r' _ => ?_
    by_cases h : r'.channel = r.channel <;> simp [h, hc]
  have hpeer : peerReadThrough t r = peerReadThrough (t.without c) r := by
    simp only [peerReadThrough, hrows]
    rfl
  have hchannel : (t.without c).channels r.channel = t.channels r.channel := update_of_ne hc _ _
  have hacl : (t.without c).acl r.channel = t.acl r.channel := update_of_ne hc _ _
  simp only [shown, privateVisibleToCaller, hpeer, hchannel, hacl]

theorem getChangedThreads_without (hnone : ∀ r ∈ t.userChannels, r.channel = c → r.uid ≠ caller) (app : AppID)
    (since max : ℕ) :
    getChangedThreads t db caller app since max = getChangedThreads (t.without c) db caller app since max := by
  have hrows : ∀ head, readChangedChannels t caller app since head max
      = readChangedChannels (t.without c) caller app since head max := by
    intro head
    rw [readChangedChannels, inboxRows_without hnone]
    rfl
  have hshown : ∀ head, (readChangedChannels t caller app since head max).filterMap (shown t db app)
      = (readChangedChannels (t.without c) caller app since head max).filterMap
          (shown (t.without c) db app) := by
    intro head
    rw [← hrows]
    refine filterMap_congr fun r hr => shown_without app fun hc => ?_
    obtain ⟨hmem, huid, -⟩ := mem_inboxRows.mp (mem_filter.mp (mem_of_mem_take hr)).1
    exact hnone r hmem hc huid
  simp only [getChangedThreads, hshown]
  rfl

theorem missingChannel_without (hrow : t.channels c = some row) (hprivate : row.isPrivate) (app : AppID)
    (c' : ChannelID) :
    missingChannel t db caller app c' = missingChannel (t.without c) db caller app c' := by
  by_cases hc : c' = c
  · subst hc
    simp [missingChannel, hrow, hprivate, without]
  have hrows : (∀ r ∈ (t.without c).userChannels, r.channel = c' → r.uid ≠ caller) ↔
      ∀ r ∈ t.userChannels, r.channel = c' → r.uid ≠ caller := by
    refine forall_congr' fun r => ?_
    by_cases hr : r.channel = c' <;> simp [without, hr, hc]
  have hchannel : (t.without c).channels c' = t.channels c' := update_of_ne hc _ _
  simp only [missingChannel, hrows, hchannel]

/-- Rows of a private channel belong to its members. A caller who is not one of them, and no admin of the
team, cannot tell that it exists exactly if they are in the team and its roles can be read back. -/
theorem hidden_iff (t : Inboxes) (db : UsersDb) (caller : UID) (c : ChannelID) (row : ChannelRow)
    (hrow : t.channels c = some row) (hprivate : row.isPrivate) (hacl : t.acl c caller = none)
    (hmembers : ∀ r ∈ t.userChannels, r.channel = c → t.acl c r.uid ≠ none)
    (hadmin : ∀ role, db.role row.team caller = some role → ¬ role.isAdminOrAbove) :
    HiddenFrom t db caller c ↔ (db.role row.team caller).isSome ∧ row.Importable := by
  have hnone : ∀ r ∈ t.userChannels, r.channel = c → r.uid ≠ caller := by
    rintro r hr hc rfl
    exact hmembers r hr hc hacl
  constructor
  · -- the error of a request for the thread is not that for a channel that does not exist
    intro h
    have hsame := h.requests Unit .getThread (fun _ _ => .ok ()) fun _ => .ok ()
    simp only [answer, authorizeChannel_private hrow hprivate hacl hadmin, authorizeChannel_without] at hsame
    by_contra hnot
    by_cases himport : row.Importable
    · have hnone : ¬ (db.role row.team caller).isSome := fun hsome => hnot ⟨hsome, himport⟩
      simp [himport, hnone, Request.checkArgs, bind, Except.bind] at hsame
    · simp [himport, Request.checkArgs, bind, Except.bind] at hsame
  · rintro ⟨hsome, himport⟩
    refine ⟨fun α req body replay => ?_, fun team app last => ?_, getChangedThreads_without hnone,
      missingChannel_without hrow hprivate⟩
    · simp [answer, authorizeChannel_private hrow hprivate hacl hadmin, authorizeChannel_without,
        hsome, himport]
    -- the listing of a team that the caller is not in fails for either store
    unfold listAllChannels
    rcases hrole : db.role team caller with _ | role
    · simp [authorizeUserForTeam, hrole, bind, Except.bind]
    have hadmin' : row.team = team → ¬ role.isAdminOrAbove := fun hteam => hadmin role (hteam ▸ hrole)
    simp only [authorizeUserForTeam_eq_ok.mpr hrole, bind, Except.bind,
      readAllChannels_without hrow hprivate hacl hadmin']
    rfl

end Hidden

/-- The private channel 9 of team 1, with user 1 as its only member. -/
def exampleHidden : Inboxes where
  channels := ((Channels.empty.put 7 exampleChannel).put 9 { exampleChannel with isPrivate := true }).channels
  acl c uid := if c = 9 ∧ uid = 1 then some .owner else none
  sets := ((Channels.empty.put 7 exampleChannel).put 9 { exampleChannel with isPrivate := true }).sets
  ids := ((Channels.empty.put 7 exampleChannel).put 9 { exampleChannel with isPrivate := true }).ids
  mem_ids := ((Channels.empty.put 7 exampleChannel).put 9 { exampleChannel with isPrivate := true }).mem_ids
  versioned := ((Channels.empty.put 7 exampleChannel).put 9 { exampleChannel with isPrivate := true }).versioned
  userChannels := [⟨9, 1, .chat, 1, 0, false, false, 0, false⟩]
  inbox uid _ := if uid = 1 then 1 else 0
  receiptsOff _ _ := false
  pkey := by decide
  index := by decide

/-- User 2 is in the team, but not in the channel. -/
theorem hidden_iff_member : HiddenFrom exampleHidden exampleUsers 2 9 :=
  (hidden_iff exampleHidden exampleUsers 2 9 _ rfl rfl rfl (by decide) (by
    intro role hrole
    cases hrole
    decide)).mpr ⟨rfl, by decide, by decide⟩

/-- User 3 is not in the team, and learns that there is such a channel. -/
theorem private_channel_shows_itself :
    exampleHidden.acl 9 3 = none ∧ exampleUsers.role 1 3 = none ∧
        ¬ HiddenFrom exampleHidden exampleUsers 3 9 := by
  refine ⟨rfl, rfl, fun h => ?_⟩
  cases h.requests Unit .getThread (fun _ _ => .ok ()) fun _ => .ok ()

end Foks.Realtime
