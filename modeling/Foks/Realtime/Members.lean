import Foks.Realtime.Mutations

/-!
# The members of private channels

Who may use a private channel is written in `channel_acl`, and who its messages are delivered to in
`user_channels` (`server/realtime/acl.go`). For a private channel the two are one set, although no operation
writes both by itself, and two of those that write delivery rows are meant for public channels.
-/

namespace Foks.Realtime

open Lib Function Channels

/-- The tables of the channels, and the keys of `user_channels`. -/
structure Members extends Channels where
  userChannels : ChannelID → UID → Bool

namespace Members

variable (t : Members)

def empty : Members := ⟨.empty, fun _ _ => false⟩

/-- `fanUserIntoChannel`, for some users. -/
def fanIn (c : ChannelID) (p : UID → Bool) : ChannelID → UID → Bool :=
  update t.userChannels c fun u => t.userChannels c u || p u

/-- `dropChannelMember`, for some users. -/
def drop (c : ChannelID) (p : UID → Bool) : Members where
  toChannels := { t.toChannels with acl := update t.acl c fun u => if p u then none else t.acl c u }
  userChannels := update t.userChannels c fun u => t.userChannels c u && !p u

end Members

/-- `eligibleReaderUIDs` -/
def eligibleReader (db : UsersDb) (row : ChannelRow) (uid : UID) : Bool :=
  (db.role row.team uid).any fun role => !role.lessThan row.readRole

/-- The operations that write the tables. A send is modelled by what it does to the members. -/
inductive Op where
  | newChannel (c : ChannelID) (vers : ℕ) (md : ChannelRow)
  | updateChannel (c : ChannelID) (seqno : ℕ) (nameBox : Option RTBox) (desc : DescUpdate)
  | setChannelArchived (c : ChannelID) (seqno : ℕ) (archived : Bool)
  | grantChannelMember (c : ChannelID) (uid : UID) (owner : Bool)
  | revokeChannelMember (c : ChannelID) (uid : UID)
  | sendMessage (c : ChannelID)
  | reconcileUserChannels (app : AppID)

open Members

/-- An operation of the user `uid`, at what the database of users is at its time. -/
def exec (t : Members) : UsersDb × UID × Op → Except CoreError Members
  | (db, uid, .newChannel c vers md) => do
    let made ← makeChannel t.toChannels db uid c vers md
    return ⟨made, t.fanIn c fun u => if md.isPrivate then u = uid else eligibleReader db md u⟩
  | (db, uid, .updateChannel c seqno nameBox desc) => do
    let changed ← updateChannel t.toChannels db uid c seqno nameBox desc
    return ⟨changed, t.userChannels⟩
  | (db, uid, .setChannelArchived c seqno archived) => do
    let ca ← authorizeChannel t.toChannels db uid c .archive
    if ca.row.archived = archived then return t
    refuse (ca.row.seqno ≠ seqno) (.rtRaceError "channels")
    return ⟨t.put c { ca.row with seqno := seqno + 1, archived },
      t.fanIn c fun u => !archived && !ca.row.isPrivate && eligibleReader db ca.row u⟩
  | (db, uid, .grantChannelMember c u owner) => do
    let ca ← authorizeChannel t.toChannels db uid c .manage
    refuse (db.role ca.row.team u = none) (.permissionError "grantee is not a member of the parent team")
    refuse (!eligibleReader db ca.row u)
      (.permissionError "grantee's team role is below the channel's read role")
    return ⟨(t.put c ca.row).setAcl c u (some (if owner then .owner else .member)), t.fanIn c (· = u)⟩
  | (db, uid, .revokeChannelMember c u) => do
    let ca ← authorizeChannel t.toChannels db uid c (if u = uid then .roster else .revoke)
    refuse ca.row.archived .rtChannelArchivedError
    refuse (t.acl c u = none) .rowNotFoundError
    return drop ⟨t.put c ca.row, t.userChannels⟩ c (· = u)
  | (db, uid, .sendMessage c) => do
    let ca ← authorizeChannel t.toChannels db uid c .write
    -- `pruneStaleChannelMembers`
    return if ca.row.isPrivate then
        t.drop c fun u => t.userChannels c u && (db.role ca.row.team u).isNone
      else t
  | (db, uid, .reconcileUserChannels app) =>
    return ⟨t.toChannels, fun c u => t.userChannels c u || u = uid && (t.channels c).any fun row =>
      row.app = app ∧ !row.isPrivate ∧ !row.archived ∧ eligibleReader db row uid⟩

/-- The operation makes `u` a member of a private channel: they make it, or an owner of the channel or an
admin of the team adds them. -/
def Op.Admits (t : Members) (db : UsersDb) (uid : UID) (c : ChannelID) (u : UID) : Op → Prop
  | newChannel c' .. => c' = c ∧ u = uid
  | grantChannelMember c' u' _ => c' = c ∧ u' = u ∧ (t.acl c uid = some .owner ∨
      ∃ row ∈ t.channels c, ∃ role ∈ db.role row.team uid, role.isAdminOrAbove)
  | _ => False

section Members

variable {t t' : Members} {db : UsersDb} {uid : UID} {op : Op} {c : ChannelID}

/-- What an operation does to the membership of one user in a channel that is not public afterwards: nothing, or
it drops both rows, or it writes both and admits the user. -/
theorem exec_cases (h : exec t (db, uid, op) = .ok t') (hc : ∀ row ∈ t'.channels c, row.isPrivate) (u : UID) :
    (∀ row ∈ t.channels c, row.isPrivate) ∧ (t'.acl c u = t.acl c u ∧ t'.userChannels c u = t.userChannels c u ∨
        t'.acl c u = none ∧ t'.userChannels c u = false ∨
        t'.acl c u ≠ none ∧ t'.userChannels c u ∧ op.Admits t db uid c u) := by
  cases op with
  | newChannel d vers md =>
    obtain ⟨_, hmade, ht⟩ := bind_eq_ok.mp h
    obtain ⟨-, hnone, -, rfl⟩ := makeChannel_eq_ok hmade
    cases ht
    cases hp : md.isPrivate <;> rcases eq_or_ne c d with rfl | hne <;>
      simp_all [fanIn, setAcl, put, Op.Admits]
    by_cases hu : u = uid <;> simp [hu]
  | updateChannel d seqno nameBox desc =>
    obtain ⟨_, hchanged, ht⟩ := bind_eq_ok.mp h
    obtain ⟨row, -, hrow, -, -, -, -, -, rfl⟩ := updateChannel_eq_ok hchanged
    cases ht
    rcases eq_or_ne c d with rfl | hne <;> simp_all [put]
  | setChannelArchived d seqno archived =>
    obtain ⟨ca, hca, ht⟩ := bind_eq_ok.mp h
    obtain ⟨hrow, -⟩ := authorizeChannel_row hca
    split at ht
    · cases ht
      exact ⟨hc, .inl ⟨rfl, rfl⟩⟩
    have ht := of_bind_eq_ok ht
    cases ht
    rcases eq_or_ne c d with rfl | hne <;> simp_all [put, fanIn]
  | grantChannelMember d v owner =>
    simp only [exec, bind_eq_ok] at h
    obtain ⟨ca, hca, -, -, -, -, ht⟩ := h
    obtain ⟨hrow, role, hrole, -, hby⟩ := authorizeChannel_row hca
    cases ht
    rcases eq_or_ne c d with rfl | hne <;> simp_all [put, setAcl, fanIn, Op.Admits]
    by_cases hu : u = v <;> simp_all
  | revokeChannelMember d v =>
    simp only [exec, bind_eq_ok] at h
    obtain ⟨ca, hca, -, -, -, -, ht⟩ := h
    obtain ⟨hrow, -⟩ := authorizeChannel_row hca
    cases ht
    rcases eq_or_ne c d with rfl | hne <;> simp_all [put, drop]
    by_cases hu : u = v <;> simp_all
  | sendMessage d =>
    obtain ⟨ca, hca, ht⟩ := bind_eq_ok.mp h
    obtain ⟨hrow, -⟩ := authorizeChannel_row hca
    cases ht
    split at hc <;> rcases eq_or_ne c d with rfl | hne <;> simp_all [drop]
    cases t.userChannels c u <;> cases db.role ca.row.team u <;> simp
  | reconcileUserChannels app =>
    cases h
    refine ⟨hc, .inl ⟨rfl, ?_⟩⟩
    cases hrow : t.channels c <;> simp_all

/-- Of a channel that is not public, the two tables have the same members. -/
def Members.Agree (t : Members) : Prop :=
  ∀ c, (∀ row ∈ t.channels c, row.isPrivate) → ∀ u, (t.acl c u).isSome = t.userChannels c u

theorem Members.Agree.of_exec (hagree : t.Agree) (h : exec t (db, uid, op) = .ok t') : t'.Agree := by
  intro c hc u
  obtain ⟨hold, ⟨hacl, hrow⟩ | ⟨hacl, hrow⟩ | ⟨hacl, hrow, -⟩⟩ := exec_cases h hc u
  · rw [hacl, hrow]
    exact hagree c hold u
  · rw [hacl, hrow, Option.isSome_none]
  · rw [hrow, Option.isSome_iff_ne_none.mpr hacl]

theorem Members.Agree.of_serve (hagree : t.Agree) (l : List (UsersDb × UID × Op)) : (serve exec t l).Agree := by
  induction l generalizing t with
  | nil => exact hagree
  | cons call l ih => exact ih (attempt_invariant (fun t' h => hagree.of_exec h) hagree)

end Members

/-- In every state that the operations reach, `channel_acl` and `user_channels` have the same members of every
private channel. Who enters either of them makes the channel, or is added by an owner of it or an admin of the
team. -/
theorem private_members_agree (l : List (UsersDb × UID × Op)) :
    let t := serve exec .empty l
    (∀ c row, t.channels c = some row → row.isPrivate → ∀ u, (t.acl c u).isSome = t.userChannels c u) ∧
      ∀ db uid op t', exec t (db, uid, op) = .ok t' → ∀ c row, t'.channels c = some row → row.isPrivate →
        ∀ u, t.acl c u = none ∧ t'.acl c u ≠ none ∨ ¬ t.userChannels c u ∧ t'.userChannels c u →
          op.Admits t db uid c u := by
  intro t
  have hagree : t.Agree := Members.Agree.of_serve (fun _ _ _ => rfl) l
  refine ⟨fun c row hrow hprivate => hagree c (by simpa [hrow] using hprivate), ?_⟩
  intro db uid op t' h c row hrow hprivate u hnew
  obtain ⟨-, ⟨hacl, hdelivery⟩ | ⟨hacl, hdelivery⟩ | ⟨-, -, hadmits⟩⟩ :=
    exec_cases h (c := c) (by simpa [hrow] using hprivate) u
  · simp [hacl, hdelivery] at hnew
  · simp [hacl, hdelivery] at hnew
  · exact hadmits

end Foks.Realtime
