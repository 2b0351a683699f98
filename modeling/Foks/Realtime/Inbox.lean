import Foks.Realtime.Channels
import Mathlib.Data.List.Sort

/-!
# The inbox of a user

The server numbers the changes of a user's channels, and answers with a page of the rows above a number
(`server/realtime/inbox.go`). It takes a page of rows first, and then leaves out those that the user may not
see.
-/

namespace Foks.Realtime

open Lib

/-- A row of `user_channels`. -/
structure UserChannelRow where
  channel : ChannelID
  uid : UID
  app : AppID
  inboxVersion : ℕ
  readThrough : ℕ := 0
  hidden : Bool := false
  muted : Bool := false
  explicitReadThrough : ℕ := 0
  receipts : Bool := false
  deriving DecidableEq

/-- The channels with the tables `user_channels` and `user_inbox`; a user without an inbox is at version
zero. -/
structure Inboxes extends Channels where
  userChannels : List UserChannelRow
  inbox : UID → AppID → ℕ
  receiptsOff : UID → AppID → Bool
  -- `PRIMARY KEY(short_host_id, channel_id, uid)`
  pkey : (userChannels.map fun r => (r.channel, r.uid)).Nodup
  -- `user_channels_inbox_idx`
  index : (userChannels.map fun r => (r.uid, r.app, r.inboxVersion)).Nodup

/-! ### The server -/

/-- `rem.RTInboxChannel` -/
structure InboxChannel where
  md : ChannelMetadata
  inboxVersion : ℕ
  readThrough : ℕ
  hidden : Bool
  muted : Bool
  explicitReadThrough : ℕ
  peerReadThrough : ℕ
  deriving DecidableEq

structure InboxDelta where
  inboxVersion : ℕ
  channels : List InboxChannel

def cappedInboxPage (max : ℕ) : ℕ := if max = 0 then 100 else if 1000 < max then 1000 else max

variable (t : Inboxes)

/-- `peerReadThroughCol`: how far the other member of a conversation of two has read, if both let it be
known. -/
def peerReadThrough (r : UserChannelRow) : ℕ :=
  let rows := t.userChannels.filter (·.channel = r.channel)
  let peer := rows.find? fun p => p.uid ≠ r.uid ∧ p.receipts ∧ ¬ t.receiptsOff p.uid p.app
  if r.receipts ∧ ¬ t.receiptsOff r.uid r.app ∧ rows.length = 2 then (peer.map (·.explicitReadThrough)).getD 0
  else 0

/-- The rows of a user, in the order of their versions. -/
def inboxRows (uid : UID) (app : AppID) : List UserChannelRow :=
  (t.userChannels.filter fun r => r.uid = uid ∧ r.app = app ∧ (t.channels r.channel).isSome).insertionSort
    (·.inboxVersion ≤ ·.inboxVersion)

def readChangedChannels (uid : UID) (app : AppID) (since head max : ℕ) : List UserChannelRow :=
  ((inboxRows t uid app).filter fun r => since < r.inboxVersion ∧ r.inboxVersion ≤ head).take
    (cappedInboxPage max)

/-- What the user gets of a row, if they may know of the channel. -/
def shown (db : UsersDb) (app : AppID) (r : UserChannelRow) : Option InboxChannel := do
  let row ← t.channels r.channel
  let role ← db.role row.team r.uid
  if row.tier = .admin ∧ ¬ role.isAdminOrAbove then none
  else if ¬ privateVisibleToCaller t.toChannels r.uid r.channel row then none
  else some ⟨applyReadRoleGate role (row.metadata app r.channel), r.inboxVersion, r.readThrough,
    r.hidden, r.muted,
    r.explicitReadThrough, peerReadThrough t r⟩

/-- `GetChangedThreads`, after the channels that the user has joined late were added. -/
def getChangedThreads (db : UsersDb) (uid : UID) (app : AppID) (since max : ℕ) : InboxDelta :=
  let head := t.inbox uid app
  if head ≤ since then ⟨head, []⟩
  else ⟨head, (readChangedChannels t uid app since head max).filterMap (shown t db app)⟩

theorem mem_inboxRows {t : Inboxes} {uid : UID} {app : AppID} {r : UserChannelRow} : r ∈ inboxRows t uid app ↔
      r ∈ t.userChannels ∧ r.uid = uid ∧ r.app = app ∧ (t.channels r.channel).isSome := by
  rw [inboxRows, List.mem_insertionSort, List.mem_filter, decide_eq_true_iff]

end Foks.Realtime
