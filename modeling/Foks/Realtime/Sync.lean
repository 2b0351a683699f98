import Foks.Realtime.Inbox

/-!
# Syncing an inbox

A client asks for the rows above its cursor, page by page (`client/librt/inbox.go`). It stops at an empty
page. So it stops before rows that it should see if a whole page in front of them is left out.
-/

namespace Foks.Realtime

open List

/-- What the client has stored: its cursor, the index of the inbox and the rows. -/
structure SyncState where
  vers : ℕ
  channels : List ChannelID
  rows : ChannelID → Option InboxChannel

namespace SyncState

/-- A channel of a page: it is stored, or dropped if it is archived. -/
def apply (st : SyncState) (ch : InboxChannel) : SyncState :=
  if ch.md.archived then
    if ch.md.id ∈ st.channels then
      { st with channels := st.channels.filter (· ≠ ch.md.id), rows := Function.update st.rows ch.md.id none }
    else st
  else { st with
    channels := if ch.md.id ∈ st.channels then st.channels else st.channels ++ [ch.md.id]
    rows := Function.update st.rows ch.md.id (some ch) }

/-- The client has applied the row of a channel. -/
def Applied (st : SyncState) (ch : InboxChannel) : Prop :=
  if ch.md.archived then ch.md.id ∉ st.channels
  else ch.md.id ∈ st.channels ∧ st.rows ch.md.id = some ch

theorem applied_apply (st : SyncState) (ch : InboxChannel) : (st.apply ch).Applied ch := by
  unfold Applied apply
  by_cases harch : ch.md.archived <;> by_cases hmem : ch.md.id ∈ st.channels <;> simp [harch, hmem]

theorem applied_apply_of_ne {st : SyncState} {ch ch' : InboxChannel} (hne : ch'.md.id ≠ ch.md.id) :
    (st.apply ch).Applied ch' ↔ st.Applied ch' := by
  unfold Applied apply
  by_cases harch : ch.md.archived <;> by_cases hmem : ch.md.id ∈ st.channels <;> simp [harch, hmem, hne]

theorem applied_foldl {page : List InboxChannel} {st : SyncState} {ch : InboxChannel}
    (hid : ∀ ch' ∈ page, ch'.md.id = ch.md.id → ch' = ch) :
    (page.foldl apply st).Applied ch ↔ ch ∈ page ∨ st.Applied ch := by
  induction page generalizing st with
  | nil => simp
  | cons a page ih =>
    obtain ⟨ha, hrest⟩ := forall_mem_cons.mp hid
    rw [foldl_cons, ih hrest]
    by_cases hne : a.md.id = ch.md.id
    · obtain rfl := ha hne
      simp [applied_apply]
    · have hch : ch ≠ a := fun h => hne (h ▸ rfl)
      simp [applied_apply_of_ne (Ne.symm hne), hch]

end SyncState

/-- The highest version of a page. -/
def pageVers (vers : ℕ) (page : List InboxChannel) : ℕ :=
  page.foldl (fun v ch => if v < ch.inboxVersion then ch.inboxVersion else v) vers

/-- The loop of `SyncInboxWithPageSize`, for a number of turns. -/
def syncInbox (fetch : ℕ → InboxDelta) : ℕ → SyncState → Option (Except CoreError SyncState)
  | 0, _ => none
  | n + 1, st =>
    let delta := fetch st.vers
    if delta.channels = [] then some (.ok st)
    else if pageVers st.vers delta.channels ≤ st.vers then
      some (.error (.badServerDataError "inbox delta did not advance the cursor"))
    else
      let st' := { delta.channels.foldl SyncState.apply st with vers := pageVers st.vers delta.channels }
      if delta.inboxVersion ≤ st'.vers then some (.ok st') else syncInbox fetch n st'

section Sync

variable (t : Inboxes) (db : UsersDb) (uid : UID) (app : AppID) (since max : ℕ) {r : UserChannelRow}
  {st : SyncState}

/-- The rows of a user above a version, in their order. -/
def rowsAbove : List UserChannelRow :=
  (inboxRows t uid app).filter fun r => since < r.inboxVersion ∧ r.inboxVersion ≤ t.inbox uid app

/-- A sync from the cursor applies every row that the user would be shown now. -/
def SyncComplete : Prop :=
  ∀ st : SyncState, st.vers = since →
    ∃ st', syncInbox (fun v => getChangedThreads t db uid app v max) (t.inbox uid app + 1) st = some (.ok st') ∧
      ∀ r ∈ rowsAbove t uid app since, ∀ ch, shown t db app r = some ch → st'.Applied ch

/-- No page of rows that are left out comes before a row that is shown. -/
def NoHiddenPage : Prop :=
  ∀ front page rest, rowsAbove t uid app since = front ++ (page ++ rest) → page.length = cappedInboxPage max →
    (∀ r ∈ page, shown t db app r = none) → ∀ r ∈ rest, shown t db app r = none

/-- A sync has applied the rows in front, and nothing else, and has stopped before a page that is empty. It
does not pass a page of rows that are left out. -/
structure Synced (st st' : SyncState) (front rest : List UserChannelRow) : Prop where
  rows : rowsAbove t uid app st.vers = front ++ rest
  stopped : (rest.take (cappedInboxPage max)).filterMap (shown t db app) = []
  applied : ∀ r ∈ inboxRows t uid app, ∀ ch, shown t db app r = some ch →
    (st'.Applied ch ↔ r ∈ front ∨ st.Applied ch)
  held : ∀ l page l', rowsAbove t uid app st.vers = l ++ (page ++ l') → page.length = cappedInboxPage max →
    (∀ r ∈ page, shown t db app r = none) → page ++ l' <:+ rest

variable {t db uid app since max}

/-! ### Pages -/

theorem rowsAbove_ascending : (rowsAbove t uid app since).Pairwise (·.inboxVersion < ·.inboxVersion) := by
  have hne : (inboxRows t uid app).Pairwise (·.inboxVersion ≠ ·.inboxVersion) := by
    have hrows := (pairwise_map.mp t.index).sublist
      (filter_sublist (p := fun r => r.uid = uid ∧ r.app = app ∧ (t.channels r.channel).isSome))
    refine ((perm_insertionSort _ _).pairwise_iff fun h => Ne.symm h).mpr (hrows.imp_of_mem ?_)
    intro r r' hr hr' hkey hv
    have huser : r.uid = uid ∧ r.app = app ∧ _ := of_decide_eq_true (mem_filter.mp hr).2
    have huser' : r'.uid = uid ∧ r'.app = app ∧ _ := of_decide_eq_true (mem_filter.mp hr').2
    exact hkey (by rw [huser.1, huser'.1, huser.2.1, huser'.2.1, hv])
  exact (((pairwise_insertionSort _ _).and hne).imp fun h => lt_of_le_of_ne h.1 h.2).filter _

theorem mem_rowsAbove : r ∈ rowsAbove t uid app since ↔
    r ∈ inboxRows t uid app ∧ since < r.inboxVersion ∧ r.inboxVersion ≤ t.inbox uid app := by
  rw [rowsAbove, mem_filter, decide_eq_true_iff]

/-- The rows behind a row are those above its version. -/
theorem rowsAbove_of_append {front rest : List UserChannelRow}
    (h : rowsAbove t uid app since = front ++ r :: rest) : rowsAbove t uid app r.inboxVersion = rest := by
  have horder := h ▸ @rowsAbove_ascending t uid app since
  obtain ⟨-, hrest, hfront⟩ := pairwise_append.mp horder
  obtain ⟨-, hr⟩ := mem_rowsAbove.mp (h ▸ mem_append_right front mem_cons_self)
  have hfilter : rowsAbove t uid app r.inboxVersion
      = (rowsAbove t uid app since).filter (r.inboxVersion < ·.inboxVersion) := by
    rw [rowsAbove, rowsAbove, filter_filter]
    refine filter_congr fun r' _ => ?_
    rw [← Bool.decide_and, decide_eq_decide]
    omega
  rw [hfilter, h, filter_append, filter_cons_of_neg (by simp), filter_eq_nil_iff.mpr, nil_append,
    filter_eq_self]
  · intro r' hr'
    simpa using (pairwise_cons.mp hrest).1 r' hr'
  · intro r' hr'
    simpa using (hfront r' hr' r mem_cons_self).le

theorem getChangedThreads_channels (c : ℕ) : (getChangedThreads t db uid app c max).channels
    = ((rowsAbove t uid app c).take (cappedInboxPage max)).filterMap (shown t db app) := by
  unfold getChangedThreads
  dsimp only
  split
  · next hhead =>
    have hnil : rowsAbove t uid app c = [] := by
      refine filter_eq_nil_iff.mpr fun r _ => ?_
      rw [decide_eq_true_iff]
      omega
    simp [hnil]
  · rfl

theorem shown_version {ch : InboxChannel} (h : shown t db app r = some ch) :
    ch.inboxVersion = r.inboxVersion ∧ ch.md.id = r.channel := by
  simp only [shown, Option.bind_eq_bind, Option.bind_eq_some_iff] at h
  obtain ⟨row, -, role, -, h⟩ := h
  split at h
  · cases h
  split at h
  · cases h
  cases h
  refine ⟨rfl, ?_⟩
  simp only [applyReadRoleGate]
  split <;> rfl

/-- A channel of a user has one row. -/
theorem eq_of_shown {r' : UserChannelRow} {ch ch' : InboxChannel} (hr : r ∈ inboxRows t uid app)
    (hr' : r' ∈ inboxRows t uid app) (h : shown t db app r = some ch) (h' : shown t db app r' = some ch')
    (hid : ch.md.id = ch'.md.id) : r = r' := by
  obtain ⟨hr, huid, -⟩ := mem_inboxRows.mp hr
  obtain ⟨hr', huid', -⟩ := mem_inboxRows.mp hr'
  rw [(shown_version h).2, (shown_version h').2] at hid
  exact inj_on_of_nodup_map t.pkey hr hr' (by rw [hid, huid, huid'])

/-- The last row of a list that is shown. -/
theorem exists_last {α β : Type} {f : α → Option β} {l : List α} (h : l.filterMap f ≠ []) :
    ∃ front a rest b, l = front ++ a :: rest ∧ f a = some b ∧ l.filterMap f = front.filterMap f ++ [b] := by
  induction l with
  | nil => exact absurd rfl h
  | cons a l ih =>
    by_cases hl : l.filterMap f = []
    · cases ha : f a with
      | none => exact absurd (by rw [filterMap_cons_none ha, hl]) h
      | some b => exact ⟨[], a, l, b, rfl, ha, by rw [filterMap_cons_some ha, hl]; rfl⟩
    obtain ⟨front, x, rest, b, rfl, hx, heq⟩ := ih hl
    refine ⟨a :: front, x, rest, b, rfl, hx, ?_⟩
    cases ha : f a with
    | none => rw [filterMap_cons_none ha, filterMap_cons_none ha, heq]
    | some b' => rw [filterMap_cons_some ha, filterMap_cons_some ha, heq, cons_append]

theorem pageVers_lt {v k : ℕ} {page : List InboxChannel} (hv : v < k) (h : ∀ ch ∈ page, ch.inboxVersion < k) :
    pageVers v page < k := by
  induction page generalizing v with
  | nil => exact hv
  | cons a page ih =>
    obtain ⟨ha, hpage⟩ := forall_mem_cons.mp h
    refine ih ?_ hpage
    dsimp only
    split
    · exact ha
    · exact hv

/-! ### The loop -/

theorem synced_nil (h : (getChangedThreads t db uid app st.vers max).channels = []) :
    Synced t db uid app max st st [] (rowsAbove t uid app st.vers) where
  rows := rfl
  stopped := by rwa [getChangedThreads_channels] at h
  applied _ _ _ _ := by simp
  held l page l' hrows _ _ := hrows ▸ suffix_append ..

/-- The rows up to the last one that a page shows, and what the client makes of them. -/
theorem page_spec (h : (getChangedThreads t db uid app st.vers max).channels ≠ []) :
    ∃ front r rest ch, rowsAbove t uid app st.vers = front ++ r :: rest ∧ shown t db app r = some ch ∧
      front.length < cappedInboxPage max ∧
      (getChangedThreads t db uid app st.vers max).channels = (front ++ [r]).filterMap (shown t db app) ∧
      pageVers st.vers (getChangedThreads t db uid app st.vers max).channels = r.inboxVersion := by
  rw [getChangedThreads_channels] at h ⊢
  obtain ⟨front, r, rest, ch, htake, hch, hpage⟩ := exists_last h
  have hrows : rowsAbove t uid app st.vers
      = front ++ r :: (rest ++ (rowsAbove t uid app st.vers).drop (cappedInboxPage max)) := by
    rw [← cons_append, ← append_assoc, ← htake, take_append_drop]
  refine ⟨front, r, _, ch, hrows, hch, ?_, ?_, ?_⟩
  · have hlen := congrArg List.length htake
    simp only [length_take, length_append, length_cons] at hlen
    omega
  · rw [hpage, filterMap_append, filterMap_cons_some hch, filterMap_nil]
  rw [hpage, pageVers, foldl_concat, (shown_version hch).1, if_pos]
  refine pageVers_lt (mem_rowsAbove.mp (hrows ▸ mem_append_right front mem_cons_self)).2.1 ?_
  intro ch' hch'
  obtain ⟨r', hr', hch'⟩ := mem_filterMap.mp hch'
  rw [(shown_version hch').1]
  exact (pairwise_append.mp (hrows ▸ rowsAbove_ascending)).2.2 r' hr' r mem_cons_self

/-- A page of rows that are left out is not passed by the next page. -/
theorem suffix_of_hidden {front rest l page l' : List UserChannelRow}
    (h : front ++ r :: rest = l ++ (page ++ l')) (hlt : front.length < page.length) (hr : r ∉ page) :
    ∃ l'', rest = l'' ++ (page ++ l') := by
  rcases append_eq_append_iff.mp h with ⟨a, rfl, ha⟩ | ⟨a, rfl, ha⟩
  · cases a with
    | nil =>
      cases page with
      | nil => exact absurd hlt (Nat.not_lt_zero _)
      | cons x page =>
        cases ha
        exact absurd mem_cons_self hr
    | cons x a =>
      cases ha
      exact ⟨a, rfl⟩
  rcases append_eq_append_iff.mp ha with ⟨b, rfl, -⟩ | ⟨b, rfl, hb⟩
  · simp only [length_append] at hlt
    omega
  cases b with
  | nil =>
    simp only [append_nil, length_append] at hlt
    omega
  | cons x b =>
    cases hb
    exact absurd (mem_append_right a mem_cons_self) hr

theorem syncInbox_returns {n : ℕ} (hfuel : t.inbox uid app ≤ st.vers + n) :
    ∃ st' front rest, syncInbox (fun v => getChangedThreads t db uid app v max) (n + 1) st = some (.ok st') ∧
      Synced t db uid app max st st' front rest := by
  induction n generalizing st with
  | zero =>
    have hempty : (getChangedThreads t db uid app st.vers max).channels = [] := by
      have hhead : t.inbox uid app ≤ st.vers := hfuel
      simp [getChangedThreads, hhead]
    exact ⟨st, _, _, by simp [syncInbox, hempty], synced_nil hempty⟩
  | succ n ih =>
    by_cases hempty : (getChangedThreads t db uid app st.vers max).channels = []
    · exact ⟨st, _, _, by simp [syncInbox, hempty], synced_nil hempty⟩
    obtain ⟨front, r, rest, ch, hrows, hch, hlt, hpage, hvers⟩ := page_spec hempty
    have hmem : ∀ r' ∈ front ++ [r], r' ∈ inboxRows t uid app := by
      intro r' hr'
      have hrow : r' ∈ rowsAbove t uid app st.vers := by
        rw [hrows, append_cons]
        exact mem_append_left rest hr'
      exact (mem_rowsAbove.mp hrow).1
    obtain ⟨-, hr, -⟩ := mem_rowsAbove.mp (hrows ▸ mem_append_right front mem_cons_self)
    set st1 : SyncState :=
      { (getChangedThreads t db uid app st.vers max).channels.foldl SyncState.apply st with
        vers := r.inboxVersion } with hst1
    -- what one page does, followed by what the rest of the sync does
    obtain ⟨st', front', rest', hrun, hsynced⟩ : ∃ st' front' rest',
        (if t.inbox uid app ≤ r.inboxVersion then some (.ok st1)
          else syncInbox (fun v => getChangedThreads t db uid app v max) (n + 1) st1) = some (.ok st') ∧
        Synced t db uid app max st1 st' front' rest' := by
      split
      · next hhead =>
        exact ⟨st1, _, _, rfl, synced_nil (by simp [getChangedThreads, hst1, hhead])⟩
      · exact ih (by change _ ≤ r.inboxVersion + n; omega)
    have hrest : rest = front' ++ rest' := (rowsAbove_of_append hrows).symm.trans hsynced.rows
    refine ⟨st', front ++ r :: front', rest', ?_, ?_, hsynced.stopped, ?_, ?_⟩
    · rw [← hrun, syncInbox]
      simp only [hempty, hvers, if_false, not_le.mpr hr]
      have hhead : (getChangedThreads t db uid app st.vers max).inboxVersion = t.inbox uid app := by
        unfold getChangedThreads
        dsimp only
        split <;> rfl
      rw [hhead]
    · rw [hrows, hrest, append_assoc, cons_append]
    · intro r' hr' ch' hch'
      have hpage' : ch' ∈ (front ++ [r]).filterMap (shown t db app) ↔ r' ∈ front ++ [r] := by
        rw [mem_filterMap]
        refine ⟨fun ⟨r'', hr'', h⟩ => ?_, fun h => ⟨r', h, hch'⟩⟩
        rwa [← eq_of_shown (hmem r'' hr'') hr' h hch' rfl]
      have hfold : st1.Applied ch' ↔ ch' ∈ (front ++ [r]).filterMap (shown t db app) ∨ st.Applied ch' := by
        rw [← hpage]
        refine SyncState.applied_foldl fun ch'' hch'' hid => ?_
        rw [hpage] at hch''
        obtain ⟨r'', hr'', h⟩ := mem_filterMap.mp hch''
        obtain rfl := eq_of_shown (hmem r'' hr'') hr' h hch' hid
        exact Option.mem_unique h hch'
      rw [hsynced.applied r' hr' ch' hch', hfold, hpage']
      simp only [mem_append, mem_cons]
      tauto
    intro l page l' hl hlen hhidden
    have hnot : r ∉ page := fun hmem => Option.some_ne_none ch (hch.symm.trans (hhidden r hmem))
    obtain ⟨l'', hl''⟩ := suffix_of_hidden (hrows.symm.trans hl) (hlen ▸ hlt) hnot
    exact hsynced.held l'' page l' ((rowsAbove_of_append hrows).trans hl'') hlen hhidden

/-! ### Completeness -/

theorem syncComplete_of_noHiddenPage (h : NoHiddenPage t db uid app since max) :
    SyncComplete t db uid app since max := by
  rintro st rfl
  obtain ⟨st', front, rest, hrun, hsynced⟩ :=
    @syncInbox_returns t db uid app max st (t.inbox uid app) (by omega)
  refine ⟨st', hrun, fun r hr ch hch => ?_⟩
  refine (hsynced.applied r (mem_rowsAbove.mp hr).1 ch hch).mpr (.inl ?_)
  rw [hsynced.rows, mem_append] at hr
  refine hr.resolve_right fun hr => ?_
  have hpage : ∀ r ∈ rest.take (cappedInboxPage max), shown t db app r = none :=
    filterMap_eq_nil_iff.mp hsynced.stopped
  have hsplit := take_append_drop (cappedInboxPage max) rest
  rw [← hsplit, mem_append] at hr
  -- a row behind the page on which the client stops, which is full
  rcases hr with hr | hr
  · exact Option.some_ne_none ch (hch.symm.trans (hpage r hr))
  have hlen : (rest.take (cappedInboxPage max)).length = cappedInboxPage max := by
    have hpos := length_pos_of_mem hr
    rw [length_drop] at hpos
    rw [length_take]
    omega
  have hnone := h front _ _ (hsynced.rows.trans (congrArg _ hsplit.symm)) hlen hpage r hr
  exact Option.some_ne_none ch (hch.symm.trans hnone)

theorem noHiddenPage_of_syncComplete (h : SyncComplete t db uid app since max) :
    NoHiddenPage t db uid app since max := by
  intro l page l' hrows hlen hhidden r hr
  by_contra hshown
  obtain ⟨ch, hch⟩ := Option.ne_none_iff_exists'.mp hshown
  -- a client that has not applied the row: it has nothing, or the channel that was archived
  let st : SyncState := ⟨since, if ch.md.archived then [ch.md.id] else [], fun _ => none⟩
  obtain ⟨st', hrun, hcomplete⟩ := h st rfl
  obtain ⟨st'', front, rest, hrun', hsynced⟩ :=
    @syncInbox_returns t db uid app max st (t.inbox uid app) (by omega)
  obtain rfl : st'' = st' := Except.ok.inj (Option.mem_unique hrun' hrun)
  have hrest : r ∈ rest := (hsynced.held l page l' hrows hlen hhidden).subset (mem_append_right page hr)
  have hmem : r ∈ rowsAbove t uid app since := hsynced.rows ▸ mem_append_right front hrest
  rcases (hsynced.applied r (mem_rowsAbove.mp hmem).1 ch hch).mp (hcomplete r hmem ch hch) with
    hfront | happlied
  · have horder := hsynced.rows ▸ @rowsAbove_ascending t uid app st.vers
    exact lt_irrefl _ ((pairwise_append.mp horder).2.2 r hfront r hrest)
  · unfold SyncState.Applied at happlied
    by_cases harch : ch.md.archived <;> simp [st] at happlied

end Sync

/-- User 2 has a row in a channel of a team that they have left, and one in a channel of their team. -/
def exampleInboxes : Inboxes where
  toChannels := (Channels.empty.put 8 { exampleChannel with team := 2 }).put 7 exampleChannel
  userChannels := [⟨8, 2, .chat, 1, 0, false, false, 0, false⟩, ⟨7, 2, .chat, 2, 0, false, false, 0, false⟩]
  inbox uid _ := if uid = 2 then 2 else 0
  receiptsOff _ _ := false
  pkey := by decide
  index := by decide

end Foks.Realtime
