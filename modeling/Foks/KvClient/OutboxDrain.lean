import Foks.KvClient.OutboxRules

/-!
# Draining the outbox

A drain takes a snapshot of the queued writes, sorts them so that writes to one directory keep their
order, and sends one after the other. What it has not sent yet is still queued, and all that
precedes one of its items in a directory is an item too, unless a write was passed over.
-/

namespace Foks.KvClient

open Lib KvStore List Prog Function Except Threads
open Option (mem_unique some)

variable {ordered : Prop} {i : ℕ} {s s₁ : Shared} {db db' : OutboxDb} {hint : Hint} {eid : KVNodeID}
  {it : DrainItem}
  {its items : List DrainItem}

/-! ## The items of a drain -/

/-- The items that a drain has not sent yet: all of them are queued, and so are only those that
precede one of them. -/
structure Remaining (ordered : Prop) (its : List DrainItem) (db : OutboxDb) : Prop where
  queued : ∀ it ∈ its, ∃ ent, db.Queued it.eid ent ∧ ent.ord = it.ord ∧ ent.box = it.payload
  nodup : its.Pairwise (·.eid ≠ ·.eid)
  sorted : its.Pairwise fun a b => SameParent a.payload b.payload → a.ord ≤ b.ord
  covers : ordered → ∀ it ∈ its, ∀ eid ent, db.Queued eid ent → SameParent ent.box it.payload →
    ent.ord < it.ord → ∃ it' ∈ its, it'.eid = eid

section Remaining

theorem Remaining.inTurn (h : Remaining ordered (it :: its) db) (hordered : ordered) :
    InTurn it db := by
  intro eid ent hent hsame
  by_contra hlt
  obtain ⟨it', hit', rfl⟩ :=
    h.covers hordered it mem_cons_self eid ent hent hsame (Nat.lt_of_not_le hlt)
  obtain ⟨ent', hent', hord, hbox⟩ := h.queued it' hit'
  obtain rfl := mem_unique hent.1 hent'.1
  rcases mem_cons.mp hit' with rfl | hit'
  · exact hlt hord.ge
  · have hle := rel_of_pairwise_cons h.sorted hit' (hbox ▸ hsame.symm)
    exact hlt (hord ▸ hle)

/-- Writes that are queued meanwhile come later. -/
theorem Remaining.grows (h : Remaining ordered its db) (hwf : db.WF) (hgrows : db.Grows db') :
    Remaining ordered its db' where
  queued it hit := by
    obtain ⟨ent, hent, hrest⟩ := h.queued it hit
    exact ⟨ent, ⟨hgrows.rows _ _ hent.1, hent.2⟩, hrest⟩
  nodup := h.nodup
  sorted := h.sorted
  covers hordered it hit eid ent hent hsame hlt := by
    obtain ⟨row, hrow, hord, -⟩ := h.queued it hit
    rcases hgrows.later eid ent hent.1 with hold | hnew
    · exact h.covers hordered it hit eid ent ⟨hold, hent.2⟩ hsame hlt
    · have hbound := hwf.ord_lt hrow.1
      omega

/-- The first item is done with: it is not queued any more, or none of the others has to wait for
it. -/
theorem Remaining.tail (h : Remaining ordered (it :: its) db) (hchanges : db.Changes it.eid db')
    (hdone : ordered → ∀ ent, db'.Queued it.eid ent → ∀ it' ∈ its, SameParent ent.box it'.payload →
      it'.ord ≤ ent.ord) : Remaining ordered its db' := by
  have hne : ∀ it' ∈ its, it'.eid ≠ it.eid := fun it' hit' =>
    (rel_of_pairwise_cons h.nodup hit').symm
  refine ⟨fun it' hit' => ?_, h.nodup.of_cons, h.sorted.of_cons, ?_⟩
  · obtain ⟨ent, hent, hrest⟩ := h.queued it' (mem_cons_of_mem _ hit')
    exact ⟨ent, ⟨(hchanges _ (hne it' hit')).trans hent.1, hent.2⟩, hrest⟩
  intro hordered it' hit' eid ent hent hsame hlt
  have heid : eid ≠ it.eid := by
    rintro rfl
    exact Nat.not_le_of_lt hlt (hdone hordered ent hent it' hit' hsame)
  have hold : db.Queued eid ent := ⟨(hchanges eid heid).symm.trans hent.1, hent.2⟩
  obtain ⟨it'', hit'', rfl⟩ := h.covers hordered it' (mem_cons_of_mem _ hit') eid ent hold hsame hlt
  rcases mem_cons.mp hit'' with rfl | hit''
  · exact absurd rfl heid
  · exact ⟨it'', hit'', rfl⟩

/-- The row of an item changes, and stays queued. -/
theorem Remaining.setRow (h : Remaining ordered its db) {ent ent' : KVOutboxEntry}
    (hent : db.Queued eid ent) (hchanges : db.Changes eid db') (hent' : db'.rows eid = some ent')
    (hstate : ent'.state = ent.state) (hord : ent'.ord = ent.ord) (hbox : ent'.box = ent.box) :
    Remaining ordered its db' := by
  refine ⟨fun it hit => ?_, h.nodup, h.sorted, fun hordered it hit eid' row hrow hsame hlt => ?_⟩
  · obtain ⟨row, hrow, hrest⟩ := h.queued it hit
    by_cases heq : it.eid = eid
    · obtain rfl := mem_unique hent.1 (heq ▸ hrow.1)
      rw [heq]
      exact ⟨ent', ⟨hent', hstate.trans hent.2⟩, hord.trans hrest.1, hbox.trans hrest.2⟩
    · exact ⟨row, ⟨(hchanges _ heq).trans hrow.1, hrow.2⟩, hrest⟩
  by_cases heq : eid' = eid
  · subst heq
    obtain rfl := mem_unique hent' hrow.1
    exact h.covers hordered it hit eid' ent hent (hbox ▸ hsame) (hord ▸ hlt)
  · exact h.covers hordered it hit eid' row ⟨(hchanges eid' heq).symm.trans hrow.1, hrow.2⟩
      hsame hlt

/-- The last item of its directory may stay queued. -/
theorem Remaining.last (h : Remaining ordered (it :: its) db) {ent : KVOutboxEntry}
    (hlast : LastQueued db ent) :
    ∀ it' ∈ its, SameParent ent.box it'.payload → it'.ord ≤ ent.ord := by
  intro it' hit' hsame
  obtain ⟨ent', hent', hord, hbox⟩ := h.queued it' (mem_cons_of_mem _ hit')
  rw [← hord]
  exact hlast it'.eid ent' hent' (hbox ▸ hsame)

end Remaining

/-! ### Their order -/

section Order

variable {keyed : List (KVPath × DrainItem)}

/-- Two writes to one directory are in one group. -/
theorem SameParent.groupKey {a b : DrainItem} (h : SameParent a.payload b.payload)
    {key key' : KVPath}
    (ha : groupKey a = .ok key) (hb : groupKey b = .ok key') : key = key' := by
  obtain ⟨parent, file, file', hpa, hpb⟩ := h
  unfold KvClient.groupKey at ha hb
  rw [hpa] at ha
  rw [hpb] at hb
  exact ok_unique ha hb

/-- The items with the texts that they are grouped by. -/
theorem keyed_spec (h : (items.mapM fun it => do
      let key ← groupKey it
      return (key, it)) = .ok keyed) :
    keyed.map Prod.snd = items ∧ ∀ x ∈ keyed, groupKey x.2 = .ok x.1 := by
  rw [mapM_iff_forall₂] at h
  induction h with
  | nil => exact ⟨rfl, forall_mem_nil _⟩
  | @cons it x items keyed hx _ ih =>
    obtain ⟨key, hkey, hret⟩ := bind_eq_ok.mp hx
    obtain rfl := ok.inj hret
    refine ⟨congrArg (it :: ·) ih.1, fun y hy => ?_⟩
    rcases mem_cons.mp hy with rfl | hy
    · exact hkey
    · exact ih.2 y hy

/-- One group of a drain. -/
def groupItems (keyed : List (KVPath × DrainItem)) (gk : KVPath) : List DrainItem :=
  ((keyed.filter (·.1 = gk)).map Prod.snd).insertionSort fun a b => a.ord ≤ b.ord

theorem mem_groupItems {gk : KVPath} : it ∈ groupItems keyed gk ↔ (gk, it) ∈ keyed := by
  unfold groupItems
  rw [mem_insertionSort, mem_map]
  constructor
  · rintro ⟨x, hx, rfl⟩
    obtain ⟨hx, hgk⟩ := mem_filter.mp hx
    rwa [← of_decide_eq_true hgk]
  · intro hit
    exact ⟨(gk, it), mem_filter.mpr ⟨hit, decide_eq_true rfl⟩, rfl⟩

/-- The items of a drain: group by group, each group in its order. -/
theorem drainOrder_spec (h : drainOrder items = .ok its) (hnodup : items.Pairwise (·.eid ≠ ·.eid)) :
    (∀ it, it ∈ its ↔ it ∈ items) ∧ its.Pairwise (·.eid ≠ ·.eid) ∧
      its.Pairwise fun a b => SameParent a.payload b.payload → a.ord ≤ b.ord := by
  obtain ⟨keyed, hkeyed, hret⟩ := bind_eq_ok.mp h
  obtain ⟨hitems, hkeys⟩ := keyed_spec hkeyed
  obtain rfl := ok.inj hret
  have hmem : ∀ gk it, (gk, it) ∈ keyed → it ∈ items := by
    intro gk it hit
    rw [← hitems]
    exact mem_map_of_mem hit
  -- items of two groups are different, and so are their IDs
  have hinj : ∀ a ∈ items, ∀ b ∈ items, a.eid = b.eid → a = b := by
    intro a ha b hb heq
    exact inj_on_of_nodup_map (pairwise_map.mpr hnodup) ha hb heq
  have hgroups : ((keyed.map Prod.fst).dedup.insertionSort fun a b => a ≤ b).Pairwise fun g g' =>
      ∀ a ∈ groupItems keyed g, ∀ b ∈ groupItems keyed g', g ≠ g' := by
    have hne : ((keyed.map Prod.fst).dedup.insertionSort fun a b => a ≤ b).Pairwise (· ≠ ·) :=
      (perm_insertionSort ..).nodup_iff.mpr (nodup_dedup _)
    exact hne.imp fun hne _ _ _ _ => hne
  refine ⟨fun it => ?_, pairwise_flatMap.mpr ⟨fun gk _ => ?_, hgroups.imp ?_⟩,
    pairwise_flatMap.mpr ⟨fun gk _ => ?_, hgroups.imp ?_⟩⟩
  · rw [mem_flatMap]
    constructor
    · rintro ⟨gk, -, hit⟩
      exact hmem gk it (mem_groupItems.mp hit)
    · intro hit
      rw [← hitems] at hit
      obtain ⟨x, hx, rfl⟩ := mem_map.mp hit
      refine ⟨x.1, ?_, mem_groupItems.mpr hx⟩
      exact (mem_insertionSort _).mpr (mem_dedup.mpr (mem_map_of_mem hx))
  · have hsub : ((keyed.filter (·.1 = gk)).map Prod.snd).Sublist items :=
      hitems ▸ filter_sublist.map _
    exact (perm_insertionSort ..).symm.pairwise (hnodup.sublist hsub) fun hne => hne.symm
  · intro g g' hgroup a ha b hb heq
    obtain rfl := hinj a (hmem g a (mem_groupItems.mp ha)) b (hmem g' b (mem_groupItems.mp hb)) heq
    have hkey := hkeys _ (mem_groupItems.mp ha)
    have hkey' := hkeys _ (mem_groupItems.mp hb)
    exact hgroup a ha a hb (ok_unique hkey hkey')
  · refine (pairwise_insertionSort (fun a b : DrainItem => a.ord ≤ b.ord) _).imp ?_
    exact fun hle _ => hle
  intro g g' hgroup a ha b hb hsame
  refine absurd ?_ (hgroup a ha b hb)
  exact hsame.groupKey (hkeys _ (mem_groupItems.mp ha)) (hkeys _ (mem_groupItems.mp hb))

end Order

/-! ### The snapshot -/

/-- What the loop over the index finds. -/
structure Snapped (ordered : Prop) (db : OutboxDb) (ies : List KVOutboxIndexEntry)
    (items : List DrainItem) : Prop where
  queued : ∀ it ∈ items, ∃ ent, db.Queued it.eid ent ∧ ent.ord = it.ord ∧ ent.box = it.payload
  sublist : (items.map (·.eid)).Sublist (ies.map (·.eid))
  passed : ordered → ∀ ie ∈ ies, ∀ ent, db.Queued ie.eid ent → (∃ it ∈ items, it.eid = ie.eid) ∨
    LastQueued db ent

section Snapshot

variable {ie : KVOutboxIndexEntry} {ies : List KVOutboxIndexEntry}

theorem Snapped.nil (ordered : Prop) (db : OutboxDb) : Snapped ordered db [] [] :=
  ⟨forall_mem_nil _, .slnil, fun _ _ h => absurd h not_mem_nil⟩

/-- An entry is passed over. -/
theorem Snapped.skip (h : Snapped ordered db ies items)
    (hpass : ordered → ∀ ent, db.Queued ie.eid ent → LastQueued db ent) :
    Snapped ordered db (ie :: ies) items := by
  refine ⟨h.queued, h.sublist.cons _, fun hordered ie' hie' ent hent => ?_⟩
  rcases mem_cons.mp hie' with rfl | hie'
  · exact .inr (hpass hordered ent hent)
  · exact h.passed hordered ie' hie' ent hent

theorem Snapped.cons (h : Snapped ordered db ies items) {ent : KVOutboxEntry}
    (hent : db.Queued ie.eid ent) :
    Snapped ordered db (ie :: ies) (⟨ie.eid, ent.ord, ent.box⟩ :: items) := by
  refine ⟨fun it hit => ?_, h.sublist.cons_cons _, fun hordered ie' hie' ent' hent' => ?_⟩
  · rcases mem_cons.mp hit with rfl | hit
    · exact ⟨ent, hent, rfl, rfl⟩
    · exact h.queued it hit
  rcases mem_cons.mp hie' with rfl | hie'
  · exact .inl ⟨_, mem_cons_self, rfl⟩
  rcases h.passed hordered ie' hie' ent' hent' with ⟨it, hit, heid⟩ | hlast
  · exact .inl ⟨it, mem_cons_of_mem _ hit, heid⟩
  · exact .inr hlast

theorem Under.snapshotFrom (hwf : db.WF) :
    ∀ (ies : List KVOutboxIndexEntry), (∀ ie ∈ ies, ie ∈ db.index.entries) → ∀ s₁,
      Under ordered i s db hint s₁ → Keeps ordered i (snapshotFrom ies)
        (fun s₂ res => Under ordered i s db hint s₂ ∧ ∃ items, res = .ok (items, []) ∧
          Snapped ordered db ies items) s₁
  | [], _, s₁, h => ⟨h, [], rfl, .nil ordered db⟩
  | ie :: ies, hmem, s₁, h => by
    obtain ⟨row, hrow, hstate, -⟩ := hwf.row ie (hmem ie mem_cons_self)
    have hrest := Under.snapshotFrom hwf ies fun ie' hie' => hmem ie' (mem_cons_of_mem _ hie')
    -- the entry is passed over, and the loop goes on
    have hskip : (ordered → ∀ ent, db.Queued ie.eid ent → LastQueued db ent) → ∀ s₂,
        Under ordered i s db hint s₂ → Keeps ordered i (KvClient.snapshotFrom ies)
          (fun s₃ res => Under ordered i s db hint s₃ ∧ ∃ items, res = .ok (items, []) ∧
            Snapped ordered db (ie :: ies) items) s₂ := by
      refine fun hpass s₂ h2 => (hrest s₂ h2).mono ?_
      rintro s₃ res ⟨h3, items, hres, hitems⟩
      exact ⟨h3, items, hres, hitems.skip hpass⟩
    have hparked : row.state ≠ .queued → ordered → ∀ ent, db.Queued ie.eid ent →
        LastQueued db ent := by
      intro hne _ ent hent
      obtain rfl := mem_unique hrow hent.1
      exact absurd hent.2 hne
    rw [KvClient.snapshotFrom]
    split
    · next hie => exact hskip (hparked (hstate ▸ hie)) s₁ h
    refine keeps_bind_ok (h.readEntry .snapshot ie.eid) ?_
    rintro s₂ read ⟨h2, hread, hunread⟩
    match read with
    | .error e => exact hskip (fun hordered ent => hunread hordered rfl e ent rfl) s₂ h2
    | .ok none => cases (hread none rfl).trans hrow
    | .ok (some ent) =>
      obtain rfl := some.inj ((hread (some ent) rfl).trans hrow)
      dsimp only
      split
      · next hne => exact hskip (hparked hne) s₂ h2
      · next hqueued =>
        refine keeps_bind_ok (h2.openPayload .snapshot ent) ?_
        rintro s₃ opened ⟨h3, hopened, hunopened⟩
        match opened with
        | .error e =>
          refine hskip (fun hordered ent' hent' => ?_) s₃ h3
          obtain rfl := mem_unique hrow hent'.1
          exact hunopened hordered rfl e rfl
        | .ok payload =>
          obtain rfl := hopened payload rfl
          refine keeps_bind (hrest s₃ h3) ?_ (fun s4 e h4 => ?_)
          · rintro s4 ⟨items, drop⟩ ⟨h4, items', hitems', hsnapped⟩
            obtain ⟨rfl, rfl⟩ := Prod.mk.inj (ok.inj hitems')
            exact ⟨h4, _, rfl, hsnapped.cons ⟨hrow, not_not.mp hqueued⟩⟩
          · obtain ⟨-, items, he, -⟩ := h4
            cases he

/-- A drain starts with its whole snapshot. -/
theorem Snapped.remaining (h : Snapped ordered db db.index.entries items) (hwf : db.WF)
    (hits : drainOrder items = .ok its) : Remaining ordered its db := by
  have hnodup : items.Pairwise (·.eid ≠ ·.eid) := pairwise_map.mp (hwf.nodup.sublist h.sublist)
  obtain ⟨hmem, hnodup', hsorted⟩ := drainOrder_spec hits hnodup
  refine ⟨fun it hit => h.queued it ((hmem it).mp hit), hnodup', hsorted, ?_⟩
  intro hordered it hit eid ent hent hsame hlt
  obtain ⟨ie, hie, rfl⟩ := hwf.listed eid ent hent.1
  rcases h.passed hordered ie hie ent hent with ⟨it', hit', heid⟩ | hlast
  · exact ⟨it', (hmem it').mpr hit', heid⟩
  -- the item itself is later in the directory
  obtain ⟨row, hrow, hord, hbox⟩ := h.queued it ((hmem it).mp hit)
  have hle := hlast it.eid row hrow (hbox ▸ hsame)
  omega

end Snapshot

/-! ## Drains -/

/-- Thread `i` has set the flag, and holds no lock. -/
structure Drains (ordered : Prop) (i : ℕ) (s : Shared) : Prop where
  inv : Inv ordered s
  lock : s.lock ≠ some i
  flag : s.flag = some i

section Drain

theorem After.drains (h : After ordered i s db s₁) (hs : Drains ordered i s) :
    Drains ordered i s₁ ∧ db.Grows s₁.db :=
  ⟨⟨h.inv, h.lock, h.flag.mp hs.flag⟩, h.grows hs.flag⟩

theorem Under.hasOutboxWork (h : Under ordered i s db hint s₁) :
    Keeps ordered i hasOutboxWork (fun s₂ res => Under ordered i s db hint s₂ ∧
      (res = .ok false → db.NoneQueued)) s₁ := by
  refine keeps_bind h.getOutboxIndex ?_ (fun s₂ e h2 => ⟨h2.1, nofun⟩)
  rintro s₂ idx ⟨h2, hidx⟩
  obtain rfl := hidx idx rfl
  refine ⟨h2, fun hfalse ie hie hqueued => ?_⟩
  have hany := any_eq_false.mp (ok.inj hfalse) ie hie
  exact hany (decide_eq_true hqueued)

theorem keeps_settleHint (hinv : Inv ordered s) :
    Keeps ordered i settleHint (fun s' _ => ∃ db, After ordered i s db s' ∧ True) s := by
  refine keeps_withLock hinv fun _ s₁ h1 => ?_
  refine keeps_bind_ok (keeps_tried h1.hasOutboxWork) ?_
  rintro s₂ work ⟨h2, hnone⟩
  refine (h2.storeHint _).mono fun s₃ res h3 => ⟨s.db, _, h3.2, fun hempty => ?_, trivial⟩
  match work with
  | .error e => cases hempty
  | .ok true => cases hempty
  | .ok false => exact hnone rfl

/-- After an item that is not queued any more, the drain goes on with the next. -/
theorem Remaining.next (hits : Remaining ordered (it :: its) s.db) (h : After ordered i s db s₁)
    (hs : Drains ordered i s) (hchanges : s.db.Changes it.eid db)
      (hdone : ∀ ent, ¬ db.Queued it.eid ent) :
    Drains ordered i s₁ ∧ Remaining ordered its s₁.db := by
  obtain ⟨hs1, hgrows⟩ := h.drains hs
  have htail : Remaining ordered its db := hits.tail hchanges fun _ ent hent =>
    absurd hent (hdone ent)
  exact ⟨hs1, htail.grows h.wf hgrows⟩

section Item

variable (hs : Drains ordered i s) (hits : Remaining ordered (it :: its) s.db)

include hs hits

/-- A queued write is sent in its turn. -/
theorem Drains.drainOne :
    Keeps ordered i (drainOne it) (fun s₁ res => ∃ outcome, res = .ok outcome ∧
      Drains ordered i s₁ ∧
      Remaining ordered (it :: its) s₁.db ∧ (ordered → outcome.1 = .retryLater →
        ∀ ent, s₁.db.rows it.eid = some ent →
        ent.attempts + 1 < maxKVDrainRetries → ∀ it' ∈ its, SameParent ent.box it'.payload →
            it'.ord ≤ ent.ord)) s := by
  obtain ⟨ent, hent, hord, hbox⟩ := hits.queued it mem_cons_self
  refine keeps_call fun outcome s₁ hstep => ?_
  obtain rfl : s₁ = _ := hstep.1
  have hinv : Inv ordered { s with attempts := s.attempts ++ [(it, s.db)] } := by
    refine ⟨hs.inv.wf, hs.inv.hint, hs.inv.drawn, fun x hx => ?_⟩
    rcases mem_append.mp hx with hx | hx
    · exact hs.inv.attempts x hx
    · obtain rfl := mem_singleton.mp hx
      exact ⟨⟨ent, hent⟩, hits.inTurn⟩
  refine ⟨⟨fun _ => ⟨rfl, rfl⟩, fun _ _ => .rfl, fun _ _ => .rfl, fun _ => .refl _,
    fun _ _ _ hdrawn => ⟨hdrawn, id⟩⟩, hinv, fun s₂ hinv2 hrely => ?_⟩
  have hgrows : s.db.Grows s₂.db := hrely.grows hs.flag
  refine ⟨outcome, rfl, ⟨hinv2, fun hi => hs.lock (hrely.lock.mpr hi), hrely.flag.mp hs.flag⟩,
    hits.grows hs.inv.wf hgrows, fun hordered hretry row hrow hattempts => ?_⟩
  obtain rfl := mem_unique hrow (hgrows.rows _ _ hent.1)
  exact hits.last (hstep.2 hordered hretry row hent.1 hattempts)

theorem Drains.removeOutbox : Keeps ordered i (withLock (removeOutbox it.eid))
      (fun s₁ res => Drains ordered i s₁ ∧ (res = .ok () → Remaining ordered its s₁.db)) s := by
  refine (keeps_withLock hs.inv fun hnone s₁ h1 =>
    h1.removeOutbox hs.inv.wf hs.flag hnone it.eid).mono ?_
  rintro s₁ res ⟨db, hafter, hdb⟩
  refine ⟨(hafter.drains hs).1, fun hok => ?_⟩
  obtain ⟨hchanges, hrow⟩ := hdb hok
  refine (hits.next hafter hs hchanges fun ent hent => ?_).2
  cases hrow.symm.trans hent.1

/-- An item is parked. -/
theorem Drains.setOutboxStateInner (state : KVOutboxState) (hstate : state ≠ .queued)
    (lastErr : StatusCode) (countAttempt : Bool) :
    Keeps ordered i (withLock (setOutboxStateInner it.eid state lastErr countAttempt))
      (fun s₁ res => Drains ordered i s₁ ∧ (res = .ok () → Remaining ordered its s₁.db)) s := by
  refine (keeps_withLock hs.inv fun hnone s₁ h1 =>
    h1.setOutboxStateInner hs.inv.wf hs.flag hnone it.eid hstate lastErr countAttempt).mono ?_
  rintro s₁ res ⟨db, hafter, hdb⟩
  refine ⟨(hafter.drains hs).1, fun hok => ?_⟩
  obtain ⟨hchanges, hparked⟩ := hdb hok
  exact (hits.next hafter hs hchanges hparked).2

/-- An attempt is counted. The item stays queued, and the next may be sent if it does not have to
wait. -/
theorem Drains.noteOutboxAttempt
    (hretry : ordered → ∀ ent, s.db.rows it.eid = some ent → ent.attempts + 1 < maxKVDrainRetries →
      ∀ it' ∈ its, SameParent ent.box it'.payload → it'.ord ≤ ent.ord) (lastErr : StatusCode) :
    Keeps ordered i (withLock (noteOutboxAttempt it.eid lastErr))
      (fun s₁ res => Drains ordered i s₁ ∧ ∀ n, res = .ok n → Remaining ordered (it :: its) s₁.db ∧
        (n < maxKVDrainRetries → Remaining ordered its s₁.db)) s := by
  refine (keeps_withLock hs.inv fun hnone s₁ h1 =>
    h1.noteOutboxAttempt hs.inv.wf hs.flag hnone it.eid lastErr).mono ?_
  rintro s₁ res ⟨db, hafter, hdb⟩
  obtain ⟨hs1, hgrows⟩ := hafter.drains hs
  refine ⟨hs1, fun n hn => ?_⟩
  obtain ⟨ent, hent, hord, hbox⟩ := hits.queued it mem_cons_self
  obtain ⟨rfl, hchanges, hrow⟩ := hdb n ent hn hent.1
  refine ⟨Remaining.grows ?_ hafter.wf hgrows, fun hlt => Remaining.grows ?_ hafter.wf hgrows⟩
  · exact hits.setRow hent hchanges hrow rfl rfl rfl
  refine hits.tail hchanges fun hordered row hqueued => ?_
  obtain rfl := mem_unique hrow hqueued.1
  exact hretry hordered ent hent.1 hlt

end Item

theorem Drains.settleHint (hs : Drains ordered i s) :
    Keeps ordered i settleHint (fun s₁ _ => Drains ordered i s₁) s := by
  refine (keeps_settleHint hs.inv).mono ?_
  rintro s₁ res ⟨db, hafter, -⟩
  exact (hafter.drains hs).1

open Drains

/-- The loop of a drain sends each item in its turn. -/
theorem Drains.drainItems (n : ℕ) : ∀ (its : List DrainItem) (res : KVDrainResult) (s : Shared),
    Drains ordered i s → Remaining ordered its s.db →
      Keeps ordered i (drainItems n its res) (fun s₁ _ => Drains ordered i s₁) s
  | [], res, s, hs, _ => keeps_bind hs.settleHint (fun s₁ _ hs1 => keeps_pure hs1)
    (fun _ _ hs1 => hs1)
  | it :: its, res, s, hs, hits => by
    refine keeps_bind_ok (hs.drainOne hits) ?_
    rintro s₁ ⟨outcome, derr⟩ ⟨hs1, hits1, hretry⟩
    cases outcome with
    | retired =>
      refine keeps_bind (hs1.removeOutbox hits1) ?_ (fun s₂ e h2 => h2.1)
      exact fun s₂ u h2 => drainItems n its _ s₂ h2.1 (h2.2 rfl)
    | transport =>
      exact keeps_bind hs1.settleHint (fun s₂ _ hs2 => keeps_pure hs2) (fun _ _ hs2 => hs2)
    | retryLater =>
      refine keeps_bind (hs1.noteOutboxAttempt hits1 (fun hordered => hretry hordered rfl) derr) ?_
        (fun s₂ e h2 => h2.1)
      rintro s₂ attempts ⟨hs2, hits2⟩
      obtain ⟨hits2, hnext⟩ := hits2 attempts rfl
      split
      · refine keeps_bind (hs2.setOutboxStateInner hits2 .failed nofun derr false) ?_
          (fun s₃ e h3 => h3.1)
        exact fun s₃ u h3 => drainItems n its _ s₃ h3.1 (h3.2 rfl)
      · next hlt => exact drainItems n its _ s₂ hs2 (hnext (Nat.lt_of_not_le hlt))
    | conflicted =>
      refine keeps_bind (hs1.setOutboxStateInner hits1 .conflicted nofun derr true) ?_
        (fun s₂ e h2 => h2.1)
      exact fun s₂ u h2 => drainItems n its _ s₂ h2.1 (h2.2 rfl)
    | failed =>
      refine keeps_bind (hs1.setOutboxStateInner hits1 .failed nofun derr true) ?_
        (fun s₂ e h2 => h2.1)
      exact fun s₂ u h2 => drainItems n its _ s₂ h2.1 (h2.2 rfl)

variable (hs : Drains ordered i s)

include hs

theorem Drains.snapshot :
    Keeps ordered i snapshot (fun s₁ res => Drains ordered i s₁ ∧ ∀ items its, res = .ok items →
      drainOrder items = .ok its → Remaining ordered its s₁.db) s := by
  have hlocked : Keeps ordered i KvClient.snapshot (fun s₁ res => ∃ db, After ordered i s db s₁ ∧
      (db = s.db ∧ ∀ items, res = .ok items →
        Snapped ordered s.db s.db.index.entries items)) s := by
    refine keeps_withLock hs.inv fun hnone s₁ h1 => ?_
    refine keeps_bind h1.getOutboxIndex ?_ (fun s₂ e h2 => ⟨s.db, s.hint, h2.1, hnone, rfl, nofun⟩)
    rintro s₂ idx ⟨h2, hidx⟩
    obtain rfl := hidx idx rfl
    refine keeps_bind (Under.snapshotFrom hs.inv.wf _ (fun _ hie => hie) s₂ h2) ?_
      (fun s₃ e h3 => ⟨s.db, s.hint, h3.1, hnone, rfl, nofun⟩)
    rintro s₃ ⟨items, drop⟩ ⟨h3, items', hitems', hsnapped⟩
    obtain ⟨rfl, rfl⟩ := Prod.mk.inj (ok.inj hitems')
    exact ⟨s.db, s.hint, h3, hnone, rfl, fun items'' hok => ok.inj hok ▸ hsnapped⟩
  refine hlocked.mono ?_
  rintro s₁ res ⟨db, hafter, rfl, hsnapped⟩
  obtain ⟨hs1, hgrows⟩ := hafter.drains hs
  refine ⟨hs1, fun items its hok hits => ?_⟩
  exact ((hsnapped items hok).remaining hs.inv.wf hits).grows hs.inv.wf hgrows

theorem Drains.drainOutboxWithParty :
    Keeps ordered i drainOutboxWithParty (fun s₁ _ => Drains ordered i s₁) s := by
  refine keeps_bind hs.snapshot ?_ (fun s₁ e h1 => h1.1)
  rintro s₁ items ⟨hs1, hits⟩
  have horder : Keeps ordered i (drainOrder items : Except CoreError (List DrainItem))
      (fun s₂ res => Drains ordered i s₂ ∧ ∀ its, res = .ok its → Remaining ordered its s₂.db) s₁ :=
    meets_lift ⟨hs1, fun its => hits items its rfl⟩
  refine keeps_bind horder ?_ (fun s₂ e h2 => h2.1)
  exact fun s₂ its h2 => drainItems _ its {} s₂ h2.1 (h2.2 its rfl)

theorem Drains.drainFlagged :
    Keeps ordered i drainFlagged (fun s₁ res => ∃ res', res = .ok res' ∧ Idle i s₁) s := by
  refine keeps_bind_ok (keeps_tried hs.drainOutboxWithParty) fun s₁ res hs1 => ?_
  have hclear : Keeps ordered i clearFlag (fun s₂ res => ∃ u, res = .ok u ∧ Idle i s₂) s₁ := by
    refine keeps_call fun u s₂ hstep => ?_
    obtain rfl : s₂ = _ := hstep.1
    refine ⟨⟨fun _ => ⟨rfl, rfl⟩, fun _ _ => .rfl, fun j hj => ?_, fun _ => .refl _,
      fun _ _ _ hdrawn => ⟨hdrawn, id⟩⟩,
        ⟨hs1.inv.wf, hs1.inv.hint, hs1.inv.drawn, hs1.inv.attempts⟩, ?_⟩
    · rw [hs1.flag]
      exact ⟨fun h => absurd (some.inj h).symm hj, nofun⟩
    · intro s₃ _ hrely
      exact ⟨(), rfl, fun hi => hs1.lock (hrely.lock.mpr hi), fun hi => nomatch hrely.flag.mpr hi⟩
  exact keeps_bind_ok hclear fun s₂ u h2 => keeps_pure ⟨res, rfl, h2⟩

end Drain

end Foks.KvClient
