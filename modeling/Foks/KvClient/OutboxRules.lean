import Foks.KvClient.Outbox

/-!
# Threads of the outbox

The pact that a thread of the outbox keeps. While it holds the lock, the rows and the hint are its
own; while it drains, others only add writes; and nobody else uses the IDs that it has drawn. The
rules here say for each question of a thread what it finds and what it leaves, so that an operation
is followed from one question to the next: first for a question by itself, then under the lock, and
then for the operations that change one row or add one.
-/

namespace Foks.KvClient

open Lib KvStore List Prog Function Except Threads
open Option (mem_unique some)

variable {ordered : Prop} {i : ℕ} {s s₁ : Shared} {db db' : OutboxDb} {hint : Hint} {eid : KVNodeID}
  {it : DrainItem}
  {its items : List DrainItem}

/-! ## The rows and the index -/

/-- The row is there, and it is queued. -/
def OutboxDb.Queued (db : OutboxDb) (eid : KVNodeID) (ent : KVOutboxEntry) : Prop :=
  db.rows eid = some ent ∧ ent.state = .queued

/-- The index lists the rows, with their states, in their order. -/
structure OutboxDb.WF (db : OutboxDb) : Prop where
  sorted : db.index.entries.Pairwise (·.ord < ·.ord)
  nodup : (db.index.entries.map (·.eid)).Nodup
  bound : ∀ ie ∈ db.index.entries, ie.ord < db.index.nextOrd
  row : ∀ ie ∈ db.index.entries, ∃ ent, db.rows ie.eid = some ent ∧ ent.state = ie.state ∧
    ent.ord = ie.ord
  listed : ∀ eid ent, db.rows eid = some ent → ∃ ie ∈ db.index.entries, ie.eid = eid

/-- No write is queued, as the index says. -/
def OutboxDb.NoneQueued (db : OutboxDb) : Prop := ∀ ie ∈ db.index.entries, ie.state ≠ .queued

section Db

variable {ent ent' : KVOutboxEntry}

theorem OutboxDb.wf_empty : ({} : OutboxDb).WF where
  sorted := .nil
  nodup := nodup_nil
  bound _ h := absurd h not_mem_nil
  row _ h := absurd h not_mem_nil
  listed _ _ h := nomatch h

/-- An entry is added at the end. -/
theorem OutboxDb.WF.enqueue (h : db.WF) (hnew : db.rows eid = none) (rg : RoleAndGen)
    (payload : KVOutboxPayload) :
    (db.putTx ⟨eid, some { state := .queued, rg, box := payload, ord := db.index.nextOrd },
      some ⟨db.index.entries ++ [⟨db.index.nextOrd, eid, .queued⟩], db.index.nextOrd + 1⟩⟩).WF := by
  have hne : ∀ ie ∈ db.index.entries, ie.eid ≠ eid := by
    rintro ie hie rfl
    obtain ⟨ent, hent, -⟩ := h.row ie hie
    rw [hnew] at hent
    cases hent
  constructor
  · refine pairwise_append.mpr ⟨h.sorted, pairwise_singleton _ _, fun ie hie new hnew => ?_⟩
    rw [mem_singleton.mp hnew]
    exact h.bound ie hie
  · change ((db.index.entries ++ [_]).map _).Nodup
    rw [map_append]
    refine h.nodup.append (nodup_singleton _) fun x hx hx' => ?_
    obtain ⟨ie, hie, rfl⟩ := mem_map.mp hx
    exact hne ie hie (mem_singleton.mp hx')
  · intro ie hie
    rcases mem_append.mp hie with hie | hie
    · exact Nat.lt_succ_of_lt (h.bound ie hie)
    · rw [mem_singleton.mp hie]
      exact Nat.lt_succ_self _
  · intro ie hie
    rcases mem_append.mp hie with hie | hie
    · obtain ⟨ent, hent, hrest⟩ := h.row ie hie
      exact ⟨ent, (update_of_ne (hne ie hie) _ _).trans hent, hrest⟩
    · rw [mem_singleton.mp hie]
      exact ⟨_, update_self .., rfl, rfl⟩
  · intro eid' ent hent
    by_cases heq : eid' = eid
    · exact ⟨_, mem_append_right _ (mem_singleton_self _), heq.symm⟩
    · obtain ⟨ie, hie, hieid⟩ := h.listed eid' ent ((update_of_ne heq _ _).symm.trans hent)
      exact ⟨ie, mem_append_left _ hie, hieid⟩

theorem OutboxDb.WF.remove (h : db.WF) (eid : KVNodeID) :
    (db.putTx ⟨eid, none, some { db.index with
      entries := db.index.entries.filter (·.eid ≠ eid) }⟩).WF := by
  have hmem : ∀ ie, ie ∈ db.index.entries.filter (·.eid ≠ eid) ↔ ie ∈ db.index.entries ∧
      ie.eid ≠ eid := by
    intro ie
    rw [mem_filter, decide_eq_true_iff]
  constructor
  · exact h.sorted.filter _
  · exact h.nodup.sublist (filter_sublist.map _)
  · exact fun ie hie => h.bound ie ((hmem ie).mp hie).1
  · intro ie hie
    obtain ⟨hie, hne⟩ := (hmem ie).mp hie
    obtain ⟨ent, hent, hrest⟩ := h.row ie hie
    exact ⟨ent, (update_of_ne hne _ _).trans hent, hrest⟩
  · intro eid' ent hent
    have hne : eid' ≠ eid := by
      rintro rfl
      cases (update_self ..).symm.trans hent
    obtain ⟨ie, hie, rfl⟩ := h.listed eid' ent ((update_of_ne hne _ _).symm.trans hent)
    exact ⟨ie, (hmem ie).mpr ⟨hie, hne⟩, rfl⟩

variable (h : db.WF) (hent : db.rows eid = some ent)

include h hent

/-- A row has the number and the state of its entry in the index. -/
theorem OutboxDb.WF.entry : ∃ ie ∈ db.index.entries, ie.eid = eid ∧ ie.state = ent.state ∧
    ie.ord = ent.ord := by
  obtain ⟨ie, hie, rfl⟩ := h.listed eid ent hent
  obtain ⟨ent', hent', hstate, hord⟩ := h.row ie hie
  obtain rfl := mem_unique hent hent'
  exact ⟨ie, hie, rfl, hstate.symm, hord.symm⟩

theorem OutboxDb.WF.ord_lt : ent.ord < db.index.nextOrd := by
  obtain ⟨ie, hie, -, -, hord⟩ := h.entry hent
  exact hord ▸ h.bound ie hie

/-- A row changes, and its entry in the index has the new state. -/
theorem OutboxDb.WF.update (hord : ent'.ord = ent.ord)
    {f : KVOutboxIndexEntry → KVOutboxIndexEntry} (hf : ∀ ie, (f ie).eid = ie.eid ∧
      (f ie).ord = ie.ord)
    (hself : ∀ ie, ie.eid = eid → ie.state = ent.state → ent'.state = (f ie).state)
    (hother : ∀ ie, ie.eid ≠ eid → (f ie).state = ie.state)
      (hindex : db'.index.entries = db.index.entries.map f)
    (hnext : db'.index.nextOrd = db.index.nextOrd)
      (hrows : db'.rows = Function.update db.rows eid (some ent')) :
    db'.WF := by
  constructor
  · rw [hindex]
    refine pairwise_map.mpr (h.sorted.imp fun hlt => ?_)
    rwa [(hf _).2, (hf _).2]
  · rw [hindex, map_map, show (fun ie : KVOutboxIndexEntry => ie.eid) ∘ f = fun ie => ie.eid from
      funext fun ie => (hf ie).1]
    exact h.nodup
  · intro ie hie
    rw [hindex] at hie
    obtain ⟨old, hold, rfl⟩ := mem_map.mp hie
    rw [(hf old).2, hnext]
    exact h.bound old hold
  · intro ie hie
    rw [hindex] at hie
    obtain ⟨old, hold, rfl⟩ := mem_map.mp hie
    obtain ⟨row, hrow, hstate, hrowOrd⟩ := h.row old hold
    rw [hrows, (hf old).1, (hf old).2]
    by_cases heq : old.eid = eid
    · obtain rfl := mem_unique hent (heq ▸ hrow)
      rw [heq, update_self]
      exact ⟨ent', rfl, hself old heq hstate.symm, hord.trans hrowOrd⟩
    · rw [update_of_ne heq]
      exact ⟨row, hrow, hstate.trans (hother old heq).symm, hrowOrd⟩
  · intro eid' row hrow
    obtain ⟨old, hold, hne⟩ : ∃ old ∈ db.index.entries, old.eid = eid' := by
      by_cases heq : eid' = eid
      · rw [heq]
        exact h.listed eid ent hent
      · rw [hrows, update_of_ne heq] at hrow
        exact h.listed eid' row hrow
    rw [hindex]
    exact ⟨f old, mem_map_of_mem hold, (hf old).1.trans hne⟩

/-- A row gets another state, together with its entry in the index. -/
theorem OutboxDb.WF.setState (ent' : KVOutboxEntry) (hord : ent'.ord = ent.ord) :
    (db.putTx ⟨eid, some ent', some { db.index with
      entries := db.index.entries.map fun ie =>
        if ie.eid = eid then { ie with state := ent'.state } else ie }⟩).WF := by
  refine h.update hent hord (fun ie => ?_) (fun ie heq _ => ?_) (fun ie hne => ?_) rfl rfl rfl
  · split
    · exact ⟨rfl, rfl⟩
    · exact ⟨rfl, rfl⟩
  · rw [if_pos heq]
  · rw [if_neg hne]

/-- A row changes, but neither its state nor its number does. -/
theorem OutboxDb.WF.setRow (hstate : ent'.state = ent.state) (hord : ent'.ord = ent.ord) :
    (db.putTx ⟨eid, some ent', none⟩).WF :=
  h.update hent hord (f := id) (fun _ => ⟨rfl, rfl⟩) (fun _ _ hie => hstate.trans hie.symm)
    (fun _ _ => rfl)
    (map_id _).symm rfl rfl

end Db

/-! ## Growing -/

/-- The rows stay, and those that are new come after them. -/
structure OutboxDb.Grows (db db' : OutboxDb) : Prop where
  rows : ∀ eid ent, db.rows eid = some ent → db'.rows eid = some ent
  later : ∀ eid ent, db'.rows eid = some ent → db.rows eid = some ent ∨ db.index.nextOrd ≤ ent.ord
  nextOrd : db.index.nextOrd ≤ db'.index.nextOrd

theorem OutboxDb.Grows.refl (db : OutboxDb) : db.Grows db :=
  ⟨fun _ _ h => h, fun _ _ h => .inl h, le_refl _⟩

theorem OutboxDb.Grows.trans {db1 db2 db3 : OutboxDb} (h : db1.Grows db2) (h' : db2.Grows db3) :
    db1.Grows db3 where
  rows eid ent hent := h'.rows eid ent (h.rows eid ent hent)
  later eid ent hent := by
    rcases h'.later eid ent hent with hent | hle
    · exact h.later eid ent hent
    · exact .inr (h.nextOrd.trans hle)
  nextOrd := h.nextOrd.trans h'.nextOrd

/-! ## The order of a drain -/

/-- Two writes to one directory. -/
def SameParent (a b : KVOutboxPayload) : Prop :=
  ∃ parent file file', splitAbsPath a.path = .ok (parent, file) ∧
    splitAbsPath b.path = .ok (parent, file')

theorem SameParent.symm {a b : KVOutboxPayload} (h : SameParent a b) : SameParent b a := by
  obtain ⟨parent, file, file', ha, hb⟩ := h
  exact ⟨parent, file', file, hb, ha⟩

/-- No write to the same directory is queued before the item. -/
def InTurn (it : DrainItem) (db : OutboxDb) : Prop :=
  ∀ eid ent, db.Queued eid ent → SameParent ent.box it.payload → it.ord ≤ ent.ord

/-- No write to the same directory is queued after this one. -/
def LastQueued (db : OutboxDb) (ent : KVOutboxEntry) : Prop :=
  ∀ eid ent', db.Queued eid ent' → SameParent ent.box ent'.box → ent'.ord ≤ ent.ord

/-- A step that does not pass over a write: a drain cannot read a row, or sends a write that stays
queued, only if no later write to the directory is queued. -/
def Orderly : (q : Ask) → Shared → Answer q → Prop
  | .getOutboxEntry .snapshot eid, s, res =>
    (∃ e, (res : Except CoreError (Option KVOutboxEntry)) = .error e) → ∀ ent, s.db.Queued eid ent →
      LastQueued s.db ent
  | .openOutboxPayload .snapshot ent, s, res =>
    (∃ e, (res : Except CoreError KVOutboxPayload) = .error e) → LastQueued s.db ent
  | .drainOne it, s, res =>
    (res : DrainOutcome × StatusCode).1 = .retryLater →
      ∀ ent, s.db.rows it.eid = some ent → ent.attempts + 1 < maxKVDrainRetries →
        LastQueued s.db ent
  | _, _, _ => True

/-! ## The pacts -/

variable (i s)

/-- What thread `i` relies on: while it holds the lock, the outbox and the hint stay; while it
drains, others only add writes; and nobody else uses the IDs that it has drawn. -/
structure Rely (s' : Shared) : Prop where
  locked : s.lock = some i → s'.db = s.db ∧ s'.hint = s.hint
  lock : s.lock = some i ↔ s'.lock = some i
  flag : s.flag = some i ↔ s'.flag = some i
  grows : s.flag = some i → s.db.Grows s'.db
  drawn : ∀ eid, s.drawn eid = some i → s'.drawn eid = some i ∧
    (s.db.rows eid = none → s'.db.rows eid = none)

/-- What thread `i` does. -/
structure Guar (s' : Shared) : Prop where
  locked : s.lock ≠ some i → s'.db = s.db ∧ s'.hint = s.hint
  lock : ∀ j, j ≠ i → (s.lock = some j ↔ s'.lock = some j)
  flag : ∀ j, j ≠ i → (s.flag = some j ↔ s'.flag = some j)
  grows : s.flag ≠ some i → s.db.Grows s'.db
  drawn : ∀ j eid, j ≠ i → s.drawn eid = some j → s'.drawn eid = some j ∧
    (s.db.rows eid = none → s'.db.rows eid = none)

/-- Thread `i` has neither the lock nor the flag. -/
def Idle : Prop := s.lock ≠ some i ∧ s.flag ≠ some i

variable {i s}

/-- What holds in every state. In ordered runs each attempt was in its turn. -/
structure Inv (ordered : Prop) (s : Shared) : Prop where
  wf : s.db.WF
  hint : s.lock = none → s.hint = .empty → s.db.NoneQueued
  drawn : ∀ eid, s.drawn eid = none → s.db.rows eid = none
  attempts : ∀ x ∈ s.attempts, (∃ ent, x.2.Queued x.1.eid ent) ∧ (ordered → InTurn x.1 x.2)

def outboxPacts (ordered : Prop) : Pacts Shared where
  inv := Inv ordered
  rely := Rely
  guar := Guar
  idle i s := s.lock ≠ some i ∧ s.flag ≠ some i

/-- The steps of a run; in ordered runs all of them are orderly. -/
def steps (ordered : Prop) (i : ℕ) (q : Ask) (s : Shared) (a : Answer q) (s' : Shared) : Prop :=
  answers i q s a s' ∧ (ordered → Orderly q s a)

section Pact

variable {j : ℕ} {s' s₂ s₃ : Shared}

theorem Rely.refl (i : ℕ) (s : Shared) : Rely i s s :=
  ⟨fun _ => ⟨rfl, rfl⟩, .rfl, .rfl, fun _ => .refl _, fun _ h => ⟨h, id⟩⟩

theorem Rely.trans (h : Rely i s₁ s₂) (h' : Rely i s₂ s₃) : Rely i s₁ s₃ where
  locked hlock := by
    obtain ⟨hdb, hhint⟩ := h.locked hlock
    obtain ⟨hdb', hhint'⟩ := h'.locked (h.lock.mp hlock)
    exact ⟨hdb'.trans hdb, hhint'.trans hhint⟩
  lock := h.lock.trans h'.lock
  flag := h.flag.trans h'.flag
  grows hflag := (h.grows hflag).trans (h'.grows (h.flag.mp hflag))
  drawn eid hdrawn := by
    obtain ⟨hdrawn2, hrow⟩ := h.drawn eid hdrawn
    obtain ⟨hdrawn3, hrow'⟩ := h'.drawn eid hdrawn2
    exact ⟨hdrawn3, fun hnone => hrow' (hrow hnone)⟩

theorem Guar.rely (hne : i ≠ j) (h : Guar i s s') : Rely j s s' where
  locked hlock := h.locked fun hi => hne (mem_unique hi hlock)
  lock := h.lock j (Ne.symm hne)
  flag := h.flag j (Ne.symm hne)
  grows hflag := h.grows fun hi => hne (mem_unique hi hflag)
  drawn eid := h.drawn j eid (Ne.symm hne)

theorem Idle.rely (h : Idle i s) (hrely : Rely i s s') : Idle i s' :=
  ⟨fun hi => h.1 (hrely.lock.mpr hi), fun hi => h.2 (hrely.flag.mpr hi)⟩

theorem Guar.refl (i : ℕ) (s : Shared) : Guar i s s :=
  ⟨fun _ => ⟨rfl, rfl⟩, fun _ _ => .rfl, fun _ _ => .rfl, fun _ => .refl _, fun _ _ _ h => ⟨h, id⟩⟩

theorem outboxPacts_fair (ordered : Prop) : (outboxPacts ordered).Fair where
  refl := Rely.refl
  trans := Rely.trans
  guar := Guar.rely
  idle := Idle.rely

end Pact

/-! ## Rules -/

section Rules

variable {α β : Type} {post : Shared → Except CoreError α → Prop} {x : OutboxProg α}
  {f : α → OutboxProg β} {q : Ask}

/-- Thread `i` keeps its pact while it runs the program, and ends as `post` says. -/
def Keeps (ordered : Prop) (i : ℕ) (p : OutboxProg α) (post : Shared → Except CoreError α → Prop)
    (s : Shared) : Prop :=
  p.Meets (steps ordered i) ((outboxPacts ordered).of Ask i) post s

theorem Keeps.mono {p : OutboxProg α} {post' : Shared → Except CoreError α → Prop}
    (h : Keeps ordered i p post s) (hpost : ∀ s res, post s res → post' s res) :
    Keeps ordered i p post' s :=
  Prog.Meets.mono h hpost

theorem keeps_pure {a : α} (h : post s (.ok a)) : Keeps ordered i (pure a) post s := h

theorem keeps_bind {mid : Shared → Except CoreError α → Prop}
    {post : Shared → Except CoreError β → Prop} (hx : Keeps ordered i x mid s)
    (hok : ∀ s₁ a, mid s₁ (.ok a) → Keeps ordered i (f a) post s₁)
    (herror : ∀ s₁ e, mid s₁ (.error e) → post s₁ (.error e)) :
        Keeps ordered i (x >>= f) post s := by
  refine meets_bind (Prog.Meets.mono hx fun s₁ res hmid => ?_)
  cases res with
  | ok a => exact hok s₁ a hmid
  | error e => exact herror s₁ e hmid

/-- The same for a first part that does not fail. -/
theorem keeps_bind_ok {mid : Shared → α → Prop}
    {post : Shared → Except CoreError β → Prop}
      (hx : Keeps ordered i x (fun s₁ res => ∃ a, res = .ok a ∧ mid s₁ a) s)
    (hok : ∀ s₁ a, mid s₁ a → Keeps ordered i (f a) post s₁) :
        Keeps ordered i (x >>= f) post s := by
  refine keeps_bind hx ?_ ?_
  · rintro s₁ a ⟨a', heq, hmid⟩
    cases heq
    exact hok s₁ a hmid
  · rintro s₁ e ⟨a, heq, -⟩
    cases heq

/-- A step, after which others may go on. -/
theorem keeps_call {post : Shared → Except CoreError (Answer q) → Prop}
    (h : ∀ a s₁, steps ordered i q s a s₁ → Guar i s s₁ ∧ Inv ordered s₁ ∧
      ∀ s₂, Inv ordered s₂ → Rely i s₁ s₂ → post s₂ (.ok a)) :
    Keeps ordered i (Prog.call q) post s :=
  meets_call rfl h

/-- A step that changes nothing. -/
theorem keeps_read {post : Shared → Except CoreError (Answer q) → Prop} (hinv : Inv ordered s)
    (hread : ∀ a s₁, answers i q s a s₁ → s₁ = s)
    (h : ∀ a s₁, answers i q s a s → (ordered → Orderly q s a) → Inv ordered s₁ → Rely i s s₁ →
      post s₁ (.ok a)) :
    Keeps ordered i (Prog.call q) post s := by
  refine keeps_call fun a s₁ hstep => ?_
  obtain rfl := hread a s₁ hstep.1
  exact ⟨Guar.refl i s₁, hinv, fun s₂ => h a s₂ hstep.1 hstep.2⟩

theorem keeps_failable {x : OutboxProg (Except CoreError α)}
    (h : Keeps ordered i x (fun s₁ res => ∃ res', res = .ok res' ∧ post s₁ res') s) :
    Keeps ordered i (failable x) post s := by
  refine keeps_bind h ?_ ?_
  · rintro s₁ a ⟨res, hres, hpost⟩
    obtain rfl := ok.inj hres
    exact hpost
  · rintro s₁ e ⟨res, hres, -⟩
    cases hres

/-- A failure is kept as a value. -/
theorem keeps_tried (h : Keeps ordered i x post s) :
    Keeps ordered i x.tried (fun s₁ res => ∃ res', res = .ok res' ∧ post s₁ res') s :=
  meets_tried (Keeps.mono h fun _ res hpost => ⟨res, rfl, hpost⟩)

/-! ### Under the lock -/

variable (ordered i s)

/-- Thread `i` holds the lock since `s`, and meanwhile the outbox and the hint have become these. -/
structure Under (db : OutboxDb) (hint : Hint) (s' : Shared) : Prop where
  inv : Inv ordered s'
  lock : s'.lock = some i
  flag : s.flag = some i ↔ s'.flag = some i
  drawn : ∀ eid, s.drawn eid = some i → s'.drawn eid = some i
  db : s'.db = db
  hint : s'.hint = hint

/-- Thread `i` holds the lock since `s`, and may release it with an outbox that is as `mid` says. -/
def Leaves (mid : OutboxDb → Prop) (s' : Shared) : Prop :=
  ∃ db hint, Under ordered i s db hint s' ∧ (hint = .empty → db.NoneQueued) ∧ mid db

/-- Thread `i` has released the lock that it held since `s`, and left the outbox `db`. -/
structure After (db : OutboxDb) (s' : Shared) : Prop where
  inv : Inv ordered s'
  wf : db.WF
  lock : s'.lock ≠ some i
  flag : s.flag = some i ↔ s'.flag = some i
  grows : s.flag = some i → db.Grows s'.db

variable {ordered i s}

section Locked

variable (h : Under ordered i s db hint s₁)

include h

/-- The others go on. -/
theorem Under.rely {s₂ : Shared} (hinv : Inv ordered s₂) (hrely : Rely i s₁ s₂) :
    Under ordered i s db hint s₂ where
  inv := hinv
  lock := hrely.lock.mp h.lock
  flag := h.flag.trans hrely.flag
  drawn eid hdrawn := (hrely.drawn eid (h.drawn eid hdrawn)).1
  db := (hrely.locked h.lock).1.trans h.db
  hint := (hrely.locked h.lock).2.trans h.hint

theorem Under.getOutboxIndex : Keeps ordered i getOutboxIndex
      (fun s₂ res => Under ordered i s db hint s₂ ∧ ∀ idx, res = .ok idx → idx = db.index) s₁ := by
  refine keeps_failable (keeps_read h.inv (fun _ _ ha => ha.2) fun res s₂ hres _ hinv hrely => ?_)
  refine ⟨res, rfl, h.rely hinv hrely, fun idx hidx => ?_⟩
  rw [hres.1 idx hidx, h.db]

theorem Under.readEntry (reader : Reader) (eid : KVNodeID) : Keeps ordered i (readEntry reader eid)
      (fun s₂ res => ∃ row, res = .ok row ∧ Under ordered i s db hint s₂ ∧
        (∀ ent, row = .ok ent → ent = db.rows eid) ∧
        (ordered → reader = .snapshot → ∀ e ent, row = .error e → db.Queued eid ent →
            LastQueued db ent)) s₁ := by
  refine keeps_read h.inv (fun _ _ ha => ha.2) fun res s₂ hres horderly hinv hrely => ?_
  refine ⟨res, rfl, h.rely hinv hrely, fun ent hent => ?_,
    fun hordered hreader e ent he hqueued => ?_⟩
  · rw [hres.1 ent hent, h.db]
  subst hreader
  rw [← h.db] at hqueued ⊢
  exact horderly hordered ⟨e, he⟩ ent hqueued

theorem Under.getOutboxEntry (reader : Reader) (eid : KVNodeID) :
    Keeps ordered i (getOutboxEntry reader eid) (fun s₂ res =>
      Under ordered i s db hint s₂ ∧ ∀ ent, res = .ok ent → ent = db.rows eid) s₁ := by
  refine keeps_failable ((h.readEntry reader eid).mono ?_)
  rintro s₂ res ⟨row, rfl, hunder, hrow, -⟩
  exact ⟨row, rfl, hunder, hrow⟩

theorem Under.openPayload (reader : Reader) (ent : KVOutboxEntry) :
    Keeps ordered i (openPayload reader ent)
      (fun s₂ res => ∃ opened, res = .ok opened ∧ Under ordered i s db hint s₂ ∧
        (∀ payload, opened = .ok payload → payload = ent.box) ∧
        (ordered → reader = .snapshot → ∀ e, opened = .error e → LastQueued db ent)) s₁ := by
  refine keeps_read h.inv (fun _ _ ha => ha.2) fun res s₂ hres horderly hinv hrely => ?_
  refine ⟨res, rfl, h.rely hinv hrely, hres.1, fun hordered hreader e he => ?_⟩
  subst hreader
  rw [← h.db]
  exact horderly hordered ⟨e, he⟩

/-- The outbox is written: all of it or nothing. -/
theorem Under.putTx {tx : OutboxTx} (hwf : (db.putTx tx).WF)
    (hgrows : s.flag = some i ∨ db.Grows (db.putTx tx))
    (hmine : ∀ eid, s₁.drawn eid ≠ some i → db.rows eid = none → (db.putTx tx).rows eid = none) :
    Keeps ordered i (putTx tx) (fun s₂ res => (∃ e, res = .error e ∧ Under ordered i s db hint s₂) ∨
        res = .ok () ∧ Under ordered i s (db.putTx tx) hint s₂) s₁ := by
  obtain rfl := h.db
  refine keeps_failable (keeps_call fun res s₂ hstep => ?_)
  obtain rfl : s₂ = _ := hstep.1
  cases (res : Except CoreError Unit) with
  | error e =>
    refine ⟨Guar.refl i s₁, h.inv, fun s₃ hinv hrely => ?_⟩
    exact ⟨_, rfl, .inl ⟨e, rfl, h.rely hinv hrely⟩⟩
  | ok u =>
    have hinv : Inv ordered { s₁ with db := s₁.db.putTx tx } := by
      refine ⟨hwf, fun hlock => ?_, fun eid hnone => ?_, h.inv.attempts⟩
      · rw [h.lock] at hlock
        cases hlock
      refine hmine eid ?_ (h.inv.drawn eid hnone)
      rw [show s₁.drawn eid = none from hnone]
      exact nofun
    have hguar : Guar i s₁ { s₁ with db := s₁.db.putTx tx } := by
      refine ⟨fun hne => absurd h.lock hne, fun _ _ => .rfl, fun _ _ => .rfl, fun hflag => ?_, ?_⟩
      · exact hgrows.resolve_left fun hi => hflag (h.flag.mp hi)
      · refine fun j eid hj hdrawn => ⟨hdrawn, hmine eid fun hi => hj ?_⟩
        exact mem_unique hdrawn hi
    refine ⟨hguar, hinv, fun s₃ hinv3 hrely => ⟨_, rfl, .inr ⟨rfl, ?_⟩⟩⟩
    exact Under.rely ⟨hinv, h.lock, h.flag, h.drawn, rfl, h.hint⟩ hinv3 hrely

theorem Under.storeHint (hint' : Hint) :
    Keeps ordered i (storeHint hint')
      (fun s₂ res => res = .ok () ∧ Under ordered i s db hint' s₂) s₁ := by
  refine keeps_call fun u s₂ hstep => ?_
  obtain rfl : s₂ = _ := hstep.1
  have hinv : Inv ordered { s₁ with hint := hint' } := by
    refine ⟨h.inv.wf, fun hlock => ?_, h.inv.drawn, h.inv.attempts⟩
    rw [h.lock] at hlock
    cases hlock
  refine ⟨⟨fun hne => absurd h.lock hne, fun _ _ => .rfl, fun _ _ => .rfl, fun _ => .refl _,
    fun _ _ _ hdrawn => ⟨hdrawn, id⟩⟩, hinv, fun s₃ hinv3 hrely => ⟨rfl, ?_⟩⟩
  exact Under.rely ⟨hinv, h.lock, h.flag, h.drawn, h.db, rfl⟩ hinv3 hrely

end Locked

/-- The rule for a body under the lock. The hint may be empty over queued writes only until the lock
is released. -/
theorem keeps_withLock {body : OutboxProg α} {mid : OutboxDb → Except CoreError α → Prop}
    (hinv : Inv ordered s) (hbody : (s.hint = .empty → s.db.NoneQueued) →
      ∀ s₁, Under ordered i s s.db s.hint s₁ →
      Keeps ordered i body (fun s₂ res => Leaves ordered i s (mid · res) s₂) s₁) :
    Keeps ordered i (withLock body) (fun s' res => ∃ db, After ordered i s db s' ∧
        mid db res) s := by
  have hlock : Keeps ordered i lock (fun s₁ res => res = .ok () ∧ s.lock = none ∧
      Under ordered i s s.db s.hint s₁) s := by
    refine keeps_call fun u s₁ hstep => ?_
    obtain ⟨hnone, rfl⟩ := hstep.1
    have hinv1 : Inv ordered { s with lock := some i } :=
      ⟨hinv.wf, nofun, hinv.drawn, hinv.attempts⟩
    refine ⟨⟨fun _ => ⟨rfl, rfl⟩, fun j hj => ?_, fun _ _ => .rfl, fun _ => .refl _,
      fun _ _ _ hdrawn => ⟨hdrawn, id⟩⟩, hinv1, fun s₂ hinv2 hrely => ⟨rfl, hnone, ?_⟩⟩
    · rw [hnone]
      exact ⟨nofun, fun h => absurd (some.inj h).symm hj⟩
    have hunder : Under ordered i s s.db s.hint { s with lock := some i } :=
      ⟨hinv1, rfl, .rfl, fun _ => id, rfl, rfl⟩
    exact hunder.rely hinv2 hrely
  have hunlock : ∀ db hint s₂, Under ordered i s db hint s₂ → (hint = .empty → db.NoneQueued) →
      Keeps ordered i unlock (fun s' res => res = .ok () ∧ After ordered i s db s') s₂ := by
    intro db hint s₂ h hnone
    refine keeps_call fun u s₃ hstep => ?_
    obtain rfl : s₃ = _ := hstep.1
    have hinv3 : Inv ordered { s₂ with lock := none } := by
      refine ⟨h.inv.wf, fun _ hempty => ?_, h.inv.drawn, h.inv.attempts⟩
      rw [h.db]
      exact hnone (h.hint.symm.trans hempty)
    refine ⟨⟨fun _ => ⟨rfl, rfl⟩, fun j hj => ?_, fun _ _ => .rfl, fun _ => .refl _,
      fun _ _ _ hdrawn => ⟨hdrawn, id⟩⟩, hinv3, fun s4 hinv4 hrely => ⟨rfl, hinv4, ?_, ?_, ?_, ?_⟩⟩
    · rw [h.lock]
      exact ⟨fun h => absurd (some.inj h).symm hj, nofun⟩
    · exact h.db ▸ h.inv.wf
    · exact fun hi => nomatch hrely.lock.mpr hi
    · exact h.flag.trans hrely.flag
    · exact fun hflag => h.db ▸ hrely.grows (h.flag.mp hflag)
  refine keeps_bind hlock ?_ (fun _ _ h => nomatch h.1)
  rintro s₁ u ⟨-, hnone, hunder⟩
  refine keeps_bind_ok (keeps_tried (hbody (hinv.hint hnone) s₁ hunder)) ?_
  rintro s₂ res ⟨db, hint, hunder2, hempty, hmid⟩
  refine keeps_bind (hunlock db hint s₂ hunder2 hempty) ?_ (fun _ _ h => nomatch h.1)
  rintro s₃ u ⟨-, hafter⟩
  exact ⟨db, hafter, hmid⟩

end Rules

/-! ## Changes of one row -/

section Changes

variable {state : KVOutboxState}

/-- All rows but this one stay. -/
def OutboxDb.Changes (eid : KVNodeID) (db db' : OutboxDb) : Prop :=
  ∀ eid', eid' ≠ eid → db'.rows eid' = db.rows eid'

theorem OutboxDb.changes_putTx (db : OutboxDb) (row : Option KVOutboxEntry)
    (index : Option KVOutboxIndex) :
    db.Changes eid (db.putTx ⟨eid, row, index⟩) :=
  fun _ hne => update_of_ne hne _ _

@[simp] theorem OutboxDb.putTx_rows_self (db : OutboxDb) (row : Option KVOutboxEntry)
    (index : Option KVOutboxIndex) : (db.putTx ⟨eid, row, index⟩).rows eid = row :=
  update_self ..

theorem OutboxDb.NoneQueued.remove (h : db.NoneQueued) (eid : KVNodeID) :
    (db.putTx ⟨eid, none, some { db.index with
      entries := db.index.entries.filter (·.eid ≠ eid) }⟩).NoneQueued :=
  fun ie hie => h ie (mem_of_mem_filter hie)

theorem OutboxDb.NoneQueued.setState (h : db.NoneQueued) (eid : KVNodeID) (hstate : state ≠ .queued)
    (row : Option KVOutboxEntry) :
    (db.putTx ⟨eid, row, some { db.index with entries := db.index.entries.map fun ie =>
      if ie.eid = eid then { ie with state } else ie }⟩).NoneQueued := by
  intro ie hie
  obtain ⟨old, hold, rfl⟩ := mem_map.mp hie
  split
  · exact hstate
  · exact h old hold

variable (h : Under ordered i s db hint s₁) (hwf : db.WF) (hflag : s.flag = some i)
  (hnone : hint = .empty → db.NoneQueued) (eid : KVNodeID)

include h hwf hflag hnone

/-- The thread of a drain removes a row. -/
theorem Under.removeOutbox :
    Keeps ordered i (removeOutbox eid) (fun s₂ res => Leaves ordered i s (fun db' =>
      res = .ok () → db.Changes eid db' ∧ db'.rows eid = none) s₂) s₁ := by
  refine keeps_bind h.getOutboxIndex ?_ (fun s₂ e h2 => ⟨db, hint, h2.1, hnone, nofun⟩)
  rintro s₂ idx ⟨h2, hidx⟩
  obtain rfl := hidx idx rfl
  refine (h2.putTx (hwf.remove eid) (.inl hflag) fun eid' _ hrow => ?_).mono ?_
  · by_cases heq : eid' = eid
    · exact heq ▸ db.putTx_rows_self _ _
    · exact (db.changes_putTx _ _ eid' heq).trans hrow
  · rintro s₃ res (⟨e, rfl, h3⟩ | ⟨rfl, h3⟩)
    · exact ⟨db, hint, h3, hnone, nofun⟩
    · refine ⟨_, hint, h3, fun hempty => (hnone hempty).remove eid, fun _ =>
        ⟨db.changes_putTx _ _, db.putTx_rows_self _ _⟩⟩

/-- The thread of a drain counts an attempt. -/
theorem Under.noteOutboxAttempt (lastErr : StatusCode) :
    Keeps ordered i (noteOutboxAttempt eid lastErr) (fun s₂ res => Leaves ordered i s (fun db' =>
      ∀ n ent, res = .ok n → db.rows eid = some ent → n = ent.attempts + 1 ∧ db.Changes eid db' ∧
        db'.rows eid = some { ent with attempts := n, lastErrCode := lastErr }) s₂) s₁ := by
  refine keeps_bind (h.getOutboxEntry .update eid) ?_ (fun s₂ e h2 =>
    ⟨db, hint, h2.1, hnone, fun _ _ he => nomatch he⟩)
  rintro s₂ row ⟨h2, hrow⟩
  have hrow := hrow row rfl
  cases row with
  | none =>
    refine ⟨db, hint, h2, hnone, fun n ent _ hent => ?_⟩
    cases hrow.trans hent
  | some ent =>
    have hwf' : (db.putTx ⟨eid, some { ent with
        attempts := ent.attempts + 1, lastErrCode := lastErr }, none⟩).WF :=
      hwf.setRow hrow.symm rfl rfl
    have hput := h2.putTx hwf' (.inl hflag) fun eid' _ hnew => ?_
    · refine keeps_bind hput ?_ ?_
      · rintro s₃ u (⟨e, he, -⟩ | ⟨-, h3⟩)
        · cases he
        refine ⟨_, hint, h3, hnone, fun n ent' hn hent' => ?_⟩
        obtain rfl := ok.inj hn
        obtain rfl := some.inj (hrow.trans hent')
        exact ⟨rfl, db.changes_putTx _ _, db.putTx_rows_self _ _⟩
      · rintro s₃ e (⟨e', -, h3⟩ | ⟨he, -⟩)
        · exact ⟨db, hint, h3, hnone, fun _ _ he => nomatch he⟩
        · cases he
    have hne : eid' ≠ eid := by
      rintro rfl
      cases hrow.trans hnew
    exact (db.changes_putTx _ _ eid' hne).trans hnew

/-- The thread of a drain parks a row. -/
theorem Under.setOutboxStateInner (hstate : state ≠ .queued) (lastErr : StatusCode)
    (countAttempt : Bool) :
    Keeps ordered i (setOutboxStateInner eid state lastErr countAttempt) (fun s₂ res =>
        Leaves ordered i s (fun db' =>
      res = .ok () → db.Changes eid db' ∧ ∀ ent, ¬ db'.Queued eid ent) s₂) s₁ := by
  refine keeps_bind (h.getOutboxEntry .update eid) ?_ (fun s₂ e h2 =>
    ⟨db, hint, h2.1, hnone, nofun⟩)
  rintro s₂ row ⟨h2, hrow⟩
  have hrow := hrow row rfl
  cases row with
  | none =>
    refine ⟨db, hint, h2, hnone, fun _ => ⟨fun _ _ => rfl, fun ent hent => ?_⟩⟩
    cases hrow.trans hent.1
  | some ent =>
    refine keeps_bind h2.getOutboxIndex ?_ (fun s₃ e h3 => ⟨db, hint, h3.1, hnone, nofun⟩)
    rintro s₃ idx ⟨h3, hidx⟩
    obtain rfl := hidx idx rfl
    have hwf' := hwf.setState hrow.symm { ent with
      state
      lastErrCode := lastErr
      attempts := if countAttempt then ent.attempts + 1 else ent.attempts } rfl
    refine (h3.putTx hwf' (.inl hflag) fun eid' _ hnew => ?_).mono ?_
    · have hne : eid' ≠ eid := by
        rintro rfl
        cases hrow.trans hnew
      exact (db.changes_putTx _ _ eid' hne).trans hnew
    · rintro s4 res (⟨e, rfl, h4⟩ | ⟨rfl, h4⟩)
      · exact ⟨db, hint, h4, hnone, nofun⟩
      refine ⟨_, hint, h4, fun hempty => (hnone hempty).setState eid hstate _, fun _ => ?_⟩
      refine ⟨db.changes_putTx _ _, fun ent' hent' => hstate ?_⟩
      rw [← hent'.2, ← mem_unique (db.putTx_rows_self _ _) hent'.1]

end Changes

/-! ## Enqueue and list -/

section Enqueue

theorem OutboxDb.grows_enqueue (hnew : db.rows eid = none) (ent : KVOutboxEntry)
    (hord : ent.ord = db.index.nextOrd) (entries : List KVOutboxIndexEntry) :
    db.Grows (db.putTx ⟨eid, some ent, some ⟨entries, db.index.nextOrd + 1⟩⟩) where
  rows eid' ent' hent' := by
    have hne : eid' ≠ eid := by
      rintro rfl
      cases hnew.symm.trans hent'
    exact (db.changes_putTx _ _ eid' hne).trans hent'
  later eid' ent' hent' := by
    by_cases heq : eid' = eid
    · subst heq
      rw [← mem_unique (db.putTx_rows_self _ _) hent', hord]
      exact .inr (le_refl _)
    · exact .inl ((db.changes_putTx _ _ eid' heq).symm.trans hent')
  nextOrd := Nat.le_succ _

theorem Under.enqueueLocked (h : Under ordered i s db hint s₁) (hwf : db.WF)
    (hnew : db.rows eid = none) (hdrawn : s.drawn eid = some i) (hnone : hint = .empty →
      db.NoneQueued)
    (rg : RoleAndGen) (payload : KVOutboxPayload) :
    Keeps ordered i (enqueueLocked eid rg payload) (fun s₂ _ =>
        Leaves ordered i s (fun _ => True) s₂) s₁ := by
  refine keeps_bind h.getOutboxIndex ?_ (fun s₂ e h2 => ⟨db, hint, h2.1, hnone, trivial⟩)
  rintro s₂ idx ⟨h2, hidx⟩
  obtain rfl := hidx idx rfl
  have hrefuse :
    Keeps ordered i (.refuse (maxKVOutboxEntries ≤ db.index.entries.length) .kvOutboxFullError)
      (fun s₃ _ => Under ordered i s db hint s₃) s₂ :=
    meets_refuse (fun _ => h2) (fun _ => h2)
  refine keeps_bind hrefuse ?_ (fun s₃ e h3 => ⟨db, hint, h3, hnone, trivial⟩)
  intro s₃ u h3
  have hput := h3.putTx (hwf.enqueue hnew rg payload) (.inr (OutboxDb.grows_enqueue hnew _ rfl _))
    fun eid' hother hrow => ?_
  · refine keeps_bind hput ?_ ?_
    · rintro s4 u (⟨e, he, -⟩ | ⟨-, h4⟩)
      · cases he
      · exact (h4.storeHint .work).mono fun s5 res h5 => ⟨_, .work, h5.2, nofun, trivial⟩
    · rintro s4 e (⟨e', -, h4⟩ | ⟨he, -⟩)
      · exact ⟨db, hint, h4, hnone, trivial⟩
      · cases he
  have hne : eid' ≠ eid := by
    rintro rfl
    exact hother (h3.drawn eid' hdrawn)
  exact (db.changes_putTx _ _ eid' hne).trans hrow

/-- The entries of the index have rows, so that no entry is dropped. -/
theorem Under.listOrphans (hwf : db.WF) : ∀ (ies : List KVOutboxIndexEntry),
    (∀ ie ∈ ies, ie ∈ db.index.entries) → ∀ s₁,
      Under ordered i s db hint s₁ → Keeps ordered i (listOrphans ies)
        (fun s₂ res => res = .ok [] ∧ Under ordered i s db hint s₂) s₁
  | [], _, s₁, h => ⟨rfl, h⟩
  | ie :: ies, hmem, s₁, h => by
    have hrest := Under.listOrphans hwf ies fun ie' hie' => hmem ie' (mem_cons_of_mem _ hie')
    refine keeps_bind_ok (h.readEntry .listing ie.eid) ?_
    rintro s₂ row ⟨h2, hrow, -⟩
    obtain ⟨ent, hent, -⟩ := hwf.row ie (hmem ie mem_cons_self)
    match row with
    | .error e => exact hrest s₂ h2
    | .ok none => cases (hrow none rfl).trans hent
    | .ok (some ent') =>
      exact keeps_bind_ok (h2.openPayload .listing ent') fun s₃ _ h3 => hrest s₃ h3.1

end Enqueue

end Foks.KvClient
