import Foks.KvClient.OutboxDrain

/-!
# Runs of the outbox

Any number of threads queue writes, list the outbox and drain it, and the process may crash at any
moment. In every state the rows and the index agree, the hint is not empty over a queued write while
the lock is free, and a drain sends only what is queued.

A drain sends the writes to one directory in their order as long as it does not pass over one of
them: a row that it cannot read, and a write that loses to others in the cache, stay queued, and the
later writes to the directory are sent nevertheless.
-/

namespace Foks.KvClient

open Lib KvStore List Prog Function Except Threads
open Option (mem_unique some)

variable {ordered : Prop} {i : ℕ} {s s₁ : Shared} {db db' : OutboxDb} {hint : Hint} {eid : KVNodeID}
  {it : DrainItem}
  {its items : List DrainItem}

/-! ## The operations -/

section Ops

theorem After.idle (h : After ordered i s db s₁) (hidle : Idle i s) : Idle i s₁ :=
  ⟨h.lock, fun hi => hidle.2 (h.flag.mpr hi)⟩

theorem keeps_probeHint (hinv : Inv ordered s) :
    Keeps ordered i probeHint (fun s₁ _ => ∃ db, After ordered i s db s₁ ∧ True) s := by
  refine keeps_withLock hinv fun hnone s₁ h1 => ?_
  refine keeps_bind h1.hasOutboxWork ?_ (fun s₂ e h2 => ⟨s.db, s.hint, h2.1, hnone, trivial⟩)
  rintro s₂ work ⟨h2, hwork⟩
  refine keeps_bind (h2.storeHint _) ?_ (fun _ _ h3 => nomatch h3.1)
  rintro s₃ u ⟨-, h3⟩
  refine ⟨s.db, _, h3, fun hempty => ?_, trivial⟩
  cases work with
  | true => cases hempty
  | false => exact hwork rfl

variable (hinv : Inv ordered s) (hidle : Idle i s)

include hinv hidle

/-- The thread takes the flag, unless it is taken. -/
theorem keeps_compareAndSwapFlag :
    Keeps ordered i compareAndSwapFlag (fun s₁ res => ∃ b, res = .ok b ∧
      if b then Drains ordered i s₁ else Idle i s₁) s := by
  refine keeps_call fun b s₁ hstep => ?_
  obtain ⟨rfl, rfl⟩ := hstep.1
  refine ⟨⟨fun _ => ⟨rfl, rfl⟩, fun _ _ => .rfl, fun j hj => ?_, fun _ => .refl _,
    fun _ _ _ hdrawn => ⟨hdrawn, id⟩⟩,
      ⟨hinv.wf, hinv.hint, hinv.drawn, hinv.attempts⟩, fun s₂ hinv2 hrely => ?_⟩
  · cases hs : s.flag with
    | none => exact ⟨nofun, fun h => absurd (some.inj h).symm hj⟩
    | some k => exact .rfl
  have hlock2 : s₂.lock ≠ some i := fun hi => hidle.1 (hrely.lock.mpr hi)
  refine ⟨_, rfl, ?_⟩
  rcases hs : s.flag with _ | k
  · refine ⟨hinv2, hlock2, hrely.flag.mp ?_⟩
    rw [hs]
    rfl
  refine ⟨hlock2, fun hi => hidle.2 ?_⟩
  have hsame := hrely.flag.mpr hi
  rw [hs] at hsame ⊢
  exact hsame

/-- An ID is drawn, which has no row yet. -/
theorem keeps_newNodeID :
    Keeps ordered i newNodeID (fun s₁ res => ∃ eid, res = .ok eid ∧ Inv ordered s₁ ∧ Idle i s₁ ∧
        s₁.drawn eid = some i ∧ s₁.db.rows eid = none) s := by
  refine keeps_call fun eid s₁ hstep => ?_
  obtain ⟨hfresh, rfl⟩ := hstep.1
  have hdrawn : ∀ eid', Function.update s.drawn eid (some i) eid' = none → s.drawn eid' = none := by
    intro eid' hnone
    by_cases heq : eid' = eid
    · rw [heq, hfresh]
    · rwa [update_of_ne heq] at hnone
  refine ⟨⟨fun _ => ⟨rfl, rfl⟩, fun _ _ => .rfl, fun _ _ => .rfl, fun _ => .refl _, ?_⟩,
    ⟨hinv.wf, hinv.hint, fun eid' hnone => hinv.drawn eid' (hdrawn eid' hnone), hinv.attempts⟩, ?_⟩
  · intro j eid' _ hj
    refine ⟨?_, id⟩
    have hne : eid' ≠ eid := by
      rintro rfl
      cases hfresh.symm.trans hj
    exact (update_of_ne hne _ _).trans hj
  intro s₂ hinv2 hrely
  obtain ⟨hmine, hrow⟩ := hrely.drawn eid (update_self ..)
  have hidle1 : Idle i { s with drawn := Function.update s.drawn eid (some i) } := hidle
  exact ⟨eid, rfl, hinv2, hidle1.rely hrely, hmine, hrow (hinv.drawn eid hfresh)⟩

theorem keeps_queueWrite (rg : RoleAndGen) (payload : KVNodeID → KVOutboxPayload) :
    Keeps ordered i (queueWrite rg payload) (fun s₁ _ => Idle i s₁) s := by
  refine keeps_bind_ok (keeps_newNodeID hinv hidle) ?_
  rintro s₁ eid ⟨hinv1, hidle1, hdrawn, hrow⟩
  refine (keeps_withLock hinv1 fun hnone s₂ h2 =>
    h2.enqueueLocked hinv1.wf hrow hdrawn hnone rg (payload eid)).mono ?_
  rintro s₂ res ⟨db, hafter, -⟩
  exact hafter.idle hidle1

theorem keeps_listOutbox : Keeps ordered i listOutbox (fun s₁ _ => Idle i s₁) s := by
  have hlocked :
      Keeps ordered i listOutbox (fun s₁ _ => ∃ db, After ordered i s db s₁ ∧ True) s := by
    refine keeps_withLock hinv fun hnone s₁ h1 => ?_
    refine keeps_bind h1.getOutboxIndex ?_ (fun s₂ e h2 => ⟨s.db, s.hint, h2.1, hnone, trivial⟩)
    rintro s₂ idx ⟨h2, hidx⟩
    obtain rfl := hidx idx rfl
    refine keeps_bind (Under.listOrphans hinv.wf _ (fun _ hie => (mem_insertionSort _).mp hie)
      s₂ h2) ?_
      (fun s₃ e h3 => ⟨s.db, s.hint, h3.2, hnone, trivial⟩)
    rintro s₃ drop ⟨hdrop, h3⟩
    obtain rfl := ok.inj hdrop
    exact ⟨s.db, s.hint, h3, hnone, trivial⟩
  refine hlocked.mono ?_
  rintro s₁ res ⟨db, hafter, -⟩
  exact hafter.idle hidle

theorem keeps_drainIfFree : Keeps ordered i drainIfFree (fun s₁ _ => Idle i s₁) s := by
  refine keeps_bind_ok (keeps_compareAndSwapFlag hinv hidle) ?_
  intro s₁ b h1
  cases b with
  | true => exact keeps_bind_ok h1.drainFlagged fun s₂ _ h2 => keeps_pure h2
  | false => exact h1

theorem keeps_drainOutbox : Keeps ordered i drainOutbox (fun s₁ _ => Idle i s₁) s := by
  refine keeps_bind_ok (keeps_compareAndSwapFlag hinv hidle) ?_
  intro s₁ b h1
  cases b with
  | true =>
    have hdrain : Keeps ordered i (failable drainFlagged) (fun s₂ _ => Idle i s₂) s₁ :=
      keeps_failable h1.drainFlagged
    exact keeps_bind hdrain (fun s₂ _ h2 => keeps_pure h2) (fun _ _ h2 => h2)
  | false => exact h1

theorem keeps_maybeDrainOutbox : Keeps ordered i maybeDrainOutbox (fun s₁ _ => Idle i s₁) s := by
  have hloadFlag : Keeps ordered i loadFlag (fun s₁ res => ∃ b, res = .ok b ∧ Inv ordered s₁ ∧
      Idle i s₁) s :=
    keeps_read hinv (fun _ _ ha => ha.2) fun b s₁ _ _ hinv1 hrely =>
      ⟨b, rfl, hinv1, hidle.rely hrely⟩
  refine keeps_bind_ok hloadFlag ?_
  rintro s₁ b ⟨hinv1, hidle1⟩
  cases b with
  | true => exact hidle1
  | false =>
    have hloadHint :
        Keeps ordered i loadHint (fun s₂ res => ∃ hint, res = .ok hint ∧ Inv ordered s₂ ∧
            Idle i s₂) s₁ :=
      keeps_read hinv1 (fun _ _ ha => ha.2) fun hint s₂ _ _ hinv2 hrely =>
        ⟨hint, rfl, hinv2, hidle1.rely hrely⟩
    refine keeps_bind_ok hloadHint ?_
    rintro s₂ hint ⟨hinv2, hidle2⟩
    cases hint with
    | empty => exact hidle2
    | work => exact keeps_drainIfFree hinv2 hidle2
    | unknown =>
      refine keeps_bind_ok (keeps_tried (keeps_probeHint hinv2)) ?_
      rintro s₃ work ⟨db, hafter, -⟩
      have hinv3 := hafter.inv
      have hidle3 := hafter.idle hidle2
      match work with
      | .error e => exact hidle3
      | .ok false => exact hidle3
      | .ok true => exact keeps_drainIfFree hinv3 hidle3

theorem IsOutboxOp.keeps {p : OutboxProg Unit} (hp : IsOutboxOp p) :
    Keeps ordered i p (fun s₁ _ => Idle i s₁) s := by
  cases hp with
  | queueWrite rg payload => exact keeps_queueWrite hinv hidle rg payload
  | listOutbox => exact keeps_listOutbox hinv hidle
  | maybeDrainOutbox => exact keeps_maybeDrainOutbox hinv hidle
  | drainOutbox =>
    exact keeps_bind (keeps_drainOutbox hinv hidle) (fun s₁ _ h1 => keeps_pure h1)
      (fun _ _ h1 => h1)

end Ops

/-! ## Runs -/

abbrev OutboxThreads := Threads Ask Answer CoreError Shared

theorem inv_init (ordered : Prop) : Inv ordered {} where
  wf := OutboxDb.wf_empty
  hint _ h := nomatch h
  drawn _ _ := rfl
  attempts _ h := absurd h not_mem_nil

theorem Inv.crash (h : Inv ordered s) : Inv ordered (crash s) where
  wf := h.wf
  hint _ hempty := nomatch hempty
  drawn := h.drawn
  attempts := h.attempts

/-- Every state that is reached from an empty outbox keeps the invariant. -/
theorem inv_reaches {c : OutboxThreads}
    (h : Threads.Reaches (steps ordered) {p | IsOutboxOp p} crash (.quiet {}) c) :
        Inv ordered c.state := by
  have hstart : (quiet {} : OutboxThreads).Sound (steps ordered) (outboxPacts ordered) :=
    sound_quiet (outboxPacts_fair ordered) (inv_init ordered) fun _ => ⟨nofun, nofun⟩
  refine (hstart.reaches (outboxPacts_fair ordered) (fun p hp i s hinv hidle => ?_) (fun s hinv =>
    ?_) h).inv
  · exact IsOutboxOp.keeps hinv hidle hp
  · exact ⟨hinv.crash, fun _ => ⟨nofun, nofun⟩⟩

/-! ### Two writes to one directory -/

namespace OutboxSample

/-- The files "/a/x" and "/a/y" are written, one after the other. -/
def write (name : Char) (nid : KVNodeID) : KVOutboxPayload where
  op := .putSmallFile
  path := ['/', 'a', '/', name]
  nid
  sfb := 0
  readRole := .owner
  writeRole := .owner
  direntVers := 0
  overwriteOk := true
  dir := none

def ops : List (OutboxProg Unit) :=
  [queueWrite ⟨.owner, 0⟩ (write 'x'), queueWrite ⟨.owner, 0⟩ (write 'y'), do
    let _ ← drainOutbox
    return ()]

def first : KVNodeID := .smallFile 1

def second : KVNodeID := .smallFile 2

/-- A new ID: the first, then the second. -/
def draw (s : Shared) : Option KVNodeID :=
  if s.drawn first = none then some first else if s.drawn second = none then some second else none

/-- The row of the first write may be one that cannot be read. -/
def readRow (unreadable : Bool) (s : Shared) (eid : KVNodeID) :
    Except CoreError (Option KVOutboxEntry) :=
  if unreadable ∧ eid = first then .error (.kvNoentError []) else .ok (s.db.rows eid)

/-- Answers in which the first write has the outcome. -/
def reply (unreadable : Bool) (outcome : DrainOutcome) :
    (q : Ask) → Shared → Option (Answer q × Shared)
  | .newNodeID, s =>
    (draw s).map fun eid => (eid, { s with drawn := Function.update s.drawn eid (some 0) })
  | .lock, s => if s.lock = none then some ((), { s with lock := some 0 }) else none
  | .unlock, s => some ((), { s with lock := none })
  | .loadFlag, s => some (s.flag.isSome, s)
  | .compareAndSwapFlag, s =>
    some (s.flag.isNone, { s with flag := if s.flag.isNone then some 0 else s.flag })
  | .clearFlag, s => some ((), { s with flag := none })
  | .loadHint, s => some (s.hint, s)
  | .storeHint hint, s => some ((), { s with hint })
  | .getOutboxIndex, s => some (.ok s.db.index, s)
  | .getOutboxEntry _ eid, s => some (readRow unreadable s eid, s)
  | .putTx tx, s => some (.ok (), { s with db := s.db.putTx tx })
  | .openOutboxPayload _ ent, s => some (.ok ent.box, s)
  | .drainOne it, s =>
    some ((if it.eid = first then outcome else .retired, 0),
      { s with attempts := s.attempts ++ [(it, s.db)] })

variable {s' : Shared} {unreadable : Bool} {outcome : DrainOutcome} {q : Ask}

theorem drawn_of_draw (h : draw s = some eid) : s.drawn eid = none := by
  unfold draw at h
  split at h
  · next hfresh => exact some.inj h ▸ hfresh
  split at h
  · next hfresh => exact some.inj h ▸ hfresh
  · cases h

theorem rows_of_readRow {ent : Option KVOutboxEntry}
    (h : readRow unreadable s eid = .ok ent) : ent = s.db.rows eid := by
  unfold readRow at h
  split at h
  · cases h
  · exact (ok.inj h).symm

theorem answers_reply {a : Answer q} (h : reply unreadable outcome q s = some (a, s')) :
    answers 0 q s a s' := by
  cases q with
  | newNodeID =>
    obtain ⟨eid, hdraw, heq⟩ := Option.map_eq_some_iff.mp h
    cases heq
    exact ⟨drawn_of_draw hdraw, rfl⟩
  | lock =>
    simp only [reply] at h
    split at h
    · next hfree =>
      cases h
      exact ⟨hfree, rfl⟩
    · cases h
  | getOutboxEntry reader eid =>
    cases h
    exact ⟨fun ent => rows_of_readRow, rfl⟩
  | getOutboxIndex =>
    cases h
    exact ⟨fun idx hidx => (ok.inj hidx).symm, rfl⟩
  | openOutboxPayload reader ent =>
    cases h
    exact ⟨fun payload hpayload => (ok.inj hpayload).symm, rfl⟩
  | loadFlag | compareAndSwapFlag | loadHint =>
    cases h
    exact ⟨rfl, rfl⟩
  | unlock | clearFlag | storeHint hint | putTx tx | drainOne it =>
    cases h
    rfl

/-- Nothing is passed over if all is well. -/
theorem orderly_reply {a : Answer q} (h : reply false .retired q s = some (a, s')) :
    Orderly q s a := by
  cases q with
  | getOutboxEntry reader eid | openOutboxPayload reader ent =>
    cases h
    cases reader with
    | snapshot => exact fun he => nomatch he
    | listing => trivial
    | update => trivial
  | drainOne it =>
    cases h
    intro hretry
    simp only [ite_self] at hretry
    cases hretry
  | _ => trivial

/-- The state at the end of the run is reached. -/
theorem reaches_reply (R : ℕ → (q : Ask) → Shared → Answer q → Shared → Prop)
    (hR : ∀ q s a s', reply unreadable outcome q s = some (a, s') → R 0 q s a s')
      {check : Shared → Bool}
    (h : (runOps (reply unreadable outcome) ops {}).any check = true) :
    ∃ c : OutboxThreads, Threads.Reaches R {p | IsOutboxOp p} crash (.quiet {}) c ∧
        check c.state = true := by
  have hops : ∀ p ∈ ops, IsOutboxOp p := by
    intro p hp
    simp only [ops, mem_cons, not_mem_nil, or_false] at hp
    rcases hp with rfl | rfl | rfl
    · exact .queueWrite ..
    · exact .queueWrite ..
    · exact .drainOutbox
  cases hs : runOps (reply unreadable outcome) ops {} with
  | none =>
    rw [hs] at h
    cases h
  | some s =>
    rw [hs] at h
    obtain ⟨progs, hreaches⟩ := reaches_runOps hR hops hs (fun _ => .done (.ok ())) rfl
    exact ⟨⟨progs, s⟩, hreaches, h⟩

/-- The second write was sent while the first was queued. -/
def overtaken (s : Shared) : Bool :=
  s.attempts.any fun x => x.1 = ⟨second, 1, write 'y' second⟩ ∧
    ∃ ent ∈ x.2.rows first, ent.state = .queued ∧ ent.ord = 0 ∧ ent.box = write 'x' first

theorem not_inTurn (h : overtaken s = true) : ∃ it db, (it, db) ∈ s.attempts ∧ ¬ InTurn it db := by
  obtain ⟨⟨it, db⟩, hmem, hx⟩ := any_eq_true.mp h
  obtain ⟨rfl, ent, hent, hstate, hord, hbox⟩ := of_decide_eq_true hx
  refine ⟨_, db, hmem, fun hturn => ?_⟩
  have hle := hturn first ent ⟨hent, hstate⟩ ⟨⟨[['a']], false, false⟩, ['x'], ['y'], ?_, ?_⟩
  · rw [hord] at hle
    cases hle
  · rw [hbox]
    decide +kernel
  · decide +kernel

theorem reaches_overtaken (unreadable : Bool) (outcome : DrainOutcome)
    (h : (runOps (reply unreadable outcome) ops {}).any overtaken = true) :
    ∃ c : OutboxThreads, Threads.Reaches answers {p | IsOutboxOp p} crash (.quiet {}) c ∧
      ∃ it db, (it, db) ∈ c.state.attempts ∧ ¬ InTurn it db := by
  obtain ⟨c, hreaches, hcheck⟩ := reaches_reply answers (fun _ _ _ _ => answers_reply) h
  exact ⟨c, hreaches, not_inTurn hcheck⟩

end OutboxSample

/-! ### Main results -/

/-- The trigger never forgets work: if the lock is free and the hint says that there is nothing to
do, no write is queued. -/
theorem hint_empty {c : OutboxThreads}
    (h : Threads.Reaches answers {p | IsOutboxOp p} crash (.quiet {}) c)
    (hlock : c.state.lock = none) (hhint : c.state.hint = .empty) :
    ∀ ie ∈ c.state.db.index.entries, ie.state ≠ .queued := by
  have hinv : Inv False c.state := inv_reaches (h.mono fun _ _ _ _ _ hq => ⟨hq, False.elim⟩)
  exact hinv.hint hlock hhint

open OutboxSample

/-- A drain has sent both writes, and the hint is empty. -/
theorem hint_empty_drained : ∃ c : OutboxThreads,
    Threads.Reaches answers {p | IsOutboxOp p} crash (.quiet {}) c ∧ c.state.attempts.length = 2 ∧
      c.state.lock = none ∧ c.state.hint = .empty ∧ ∀ ie ∈ c.state.db.index.entries,
          ie.state ≠ .queued := by
  have hrun : (runOps (reply false .retired) ops {}).any (fun s =>
      s.attempts.length = 2 ∧ s.lock = none ∧ s.hint = .empty) = true := by decide +kernel
  obtain ⟨c, hreaches, hcheck⟩ := reaches_reply answers (fun _ _ _ _ => answers_reply) hrun
  obtain ⟨hlength, hlock, hhint⟩ := of_decide_eq_true hcheck
  exact ⟨c, hreaches, hlength, hlock, hhint, hint_empty hreaches hlock hhint⟩

/-- Nothing that is queued is lost, and nothing that was parked is sent: every entry of the index
has its row, every queued row is listed, and whenever a write was sent, its row was queued. -/
theorem outbox_safe {c : OutboxThreads}
    (h : Threads.Reaches answers {p | IsOutboxOp p} crash (.quiet {}) c) :
    (∀ ie ∈ c.state.db.index.entries, ∃ ent, c.state.db.rows ie.eid = some ent) ∧
      (∀ eid ent, c.state.db.rows eid = some ent → ent.state = .queued →
        ∃ ie ∈ c.state.db.index.entries, ie.eid = eid) ∧
      ∀ it db, (it, db) ∈ c.state.attempts → ∃ ent, db.rows it.eid = some ent ∧
          ent.state = .queued := by
  have hinv : Inv False c.state := inv_reaches (h.mono fun _ _ _ _ _ hq => ⟨hq, False.elim⟩)
  refine ⟨fun ie hie => ?_, fun eid ent hent _ => hinv.wf.listed eid ent hent, fun it db hx => ?_⟩
  · obtain ⟨ent, hent, -⟩ := hinv.wf.row ie hie
    exact ⟨ent, hent⟩
  · exact (hinv.attempts (it, db) hx).1

/-- The first write is parked, and the second one was sent. -/
theorem outbox_safe_parked : ∃ c : OutboxThreads,
    Threads.Reaches answers {p | IsOutboxOp p} crash (.quiet {}) c ∧
      c.state.db.index.entries = [⟨0, first, .conflicted⟩] ∧ c.state.attempts.length = 2 ∧
      (∀ ie ∈ c.state.db.index.entries, ∃ ent, c.state.db.rows ie.eid = some ent) ∧
      ∀ it db, (it, db) ∈ c.state.attempts → ∃ ent, db.rows it.eid = some ent ∧
          ent.state = .queued := by
  have hrun : (runOps (reply false .conflicted) ops {}).any (fun s =>
      s.db.index.entries = [⟨0, first, .conflicted⟩] ∧ s.attempts.length = 2) = true := by
    decide +kernel
  obtain ⟨c, hreaches, hcheck⟩ := reaches_reply answers (fun _ _ _ _ => answers_reply) hrun
  obtain ⟨hentries, hlength⟩ := of_decide_eq_true hcheck
  obtain ⟨hrows, -, hattempts⟩ := outbox_safe hreaches
  exact ⟨c, hreaches, hentries, hlength, hrows, hattempts⟩

/-- In runs that pass over no write, the writes to one directory are sent in their order. -/
theorem drain_in_turn {c : OutboxThreads}
    (h : Threads.Reaches (fun i q s a s' => answers i q s a s' ∧ Orderly q s a)
      {p | IsOutboxOp p} crash
      (.quiet {}) c) :
    ∀ it db, (it, db) ∈ c.state.attempts → InTurn it db := by
  have hinv : Inv True c.state := inv_reaches (h.mono fun _ _ _ _ _ hq => ⟨hq.1, fun _ => hq.2⟩)
  exact fun it db hx => (hinv.attempts (it, db) hx).2 trivial

/-- Both writes were sent, in their order. -/
theorem drain_in_turn_retired : ∃ c : OutboxThreads,
    Threads.Reaches (fun i q s a s' => answers i q s a s' ∧ Orderly q s a) {p | IsOutboxOp p} crash
      (.quiet {}) c ∧
      c.state.attempts.map (·.1.eid) = [first, second] ∧
      ∀ it db, (it, db) ∈ c.state.attempts → InTurn it db := by
  have hrun : (runOps (reply false .retired) ops {}).any (fun s =>
      s.attempts.map (·.1.eid) = [first, second]) = true := by decide +kernel
  obtain ⟨c, hreaches, hcheck⟩ :=
    reaches_reply (fun i q s a s' => answers i q s a s' ∧ Orderly q s a)
    (fun _ _ _ _ h => ⟨answers_reply h, orderly_reply h⟩) hrun
  exact ⟨c, hreaches, of_decide_eq_true hcheck, drain_in_turn hreaches⟩

/-- After a write has lost to others, the next write to the directory is sent nevertheless. -/
theorem overtaken_after_contention :
    ∃ c : OutboxThreads, Threads.Reaches answers {p | IsOutboxOp p} crash (.quiet {}) c ∧
      ∃ it db, (it, db) ∈ c.state.attempts ∧ ¬ InTurn it db :=
  reaches_overtaken false .retryLater (by decide +kernel)

/-- So it is after a row that cannot be read. -/
theorem overtaken_unreadable : ∃ c : OutboxThreads, Threads.Reaches answers {p | IsOutboxOp p} crash
    (.quiet {}) c ∧
      ∃ it db, (it, db) ∈ c.state.attempts ∧ ¬ InTurn it db :=
  reaches_overtaken true .retired (by decide +kernel)

end Foks.KvClient
