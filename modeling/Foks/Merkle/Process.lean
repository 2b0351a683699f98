import Foks.Merkle.LocalDb

/-!
# A client process that may stop

A client process checks roots in sessions, against a server that may answer anything. It may stop after
any read or write of a database; it then starts again with what was written.
-/

namespace Foks.Merkle

open Lib MerkleHash List Option Finmap Prog Session

variable {H : Type} [DecidableEq H] [MerkleHash H]

/-! ## The latest root -/

theorem epnoOfCounter_natCast {n : ℕ} (h : n < 2 ^ 63) : LocalStorage.epnoOfCounter (n : ℤ) = n := by
  change ((n : ℤ) % 2 ^ 64).toNat = n
  omega

namespace LocalDb

/-- The counter names a root that can be read. -/
structure Coherent (db : LocalDb H) : Prop where
  sound : db.RootsSound
  latest (c : ℤ) : db.counter = some c → ∃ o : OpenedRoot H, c = (o.epno : ℤ) ∧ 0 < o.epno ∧
    o.epno < 2 ^ 63 ∧ db.hashes.lookup o.epno = some o.h ∧ db.roots.lookup o.h = some o.r

theorem coherent_empty : ({} : LocalDb H).Coherent :=
  ⟨fun h r hr => absurd hr (by rw [lookup_empty]; exact nofun), nofun⟩

variable {db db' : LocalDb H} {o : OpenedRoot H}

theorem Coherent.grows {B : MerkleEpno → H → Prop} (h : db.Coherent) (hgrows : db.Grows B db') :
    db'.Coherent where
  sound := hgrows.sound h.sound
  latest c hc := by
    obtain ⟨o, hepno, hpos, hsmall, hhash, hroot⟩ := h.latest c (hgrows.counter ▸ hc)
    exact ⟨o, hepno, hpos, hsmall, hgrows.hashes hhash, hgrows.roots hroot⟩

/-- What `Store` writes for a latest root. -/
def putLatest (db : LocalDb H) (o : OpenedRoot H) : LocalDb H :=
  (db.putCounter (int64 o.epno)).putTx (LocalStorage.rowsFor o.epno o.h (some o.r))

theorem putLatest_eq (hpos : 0 < o.epno) (hsmall : o.epno < 2 ^ 63) :
    db.putLatest o = ⟨some (db.counter.elim (o.epno : ℤ) (max (o.epno : ℤ))),
      db.hashes.insert o.epno o.h, db.roots.insert o.h o.r⟩ := by
  rw [putLatest, putTx_rowsFor hpos, int64_of_lt hsmall]
  rfl

theorem Coherent.putLatest (hinj : Function.Injective (hashRoot : MerkleRoot H → H))
    (h : db.Coherent) (hpos : 0 < o.epno) (hsmall : o.epno < 2 ^ 63) :
    (db.putLatest o).Coherent := by
  rw [putLatest_eq hpos hsmall]
  refine ⟨fun h' r hlookup => ?_, fun c hc => ?_⟩
  · obtain ⟨rfl, rfl⟩ | ⟨-, hlookup⟩ := Map.lookup_insert_cases hlookup
    · exact o.h_eq.symm
    · exact h.sound h' r hlookup
  have hself : ∃ o' : OpenedRoot H, (o.epno : ℤ) = (o'.epno : ℤ) ∧ 0 < o'.epno ∧
      o'.epno < 2 ^ 63 ∧ (db.hashes.insert o.epno o.h).lookup o'.epno = some o'.h ∧
      (db.roots.insert o.h o.r).lookup o'.h = some o'.r :=
    ⟨o, rfl, hpos, hsmall, lookup_insert _, lookup_insert _⟩
  cases hcounter : db.counter with
  | none =>
    rw [hcounter] at hc
    obtain rfl := some.inj hc
    exact hself
  | some c' =>
    rw [hcounter] at hc
    obtain ⟨o', rfl, hpos', hsmall', hhash, hroot⟩ := h.latest c' hcounter
    rcases le_or_gt o'.epno o.epno with hle | hlt
    · obtain rfl : c = (o.epno : ℤ) :=
        (some.inj hc).symm.trans (max_eq_left (Int.ofNat_le.mpr hle))
      exact hself
    -- an older root is stored, but the latest one stays
    obtain rfl : c = (o'.epno : ℤ) :=
      (some.inj hc).symm.trans (max_eq_right (Int.ofNat_le.mpr hlt.le))
    refine ⟨o', rfl, hpos', hsmall', (lookup_insert_of_ne _ hlt.ne').trans hhash, ?_⟩
    exact Map.lookup_insert_keep hroot fun heq => hinj (o.h_eq.symm.trans (heq.symm.trans o'.h_eq))

/-- No hash is later than the latest epoch. -/
def Bounded (db : LocalDb H) : Prop :=
  ∀ e h, db.hashes.lookup e = some h → ∃ c, db.counter = some c ∧ (e : ℤ) ≤ c

/-- What a client knows after it was shown a root: no hash is forgotten, and a root that was accepted
is known by its hash. -/
structure Learns (db db' : LocalDb H) (r : MerkleRoot H) (res : Except CoreError Unit) : Prop where
  bounded : db'.Bounded
  kept (e : MerkleEpno) (h : H) : db.hashes.lookup e = some h → db'.hashes.lookup e = some h
  accepted : res = .ok () → ∃ o : OpenedRoot H, r = o.r ∧ db'.hashes.lookup o.epno = some o.h

/-- A root is stored after a check, where it does not contradict the rows. -/
theorem Grows.learns {bound : MerkleEpno} {c : ℤ}
    (hgrows : db.Grows (fun e _ => e < bound) db') (hbounded : db.Bounded) (hcounter : db.counter = some c)
    (hbound : (bound : ℤ) ≤ c ∨ bound ≤ o.epno) (hpos : 0 < o.epno) (hsmall : o.epno < 2 ^ 63)
    (hrow : ∀ h, db.hashes.lookup o.epno = some h → h = o.h) :
    db.Learns (db'.putLatest o) o.r (.ok ()) := by
  rw [putLatest_eq hpos hsmall, hgrows.counter, hcounter]
  refine ⟨fun e h hlookup => ⟨max (o.epno : ℤ) c, rfl, ?_⟩, fun e h hlookup => ?_, fun _ =>
    ⟨o, rfl, lookup_insert _⟩⟩
  · obtain ⟨rfl, -⟩ | ⟨-, hlookup⟩ := Map.lookup_insert_cases hlookup
    · exact le_max_left ..
    rcases hgrows.new hlookup with hold | hlt
    · obtain ⟨c', hc', hle⟩ := hbounded e h hold
      obtain rfl := mem_unique hcounter hc'
      exact hle.trans (le_max_right ..)
    rcases hbound with hle | hle
    · exact ((Int.ofNat_le.mpr hlt.le).trans hle).trans (le_max_right ..)
    · exact (Int.ofNat_le.mpr (hlt.le.trans hle)).trans (le_max_left ..)
  exact Map.lookup_insert_keep (hgrows.hashes hlookup) fun heq => (hrow h (heq ▸ hlookup)).symm

end LocalDb

/-! ## What a session does -/

inductive Check (H : Type) where
  | run (latest : MerkleRoot H)
  | historical (root : MerkleRoot H)

def Check.root : Check H → MerkleRoot H
  | .run latest => latest
  | .historical root => root

def Session.check (s : Session H) : Check H → Client H Unit
  | .run latest => s.run latest
  | .historical root => s.checkHistoricalRoot root

section Rules

variable {server : Server H} {queries : Option MerkleEpno → MerkleRoot H → Prop} {inv : LocalDb H → Prop}
  {db db' : LocalDb H}

theorem meets_storeLatest {o : OpenedRoot H} {post : LocalDb H → Except CoreError Unit → Prop}
    (hzero : ∀ e, o.epno = 0 → post db (.error e))
    (hstored : 0 < o.epno → inv (db.putLatest o) ∧ post (db.putLatest o) (.ok ())) :
    (storeLatest o).Meets (Answers server queries) (alone inv) post db := by
  refine meets_bind (meets_refuse (fun hc => absurd hc.2 (by simp)) fun _ => ?_)
  refine meets_bind (meets_refuse (fun hc => hzero _ hc.2) fun hpos => ?_)
  have hpos' : 0 < o.epno := Nat.pos_of_ne_zero fun h => hpos ⟨rfl, h⟩
  obtain ⟨hinv, hpost⟩ := hstored hpos'
  -- the counter is written, and then the rows without a stop
  rintro ⟨⟩ db1 rfl
  refine ⟨trivial, meets_call rfl ?_⟩
  rintro ⟨⟩ db2 rfl
  refine ⟨trivial, hinv, ?_⟩
  rintro db3 - rfl
  exact hpost

/-- The latest root that a client knows is the one that the counter names. -/
theorem LocalDb.Coherent.loadLatestKnownRoot (h : db.Coherent) {res : Except CoreError (Option (OpenedRoot H))}
    (hruns : (loadLatestKnownRoot).Runs (Answers server queries) db res db') :
    db.counter = none ∧ res = .ok none ∨ ∃ o : OpenedRoot H, db.counter = some (o.epno : ℤ) ∧
      0 < o.epno ∧ o.epno < 2 ^ 63 ∧ db.hashes.lookup o.epno = some o.h ∧ res = .ok (some o) := by
  obtain ⟨rfl, -⟩ := runs_loadLatestKnownRoot hruns
  rcases hcounter : db.counter with _ | c
  · rw [LocalDb.latest, hcounter]
    exact .inl ⟨rfl, rfl⟩
  obtain ⟨o, rfl, hpos, hsmall, hhash, hroot⟩ := h.latest c hcounter
  refine .inr ⟨o, rfl, hpos, hsmall, hhash, ?_⟩
  rw [LocalDb.latest, hcounter, bind_some, epnoOfCounter_natCast hsmall, LocalDb.rootOf, hhash,
    bind_some, hroot]
  dsimp only
  rw [openRoot_eq_ok.mpr rfl]
  rfl

theorem LocalDb.Coherent.init (h : db.Coherent) {res : Except CoreError (Session H)}
    (hruns : init.Runs (Answers server queries) db res db') :
    db' = db ∧ ∃ s : Session H, res = .ok s ∧ (db.counter = none ∧ s.rootAtStart = none ∨ ∃ o : OpenedRoot H,
        db.counter = some (o.epno : ℤ) ∧ db.hashes.lookup o.epno = some o.h ∧ s.rootAtStart = some o) := by
  rcases runs_bind.mp hruns with ⟨root, db1, hload, hpure⟩ | ⟨e, hload, -⟩
  · obtain ⟨rfl, rfl⟩ := runs_pure.mp hpure
    refine ⟨(runs_loadLatestKnownRoot hload).2, _, rfl, ?_⟩
    rcases h.loadLatestKnownRoot hload with ⟨hcounter, heq⟩ | ⟨o, hcounter, -, -, hhash, heq⟩
    · cases heq
      exact .inl ⟨hcounter, rfl⟩
    · cases heq
      exact .inr ⟨o, hcounter, hhash, rfl⟩
  · rcases h.loadLatestKnownRoot hload with ⟨-, heq⟩ | ⟨o, -, -, -, -, heq⟩ <;> cases heq

/-- What a call of a session does: the two databases stay coherent. If the server sends all hashes it is
asked for, the client learns. -/
structure Called (server : Server H) (start : Prop) (r : MerkleRoot H) (db db' : LocalDb H)
    (res : Except CoreError Unit) : Prop where
  coherent : db'.Coherent
  learns : server.Full → db.Bounded → start → db.Learns db' r res

theorem LocalDb.Coherent.called_error (hdb : db.Coherent) {start : Prop} {r : MerkleRoot H}
    (err : CoreError) : Called server start r db db (.error err) :=
  ⟨hdb, fun _ hbounded _ => ⟨hbounded, fun _ _ h => h, nofun⟩⟩

/-- The root that `Run` stores has a number for the counter. -/
def Check.Small : Check H → Prop
  | .run latest => ∀ o : OpenedRoot H, latest = o.r → o.epno < 2 ^ 63
  | .historical _ => True

section Meets

variable (hinj : Function.Injective (hashRoot : MerkleRoot H → H)) (hdb : db.Coherent) {s : Session H}
  {r : MerkleRoot H}

include hinj hdb

/-- A root is stored after a check. -/
theorem meets_check_storeLatest {right left o : OpenedRoot H} {c : ℤ} (hcounter : db.counter = some c)
    (hpos : 0 < left.epno → 0 < o.epno) (hsmall : o.epno < 2 ^ 63)
    (hbound : (right.epno : ℤ) ≤ c ∨ right.epno ≤ o.epno)
    (hrow : ∀ (db' : LocalDb H) h, db.Bounded → db'.hashes.lookup left.epno = some left.h →
      (db.hashes.lookup o.epno = some h → db'.hashes.lookup o.epno = some h) →
      db.hashes.lookup o.epno = some h → h = o.h) :
    (do checkSkipPointersFromAtoB right left
        storeLatest o : Client H Unit).Meets (Answers server queries) (alone LocalDb.Coherent)
      (Called server True o.r db) db := by
  refine meets_bind ((meets_checkSkipPointersFromAtoB hinj hdb.sound
    fun db' h => hdb.grows h).mono fun db1 res hcheck => ?_)
  have hdb1 := hdb.grows hcheck.grows
  cases res with
  | error err =>
    refine ⟨hdb1, fun hfull hbounded _ => ?_⟩
    rw [hcheck.unchanged err hfull rfl]
    exact ⟨hbounded, fun _ _ h => h, nofun⟩
  | ok u =>
    have hpos' := hpos (hcheck.positive rfl)
    have hcoherent := hdb1.putLatest hinj hpos' hsmall
    refine meets_storeLatest (fun e hzero => absurd hzero hpos'.ne') fun _ =>
      ⟨hcoherent, hcoherent, fun hfull hbounded _ => ?_⟩
    exact hcheck.grows.learns hbounded hcounter hbound hpos' hsmall fun h =>
      hrow db1 h hbounded (hcheck.known hfull rfl) hcheck.grows.hashes

theorem meets_run (hsmall : ∀ o : OpenedRoot H, r = o.r → o.epno < 2 ^ 63) :
    (s.run r).Meets (Answers server queries) (alone LocalDb.Coherent) (Called server True r db) db := by
  refine meets_bind_reads (asks_refuse ..) hdb (fun e _ => hdb.called_error e) fun _ _ => ?_
  refine meets_bind_reads (asks_lift _) hdb (fun e _ => hdb.called_error e) fun o hlift => ?_
  obtain rfl := openRoot_eq_ok.mp (runs_lift.mp hlift).1.symm
  have hsmall := hsmall o rfl
  refine meets_bind_reads reads_loadLatestKnownRoot hdb (fun e _ => hdb.called_error e) fun known hload => ?_
  rcases hdb.loadLatestKnownRoot hload with ⟨hcounter, heq⟩ | ⟨existing, hcounter, hpos, -, hhash, heq⟩
  · -- the first root
    cases heq
    refine meets_bind_reads (asks_refuse ..) hdb (fun e _ => hdb.called_error e) fun _ _ => ?_
    refine meets_storeLatest (fun e _ => hdb.called_error e) fun hpos =>
      ⟨hdb.putLatest hinj hpos hsmall, hdb.putLatest hinj hpos hsmall, fun _ hbounded _ => ?_⟩
    have hempty : ∀ e h, db.hashes.lookup e ≠ some h := by
      intro e h hrow
      obtain ⟨c, hc, -⟩ := hbounded e h hrow
      rw [hcounter] at hc
      cases hc
    rw [LocalDb.putLatest_eq hpos hsmall, hcounter]
    refine ⟨fun e h hrow => ⟨o.epno, rfl, ?_⟩, fun e h hrow => absurd hrow (hempty e h),
      fun _ => ⟨o, rfl, lookup_insert _⟩⟩
    obtain ⟨rfl, -⟩ | ⟨-, hrow⟩ := Map.lookup_insert_cases hrow
    · rfl
    · exact absurd hrow (hempty e h)
  cases heq
  refine meets_bind_reads (asks_refuse ..) hdb (fun e _ => hdb.called_error e) fun _ _ => ?_
  cases s.rootAtStart.filter fun r => o.epno < r.epno with
  | some r => exact hdb.called_error _
  | none =>
    rcases lt_trichotomy o.epno existing.epno with hlt | heq | hgt
    · rw [if_neg hlt.ne, if_pos hlt]
      refine meets_check_storeLatest hinj hdb hcounter id hsmall (.inl le_rfl) ?_
      exact fun db' h _ hknown hkept hrow => mem_unique (hkept hrow) hknown
    · rw [if_pos heq]
      refine meets_refuse (fun _ => hdb.called_error _) fun hsame => ⟨hdb, fun _ hbounded _ => ?_⟩
      refine ⟨hbounded, fun _ _ h => h, fun _ => ⟨o, rfl, ?_⟩⟩
      rw [heq, hhash, not_not.mp hsame]
    rw [if_neg hgt.ne', if_neg hgt.not_gt]
    refine meets_check_storeLatest hinj hdb hcounter (fun _ => hpos.trans hgt) hsmall (.inr le_rfl) ?_
    -- nothing is known of an epoch after the latest one
    intro db' h hbounded _ _ hrow
    obtain ⟨c, hc, hle⟩ := hbounded _ _ hrow
    obtain rfl := mem_unique hcounter hc
    exact absurd (Int.ofNat_le.mp hle) hgt.not_ge

theorem meets_checkHistoricalRoot :
    (s.checkHistoricalRoot r).Meets (Answers server queries) (alone LocalDb.Coherent)
      (Called server (∀ o ∈ s.rootAtStart, db.hashes.lookup o.epno = some o.h) r db) db := by
  refine meets_bind_reads (asks_lift _) hdb (fun e _ => hdb.called_error e) fun o hlift => ?_
  obtain rfl := openRoot_eq_ok.mp (runs_lift.mp hlift).1.symm
  cases s.rootAtStart with
  | none => exact hdb.called_error _
  | some start =>
    refine meets_bind_reads (asks_refuse ..) hdb (fun e _ => hdb.called_error e) fun _ _ => ?_
    split
    · next heq =>
      refine meets_refuse (fun _ => hdb.called_error _) fun hsame =>
        ⟨hdb, fun _ hbounded hstart => ⟨hbounded, fun _ _ h => h, fun _ => ⟨o, rfl, ?_⟩⟩⟩
      rw [heq, hstart start rfl, not_not.mp hsame]
    refine (meets_checkSkipPointersFromAtoB hinj hdb.sound fun db' h => hdb.grows h).mono
      fun db' res hcheck => ⟨hdb.grows hcheck.grows, fun hfull hbounded hstart => ?_⟩
    obtain ⟨c, hc, hle⟩ := hbounded _ _ (hstart start rfl)
    refine ⟨fun e h hrow => ?_, fun _ _ h => hcheck.grows.hashes h, fun hok =>
      ⟨o, rfl, hcheck.known hfull hok⟩⟩
    rw [hcheck.grows.counter]
    rcases hcheck.grows.new hrow with hold | hlt
    · exact hbounded e h hold
    · exact ⟨c, hc, (Int.ofNat_le.mpr hlt.le).trans hle⟩

theorem meets_check {c : Check H} (hsmall : c.Small) :
    (s.check c).Meets (Answers server queries) (alone LocalDb.Coherent)
      (Called server (∀ o ∈ s.rootAtStart, db.hashes.lookup o.epno = some o.h) c.root db) db := by
  cases c with
  | run latest =>
    exact (meets_run hinj hdb hsmall).mono fun db' res h =>
      ⟨h.coherent, fun hfull hbounded _ => h.learns hfull hbounded trivial⟩
  | historical root => exact meets_checkHistoricalRoot hinj hdb

end Meets

end Rules

/-! ## The process -/

section Types

variable (H)

omit [DecidableEq H] in
/-- A session, and the epochs that were stored as the latest before its `Init`. A session that begins
with `InitWithRoot` has none. -/
structure LiveSession where
  session : Session H
  since : Option (List MerkleEpno)

/-- A process: its databases, with a record of the epochs that were stored as the latest, its sessions
and the roots that these have accepted. -/
structure Process where
  disk : LocalDb H × List MerkleEpno := ({}, [])
  sessions : List (LiveSession H) := []
  accepted : List (MerkleRoot H) := []

inductive Event where
  | init
  | initWithRoot (r : MerkleRoot H)
  | check (i : ℕ) (c : Check H)
  /-- the process stops in a call, right after the question `last` -/
  | stop (i : ℕ) (c : Check H) (last : Option (Ask H))

end Types

omit [DecidableEq H] [MerkleHash H] in
/-- The epoch that a question stores as the latest. -/
def Ask.latest : Ask H → List MerkleEpno
  | .dbPutCounter c => [LocalStorage.epnoOfCounter c]
  | _ => []

/-- The answers to a process. -/
def DiskAnswers (server : Server H) : (q : Ask H) → LocalDb H × List MerkleEpno → q.Answer →
    LocalDb H × List MerkleEpno → Prop :=
  Prog.Recorded (Answers server fun _ _ => True) Ask.latest

namespace Process

inductive Step (server : Server H) : Process H → Event H → Process H → Prop
  | init {p : Process H} {res : Except CoreError (Session H)} {disk : LocalDb H × List MerkleEpno} :
      init.Runs (DiskAnswers server) p.disk res disk →
      Step server p .init { p with
        disk := disk
        sessions := p.sessions ++ (res.toOption.map fun s => ⟨s, some p.disk.2⟩).toList }
  | initWithRoot {p : Process H} {r : MerkleRoot H} {s : Session H} :
      -- the callers have a root that was accepted
      r ∈ p.accepted → initWithRoot r = .ok s →
      Step server p (.initWithRoot r) { p with sessions := p.sessions ++ [⟨s, none⟩] }
  | check {p : Process H} {i : ℕ} {live : LiveSession H} {c : Check H} {res : Except CoreError Unit}
      {disk : LocalDb H × List MerkleEpno} : p.sessions[i]? = some live →
      (live.session.check c).Runs (DiskAnswers server) p.disk res disk →
      Step server p (.check i c) { p with
        disk := disk
        accepted := p.accepted ++ (res.toOption.map fun _ => c.root).toList }
  | stop {p : Process H} {i : ℕ} {live : LiveSession H} {c : Check H} {last : Option (Ask H)}
      {disk : LocalDb H × List MerkleEpno} : p.sessions[i]? = some live →
      (live.session.check c).Stops (DiskAnswers server) p.disk last disk →
      Step server p (.stop i c last) { p with disk := disk, sessions := [] }

/-- The process gets from one state to another by events that are `ok`. -/
def Reaches (server : Server H) (ok : Event H → Prop) : Process H → Process H → Prop :=
  Relation.ReflTransGen fun p p' => ∃ e, ok e ∧ Step server p e p'

end Process

namespace Event

/-- The roots that are stored as the latest have a number for the counter. -/
def Small : Event H → Prop
  | check _ c => c.Small
  | stop _ c _ => c.Small
  | _ => True

/-- The process does not stop between the two writes of `Store`. -/
def Whole : Event H → Prop
  | stop _ _ (some q) => q.holds = false
  | _ => True

end Event

/-! ## Rollback -/

/-- An epoch that is stored as the latest has a number for the counter. -/
def Ask.Small (q : Ask H) : Prop := ∀ c, q = .dbPutCounter c → ∃ n : ℕ, n < 2 ^ 63 ∧ c = n

section Rollback

section

omit [DecidableEq H] [MerkleHash H]

theorem Ask.small_of_reads {q : Ask H} (h : q.reads = true) : q.Small := by
  rintro c rfl
  cases h

theorem Reads.asks_small {α : Type} {p : Client H α} (h : Reads p) : p.Asks Ask.Small :=
  Prog.Asks.mono h fun _ => Ask.small_of_reads

theorem asks_store (e : MerkleEpno) (h : Option H) (r : Option (MerkleRoot H)) :
    (LocalStorage.store e h r false).Asks Ask.Small := by
  cases h with
  | none => exact asks_fail _
  | some h =>
    refine asks_bind (asks_refuse ..) fun _ => asks_bind (asks_refuse ..) fun _ => ?_
    exact asks_bind (asks_pure ()) fun _ => asks_call.mpr nofun

theorem asks_storeRoots (right : MerkleEpno) (allHashes : Map MerkleEpno H)
    (neededRoots : List MerkleEpno) (newRoots : List (MerkleRoot H)) :
    (storeRoots right allHashes neededRoots newRoots).Asks Ask.Small := by
  induction neededRoots generalizing newRoots with
  | nil => exact asks_pure ()
  | cons epno neededRoots ih =>
    cases newRoots with
    | nil => exact asks_pure ()
    | cons root newRoots =>
      unfold storeRoots
      split
      · exact asks_bind (asks_store ..) fun _ => ih newRoots
      · exact ih newRoots

theorem asks_storeHashes (right : MerkleEpno) (neededHashes : List MerkleEpno) (newHashes : List H) :
    (storeHashes right neededHashes newHashes).Asks Ask.Small := by
  induction neededHashes generalizing newHashes with
  | nil => exact asks_pure ()
  | cons epno neededHashes ih =>
    cases newHashes with
    | nil => exact asks_pure ()
    | cons hash newHashes =>
      unfold storeHashes
      split
      · exact asks_bind (asks_store ..) fun _ => ih newHashes
      · exact ih newHashes

end

theorem asks_checkSkipPointersFromAtoB (right left : OpenedRoot H) :
    (checkSkipPointersFromAtoB right left).Asks Ask.Small := by
  refine asks_bind (asks_refuse ..) fun _ => ?_
  cases merkleCollectRoots right.epno left.epno with
  | none => exact asks_fail _
  | some found =>
    refine asks_bind (reads_loadRoots ..).asks_small fun _ => ?_
    refine asks_bind (reads_loadHashes ..).asks_small fun _ => ?_
    refine asks_bind (reads_getRootsFromServer ..).asks_small fun _ => ?_
    refine asks_bind (reads_addRoots ..).asks_small fun _ => ?_
    refine asks_bind (asks_lift _) fun _ => asks_bind (asks_lift _) fun _ => ?_
    refine asks_bind (asks_lift _) fun _ => ?_
    exact asks_bind (asks_storeRoots ..) fun _ => asks_storeHashes ..

omit [DecidableEq H] in
theorem asks_storeLatest {o : OpenedRoot H} (hsmall : o.epno < 2 ^ 63) : (storeLatest o).Asks Ask.Small := by
  refine asks_bind (asks_refuse ..) fun _ => asks_bind (asks_refuse ..) fun _ => ?_
  refine asks_bind (asks_call.mpr ?_) fun _ => asks_call.mpr nofun
  intro c hc
  rw [← Ask.dbPutCounter.inj hc]
  exact ⟨o.epno, hsmall, int64_of_lt hsmall⟩

variable {s : Session H} {server : Server H} {disk disk' : LocalDb H × List MerkleEpno}

theorem asks_check {c : Check H} (hsmall : c.Small) : (s.check c).Asks Ask.Small := by
  cases c with
  | run latest =>
    refine asks_bind (asks_refuse ..) fun _ => ?_
    refine asks_bind_lift fun o hopen => ?_
    have hstore := asks_storeLatest (hsmall o (openRoot_eq_ok.mp hopen))
    refine asks_bind reads_loadLatestKnownRoot.asks_small fun known => ?_
    cases known with
    | none => exact asks_bind (asks_refuse ..) fun _ => hstore
    | some existing =>
      refine asks_bind (asks_refuse ..) fun _ => ?_
      cases s.rootAtStart.filter fun r => o.epno < r.epno with
      | some r => exact asks_fail _
      | none =>
        split_ifs
        · exact asks_refuse ..
        · exact asks_bind (asks_checkSkipPointersFromAtoB ..) fun _ => hstore
        · exact asks_bind (asks_checkSkipPointersFromAtoB ..) fun _ => hstore
  | historical root =>
    refine asks_bind (asks_lift _) fun o => ?_
    cases s.rootAtStart with
    | none => exact asks_fail _
    | some start =>
      refine asks_bind (asks_refuse ..) fun _ => ?_
      split
      · exact asks_refuse ..
      · exact asks_checkSkipPointersFromAtoB ..

/-- The counter is not behind an epoch that was stored as the latest. -/
def Recalls (disk : LocalDb H × List MerkleEpno) : Prop :=
  ∀ n ∈ disk.2, ∃ c : ℤ, disk.1.counter = some c ∧ (n : ℤ) ≤ c

omit [MerkleHash H] in
theorem Recalls.answer {q : Ask H} {a : q.Answer} (hq : q.Small)
    (hstep : DiskAnswers server q disk a disk') (h : Recalls disk) : Recalls disk' := by
  obtain ⟨hdb, hnote⟩ := hstep
  intro n hn
  rw [hnote, mem_append] at hn
  cases q with
  | dbPutCounter c =>
    obtain ⟨m, hm, rfl⟩ := hq c rfl
    rw [show disk'.1 = disk.1.putCounter m from hdb]
    refine ⟨_, rfl, ?_⟩
    rcases hn with hn | hn
    · obtain ⟨c, hc, hle⟩ := h n hn
      rw [hc]
      exact hle.trans (le_max_right ..)
    rw [mem_singleton.mp hn, epnoOfCounter_natCast hm]
    cases disk.1.counter with
    | none => exact le_rfl
    | some c => exact le_max_left ..
  | dbPutTx rows =>
    have hcounter : ∀ (rows : List (Row H)) (db : LocalDb H), (db.putTx rows).counter = db.counter := by
      intro rows
      induction rows with
      | nil => exact fun _ => rfl
      | cons row rows ih =>
        intro db
        cases row <;> exact ih _
    rw [show disk'.1 = disk.1.putTx rows from hdb, hcounter]
    exact h n (hn.resolve_right not_mem_nil)
  | _ =>
    rw [hdb.2]
    exact h n (hn.resolve_right not_mem_nil)

/-- A root that `Run` accepts is not older than the one that was known to `Init`. -/
theorem run_not_older {σ : Type} {R : (q : Ask H) → σ → q.Answer → σ → Prop} {st st' : σ}
    {r : MerkleRoot H} (h : (s.run r).Runs R st (.ok ()) st') {start : OpenedRoot H}
    (hstart : s.rootAtStart = some start) : ∃ o : OpenedRoot H, r = o.r ∧ start.epno ≤ o.epno := by
  obtain ⟨⟨⟩, st1, -, h1⟩ := runs_bind_ok.mp h
  obtain ⟨o, st2, hopen, h2⟩ := runs_bind_ok.mp h1
  refine ⟨o, openRoot_eq_ok.mp (runs_lift.mp hopen).1.symm, ?_⟩
  obtain ⟨known, st3, -, h3⟩ := runs_bind_ok.mp h2
  cases known with
  | none =>
    obtain ⟨⟨⟩, st4, hrefuse, -⟩ := runs_bind_ok.mp h3
    exact absurd (by rw [hstart]; rfl) (runs_refuse_ok.mp hrefuse).1
  | some existing =>
    obtain ⟨⟨⟩, st4, -, h4⟩ := runs_bind_ok.mp h3
    by_contra hlt
    rw [hstart, filter_some, if_pos (decide_eq_true (not_le.mp hlt))] at h4
    cases (runs_fail.mp h4).1

/-- What a process that does not stop between two writes keeps: the databases are coherent, and each
session that began with `Init` knows a root that is not older than what was stored before. -/
structure Guarded (p : Process H) : Prop where
  coherent : p.disk.1.Coherent
  recalls : Recalls p.disk
  sessions : ∀ live ∈ p.sessions, ∀ stored, live.since = some stored → ∀ n ∈ stored,
    ∃ start : OpenedRoot H, live.session.rootAtStart = some start ∧ n ≤ start.epno

section

variable (hinj : Function.Injective (hashRoot : MerkleRoot H → H)) {p p' : Process H} (h : Guarded p)

include hinj h

theorem Guarded.step {e : Event H} (hstep : p.Step server e p') (hsmall : e.Small) (hwhole : e.Whole) :
    Guarded p' := by
  cases hstep with
  | @init res disk hruns =>
    obtain ⟨hsame, s, rfl, hstart⟩ := h.coherent.init hruns.of_recorded
    have hreads : Reads (init : Client H _) :=
      asks_bind reads_loadLatestKnownRoot fun _ => asks_pure _
    refine ⟨hsame ▸ h.coherent, ?_, fun live hlive => ?_⟩
    · exact hruns.invariant (fun _ _ _ _ hq hs => Recalls.answer hq hs) hreads.asks_small h.recalls
    rcases mem_append.mp hlive with hlive | hlive
    · exact h.sessions live hlive
    obtain rfl := mem_singleton.mp hlive
    rintro _ ⟨⟩ n hn
    obtain ⟨c, hc, hle⟩ := h.recalls n hn
    rcases hstart with ⟨hnone, -⟩ | ⟨o, hcounter, -, hroot⟩
    · rw [hnone] at hc
      cases hc
    · obtain rfl := mem_unique hcounter hc
      exact ⟨o, hroot, Int.ofNat_le.mp hle⟩
  | initWithRoot hr hs =>
    refine ⟨h.coherent, h.recalls, fun live hlive => ?_⟩
    rcases mem_append.mp hlive with hlive | hlive
    · exact h.sessions live hlive
    · obtain rfl := mem_singleton.mp hlive
      exact nofun
  | check hlive hruns =>
    refine ⟨?_, ?_, h.sessions⟩
    · exact (hruns.of_recorded.meets (fun _ => rfl) (meets_check hinj h.coherent hsmall)).coherent
    · exact hruns.invariant (fun _ _ _ _ hq hs => Recalls.answer hq hs) (asks_check hsmall) h.recalls
  | @stop _ _ _ last _ hlive hstops =>
    refine ⟨?_, ?_, forall_mem_nil _⟩
    · cases last with
      | none => exact hstops.of_recorded.eq_of_none ▸ h.coherent
      | some q => exact hstops.of_recorded.meets (fun _ => rfl) (meets_check hinj h.coherent hsmall) hwhole
    · exact hstops.invariant (fun _ _ _ _ hq hs => Recalls.answer hq hs) (asks_check hsmall) h.recalls

theorem Guarded.reaches (hrun : p.Reaches server (fun e => e.Small ∧ e.Whole) p') : Guarded p' := by
  induction hrun with
  | refl => exact h
  | tail _ hstep ih =>
    obtain ⟨e, ⟨hsmall, hwhole⟩, hstep⟩ := hstep
    exact ih.step hinj hstep hsmall hwhole

end

theorem guarded_empty : Guarded ({} : Process H) :=
  ⟨LocalDb.coherent_empty, forall_mem_nil _, forall_mem_nil _⟩

/-- Rollback protection survives a stop that is not between the two writes of `Store`: if an epoch was
stored as the latest before the `Init` of a session, its `Run` accepts no root of an earlier epoch,
whatever the server answers. -/
theorem rollback_protected (hinj : Function.Injective (hashRoot : MerkleRoot H → H))
    {server : Server H} {p : Process H}
    (hrun : Process.Reaches server (fun e => e.Small ∧ e.Whole) {} p) {live : LiveSession H}
    (hlive : live ∈ p.sessions) {stored : List MerkleEpno} (hsince : live.since = some stored)
    {n : MerkleEpno} (hn : n ∈ stored) {r : MerkleRoot H} {disk : LocalDb H × List MerkleEpno}
    (hok : (live.session.run r).Runs (DiskAnswers server) p.disk (.ok ()) disk) :
    ∃ o : OpenedRoot H, r = o.r ∧ n ≤ o.epno := by
  obtain ⟨start, hstart, hle⟩ := (guarded_empty.reaches hinj hrun).sessions live hlive stored hsince n hn
  obtain ⟨o, hr, hle'⟩ := run_not_older hok hstart
  exact ⟨o, hr, hle.trans hle'⟩

end Rollback

/-! ## Running a process -/

section Play

/-- A call, with the number of questions after which the process stops, if it does. -/
inductive Move (H : Type) where
  | init
  | check (i : ℕ) (c : Check H) (turns : Option ℕ)

/-- The events of a move are all `ok`. -/
def Move.Fine (ok : Event H → Prop) : Move H → Prop
  | .init => ok .init
  | .check i c none => ok (.check i c)
  | .check i c (some _) => ∀ last, ok (.stop i c last)

/-- What a server answers that is a function. -/
abbrev Replies (H : Type) :=
  List MerkleEpno → List MerkleEpno → Except CoreError (List (MerkleRoot H) × List H)

variable (reply : Replies H)

def Replies.respond : (q : Ask H) → LocalDb H × List MerkleEpno → q.Answer × (LocalDb H × List MerkleEpno) :=
  Prog.record (LocalDb.respond reply fun _ => .future 0) Ask.latest

namespace Process

def play (p : Process H) : List (Move H) → Option (Process H)
  | [] => some p
  | .init :: moves =>
    let (res, disk) := init.exec reply.respond p.disk
    play { p with
      disk := disk
      sessions := p.sessions ++ (res.toOption.map fun s => ⟨s, some p.disk.2⟩).toList } moves
  | .check i c turns :: moves => do
    let live ← p.sessions[i]?
    match turns with
    | none =>
      let (res, disk) := (live.session.check c).exec reply.respond p.disk
      play { p with
        disk := disk
        accepted := p.accepted ++ (res.toOption.map fun _ => c.root).toList } moves
    | some turns =>
      play { p with
        disk := ((live.session.check c).stopAfter reply.respond turns p.disk).2
        sessions := [] } moves

variable {reply}

variable {server : Server H}

omit [MerkleHash H] in
theorem answers_respond (hserver : ∀ full hashes, server full hashes (reply full hashes))
    (q : Ask H) (disk : LocalDb H × List MerkleEpno) :
    DiskAnswers server q disk (reply.respond q disk).1 (reply.respond q disk).2 :=
  ⟨LocalDb.answers_respond hserver (fun _ => trivial) q disk.1, rfl⟩

/-- The moves that are played are events of the process. -/
theorem reaches_play (hserver : ∀ full hashes, server full hashes (reply full hashes))
    {ok : Event H → Prop} {moves : List (Move H)} (hok : moves.Forall (Move.Fine ok)) {p p' : Process H}
    (h : p.play reply moves = some p') : p.Reaches server ok p' := by
  induction moves generalizing p with
  | nil =>
    cases h
    exact .refl
  | cons move moves ih =>
    obtain ⟨hmove, hmoves⟩ := (forall_cons ..).mp hok
    have hruns := fun {α : Type} (x : Client H α) => runs_exec (answers_respond hserver) x p.disk
    cases move with
    | init => exact (ih hmoves h).head ⟨.init, hmove, .init (hruns _)⟩
    | check i c turns =>
      obtain ⟨live, hlive, h⟩ := bind_eq_some_iff.mp h
      cases turns with
      | none => exact (ih hmoves h).head ⟨.check i c, hmove, .check hlive (hruns _)⟩
      | some n =>
        have hstops := stops_stopAfter (answers_respond hserver) n (live.session.check c) p.disk
        exact (ih hmoves h).head ⟨_, hmove _, .stop hlive hstops⟩

end Process

end Play

/-! ## Samples -/

namespace ProcessSample

open RootSym

/-- A server that only fails. -/
def down : Replies RootSym := fun _ _ => .error (.internalError "down")

theorem runs_respond (reply : Replies RootSym) {α : Type} (x : Client RootSym α)
    (disk : LocalDb RootSym × List MerkleEpno) :
    x.Runs (DiskAnswers fun _ _ _ => True) disk (x.exec reply.respond disk).1 (x.exec reply.respond disk).2 :=
  runs_exec (Process.answers_respond fun _ _ => trivial) x disk

theorem small_rootAt {e : ℕ} {bps : List (MerkleBackPointer RootSym)} (h : e < 2 ^ 63) :
    (Check.run (rootAt e bps).r).Small := by
  intro o ho
  have heq : (rootAt e bps).v1 = o.v1 := MerkleRoot.v1.inj ((rootAt e bps).r_eq.symm.trans (ho.trans o.r_eq))
  rw [OpenedRoot.epno, ← heq]
  exact h

end ProcessSample

open ProcessSample RootSym in
/-- Epoch five is stored, the process stops while it checks a root of epoch six, and starts again: a root
of epoch five is still accepted. -/
theorem rollback_protected_five :
    ∃ o : OpenedRoot RootSym, (rootAt 5 []).r = o.r ∧ 5 ≤ o.epno := by
  let next : Check RootSym := .run (rootAt 6 []).r
  have hplay : ∃ p₁ ∈ Process.play down {} [.init, .check 0 (.run (rootAt 5 []).r) none],
      ∃ live₁ ∈ p₁.sessions[0]?, ∃ q ∈ ((live₁.session.check next).stopAfter down.respond 1 p₁.disk).1,
      q.holds = false ∧
      ∃ p ∈ Process.play down { p₁ with
          disk := ((live₁.session.check next).stopAfter down.respond 1 p₁.disk).2, sessions := [] } [.init],
        ∃ live ∈ p.sessions, live.since = some [5] ∧
          ((live.session.run (rootAt 5 []).r).exec down.respond p.disk).1 = .ok () := by decide +kernel
  obtain ⟨p₁, hp₁, live₁, hlive₁, q, hq, hwhole, p, hp, live, hlive, hsince, hok⟩ := hplay
  let server : Server RootSym := fun _ _ _ => True
  have hfirst : Process.Reaches server (fun e => e.Small ∧ e.Whole) {} p₁ := by
    refine Process.reaches_play (fun _ _ => trivial) ?_ hp₁
    exact ⟨⟨trivial, trivial⟩, small_rootAt (by decide), trivial⟩
  have hanswers : ∀ q disk, DiskAnswers server q disk (down.respond q disk).1 (down.respond q disk).2 :=
    Process.answers_respond fun _ _ => trivial
  have hstops := stops_stopAfter hanswers 1 (live₁.session.check next) p₁.disk
  rw [mem_def.mp hq] at hstops
  have hreaches : Process.Reaches server (fun e => e.Small ∧ e.Whole) {} p := by
    refine (hfirst.tail ⟨.stop 0 next (some q), ⟨small_rootAt (by decide), hwhole⟩,
      .stop hlive₁ hstops⟩).trans ?_
    refine Process.reaches_play (fun _ _ => trivial) ?_ hp
    exact ⟨trivial, trivial⟩
  have hruns := runs_respond down (live.session.run (rootAt 5 []).r) p.disk
  rw [hok] at hruns
  exact rollback_protected soundRootHash.root_injective hreaches hlive hsince mem_cons_self hruns

open ProcessSample RootSym in
/-- The process stops after it has written the counter for epoch five, and before it has written the
rows. When it starts again it accepts a root of epoch one. -/
theorem not_rollback_protected :
    ∃ (p : Process RootSym) (live : LiveSession RootSym) (stored : List MerkleEpno)
      (o : OpenedRoot RootSym) (disk : LocalDb RootSym × List MerkleEpno),
      Process.Reaches (fun _ _ _ => True) Event.Small {} p ∧ live ∈ p.sessions ∧
        live.since = some stored ∧ 5 ∈ stored ∧
        (live.session.run o.r).Runs (DiskAnswers fun _ _ _ => True) p.disk (.ok ()) disk ∧
        o.epno < 5 := by
  let moves : List (Move RootSym) :=
    [.init, .check 0 (.run (rootAt 5 []).r) (some 2), .init]
  have hplay : ∃ p ∈ Process.play down {} moves, ∃ live ∈ p.sessions, live.since = some [5] ∧
      ((live.session.run (rootAt 1 []).r).exec down.respond p.disk).1 = .ok () := by decide +kernel
  obtain ⟨p, hp, live, hlive, hsince, hok⟩ := hplay
  have hreaches : Process.Reaches (fun _ _ _ => True) Event.Small {} p := by
    refine Process.reaches_play (fun _ _ => trivial) ?_ hp
    exact ⟨trivial, fun _ => small_rootAt (by decide), trivial⟩
  have hruns := runs_respond down (live.session.run (rootAt 1 []).r) p.disk
  rw [hok] at hruns
  exact ⟨p, live, [5], rootAt 1 [], _, hreaches, hlive, hsince, by decide, hruns, by decide⟩

end Foks.Merkle
