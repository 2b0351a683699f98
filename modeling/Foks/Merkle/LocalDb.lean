import Foks.Merkle.SkipPointers

/-!
# The local databases of a client

`client/libclient/db.go`: a counter only goes up, and a row is written over. What a client that runs
alone reads and writes: it stores hashes that were not known before, and roots that have the hash they
are stored under.
-/

namespace Foks.Merkle

open Lib MerkleHash List Finmap Prog LocalStorage

structure LocalDb (H : Type) where
  -- the latest epoch, in the hard database
  counter : Option ℤ := none
  hashes : Map MerkleEpno H := ∅
  roots : Map H (MerkleRoot H) := ∅

variable {H : Type} [DecidableEq H] {queries : Option MerkleEpno → MerkleRoot H → Prop}

namespace LocalDb

omit [DecidableEq H] in
/-- `ON CONFLICT DO UPDATE SET val=$3 WHERE val<$3` -/
def putCounter (db : LocalDb H) (c : ℤ) : LocalDb H :=
  { db with counter := some (db.counter.elim c (max c)) }

variable (db : LocalDb H)

def putRow : Row H → LocalDb H
  | .merkleRootHashByEpno ep h => { db with hashes := db.hashes.insert ep h }
  | .merkleRootByHash h r => { db with roots := db.roots.insert h r }

def putTx (rows : List (Row H)) : LocalDb H := rows.foldl putRow db

/-- The root of an epoch, if it can be read. -/
def rootOf (ep : MerkleEpno) : Option (MerkleRoot H) :=
  (db.hashes.lookup ep).bind db.roots.lookup

/-- The latest root, if it can be read. -/
def latest : Option (MerkleRoot H) :=
  db.counter.bind fun c => db.rootOf (epnoOfCounter c)

end LocalDb

/-- What a server may answer when it is asked for roots and hashes. -/
abbrev Server (H : Type) :=
  List MerkleEpno → List MerkleEpno → Except CoreError (List (MerkleRoot H) × List H) → Prop

/-- The server sends as many hashes as it is asked for, or none at all. -/
def Server.Full (server : Server H) : Prop :=
  ∀ full hashes roots hs, server full hashes (.ok (roots, hs)) → hs.length = hashes.length

/-- The answers that a client gets: those of its databases, and some that `server` and `queries`
allow. -/
def Answers (server : Server H) (queries : Option MerkleEpno → MerkleRoot H → Prop) :
    (q : Ask H) → LocalDb H → q.Answer → LocalDb H → Prop
  | .dbGetCounter, db, a, db' => a = db.counter ∧ db' = db
  | .dbGetHash ep, db, a, db' => a = db.hashes.lookup ep ∧ db' = db
  | .dbGetRoot h, db, a, db' => a = db.roots.lookup h ∧ db' = db
  | .dbPutCounter c, db, _, db' => db' = db.putCounter c
  | .dbPutTx rows, db, _, db' => db' = db.putTx rows
  | .getHistoricalRoots full hashes, db, a, db' => server full hashes a ∧ db' = db
  | .query known, db, a, db' => queries known a ∧ db' = db

/-- The answers of the databases, and of a server that is a function. -/
def LocalDb.respond (reply : List MerkleEpno → List MerkleEpno →
    Except CoreError (List (MerkleRoot H) × List H)) (root : Option MerkleEpno → MerkleRoot H) :
    (q : Ask H) → LocalDb H → q.Answer × LocalDb H
  | .dbGetCounter, db => (db.counter, db)
  | .dbGetHash ep, db => (db.hashes.lookup ep, db)
  | .dbGetRoot h, db => (db.roots.lookup h, db)
  | .dbPutCounter c, db => ((), db.putCounter c)
  | .dbPutTx rows, db => ((), db.putTx rows)
  | .getHistoricalRoots full hashes, db => (reply full hashes, db)
  | .query known, db => (root known, db)

theorem LocalDb.answers_respond {server : Server H}
    {reply : List MerkleEpno → List MerkleEpno → Except CoreError (List (MerkleRoot H) × List H)}
    {root : Option MerkleEpno → MerkleRoot H} (hserver : ∀ full hashes, server full hashes (reply full hashes))
    (hqueries : ∀ known, queries known (root known)) (q : Ask H) (db : LocalDb H) :
    Answers server queries q db (respond reply root q db).1 (respond reply root q db).2 := by
  cases q with
  | getHistoricalRoots full hashes => exact ⟨hserver full hashes, rfl⟩
  | query known => exact ⟨hqueries known, rfl⟩
  | dbPutCounter c | dbPutTx rows => exact rfl
  | _ => exact ⟨rfl, rfl⟩

/-- The write of `Store` that its second write follows. -/
def Ask.holds : Ask H → Bool
  | .dbPutCounter _ => true
  | _ => false

/-- The question does not write. -/
def Ask.reads : Ask H → Bool
  | .dbPutCounter _ | .dbPutTx _ => false
  | _ => true

/-- A client that runs alone, and that keeps `inv` between any two questions. -/
def alone (inv : LocalDb H → Prop) : Pact (Ask H) (LocalDb H) where
  inv := inv
  rely := Eq
  guar _ _ := True
  holds := Ask.holds

/-! ## Reading -/

section Read

/-- The program does not write. -/
abbrev Reads {α : Type} (p : Client H α) : Prop := p.Asks fun q => q.reads = true

omit [DecidableEq H]

theorem reads_getRootFromCache (ep : MerkleEpno) : Reads (getRootFromCache ep : Client H _) := by
  refine asks_bind (asks_call.mpr rfl) fun hsh => ?_
  cases hsh with
  | none => exact asks_pure none
  | some hsh => exact asks_call.mpr rfl

theorem reads_getLatestRootFromCache : Reads (getLatestRootFromCache : Client H _) := by
  refine asks_bind (asks_call.mpr rfl) fun c => ?_
  cases c with
  | none => exact asks_pure none
  | some c => exact reads_getRootFromCache _

variable (allRoots : Map MerkleEpno (MerkleRoot H))

theorem reads_loadRoots (roots : List MerkleEpno) : Reads (loadRoots allRoots roots) := by
  induction roots generalizing allRoots with
  | nil => exact asks_pure _
  | cons epno roots ih =>
    unfold loadRoots
    split
    · exact ih allRoots
    refine asks_bind (reads_getRootFromCache epno) fun root => ?_
    cases root with
    | some root => exact ih _
    | none => exact asks_bind (ih _) fun _ => asks_pure _

variable (neededRoots : List MerkleEpno)

theorem reads_getRootsFromServer (neededHashes : List MerkleEpno) :
    Reads (getRootsFromServer neededRoots neededHashes : Client H _) := by
  unfold getRootsFromServer
  split
  · exact asks_pure _
  refine asks_bind (asks_call.mpr rfl) fun res => ?_
  cases res with
  | ok res => exact asks_pure res
  | error err => exact asks_fail err

variable [MerkleHash H]

theorem reads_getRootHashFromCache (e : MerkleEpno) : Reads (getRootHashFromCache e : Client H _) := by
  refine asks_bind (asks_call.mpr rfl) fun hash => ?_
  cases hash with
  | some hash => exact asks_pure _
  | none => exact asks_bind (reads_getRootFromCache e) fun _ => asks_pure _

theorem reads_loadHashes (allHashes : Map MerkleEpno H) (hashes : List MerkleEpno) :
    Reads (loadHashes allHashes hashes) := by
  induction hashes generalizing allHashes with
  | nil => exact asks_pure _
  | cons epno hashes ih =>
    refine asks_bind (reads_getRootHashFromCache epno) fun hash => ?_
    cases hash with
    | some hash => exact ih _
    | none => exact asks_bind (ih _) fun _ => asks_pure _

theorem reads_loadLatestKnownRoot : Reads (Session.loadLatestKnownRoot : Client H _) := by
  refine asks_bind reads_getLatestRootFromCache fun root => ?_
  cases root with
  | none => exact asks_pure none
  | some root => exact asks_bind (asks_lift _) fun _ => asks_pure _

variable [DecidableEq H]

theorem reads_addRoots (newRoots : List (MerkleRoot H)) : Reads (addRoots allRoots neededRoots newRoots) := by
  induction newRoots generalizing allRoots neededRoots with
  | nil => cases neededRoots <;> exact asks_pure _
  | cons root newRoots ih =>
    cases neededRoots with
    | nil => exact asks_fail _
    | cons epno neededRoots =>
      refine asks_bind (asks_bind (asks_call.mpr rfl) fun _ => ?_) fun _ => ih _ _
      exact asks_refuse ..

variable {server : Server H} {inv : LocalDb H → Prop} {db db' : LocalDb H} {α β : Type}

section

omit [MerkleHash H]

theorem Answers.eq_of_reads {q : Ask H} {a : q.Answer} (h : Answers server queries q db a db')
    (hq : q.reads = true) : db' = db := by
  cases q with
  | dbPutCounter c | dbPutTx rows => cases hq
  | _ => exact h.2

/-- A part of a program that does not write. -/
theorem meets_bind_reads {x : Client H α} {f : α → Client H β}
    {post : LocalDb H → Except CoreError β → Prop} (hx : Reads x) (hinv : inv db)
    (herror : ∀ e, x.Runs (Answers server queries) db (.error e) db → post db (.error e))
    (hok : ∀ a, x.Runs (Answers server queries) db (.ok a) db →
      (f a).Meets (Answers server queries) (alone inv) post db) :
    (x >>= f).Meets (Answers server queries) (alone inv) post db := by
  have hreads : ∀ q : Ask H, q.reads = true → q.holds = false ∧
      ∀ db a db', Answers server queries q db a db' → db' = db := by
    intro q hq
    refine ⟨?_, fun db a db' h => h.eq_of_reads hq⟩
    cases q with
    | dbPutCounter c => cases hq
    | _ => rfl
  have hmeets := meets_of_asks (P := alone inv) hx hreads (fun _ _ h => Eq.symm h) trivial hinv
  refine meets_bind (hmeets.mono ?_)
  rintro db' res ⟨rfl, hruns⟩
  cases res with
  | ok a => exact hok a hruns
  | error e => exact herror e hruns

theorem runs_getRootFromCache {ep : MerkleEpno} {res : Except CoreError (Option (MerkleRoot H))}
    (h : (getRootFromCache ep).Runs (Answers server queries) db res db') :
    res = .ok (db.rootOf ep) ∧ db' = db := by
  unfold LocalDb.rootOf
  obtain ⟨_, db1, ⟨rfl, rfl⟩, h1⟩ := runs_call_bind.mp h
  cases hhash : db1.hashes.lookup ep with
  | none =>
    rw [hhash] at h1
    exact runs_pure.mp h1
  | some hsh =>
    rw [hhash] at h1
    obtain ⟨_, rfl, rfl, rfl⟩ := runs_call.mp h1
    exact ⟨rfl, rfl⟩

end

/-- A hash that has no row has no root either. -/
theorem runs_getRootHashFromCache {e : MerkleEpno} {res : Except CoreError (Option H)}
    (h : (getRootHashFromCache e).Runs (Answers server queries) db res db') :
    res = .ok (db.hashes.lookup e) ∧ db' = db := by
  obtain ⟨_, db1, ⟨rfl, rfl⟩, h1⟩ := runs_call_bind.mp h
  cases hhash : db1.hashes.lookup e with
  | some hash =>
    rw [hhash] at h1
    exact runs_pure.mp h1
  | none =>
    rw [hhash] at h1
    rcases runs_bind.mp h1 with ⟨root, db2, h2, h3⟩ | ⟨e, h2, -⟩
    · obtain ⟨heq, rfl⟩ := runs_getRootFromCache h2
      cases heq
      rw [LocalDb.rootOf, hhash] at h3
      exact runs_pure.mp h3
    · cases (runs_getRootFromCache h2).1

theorem runs_loadLatestKnownRoot {res : Except CoreError (Option (OpenedRoot H))}
    (h : (Session.loadLatestKnownRoot).Runs (Answers server queries) db res db') :
    res = (match db.latest with
      | none => .ok none
      | some r => (openRoot r).map some) ∧ db' = db := by
  have hlatest : ∀ {res' db1}, (getLatestRootFromCache).Runs (Answers server queries) db
      res' db1 → res' = .ok db.latest ∧ db1 = db := by
    intro res' db1 h
    unfold LocalDb.latest
    obtain ⟨_, db2, ⟨rfl, rfl⟩, h1⟩ := runs_call_bind.mp h
    cases hcounter : db2.counter with
    | none =>
      rw [hcounter] at h1
      exact runs_pure.mp h1
    | some c =>
      rw [hcounter] at h1
      exact runs_getRootFromCache h1
  rcases runs_bind.mp h with ⟨root, db1, h1, h2⟩ | ⟨e, h1, -⟩
  · obtain ⟨heq, rfl⟩ := hlatest h1
    cases heq
    rcases hroot : db1.latest with _ | r
    · rw [hroot] at h2
      exact runs_pure.mp h2
    rw [hroot] at h2
    rcases runs_bind.mp h2 with ⟨o, db2, h3, h4⟩ | ⟨e, h3, rfl⟩
    · obtain ⟨heq, rfl⟩ := runs_lift.mp h3
      obtain ⟨rfl, rfl⟩ := runs_pure.mp h4
      dsimp only
      rw [← heq]
      exact ⟨rfl, rfl⟩
    obtain ⟨heq, rfl⟩ := runs_lift.mp h3
    dsimp only
    rw [← heq]
    exact ⟨rfl, rfl⟩
  · cases (hlatest h1).1

end Read

/-! ## What the loops have found -/

section Found

variable [MerkleHash H] {server : Server H} {db db' : LocalDb H}

variable {allHashes : Map MerkleEpno H} {neededHashes neededRoots : List MerkleEpno} {newHashes : List H}

/-- The hashes that have a row are found, the others are needed. -/
theorem loadHashes_found {hashes : List MerkleEpno} {found : Map MerkleEpno H × List MerkleEpno}
    (h : (loadHashes allHashes hashes).Runs (Answers server queries) db (.ok found) db')
    (hall : ∀ e hash, allHashes.lookup e = some hash → db.hashes.lookup e = some hash) :
    found.2 = hashes.filter (fun e => (db.hashes.lookup e).isNone) ∧
      (∀ e hash, found.1.lookup e = some hash → db.hashes.lookup e = some hash) ∧
      ∀ e hash, (allHashes.lookup e = some hash ∨ e ∈ hashes ∧ db.hashes.lookup e = some hash) →
        found.1.lookup e = some hash := by
  induction hashes generalizing allHashes found with
  | nil =>
    obtain ⟨hfound, -⟩ := runs_pure.mp h
    cases hfound
    exact ⟨rfl, hall, fun e hash he => he.elim id fun he => absurd he.1 not_mem_nil⟩
  | cons epno hashes ih =>
    obtain ⟨hash, db1, h1, h2⟩ := runs_bind_ok.mp h
    obtain ⟨heq, rfl⟩ := runs_getRootHashFromCache h1
    cases heq
    cases hrow : db1.hashes.lookup epno with
    | some hash =>
      rw [hrow] at h2
      have hall' : ∀ e hash', (allHashes.insert epno hash).lookup e = some hash' →
          db1.hashes.lookup e = some hash' := by
        intro e hash' he
        obtain ⟨rfl, rfl⟩ | ⟨-, he⟩ := Map.lookup_insert_cases he
        · exact hrow
        · exact hall e hash' he
      obtain ⟨hneeded, hsound, hcomplete⟩ := ih h2 hall'
      refine ⟨by rw [hneeded, filter_cons_of_neg (by simp [hrow])], hsound, ?_⟩
      intro e hash' he
      apply hcomplete
      by_cases hne : e = epno
      · have hrow' : db1.hashes.lookup e = some hash' := he.elim (hall e hash') And.right
        rw [hne, hrow] at hrow'
        exact .inl (by rw [hne, lookup_insert, hrow'])
      · rw [lookup_insert_of_ne _ hne]
        exact he.imp_right fun he => ⟨mem_of_ne_of_mem hne he.1, he.2⟩
    | none =>
      rw [hrow] at h2
      obtain ⟨rest, db2, hrest, h3⟩ := runs_bind_ok.mp h2
      obtain ⟨hfound, rfl⟩ := runs_pure.mp h3
      cases hfound
      obtain ⟨hneeded, hsound, hcomplete⟩ := ih hrest hall
      refine ⟨by rw [filter_cons_of_pos (by simp [hrow]), ← hneeded], hsound, ?_⟩
      intro e hash' he
      refine hcomplete e hash' (he.imp_right fun he => ⟨mem_of_ne_of_mem ?_ he.1, he.2⟩)
      rintro rfl
      rw [hrow] at he
      cases he.2

omit [DecidableEq H] [MerkleHash H] in
theorem addHashes_lookup {hashes : Map MerkleEpno H}
    (h : addHashes allHashes neededHashes newHashes = .ok hashes)
    (hnodup : neededHashes.Nodup) :
    (∀ e, e ∉ neededHashes → hashes.lookup e = allHashes.lookup e) ∧
      (∀ x ∈ neededHashes.zip newHashes, hashes.lookup x.1 = some x.2) ∧
      newHashes.length ≤ neededHashes.length := by
  induction newHashes generalizing allHashes neededHashes with
  | nil =>
    cases neededHashes <;>
    · cases h
      simp
  | cons hash newHashes ih =>
    cases neededHashes with
    | nil => cases h
    | cons epno neededHashes =>
      obtain ⟨hnot, hnodup⟩ := nodup_cons.mp hnodup
      obtain ⟨hother, hnew, hlength⟩ := ih h hnodup
      refine ⟨fun e he => ?_, forall_mem_cons.mpr ⟨?_, hnew⟩, Nat.succ_le_succ hlength⟩
      · rw [mem_cons, not_or] at he
        rw [hother e he.2, lookup_insert_of_ne _ he.1]
      · rw [hother epno hnot, lookup_insert]

theorem addRoots_zip {σ : Type} {R : (q : Ask H) → σ → q.Answer → σ → Prop} {s s' : σ}
    {allRoots roots : Map MerkleEpno (MerkleRoot H)}
    {newRoots : List (MerkleRoot H)}
    (h : (addRoots allRoots neededRoots newRoots).Runs R s (.ok roots) s')
    (hnodup : neededRoots.Nodup) : ∀ x ∈ neededRoots.zip newRoots, roots.lookup x.1 = some x.2 := by
  induction newRoots generalizing allRoots neededRoots s with
  | nil => simp
  | cons root newRoots ih =>
    cases neededRoots with
    | nil => simp
    | cons epno neededRoots =>
      obtain ⟨⟨⟩, s1, -, h1⟩ := runs_bind_ok.mp h
      obtain ⟨hnot, hnodup⟩ := nodup_cons.mp hnodup
      refine forall_mem_cons.mpr ⟨?_, ih h1 hnodup⟩
      exact (addRoots_lookup h1 hnot).trans (lookup_insert _)

/-- All hashes that are known do not contradict the rows, and are there for each epoch if the server has
sent as many as were needed. -/
theorem addHashes_known {siblings : List MerkleEpno} {foundHashes : Map MerkleEpno H} (hnodup : siblings.Nodup)
    (hload : (loadHashes ∅ siblings).Runs (Answers server queries) db (.ok (foundHashes, neededHashes)) db')
    (hadd : addHashes foundHashes neededHashes newHashes = .ok allHashes) :
    (∀ e ∈ neededHashes, e ∈ siblings) ∧ (∀ x ∈ neededHashes.zip newHashes, allHashes.lookup x.1 = some x.2) ∧
      (∀ e h h', allHashes.lookup e = some h → db.hashes.lookup e = some h' → h' = h) ∧
      (newHashes.length = neededHashes.length → ∀ e ∈ siblings, ∃ h, allHashes.lookup e = some h ∧
        (db.hashes.lookup e = some h ∨ (e, h) ∈ neededHashes.zip newHashes)) := by
  obtain ⟨hneeded, hsound, hcomplete⟩ := loadHashes_found hload
    fun e h he => absurd he (by rw [lookup_empty]; exact nofun)
  dsimp only at hneeded hsound hcomplete
  have hnodup' : neededHashes.Nodup := hneeded ▸ hnodup.filter _
  obtain ⟨hother, hnew, -⟩ := addHashes_lookup hadd hnodup'
  have hrow : ∀ e h, db.hashes.lookup e = some h → e ∉ neededHashes := by
    intro e h he hmem
    rw [hneeded, mem_filter, he] at hmem
    cases hmem.2
  refine ⟨fun e he => ?_, hnew, fun e h h' he hdb => ?_, fun hlength e he => ?_⟩
  · rw [hneeded] at he
    exact (mem_filter.mp he).1
  · have hfound := hsound e h (hother e (hrow e h' hdb) ▸ he)
    exact Option.mem_unique hdb hfound
  cases hdb : db.hashes.lookup e with
  | some h => exact ⟨h, hother e (hrow e h hdb) ▸ hcomplete e h (.inr ⟨he, hdb⟩), .inl rfl⟩
  | none =>
    have hmem : e ∈ neededHashes := by
      rw [hneeded, mem_filter, hdb]
      exact ⟨he, rfl⟩
    rw [← map_fst_zip hlength.ge, mem_map] at hmem
    obtain ⟨⟨_, h⟩, hx, rfl⟩ := hmem
    exact ⟨h, hnew _ hx, .inr hx⟩

omit [MerkleHash H] in
theorem getRootsFromServer_length (hfull : server.Full) {res : List (MerkleRoot H) × List H}
    (h : (getRootsFromServer neededRoots neededHashes).Runs (Answers server queries) db (.ok res) db') :
    res.2.length = neededHashes.length := by
  unfold getRootsFromServer at h
  split at h
  · next hnone =>
    obtain ⟨heq, -⟩ := runs_pure.mp h
    cases heq
    rw [hnone.2]
    rfl
  obtain ⟨reply, db1, ⟨hreply, -⟩, h1⟩ := runs_call_bind.mp h
  cases reply with
  | error err =>
    obtain ⟨heq, -⟩ := runs_fail.mp h1
    cases heq
  | ok reply =>
    obtain ⟨heq, -⟩ := runs_pure.mp h1
    cases heq
    exact hfull _ _ _ _ hreply

end Found

/-! ## Writing -/

namespace LocalDb

variable [MerkleHash H]

/-- A root has the hash that it is stored under. -/
def RootsSound (db : LocalDb H) : Prop := ∀ h r, db.roots.lookup h = some r → hashRoot r = h

/-- Hashes that `B` allows, and roots, were added. -/
structure Grows (B : MerkleEpno → H → Prop) (db db' : LocalDb H) : Prop where
  counter : db'.counter = db.counter
  hashes {e : MerkleEpno} {h : H} : db.hashes.lookup e = some h → db'.hashes.lookup e = some h
  roots {h : H} {r : MerkleRoot H} : db.roots.lookup h = some r → db'.roots.lookup h = some r
  new {e : MerkleEpno} {h : H} : db'.hashes.lookup e = some h → db.hashes.lookup e = some h ∨ B e h
  sound : db.RootsSound → db'.RootsSound

variable {B : MerkleEpno → H → Prop} {db db' : LocalDb H} {e : MerkleEpno}

theorem Grows.refl (db : LocalDb H) : db.Grows B db := ⟨rfl, id, id, .inl, id⟩

theorem Grows.trans {db1 : LocalDb H} (h1 : db.Grows B db1) (h2 : db1.Grows B db') : db.Grows B db' where
  counter := h2.counter.trans h1.counter
  hashes h := h2.hashes (h1.hashes h)
  roots h := h2.roots (h1.roots h)
  new h := (h2.new h).elim h1.new .inr
  sound h := h2.sound (h1.sound h)

theorem Grows.mono {B' : MerkleEpno → H → Prop} (h : db.Grows B db') (hB : ∀ e h, B e h → B' e h) :
    db.Grows B' db' :=
  ⟨h.counter, h.hashes, h.roots, fun hrow => (h.new hrow).imp_right (hB _ _), h.sound⟩

omit [MerkleHash H] in
theorem putTx_rowsFor (hpos : 0 < e) (h : H) (r : Option (MerkleRoot H)) : db.putTx (rowsFor e h r) =
      ⟨db.counter, db.hashes.insert e h, r.elim db.roots fun r => db.roots.insert h r⟩ := by
  unfold rowsFor
  rw [if_pos hpos]
  cases r <;> rfl

/-- A hash that does not contradict the rows is stored, with a root that has it. -/
theorem grows_putTx (hinj : Function.Injective (hashRoot : MerkleRoot H → H))
    (hpos : 0 < e) {h : H} {r : Option (MerkleRoot H)} (hsound : db.RootsSound)
    (hrow : ∀ h', db.hashes.lookup e = some h' → h' = h) (hnew : B e h)
    (hroot : ∀ r' ∈ r, hashRoot r' = h) : db.Grows B (db.putTx (rowsFor e h r)) := by
  have hroots : ∀ h' r', (r.elim db.roots fun r => db.roots.insert h r).lookup h' = some r' →
      hashRoot r' = h' := by
    intro h' r' hlookup
    cases r with
    | none => exact hsound h' r' hlookup
    | some root =>
      obtain ⟨rfl, rfl⟩ | ⟨-, hlookup⟩ := Map.lookup_insert_cases hlookup
      · exact hroot root rfl
      · exact hsound h' r' hlookup
  rw [putTx_rowsFor hpos]
  refine ⟨rfl, fun {e' h'} hlookup => ?_, fun {h' r'} hlookup => ?_, fun {e' h'} hlookup => ?_, fun _ => hroots⟩
  · exact Map.lookup_insert_keep hlookup fun heq => (hrow h' (heq ▸ hlookup)).symm
  · cases r with
    | none => exact hlookup
    | some root =>
      refine Map.lookup_insert_keep hlookup fun heq => hinj ?_
      rw [hroot root rfl, hsound h' r' hlookup, heq]
  obtain ⟨rfl, rfl⟩ | ⟨-, hlookup⟩ := Map.lookup_insert_cases hlookup
  · exact .inr hnew
  · exact .inl hlookup

end LocalDb

section Write

variable [MerkleHash H] {server : Server H} {inv : LocalDb H → Prop} {db : LocalDb H}
  {B : MerkleEpno → H → Prop}

omit [MerkleHash H] in
/-- `Store`, but not of a latest root. -/
theorem meets_store {e : MerkleEpno} (hpos : 0 < e) {h : H} {r : Option (MerkleRoot H)}
    {post : LocalDb H → Except CoreError Unit → Prop}
    (hinv : inv (db.putTx (rowsFor e h r)))
    (hpost : post (db.putTx (rowsFor e h r)) (.ok ())) :
    (store e (some h) r false).Meets (Answers server queries) (alone inv) post db := by
  refine meets_bind (meets_refuse (fun hc => absurd hc.1 hpos.ne') fun _ => ?_)
  refine meets_bind (meets_refuse (fun hc => absurd hc.1 Bool.false_ne_true) fun _ => ?_)
  refine meets_call rfl ?_
  rintro ⟨⟩ db1 rfl
  refine ⟨trivial, hinv, ?_⟩
  rintro db2 - rfl
  exact hpost

variable {right : MerkleEpno} {db1 : LocalDb H}

section Loops

variable (hinj : Function.Injective (hashRoot : MerkleRoot H → H)) (hkept : ∀ db', db.Grows B db' → inv db')
  (hsound : db.RootsSound) (hgrows : db.Grows B db1)

include hinj hkept hsound hgrows

/-- The loop that stores the roots of the server keeps the rows. -/
theorem meets_storeRoots {allHashes : Map MerkleEpno H} {neededRoots : List MerkleEpno}
    {newRoots : List (MerkleRoot H)}
    (hroots : ∀ x ∈ neededRoots.zip newRoots, 0 < x.1 ∧ ∀ h, allHashes.lookup x.1 = some h →
      B x.1 h ∧ hashRoot x.2 = h)
    (hrows : ∀ e h h', allHashes.lookup e = some h → (db.hashes.lookup e = some h' ∨ B e h') → h' = h) :
    (storeRoots right allHashes neededRoots newRoots).Meets (Answers server queries) (alone inv)
      (fun db' res => db.Grows B db' ∧
        ((∀ x ∈ neededRoots.zip newRoots, (allHashes.lookup x.1).isSome) → res = .ok ())) db1 := by
  induction neededRoots generalizing newRoots db1 with
  | nil => exact ⟨hgrows, fun _ => rfl⟩
  | cons epno neededRoots ih =>
    cases newRoots with
    | nil => exact ⟨hgrows, fun _ => rfl⟩
    | cons root newRoots =>
      obtain ⟨⟨hpos, hroot⟩, hrest⟩ := forall_mem_cons.mp hroots
      unfold storeRoots
      split
      · rcases hhash : allHashes.lookup epno with _ | h
        · refine ⟨hgrows, fun hall => ?_⟩
          have := (forall_mem_cons.mp hall).1
          simp [hhash] at this
        obtain ⟨hnew, heq⟩ := hroot h hhash
        have hstep : db.Grows B (db1.putTx (rowsFor epno h (some root))) := by
          refine hgrows.trans (LocalDb.grows_putTx hinj hpos (hgrows.sound hsound) ?_ hnew ?_)
          · exact fun h' hrow => hrows epno h h' hhash (hgrows.new hrow)
          · rintro r' ⟨⟩
            exact heq
        refine meets_bind (meets_store hpos (hkept _ hstep) ?_)
        refine (ih hstep hrest).mono fun db' res hpost => ⟨hpost.1, fun hall => hpost.2 ?_⟩
        exact (forall_mem_cons.mp hall).2
      · refine (ih hgrows hrest).mono fun db' res hpost => ⟨hpost.1, fun hall => hpost.2 ?_⟩
        exact (forall_mem_cons.mp hall).2

/-- The loop that stores the hashes of the server keeps the rows. -/
theorem meets_storeHashes {neededHashes : List MerkleEpno} {newHashes : List H}
    (hhashes : ∀ x ∈ neededHashes.zip newHashes, 0 < x.1 ∧ x.1 ≠ right ∧ B x.1 x.2)
    (hrows : ∀ x ∈ neededHashes.zip newHashes, ∀ h', (db.hashes.lookup x.1 = some h' ∨ B x.1 h') → h' = x.2) :
    (storeHashes right neededHashes newHashes).Meets (Answers server queries) (alone inv)
      (fun db' res => db.Grows B db' ∧ res = .ok () ∧ db1.Grows B db' ∧
        ∀ x ∈ neededHashes.zip newHashes, db'.hashes.lookup x.1 = some x.2) db1 := by
  induction neededHashes generalizing newHashes db1 with
  | nil => exact ⟨hgrows, rfl, .refl _, forall_mem_nil _⟩
  | cons epno neededHashes ih =>
    cases newHashes with
    | nil => exact ⟨hgrows, rfl, .refl _, forall_mem_nil _⟩
    | cons hash newHashes =>
      obtain ⟨⟨hpos, hne, hnew⟩, hrest⟩ := forall_mem_cons.mp hhashes
      obtain ⟨hrow, hrows⟩ := forall_mem_cons.mp hrows
      unfold storeHashes
      rw [if_pos hne]
      have hstep : db1.Grows B (db1.putTx (rowsFor epno hash none)) := by
        refine LocalDb.grows_putTx hinj hpos (hgrows.sound hsound) ?_ hnew (by simp)
        exact fun h' h => hrow h' (hgrows.new h)
      refine meets_bind (meets_store hpos (hkept _ (hgrows.trans hstep)) ?_)
      refine (ih (hgrows.trans hstep) hrest hrows).mono ?_
      rintro db' res ⟨hdb, hok, hdb1, hall⟩
      refine ⟨hdb, hok, hstep.trans hdb1, forall_mem_cons.mpr ⟨hdb1.hashes ?_, hall⟩⟩
      rw [LocalDb.putTx_rowsFor hpos]
      exact lookup_insert _

end Loops

/-- What the check of skip pointers does, whatever the server answers: it stores hashes of epochs before
that of the later root, where there was no row. If the server sends all hashes it is asked for, a check
that fails stores nothing, and one that succeeds knows the hash of the earlier root. -/
structure Checked (server : Server H) (right left : OpenedRoot H) (db db' : LocalDb H)
    (res : Except CoreError Unit) : Prop where
  grows : db.Grows (fun e _ => e < right.epno) db'
  positive : res = .ok () → 0 < left.epno
  known : server.Full → res = .ok () → db'.hashes.lookup left.epno = some left.h
  unchanged (err : CoreError) : server.Full → res = .error err → db' = db

theorem meets_checkSkipPointersFromAtoB (hinj : Function.Injective (hashRoot : MerkleRoot H → H))
    {right left : OpenedRoot H} (hsound : db.RootsSound)
    (hkept : ∀ db', db.Grows (fun e _ => e < right.epno) db' → inv db') :
    (checkSkipPointersFromAtoB right left).Meets (Answers server queries) (alone inv)
      (Checked server right left db) db := by
  have hinv : inv db := hkept db (.refl db)
  -- a failure before the first write
  have hfails : ∀ err : CoreError, Checked server right left db db (.error err) :=
    fun err => ⟨.refl db, nofun, fun _ => nofun, fun _ _ _ => rfl⟩
  refine meets_bind_reads (asks_refuse ..) hinv (fun e _ => hfails e) fun _ hrefuse => ?_
  have hlt : left.epno < right.epno := not_le.mp (runs_refuse_ok.mp hrefuse).1
  rcases Nat.eq_zero_or_pos left.epno with hzero | hpos
  · have hnone : merkleCollectRoots right.epno left.epno = none := by
      rw [hzero]
      exact merkleCollectRoots_zero (hzero ▸ hlt)
    rw [hnone]
    exact hfails _
  obtain ⟨path, siblings, hcollect, hpath, hsiblings, hpointers⟩ := merkleCollectRoots_eq_some hpos hlt
  rw [hcollect]
  refine meets_bind_reads (reads_loadRoots ..) hinv (fun e _ => hfails e) ?_
  rintro ⟨foundRoots, neededRoots⟩ hloadRoots
  refine meets_bind_reads (reads_loadHashes ..) hinv (fun e _ => hfails e) ?_
  rintro ⟨foundHashes, neededHashes⟩ hloadHashes
  refine meets_bind_reads (reads_getRootsFromServer ..) hinv (fun e _ => hfails e) ?_
  rintro ⟨newRoots, newHashes⟩ hfetch
  refine meets_bind_reads (reads_addRoots ..) hinv (fun e _ => hfails e) fun allRoots haddRoots => ?_
  refine meets_bind_reads (asks_lift _) hinv (fun e _ => hfails e) fun allHashes hlift => ?_
  have haddHashes := (runs_lift.mp hlift).1.symm
  refine meets_bind_reads (asks_lift _) hinv (fun e _ => hfails e) fun bps hlift => ?_
  have hcheckRoots := (runs_lift.mp hlift).1.symm
  refine meets_bind_reads (asks_lift _) hinv (fun e _ => hfails e) fun _ hlift => ?_
  have hcheckLeft := (runs_lift.mp hlift).1.symm
  obtain ⟨hneeded, hnew, hrows, hall⟩ := addHashes_known hsiblings hloadHashes haddHashes
  obtain ⟨hbps, hne, hhash⟩ := checkRoots_hash hpos hpath (forall_mem_nil _) hcheckRoots
  -- the hashes that are stored
  let B : MerkleEpno → H → Prop := fun e h => e ∈ siblings ∧ allHashes.lookup e = some h
  have hbefore : ∀ e ∈ siblings, 0 < e ∧ e < right.epno := by
    intro e he
    obtain ⟨f, hf, hmem⟩ := (hpointers e).mp he
    obtain ⟨hpos', hlt'⟩ := merkleBackpointerSequence_lt hmem
    exact ⟨hpos', hlt'.trans_le (hpath.le_of_mem hpos hf).2⟩
  have hpointed : ∀ e ∈ path ++ [left.epno], e ≠ right.epno → e ∈ siblings :=
    fun e he hne => (hpointers e).mpr (hpath.exists_pointer hpos he hne)
  have hB : ∀ db', db.Grows B db' → db.Grows (fun e _ => e < right.epno) db' :=
    fun db' h => h.mono fun e _ he => (hbefore e he.1).2
  have hrows' : ∀ e h h', allHashes.lookup e = some h → (db.hashes.lookup e = some h' ∨ B e h') → h' = h := by
    rintro e h h' he (hdb | hnew')
    · exact hrows e h h' he hdb
    · exact Option.mem_unique hnew'.2 he
  have hroots : ∀ x ∈ neededRoots.zip newRoots, 0 < x.1 ∧ x.1 ∈ siblings ∧
      ∀ h, allHashes.lookup x.1 = some h → B x.1 h ∧ hashRoot x.2 = h := by
    rintro ⟨e, root⟩ hx
    have hmem : e ∈ path := (loadRoots_spec hloadRoots).1.subset (of_mem_zip hx).1
    have hfirst : e ≠ right.epno := by
      rintro rfl
      refine ((loadRoots_spec hloadRoots).2 _ right.r ?_).2 (of_mem_zip hx).1
      rw [lookup_insert_of_ne _ hlt.ne', lookup_insert]
    have hsibling := hpointed e (mem_append_left _ hmem) hfirst
    have hnodup := (hpath.nodup hpos).sublist (loadRoots_spec hloadRoots).1
    refine ⟨(hbefore e hsibling).1, hsibling, fun h he => ⟨⟨hsibling, he⟩, ?_⟩⟩
    exact hhash e hmem (fun heq => absurd heq hfirst) root h (addRoots_zip haddRoots hnodup _ hx) he
  have hleft : left.epno ∈ siblings := hpointed _ (by simp) hlt.ne
  refine meets_bind ((meets_storeRoots hinj (fun db' h => hkept db' (hB db' h)) hsound (.refl db)
    (fun x hx => ⟨(hroots x hx).1, (hroots x hx).2.2⟩) hrows').mono ?_)
  rintro db1 res ⟨hgrows, hok⟩
  have hcomplete : server.Full → ∀ e ∈ siblings, ∃ h, allHashes.lookup e = some h ∧
      (db.hashes.lookup e = some h ∨ (e, h) ∈ neededHashes.zip newHashes) :=
    fun hfull => hall (getRootsFromServer_length hfull hfetch)
  cases res with
  | error err =>
    refine ⟨hB db1 hgrows, nofun, fun _ => nofun, fun _ hfull _ => ?_⟩
    have hsome : ∀ x ∈ neededRoots.zip newRoots, (allHashes.lookup x.1).isSome := by
      intro x hx
      obtain ⟨h, hh, -⟩ := hcomplete hfull x.1 (hroots x hx).2.1
      rw [hh]
      rfl
    cases hok hsome
  | ok u =>
    refine (meets_storeHashes hinj (fun db' h => hkept db' (hB db' h)) hsound hgrows (fun x hx => ?_)
      (fun x hx h' => hrows' x.1 x.2 h' (hnew x hx))).mono ?_
    · have hsibling := hneeded x.1 (of_mem_zip hx).1
      exact ⟨(hbefore _ hsibling).1, (hbefore _ hsibling).2.ne, hsibling, hnew x hx⟩
    · rintro db' res ⟨hgrows', rfl, -, hstored⟩
      refine ⟨hB db' hgrows', fun _ => hpos, fun hfull _ => ?_, nofun⟩
      obtain ⟨h, hh, hfrom⟩ := hcomplete hfull left.epno hleft
      -- the hash that is known for the earlier root is its own
      have hpointer := hbps _ (checkRootAgainstBackPointers_eq_ok hcheckLeft (hne (hpath.ne_nil hlt)))
      rw [pointerHash, hh] at hpointer
      have heq : h = left.h := (Option.some.inj hpointer).trans left.h_eq.symm
      rw [← heq]
      exact hfrom.elim hgrows'.hashes fun hx => hstored _ hx

end Write

end Foks.Merkle
