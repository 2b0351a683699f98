import Foks.Lib.Interleave
import Foks.Merkle.Process

/-!
# Racing sessions

Some sessions of a client run at once and share its local databases. The server is honest, but its
answers may be slow. A session does not fail, as long as no other one is scheduled between the two
writes of a `Store`: the counter of the latest epoch then always names a root that can be read.
-/

namespace Foks.Merkle

open Lib MerkleHash List Finmap Prog LocalStorage LocalDb

variable {H : Type} [DecidableEq H] [MerkleHash H] {allRoots : Map MerkleEpno (MerkleRoot H)}
  {allHashes : Map MerkleEpno H}

/-! ## An honest server -/

section Honest

variable (srv : MerkleEpno → MerkleRootV1 H)

/-- The hash of the root of an epoch. -/
def hashOf (e : MerkleEpno) : H := hashRoot (.v1 (srv e))

/-- The back pointers of the root of an epoch. -/
def pointersOf (e : MerkleEpno) : List (MerkleBackPointer H) :=
  (merkleBackpointerSequence e).map fun f => ⟨f, hashOf srv f⟩

/-- Each root has the epoch that it stands for, and points to the roots before it. -/
structure HonestServer : Prop where
  epno (e : MerkleEpno) : (srv e).epno = e
  backPointers (e : MerkleEpno) : (srv e).backPointers = hashBackPointers (pointersOf srv e)

/-- An honest server sends the roots and hashes it is asked for. -/
def honestReplies : Server H := fun full hashes a =>
  a = .ok (full.map fun e => .v1 (srv e), hashes.map (hashOf srv))

/-- The root that comes with an answer: it is not older than the one that the client knew. -/
def honestQueries (known : Option MerkleEpno) (a : MerkleRoot H) : Prop :=
  ∃ m : MerkleEpno, 0 < m ∧ m < 2 ^ 63 ∧ (∀ k ∈ known, k ≤ m) ∧ a = .v1 (srv m)

/-- The rows are those of an honest server, and the counter names a root that can be read. -/
structure HonestDb (db : LocalDb H) : Prop where
  hashes (e : MerkleEpno) (h : H) : db.hashes.lookup e = some h → h = hashOf srv e
  sound : db.RootsSound
  latest (c : ℤ) : db.counter = some c → ∃ m : MerkleEpno, c = (m : ℤ) ∧ 0 < m ∧ m < 2 ^ 63 ∧
    db.hashes.lookup m = some (hashOf srv m) ∧ db.roots.lookup (hashOf srv m) = some (.v1 (srv m))

/-- A root of the server, opened. -/
def opened (e : MerkleEpno) : OpenedRoot H := ⟨.v1 (srv e), srv e, hashRoot (.v1 (srv e)), rfl, rfl⟩

end Honest

/-- No row is lost, and the counter does not go back. -/
structure LocalDb.Kept (db db' : LocalDb H) : Prop where
  hashes {e : MerkleEpno} {h : H} : db.hashes.lookup e = some h → db'.hashes.lookup e = some h
  roots {h : H} {r : MerkleRoot H} : db.roots.lookup h = some r → db'.roots.lookup h = some r
  counter {c : ℤ} : db.counter = some c → ∃ c', db'.counter = some c' ∧ c ≤ c'

/-- What the sessions agree on: the rows stay those of an honest server, and none is lost. No other
session is scheduled between the two writes of `Store`. -/
def racing (srv : MerkleEpno → MerkleRootV1 H) : Pact (Ask H) (LocalDb H) where
  inv := HonestDb srv
  rely := LocalDb.Kept
  guar := LocalDb.Kept
  holds := Ask.holds

section

omit [MerkleHash H]

theorem LocalDb.Kept.refl (db : LocalDb H) : db.Kept db := ⟨id, id, fun h => ⟨_, h, le_rfl⟩⟩

theorem LocalDb.Kept.trans {db1 db2 db3 : LocalDb H} (h1 : db1.Kept db2) (h2 : db2.Kept db3) :
    db1.Kept db3 where
  hashes h := h2.hashes (h1.hashes h)
  roots h := h2.roots (h1.roots h)
  counter h := by
    obtain ⟨c', hc', hle⟩ := h1.counter h
    obtain ⟨c'', hc'', hle'⟩ := h2.counter hc'
    exact ⟨c'', hc'', hle.trans hle'⟩

end

theorem fair_racing {srv : MerkleEpno → MerkleRootV1 H} : (racing srv).Fair :=
  ⟨.refl, .trans, id⟩

theorem honestDb_empty (srv : MerkleEpno → MerkleRootV1 H) : HonestDb srv {} :=
  ⟨fun e h he => absurd he (by rw [lookup_empty]; exact nofun), coherent_empty.sound, nofun⟩

variable {srv : MerkleEpno → MerkleRootV1 H}

/-- Among sessions that race, the program returns what `post` says. -/
abbrev Wins {α : Type} (srv : MerkleEpno → MerkleRootV1 H) (p : Client H α)
    (post : LocalDb H → α → Prop) (db : LocalDb H) : Prop :=
  p.Gives (Answers (honestReplies srv) (honestQueries srv)) (racing srv) post db

variable (hinj : Function.Injective (hashRoot : MerkleRoot H → H))

/-! ## Reading -/

section Read

variable {db : LocalDb H} {q : Ask H}

omit [DecidableEq H] [MerkleHash H] in
theorem Ask.holds_of_reads (h : q.reads = true) : q.holds = false := by
  cases q with
  | dbPutCounter c => cases h
  | _ => rfl

theorem wins_read (hq : q.reads = true) {post : LocalDb H → q.Answer → Prop} (hdb : HonestDb srv db)
    (h : ∀ a, Answers (honestReplies srv) (honestQueries srv) q db a db →
      ∀ db', HonestDb srv db' → db.Kept db' → post db' a) : Wins srv (.call q) post db := by
  refine gives_call fair_racing (Ask.holds_of_reads hq) fun a db1 hstep => ?_
  obtain rfl := hstep.eq_of_reads hq
  exact ⟨.refl _, hdb, h a hstep⟩

theorem wins_getRootHash (hdb : HonestDb srv db) (e : MerkleEpno) :
    Wins srv (LocalStorage.getRootHashFromCache e) (fun _ a => a = db.hashes.lookup e) db :=
  wins_read rfl hdb fun _ hstep _ _ _ => hstep.1

section

variable (hdb : HonestDb srv db)

include hinj hdb

/-- A root that is read is that of the server. It is there if its rows were there before. -/
theorem wins_getRootFromCache (e : MerkleEpno) :
    Wins srv (LocalStorage.getRootFromCache e) (fun _ a => (∀ r ∈ a, r = .v1 (srv e)) ∧
      ∀ h r, db.hashes.lookup e = some h → db.roots.lookup h = some r → a ≠ none) db := by
  refine gives_bind fair_racing (wins_getRootHash hdb e) fun db1 hsh hdb1 hkept heq => ?_
  subst heq
  rcases hhash : db.hashes.lookup e with _ | h
  · exact gives_pure fair_racing hdb1 ⟨nofun, nofun⟩
  refine wins_read rfl hdb1 ?_
  rintro _ ⟨rfl, -⟩ db2 - -
  refine ⟨fun r hr => hinj ?_, fun h' r hh' hr hnone => ?_⟩
  · exact (hdb1.sound h r hr).trans (hdb.hashes e h hhash)
  obtain rfl := Option.some.inj hh'
  rw [hkept.roots hr] at hnone
  cases hnone

/-- The latest root that is known is that of the counter. -/
theorem wins_loadLatestKnownRoot :
    Wins srv Session.loadLatestKnownRoot (fun _ a => db.counter = none ∧ a = none ∨
      ∃ m : MerkleEpno, db.counter = some (m : ℤ) ∧ 0 < m ∧ m < 2 ^ 63 ∧ a = some (opened srv m)) db := by
  have hlatest : Wins srv getLatestRootFromCache (fun _ a => db.counter = none ∧ a = none ∨
      ∃ m : MerkleEpno, db.counter = some (m : ℤ) ∧ 0 < m ∧ m < 2 ^ 63 ∧ a = some (.v1 (srv m))) db := by
    have hread : Wins srv dbGetCounter (fun _ a => a = db.counter) db :=
      wins_read rfl hdb fun _ hstep _ _ _ => hstep.1
    refine gives_bind fair_racing hread fun db1 c hdb1 hkept heq => ?_
    subst heq
    rcases hcounter : db.counter with _ | c
    · exact gives_pure fair_racing hdb1 (.inl ⟨rfl, rfl⟩)
    obtain ⟨m, rfl, hpos, hsmall, hhash, hroot⟩ := hdb.latest c hcounter
    dsimp only
    rw [epnoOfCounter_natCast hsmall]
    refine (wins_getRootFromCache hinj hdb1 m).mono fun db2 a _ _ ha => .inr ⟨m, rfl, hpos, hsmall, ?_⟩
    cases a with
    | none => exact absurd rfl (ha.2 _ _ (hkept.hashes hhash) (hkept.roots hroot))
    | some r => rw [ha.1 r rfl]
  refine gives_bind fair_racing hlatest fun db1 a hdb1 _ ha => ?_
  rcases ha with ⟨hcounter, rfl⟩ | ⟨m, hcounter, hpos, hsmall, rfl⟩
  · exact gives_pure fair_racing hdb1 (.inl ⟨hcounter, rfl⟩)
  · refine gives_pure fair_racing hdb1 (.inr ⟨m, hcounter, hpos, hsmall, rfl⟩)

theorem wins_getRootHashFromCache (e : MerkleEpno) :
    Wins srv (getRootHashFromCache e) (fun _ a => ∀ h ∈ a, h = hashOf srv e) db := by
  refine gives_bind fair_racing (wins_getRootHash hdb e) fun db1 hsh hdb1 hkept heq => ?_
  subst heq
  cases hhash : db.hashes.lookup e with
  | some h =>
    refine gives_pure fair_racing hdb1 ?_
    rintro _ ⟨⟩
    exact hdb.hashes e h hhash
  | none =>
    refine gives_bind fair_racing (wins_getRootFromCache hinj hdb1 e)
      fun db2 root hdb2 _ hroot => gives_pure fair_racing hdb2 ?_
    intro h hh
    obtain ⟨r, hr, rfl⟩ := Option.map_eq_some_iff.mp hh
    rw [hroot.1 r hr]
    rfl

end

/-- All that is in the map is what the server has. -/
def Holds {α : Type} (all : Map MerkleEpno α) (value : MerkleEpno → α) : Prop :=
  ∀ e a, all.lookup e = some a → a = value e

section

omit [DecidableEq H] [MerkleHash H]

variable {α : Type} {e : MerkleEpno}

variable {all : Map MerkleEpno α} {value : MerkleEpno → α}

theorem holds_empty : Holds ∅ value := by
  intro e a he
  rw [lookup_empty] at he
  cases he

theorem Holds.insert (h : Holds all value) {a : α} (ha : a = value e) : Holds (all.insert e a) value := by
  intro e' a' hlookup
  obtain ⟨rfl, rfl⟩ | ⟨-, hlookup⟩ := Map.lookup_insert_cases hlookup
  · exact ha
  · exact h e' a' hlookup

theorem Holds.lookup (h : Holds all value) (he : e ∈ all) : all.lookup e = some (value e) := by
  obtain ⟨a, ha⟩ := mem_iff.mp he
  rw [ha, h e a ha]

theorem mem_insert_or_of_cons {epno : MerkleEpno} {a : α}
    {l : List MerkleEpno} (h : e ∈ all ∨ e ∈ epno :: l) : e ∈ all.insert epno a ∨ e ∈ l := by
  rw [mem_insert]
  rcases h with h | h
  · exact .inl (.inr h)
  · exact (mem_cons.mp h).imp .inl id

/-- What is found is right, what is still needed was wanted, and nothing is lost. -/
def Finds {α : Type} (value : MerkleEpno → α) (all : Map MerkleEpno α) (wanted : List MerkleEpno)
    (found : Map MerkleEpno α × List MerkleEpno) : Prop :=
  Holds found.1 value ∧ (∀ e ∈ found.2, e ∈ wanted) ∧ ∀ e, e ∈ all ∨ e ∈ wanted → e ∈ found.1 ∨ e ∈ found.2

section

variable {α : Type} {value : MerkleEpno → α} {all all' : Map MerkleEpno α} {e : MerkleEpno}
  {l : List MerkleEpno}
  {found : Map MerkleEpno α × List MerkleEpno}

theorem Finds.of_known (h : Finds value all' l found) (hall : ∀ e', e' ∈ all ∨ e' ∈ e :: l →
    e' ∈ all' ∨ e' ∈ l) :
    Finds value all (e :: l) found :=
  ⟨h.1, fun e' he' => mem_cons_of_mem _ (h.2.1 e' he'), fun e' he' => h.2.2 e' (hall e' he')⟩

theorem Finds.of_needed (h : Finds value all l found) : Finds value all (e :: l) (found.1, e :: found.2) := by
  refine ⟨h.1, forall_mem_cons.mpr ⟨mem_cons_self, fun e' he' => mem_cons_of_mem _ (h.2.1 e' he')⟩, ?_⟩
  simp only [mem_cons]
  rintro e' (hall | rfl | hl)
  · exact (h.2.2 e' (.inl hall)).imp_right .inr
  · exact .inr (.inl rfl)
  · exact (h.2.2 e' (.inr hl)).imp_right .inr

end

end

include hinj in
theorem wins_loadRoots (hdb : HonestDb srv db) {roots : List MerkleEpno}
    (hall : Holds allRoots fun e => .v1 (srv e)) :
    Wins srv (loadRoots allRoots roots) (fun _ => Finds (fun e => .v1 (srv e)) allRoots roots) db := by
  induction roots generalizing allRoots db with
  | nil => exact gives_pure fair_racing hdb ⟨hall, forall_mem_nil _, by simp⟩
  | cons epno roots ih =>
    unfold loadRoots
    split
    · next hknown =>
      refine (ih hdb hall).mono fun db' found _ _ hfound => hfound.of_known fun e he => ?_
      rcases he with he | he
      · exact .inl he
      rcases mem_cons.mp he with rfl | he
      · exact .inl (lookup_isSome.mp hknown)
      · exact .inr he
    refine gives_bind fair_racing (wins_getRootFromCache hinj hdb epno) fun db1 root hdb1 _ hroot => ?_
    cases root with
    | some root =>
      exact (ih hdb1 (hall.insert (hroot.1 root rfl))).mono fun db' found _ _ hfound =>
        hfound.of_known fun e => mem_insert_or_of_cons
    | none =>
      exact gives_bind fair_racing (ih hdb1 hall) fun db2 found hdb2 _ hfound =>
        gives_pure fair_racing hdb2 hfound.of_needed

include hinj in
theorem wins_loadHashes (hdb : HonestDb srv db) {hashes : List MerkleEpno}
    (hall : Holds allHashes (hashOf srv)) :
    Wins srv (loadHashes allHashes hashes) (fun _ => Finds (hashOf srv) allHashes hashes) db := by
  induction hashes generalizing allHashes db with
  | nil => exact gives_pure fair_racing hdb ⟨hall, forall_mem_nil _, by simp⟩
  | cons epno hashes ih =>
    refine gives_bind fair_racing (wins_getRootHashFromCache hinj hdb epno) fun db1 hash hdb1 _ hhash => ?_
    cases hash with
    | some hash =>
      exact (ih hdb1 (hall.insert (hhash hash rfl))).mono fun db' found _ _ hfound =>
        hfound.of_known fun e => mem_insert_or_of_cons
    | none =>
      exact gives_bind fair_racing (ih hdb1 hall) fun db2 found hdb2 _ hfound =>
        gives_pure fair_racing hdb2 hfound.of_needed

theorem wins_getRootsFromServer (hdb : HonestDb srv db) (neededRoots neededHashes : List MerkleEpno) :
    Wins srv (getRootsFromServer neededRoots neededHashes) (fun _ a =>
      a = (neededRoots.map fun e => .v1 (srv e), neededHashes.map (hashOf srv))) db := by
  unfold getRootsFromServer
  split
  · next hnone =>
    refine gives_pure fair_racing hdb ?_
    rw [hnone.1, hnone.2]
    rfl
  have hread : Wins srv (getHistoricalRoots neededRoots neededHashes) (fun _ a =>
      a = .ok (neededRoots.map fun e => .v1 (srv e), neededHashes.map (hashOf srv))) db :=
    wins_read rfl hdb fun _ hstep _ _ _ => hstep.1
  refine gives_bind fair_racing hread fun db1 a hdb1 _ ha => ?_
  subst ha
  exact gives_pure fair_racing hdb1 rfl

theorem wins_addRoots (hdb : HonestDb srv db)
    {neededRoots : List MerkleEpno} (hall : Holds allRoots fun e => .v1 (srv e)) :
    Wins srv (addRoots allRoots neededRoots (neededRoots.map fun e => .v1 (srv e)))
      (fun _ roots => Holds roots (fun e => .v1 (srv e)) ∧ ∀ e, e ∈ allRoots ∨ e ∈ neededRoots →
          e ∈ roots) db := by
  induction neededRoots generalizing allRoots db with
  | nil => exact gives_pure fair_racing hdb ⟨hall, by simp⟩
  | cons epno neededRoots ih =>
    have hcheck : Wins srv (checkCachedHash epno (.v1 (srv epno))) (fun _ _ => True) db := by
      refine gives_bind fair_racing (wins_getRootHash hdb epno) fun db1 hash hdb1 _ hhash => ?_
      refine gives_refuse fair_racing ?_ hdb1 trivial
      subst hhash
      cases hrow : db.hashes.lookup epno with
      | none => exact Bool.false_ne_true
      | some h =>
        rw [hdb.hashes epno h hrow]
        simp [hashOf]
    refine gives_bind fair_racing hcheck fun db1 _ hdb1 _ _ => ?_
    exact (ih hdb1 (hall.insert rfl)).mono fun db' roots _ _ hroots =>
      ⟨hroots.1, fun e he => hroots.2 e (mem_insert_or_of_cons he)⟩

omit [DecidableEq H] in
theorem addHashes_honest {neededHashes : List MerkleEpno} (hall : Holds allHashes (hashOf srv)) :
    ∃ hashes, addHashes allHashes neededHashes (neededHashes.map (hashOf srv)) = .ok hashes ∧
      Holds hashes (hashOf srv) ∧ ∀ e, e ∈ allHashes ∨ e ∈ neededHashes → e ∈ hashes := by
  induction neededHashes generalizing allHashes with
  | nil => exact ⟨allHashes, rfl, hall, by simp⟩
  | cons epno neededHashes ih =>
    obtain ⟨hashes, heq, hholds, hmem⟩ := ih (hall.insert (e := epno) rfl)
    exact ⟨hashes, heq, hholds, fun e he => hmem e (mem_insert_or_of_cons he)⟩

end Read

/-! ## Checking -/

section Check

omit [DecidableEq H] in
theorem computeBackPointers_honest (hhashes : Holds allHashes (hashOf srv)) {e : MerkleEpno}
    (hmem : ∀ f ∈ merkleBackpointerSequence e, f ∈ allHashes) :
    computeBackPointers e allHashes allRoots = .ok (hashBackPointers (pointersOf srv e), pointersOf srv e) := by
  refine computeBackPointers_eq_ok.mpr ⟨rfl, ?_, fun bp hbp => ?_⟩
  · rw [pointersOf, map_map]
    exact map_id _
  obtain ⟨f, hf, rfl⟩ := mem_map.mp hbp
  rw [pointerHash, hhashes.lookup (hmem f hf)]
  rfl

theorem checkRootAgainstBackPointers_honest {e f : MerkleEpno} (he : e ∈ merkleBackpointerSequence f) :
    checkRootAgainstBackPointers (pointersOf srv f) e (.v1 (srv e)) = .ok () := by
  have hpointer : (⟨e, hashOf srv e⟩ : MerkleBackPointer H) ∈ pointersOf srv f := mem_map.mpr ⟨e, he, rfl⟩
  rw [checkRootAgainstBackPointers, if_neg (ne_nil_of_mem hpointer)]
  cases hfind : (pointersOf srv f).find? (·.epno = e) with
  | none => exact absurd rfl (of_decide_eq_false (find?_eq_none.mp hfind _ hpointer |> eq_false_of_ne_true))
  | some bp =>
    obtain ⟨f', -, rfl⟩ := mem_map.mp (mem_of_find?_eq_some hfind)
    obtain rfl : f' = e := by simpa using find?_some hfind
    exact refuse_eq_ok.mpr (not_not.mpr rfl)

/-- The roots of an honest server pass the check. -/
theorem checkRoots_honest (hsrv : HonestServer srv) {stop : ℕ} (hpos : 1 ≤ stop) {start : MerkleEpno}
    {path : List MerkleEpno} (hpath : SkipPath stop start path)
    (hallRoots : Holds allRoots fun e => .v1 (srv e)) (hallHashes : Holds allHashes (hashOf srv))
    (hroots : ∀ e ∈ path, e ∈ allRoots)
    (hhashes : ∀ e ∈ path, ∀ f ∈ merkleBackpointerSequence e, f ∈ allHashes)
    {bps : List (MerkleBackPointer H)}
    (hbps : bps = [] ∨ ∃ f, bps = pointersOf srv f ∧ start ∈ merkleBackpointerSequence f) :
    ∃ bps', checkRoots allRoots allHashes bps path = .ok bps' ∧
      (bps' = [] ∨ ∃ f, bps' = pointersOf srv f ∧ stop ∈ merkleBackpointerSequence f) := by
  induction hpath generalizing bps with
  | nil => exact ⟨bps, rfl, hbps⟩
  | @cons start path hlt hnext ih =>
    obtain ⟨hroot, hroots⟩ := forall_mem_cons.mp hroots
    obtain ⟨hpointers, hhashes⟩ := forall_mem_cons.mp hhashes
    obtain ⟨bps', hrest, hlast⟩ := ih hroots hhashes (.inr ⟨start, rfl, (nextStart_spec hpos hlt).1⟩)
    have hcheck : checkRootAgainstBackPointers bps start (.v1 (srv start)) = .ok () := by
      rcases hbps with rfl | ⟨f, rfl, hf⟩
      · rfl
      · exact checkRootAgainstBackPointers_honest hf
    refine ⟨bps', ?_, hlast⟩
    unfold checkRoots
    rw [hallRoots.lookup hroot]
    refine bind_eq_ok.mpr ⟨(), hcheck, bind_eq_ok.mpr ⟨opened srv start, rfl, ?_⟩⟩
    refine bind_eq_ok.mpr ⟨(), refuse_eq_ok.mpr (not_not.mpr (hsrv.epno start)), ?_⟩
    refine bind_eq_ok.mpr ⟨_, computeBackPointers_honest hallHashes hpointers, ?_⟩
    exact bind_eq_ok.mpr ⟨(), refuse_eq_ok.mpr (not_not.mpr (hsrv.backPointers start)), hrest⟩

end Check

/-! ## Writing -/

section Write

variable {db db' : LocalDb H} {r : Option (MerkleRoot H)} {e right m : MerkleEpno}

theorem HonestDb.grows (hdb : HonestDb srv db)
    (h : db.Grows (fun e h => h = hashOf srv e) db') : HonestDb srv db' where
  hashes e h' hrow := (h.new hrow).elim (hdb.hashes e h') id
  sound := h.sound hdb.sound
  latest c hc := by
    obtain ⟨m, hm, hpos, hsmall, hhash, hroot⟩ := hdb.latest c (h.counter ▸ hc)
    exact ⟨m, hm, hpos, hsmall, h.hashes hhash, h.roots hroot⟩

theorem LocalDb.Grows.kept {B : MerkleEpno → H → Prop} (h : db.Grows B db') : db.Kept db' :=
  ⟨h.hashes, h.roots, fun hc => ⟨_, h.counter.trans hc, le_rfl⟩⟩

/-- After both writes the counter names a root that can be read. -/
theorem HonestDb.putLatest (hdb : HonestDb srv db) (hpos : 0 < m) (hsmall : m < 2 ^ 63)
    (hgrows : (db.putCounter m).Grows (fun e h => h = hashOf srv e) db')
    (hhash : db'.hashes.lookup m = some (hashOf srv m))
    (hroot : db'.roots.lookup (hashOf srv m) = some (.v1 (srv m))) : HonestDb srv db' where
  hashes e h hrow := (hgrows.new hrow).elim (hdb.hashes e h) id
  sound := hgrows.sound hdb.sound
  latest c hc := by
    rw [hgrows.counter] at hc
    obtain rfl := Option.some.inj hc
    rcases hcounter : db.counter with _ | c
    · exact ⟨m, rfl, hpos, hsmall, hhash, hroot⟩
    obtain ⟨m', rfl, hpos', hsmall', hhash', hroot'⟩ := hdb.latest c hcounter
    rcases le_total (m' : ℤ) (m : ℤ) with hle | hle
    · exact ⟨m, max_eq_left hle, hpos, hsmall, hhash, hroot⟩
    · exact ⟨m', max_eq_right hle, hpos', hsmall', hgrows.hashes hhash', hgrows.roots hroot'⟩

include hinj in
/-- Rows of an honest server are added to rows of it. -/
theorem grows_honest (hhashes : ∀ e h, db.hashes.lookup e = some h → h = hashOf srv e) (hsound : db.RootsSound)
    (hpos : 0 < e) (hr : ∀ r' ∈ r, r' = .v1 (srv e)) :
    db.Grows (fun e h => h = hashOf srv e) (db.putTx (rowsFor e (hashOf srv e) r)) :=
  grows_putTx hinj hpos hsound (hhashes e) rfl fun r' hr' => hr r' hr' ▸ rfl

variable (hdb : HonestDb srv db)

include hinj hdb

theorem wins_store (hpos : 0 < e) (hr : ∀ r' ∈ r, r' = .v1 (srv e)) :
    Wins srv (store e (some (hashOf srv e)) r false) (fun _ _ => True) db := by
  have hgrows := grows_honest hinj hdb.hashes hdb.sound hpos hr
  refine gives_bind_refuse (fun hc => hpos.ne' hc.1) ?_
  refine gives_bind_refuse (fun hc => Bool.false_ne_true hc.1) ?_
  refine gives_call fair_racing rfl ?_
  rintro ⟨⟩ db1 rfl
  exact ⟨hgrows.kept, hdb.grows hgrows, fun _ _ _ => trivial⟩

theorem wins_storeRoots
    (hall : Holds allHashes (hashOf srv)) {neededRoots : List MerkleEpno}
    (hneeded : ∀ e ∈ neededRoots, e ≠ right → 0 < e ∧ e ∈ allHashes) :
    Wins srv (storeRoots right allHashes neededRoots (neededRoots.map fun e => .v1 (srv e)))
        (fun _ _ => True) db := by
  induction neededRoots generalizing db with
  | nil => exact gives_pure fair_racing hdb trivial
  | cons epno neededRoots ih =>
    obtain ⟨hepno, hneeded⟩ := forall_mem_cons.mp hneeded
    change Wins srv (storeRoots right allHashes (epno :: neededRoots)
      (.v1 (srv epno) :: neededRoots.map fun e => .v1 (srv e))) (fun _ _ => True) db
    unfold storeRoots
    split
    · next hne =>
      obtain ⟨hpos, hmem⟩ := hepno hne
      rw [hall.lookup hmem]
      refine gives_bind fair_racing (wins_store hinj hdb hpos ?_) fun db1 _ hdb1 _ _ =>
        ih hdb1 hneeded
      rintro _ ⟨⟩
      rfl
    · exact ih hdb hneeded

theorem wins_storeHashes {neededHashes : List MerkleEpno}
    (hneeded : ∀ e ∈ neededHashes, 0 < e) :
    Wins srv (storeHashes right neededHashes (neededHashes.map (hashOf srv))) (fun _ _ => True) db := by
  induction neededHashes generalizing db with
  | nil => exact gives_pure fair_racing hdb trivial
  | cons epno neededHashes ih =>
    obtain ⟨hpos, hneeded⟩ := forall_mem_cons.mp hneeded
    change Wins srv (storeHashes right (epno :: neededHashes)
      (hashOf srv epno :: neededHashes.map (hashOf srv))) (fun _ _ => True) db
    unfold storeHashes
    split
    · exact gives_bind fair_racing (wins_store hinj hdb hpos (by simp)) fun db1 _ hdb1 _ _ =>
        ih hdb1 hneeded
    · exact ih hdb hneeded

/-- A latest root is stored by two writes, between which no other session goes on. -/
theorem wins_storeLatest (hsrv : HonestServer srv) (hpos : 0 < m)
    (hsmall : m < 2 ^ 63) : Wins srv (Session.storeLatest (opened srv m)) (fun _ _ => True) db := by
  have hepno : (opened srv m).epno = m := hsrv.epno m
  have hhashes : ∀ e h, (db.putCounter m).hashes.lookup e = some h → h = hashOf srv e := hdb.hashes
  have hsound : (db.putCounter m).RootsSound := hdb.sound
  have hgrows : (db.putCounter m).Grows (fun e h => h = hashOf srv e)
      ((db.putCounter m).putTx (rowsFor m (hashOf srv m) (some (.v1 (srv m))))) := by
    refine grows_honest hinj hhashes hsound hpos ?_
    rintro _ ⟨⟩
    rfl
  have hcounter : db.Kept (db.putCounter m) := by
    refine ⟨id, id, fun {c} hc => ⟨max (m : ℤ) c, ?_, le_max_right ..⟩⟩
    rw [putCounter, hc]
    rfl
  unfold Session.storeLatest store
  rw [hepno]
  refine gives_bind_refuse (fun hc => hpos.ne' hc.1) ?_
  refine gives_bind_refuse (fun hc => hpos.ne' hc.2) ?_
  refine meets_bind ?_
  rintro ⟨⟩ db1 hdb1
  obtain rfl : db1 = db.putCounter m := hdb1.trans (by rw [int64_of_lt hsmall])
  refine ⟨hcounter, meets_call rfl ?_⟩
  rintro ⟨⟩ db2 rfl
  refine ⟨hgrows.kept, ?_, fun db3 hdb3 hkept => ⟨hdb3, ?_, (), rfl, trivial⟩⟩
  · refine hdb.putLatest hpos hsmall hgrows ?_ ?_
    · rw [putTx_rowsFor hpos]
      exact lookup_insert _
    · rw [putTx_rowsFor hpos]
      exact lookup_insert _
  · exact (hcounter.trans hgrows.kept).trans hkept

end Write

/-! ## Sessions -/

section Sessions

variable {db : LocalDb H} {s : Session H}

include hinj in
/-- Two roots of an honest server pass the check. -/
theorem wins_checkSkipPointersFromAtoB (hsrv : HonestServer srv) (hdb : HonestDb srv db)
    {m k : MerkleEpno} (hpos : 0 < k) (hlt : k < m) :
    Wins srv (checkSkipPointersFromAtoB (opened srv m) (opened srv k)) (fun _ _ => True) db := by
  have hm : (opened srv m).epno = m := hsrv.epno m
  have hk : (opened srv k).epno = k := hsrv.epno k
  obtain ⟨path, siblings, hcollect, hpath, -, hpointers⟩ := merkleCollectRoots_eq_some hpos hlt
  have hsiblings : ∀ e ∈ siblings, 0 < e := by
    intro e he
    obtain ⟨f, -, hf⟩ := (hpointers e).mp he
    exact (merkleBackpointerSequence_lt hf).1
  unfold checkSkipPointersFromAtoB
  rw [hm, hk, hcollect]
  refine gives_bind_refuse (not_le.mpr hlt) ?_
  have hends : Holds (((∅ : Map MerkleEpno (MerkleRoot H)).insert m (opened srv m).r).insert k
      (opened srv k).r) fun e => .v1 (srv e) := by
    apply Holds.insert
    · exact holds_empty.insert rfl
    · rfl
  refine gives_bind fair_racing (wins_loadRoots hinj hdb hends) ?_
  rintro db1 ⟨foundRoots, neededRoots⟩ hdb1 - ⟨hfoundRoots, hneededRoots, hroots⟩
  refine gives_bind fair_racing (wins_loadHashes hinj hdb1 holds_empty) ?_
  rintro db2 ⟨foundHashes, neededHashes⟩ hdb2 - ⟨hfoundHashes, hneeded, hhashes⟩
  refine gives_bind fair_racing (wins_getRootsFromServer hdb2 ..) ?_
  rintro db3 _ hdb3 - rfl
  refine gives_bind fair_racing (wins_addRoots hdb3 hfoundRoots) ?_
  rintro db4 allRoots hdb4 - ⟨hallRoots, haddRoots⟩
  obtain ⟨allHashes, haddHashes, hallHashes, hmem⟩ := @addHashes_honest H _ _ srv neededHashes hfoundHashes
  refine gives_bind_lift haddHashes ?_
  have hpathRoots : ∀ e ∈ path, e ∈ allRoots := fun e he => haddRoots e (hroots e (.inr he))
  have hpathHashes : ∀ e ∈ path, ∀ f ∈ merkleBackpointerSequence e, f ∈ allHashes :=
    fun e he f hf => hmem f (hhashes f (.inr ((hpointers f).mpr ⟨e, he, hf⟩)))
  obtain ⟨bps, hcheck, hlast⟩ := checkRoots_honest hsrv hpos hpath hallRoots hallHashes hpathRoots
    hpathHashes (.inl rfl)
  refine gives_bind_lift hcheck ?_
  have hleft : checkRootAgainstBackPointers bps k (opened srv k).r = .ok () := by
    rcases hlast with rfl | ⟨f, rfl, hf⟩
    · rfl
    · exact checkRootAgainstBackPointers_honest hf
  refine gives_bind_lift hleft ?_
  refine gives_bind fair_racing (wins_storeRoots hinj hdb4 hallHashes ?_)
    fun db5 _ hdb5 _ _ => wins_storeHashes hinj hdb5 fun e he => hsiblings e (hneeded e he)
  intro e he hne
  have hsibling : e ∈ siblings := (hpointers e).mpr
    (hpath.exists_pointer hpos (mem_append_left _ (hneededRoots e he)) hne)
  exact ⟨hsiblings e hsibling, hmem e (hhashes e (.inr hsibling))⟩

/-- The session knows a root of the server that is not after the latest one. -/
def Started (srv : MerkleEpno → MerkleRootV1 H) (s : Session H) (db : LocalDb H) : Prop :=
  s.isInit = true ∧ ∀ o ∈ s.rootAtStart, ∃ m : MerkleEpno, o = opened srv m ∧ ∃ c : ℤ,
    db.counter = some c ∧ (m : ℤ) ≤ c

theorem Started.kept {db' : LocalDb H} (h : Started srv s db) (hkept : db.Kept db') : Started srv s db' := by
  refine ⟨h.1, fun o ho => ?_⟩
  obtain ⟨m, hm, c, hc, hle⟩ := h.2 o ho
  obtain ⟨c', hc', hle'⟩ := hkept.counter hc
  exact ⟨m, hm, c', hc', hle.trans hle'⟩

include hinj in
theorem wins_init (hdb : HonestDb srv db) : Wins srv Session.init (fun db' s => Started srv s db') db := by
  refine gives_bind fair_racing (wins_loadLatestKnownRoot hinj hdb)
    fun db1 root hdb1 hkept hroot => gives_pure fair_racing hdb1 ⟨rfl, ?_⟩
  rcases hroot with ⟨-, rfl⟩ | ⟨m, hcounter, -, -, rfl⟩
  · exact nofun
  · rintro _ ⟨⟩
    obtain ⟨c, hc, hle⟩ := hkept.counter hcounter
    exact ⟨m, rfl, c, hc, hle⟩

include hinj in
/-- A root that is not older than the one at the start is accepted. -/
theorem wins_run (hsrv : HonestServer srv)
    (hdb : HonestDb srv db) (hstart : Started srv s db) {k : MerkleEpno} (hpos : 0 < k)
    (hsmall : k < 2 ^ 63) (hlatest : ∀ o ∈ s.rootAtStart, o.epno ≤ k) :
    Wins srv (s.run (.v1 (srv k))) (fun _ _ => True) db := by
  have hk : (opened srv k).epno = k := hsrv.epno k
  refine gives_bind_refuse (by simp [hstart.1]) ?_
  refine gives_bind_lift (a := opened srv k) rfl ?_
  refine gives_bind fair_racing (wins_loadLatestKnownRoot hinj hdb) fun db1 known hdb1 hkept hknown => ?_
  rcases hknown with ⟨hcounter, rfl⟩ | ⟨m, hcounter, hpos', hsmall', rfl⟩
  · -- nothing was known at the start either
    refine gives_bind_refuse ?_ (wins_storeLatest hinj hdb1 hsrv hpos hsmall)
    intro hsome
    obtain ⟨o, ho⟩ := Option.isSome_iff_exists.mp hsome
    obtain ⟨m, -, c, hc, -⟩ := hstart.2 o ho
    rw [hcounter] at hc
    cases hc
  have hm : (opened srv m).epno = m := hsrv.epno m
  have hnewer : ∀ o ∈ s.rootAtStart, o.epno ≤ m := by
    intro o ho
    obtain ⟨m', rfl, c, hc, hle⟩ := hstart.2 o ho
    obtain rfl := Option.mem_unique hcounter hc
    exact (hsrv.epno m').le.trans (Int.ofNat_le.mp hle)
  refine gives_bind_refuse ?_ ?_
  · intro hany
    cases ho : s.rootAtStart with
    | none =>
      rw [ho] at hany
      cases hany
    | some o =>
      rw [ho] at hany
      exact (hnewer o ho).not_gt (hm ▸ of_decide_eq_true hany)
  have hfilter : s.rootAtStart.filter (fun r => (opened srv k).epno < r.epno) = none := by
    refine Option.filter_eq_none_iff.mpr fun o ho hlt => ?_
    exact (hlatest o ho).not_gt (hk ▸ of_decide_eq_true hlt)
  rw [hfilter, hk, hm]
  rcases lt_trichotomy k m with hlt | rfl | hgt
  · rw [if_neg hlt.ne, if_pos hlt]
    exact gives_bind fair_racing (wins_checkSkipPointersFromAtoB hinj hsrv hdb1 hpos hlt)
      fun db2 _ hdb2 _ _ => wins_storeLatest hinj hdb2 hsrv hpos hsmall
  · rw [if_pos rfl]
    exact gives_refuse fair_racing (not_not.mpr rfl) hdb1 trivial
  rw [if_neg hgt.ne', if_neg hgt.not_gt]
  exact gives_bind fair_racing (wins_checkSkipPointersFromAtoB hinj hsrv hdb1 hpos' hgt)
    fun db2 _ hdb2 _ _ => wins_storeLatest hinj hdb2 hsrv hpos hsmall

/-- A session: `Init`, a query of the server, and `Run` with the root that comes with the answer. -/
def racer : Client H Unit := do
  let s ← Session.init
  let latest ← .call (Ask.query (s.rootAtStart.map (·.epno)))
  s.run latest

include hinj in
theorem wins_racer (hsrv : HonestServer srv) (hdb : HonestDb srv db) : Wins srv racer (fun _ _ => True) db := by
  refine gives_bind fair_racing (wins_init hinj hdb) fun db1 s hdb1 _ hstart => ?_
  have hquery : Wins srv (.call (Ask.query (s.rootAtStart.map (·.epno))))
      (fun _ a => honestQueries srv (s.rootAtStart.map (·.epno)) a) db1 :=
    wins_read rfl hdb1 fun _ hstep _ _ _ => hstep.1
  refine gives_bind fair_racing hquery fun db2 latest hdb2 hkept hlatest => ?_
  obtain ⟨k, hpos, hsmall, hknown, rfl⟩ := hlatest
  refine wins_run hinj hsrv hdb2 (hstart.kept hkept) hpos hsmall fun o ho => ?_
  exact hknown _ (Option.mem_map_of_mem _ ho)

/-- Any number of sessions race on the databases of a client, question by question, and the server is
honest. If no other session is scheduled between the two writes of a `Store`, each session that has
ended has succeeded, and between the writes the counter names a root that can be read. -/
theorem racing_sessions (hinj : Function.Injective (hashRoot : MerkleRoot H → H))
    (hsrv : HonestServer srv) (n : ℕ) {c : System (Ask H) Ask.Answer CoreError Unit (LocalDb H)}
    (hrun : System.Reaches (Answers (honestReplies srv) (honestQueries srv)) Ask.holds System.Waits
      ⟨replicate n racer, {}, none⟩ c) :
    (∀ res, .done res ∈ c.threads → res = .ok ()) ∧
      (c.busy = none → ∀ v, c.state.counter = some v → ∃ r, c.state.latest = some r) := by
  have hstart : System.Sound (Answers (honestReplies srv) (honestQueries srv)) (racing srv)
      (fun _ res => res = .ok ()) ⟨replicate n racer, {}, none⟩ := by
    refine System.sound_of_meets fair_racing (honestDb_empty srv) fun p hp db hdb => ?_
    rw [eq_of_mem_replicate hp]
    refine Prog.Meets.mono (wins_racer hinj hsrv hdb) ?_
    rintro _ _ ⟨-, -, _, hres, -⟩
    exact hres
  have hsound := hstart.reaches fair_racing hrun
  refine ⟨fun res hres => (hsound.done fair_racing hres).choose_spec, fun hfree v hv => ?_⟩
  obtain ⟨m, rfl, -, hsmall, hhash, hroot⟩ := (hsound.free hfree).latest v hv
  refine ⟨.v1 (srv m), ?_⟩
  rw [latest, hv, Option.bind_some, epnoOfCounter_natCast hsmall, rootOf, hhash,
    Option.bind_some, hroot]

end Sessions

/-! ## Samples -/

namespace RacingSample

open RootSym

/-- The root of an epoch, from the hashes of those before it. -/
def rootWith (known : List RootSym) (e : MerkleEpno) : MerkleRootV1 RootSym :=
  ⟨e, 0, hashBackPointers ((merkleBackpointerSequence e).map fun f => ⟨f, known.getD f .zero⟩),
    .zero, ⟨0, .zero⟩⟩

/-- The hashes of the first roots. -/
def hashes : ℕ → List RootSym
  | 0 => []
  | n + 1 => hashes n ++ [hashRoot (.v1 (rootWith (hashes n) n))]

def chain (e : MerkleEpno) : MerkleRootV1 RootSym := rootWith (hashes e) e

theorem length_hashes (n : ℕ) : (hashes n).length = n := by
  induction n with
  | zero => rfl
  | succ n ih => rw [hashes, length_append, ih, length_singleton]

theorem getD_hashes {f n : ℕ} (h : f < n) : (hashes n).getD f .zero = hashOf chain f := by
  induction n with
  | zero => cases h
  | succ n ih =>
    rcases Nat.lt_succ_iff_lt_or_eq.mp h with hlt | rfl
    · rw [hashes, getD_eq_getElem?_getD, getElem?_append_left (by rwa [length_hashes]),
        ← getD_eq_getElem?_getD, ih hlt]
    · rw [hashes, getD_eq_getElem?_getD, getElem?_append_right (length_hashes f).le, length_hashes,
        Nat.sub_self]
      rfl

theorem honestServer_chain : HonestServer chain where
  epno _ := rfl
  backPointers e := by
    have hpointers : ((merkleBackpointerSequence e).map fun f =>
        (⟨f, (hashes e).getD f .zero⟩ : MerkleBackPointer RootSym)) = pointersOf chain e :=
      map_congr_left fun f hf => by rw [getD_hashes (merkleBackpointerSequence_lt hf).2]
    exact congrArg hashBackPointers hpointers

/-- The server answers a query with the root after the one that the client knows. -/
def respond : (q : Ask RootSym) → LocalDb RootSym → Option (q.Answer × LocalDb RootSym)
  | .query known, db =>
    if known.getD 0 + 1 < 2 ^ 63 then some (.v1 (chain (known.getD 0 + 1)), db) else none
  | q, db => some (LocalDb.respond (fun full hashes =>
      .ok (full.map fun e => .v1 (chain e), hashes.map (hashOf chain))) (fun _ => .future 0) q db)

theorem answers_respond (q : Ask RootSym) (db : LocalDb RootSym) (a : q.Answer) (db' : LocalDb RootSym)
    (h : respond q db = some (a, db')) :
    Answers (honestReplies chain) (honestQueries chain) q db a db' := by
  cases q with
  | query known =>
    obtain ⟨hsmall, heq⟩ := Option.ite_none_right_eq_some.mp h
    cases heq
    refine ⟨⟨known.getD 0 + 1, Nat.succ_pos _, hsmall, ?_, rfl⟩, rfl⟩
    rintro k ⟨⟩
    exact Nat.le_succ _
  | dbPutCounter c | dbPutTx rows =>
    cases h
    rfl
  | _ =>
    cases h
    exact ⟨rfl, rfl⟩

end RacingSample

open RacingSample RootSym in
/-- One session after the other. -/
theorem racing_sessions_two :
    ∃ c : System (Ask RootSym) Ask.Answer CoreError Unit (LocalDb RootSym), c.state.counter = some 2 ∧
      (∀ res, .done res ∈ c.threads → res = .ok ()) := by
  let ok : System (Ask RootSym) Ask.Answer CoreError Unit (LocalDb RootSym) → ℕ → Bool :=
    fun c i => decide (∀ j ∈ c.busy, j = i)
  have hplay :
    ∃ c ∈ System.play respond Ask.holds ok (replicate 5 0 ++ replicate 10 1)
      ⟨replicate 2 racer, {}, none⟩,
      c.state.counter = some 2 := by decide +kernel
  obtain ⟨c, hc, hcounter⟩ := hplay
  have hreaches : System.Reaches (Answers (honestReplies chain) (honestQueries chain)) Ask.holds
      System.Waits ⟨replicate 2 racer, {}, none⟩ c :=
    (System.reaches_play answers_respond hc).mono fun c i hok =>
      (of_decide_eq_true hok : ∀ j ∈ c.busy, j = i)
  exact ⟨c, hcounter, (racing_sessions soundRootHash.root_injective honestServer_chain 2 hreaches).1⟩

open RacingSample RootSym in
/-- A session stores epoch one. Two other sessions begin; one of them goes on until it has written the
counter for epoch two, and the other one then finds a counter whose root cannot be read. -/
theorem not_racing_sessions :
    ∃ srv : MerkleEpno → MerkleRootV1 RootSym, HonestServer srv ∧
      ∃ (n : ℕ) (c : System (Ask RootSym) Ask.Answer CoreError Unit (LocalDb RootSym)),
        System.Reaches (Answers (honestReplies srv) (honestQueries srv)) Ask.holds (fun _ _ => True)
          ⟨replicate n racer, {}, none⟩ c ∧
        .done (.error (.internalError "merkle root was non-nil then nil!")) ∈ c.threads := by
  have hplay : ∃ c ∈ System.play respond Ask.holds (fun _ _ => true)
      (replicate 5 0 ++ replicate 3 1 ++ replicate 3 2 ++ replicate 6 1 ++ replicate 3 2)
        ⟨replicate 3 racer, {}, none⟩,
      ∃ p ∈ c.threads, p.ended = some (.error (.internalError "merkle root was non-nil then nil!")) := by
    decide +kernel
  obtain ⟨c, hc, p, hp, hended⟩ := hplay
  refine ⟨chain, honestServer_chain, 3, c, ?_, eq_done_of_ended hended ▸ hp⟩
  exact (System.reaches_play answers_respond hc).mono fun _ _ _ => trivial

end Foks.Merkle
