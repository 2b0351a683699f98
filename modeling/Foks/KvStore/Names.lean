import Foks.KvStore.WriteRoles

/-!
# Names of directory entries

A client finds an entry by the MAC of its name. A name without an entry is created at version 1, under an
identifier that the client draws (`client/libkv/minder.go`). The key of the table is the identifier, and
nothing makes the name unique, so that of two clients that both find no entry both create one. The names
are unique as long as nobody commits a name between the lookup and the commit of another client.
-/

namespace Foks.KvStore

open Lib List

/-- What a row is found by: the party, the directory, its version and the MAC of the name. -/
abbrev Place := Owner × DirID × KVVersion × HMAC

def DirentRow.place (r : DirentRow) : Place := (r.owner, r.dirID, r.dirVersion, r.nameMac)

def KVDirent.place (de : KVDirent) (o : Owner) : Place := (o, de.parentDir, de.dirVersion, de.nameMac)

/-- The row with the highest version. Of two such rows the database may return either. -/
def loadDirentAtName (m : MetaContext) (s : Store) (pid : PartyID) (dirid : DirID) (mac : HMAC)
    (dirVers : KVVersion) (role : Role) : Except CoreError (Option KVDirent) := do
  integer dirVers
  loadDirent m s pid dirid (fun rows => (rows.filter fun p =>
    p.1.nameMac = mac ∧ p.1.dirVersion = dirVers).argmax fun p => p.1.version) role

/-- The names of the rows in use. -/
def Store.names (s : Store) : List Place := (s.dirents.filter (·.active)).map DirentRow.place

def NamesUnique (s : Store) : Prop := s.names.Nodup

instance (s : Store) : Decidable (NamesUnique s) := inferInstanceAs (Decidable s.names.Nodup)

/-! ### Clients that create an entry -/

/-- A client, and the entry that it creates if there is none of that name: the first version of it, under
a version of the directory. -/
structure Creator where
  m : MetaContext
  pid : PartyID
  role : Role
  de : KVDirent
  version : de.version = 1
  dirVersion : 1 ≤ de.dirVersion

/-- What a client has done: the lookup, the reads of its transaction, the commit. -/
inductive Progress where
  | start
  | missed
  | loaded (dir : KVDir) (chid : Option ChannelID)
  | permitted (chid : Option ChannelID)
  | contained
  | created

/-- How many statements a client has made; the fifth is its commit. -/
def Progress.done : Progress → ℕ
  | .start => 0
  | .missed => 1
  | .loaded .. => 2
  | .permitted .. => 3
  | .contained => 4
  | .created => 5

namespace Creator

def place (c : Creator) : Place := c.de.place (c.m.owner c.pid)

def lookup (c : Creator) (s : Store) : Except CoreError (Option KVDirent) :=
  loadDirentAtName c.m s c.pid c.de.parentDir c.de.nameMac c.de.dirVersion c.role

def loadParentDir (c : Creator) (t : Tables) : Except CoreError (KVDir × Option ChannelID) :=
  loadDir c.m t c.pid c.de.parentDir c.de.dirVersion

/-- The writes of the transaction, which the others see at its commit. There is no version before the
first one. -/
def commit (c : Creator) (s : Store) : Except CoreError Store := do
  let tables ← updateRefcounts c.m s.toTables c.pid c.de none
  insertNewDirent c.m { s with toTables := tables } c.pid c.de

/-- The next statement of a client, on what is committed. -/
def statement (c : Creator) (s : Store) : Progress → Except CoreError (Store × Progress)
  | .start => do
    match ← c.lookup s with
    | none => return (s, .missed)
    | some _ => .error .kvExistsError
  | .missed => do
    let (dir, chid) ← c.loadParentDir s.toTables
    return (s, .loaded dir chid)
  | .loaded dir chid => do
    checkPermissions c.role dir none
    return (s, .permitted chid)
  | .permitted chid => do
    checkChannelContainment c.m s.toTables c.pid chid c.de.value
    return (s, .contained)
  | .contained => do
    let s ← c.commit s
    return (s, .created)
  | .created => .error (.internalError "the transaction has ended")

end Creator

/-- The committed state, and how far each client is. -/
structure World where
  store : Store
  progress : ℕ → Progress

def World.start (s : Store) : World := ⟨s, fun _ => .start⟩

variable (cs : ℕ → Creator) {i : ℕ}

def World.step (w : World) (i : ℕ) : Except CoreError World := do
  let (s, p) ← (cs i).statement w.store (w.progress i)
  return ⟨s, Function.update w.progress i p⟩

open World

/-- The clients take turns. A statement that fails ends its transaction and changes nothing. -/
def World.run (w : World) (l : List ℕ) : Except CoreError World := l.foldlM (step cs) w

/-- In a schedule, client `j` commits after the lookup of client `i`, which is its first statement, and
before its commit. -/
def Overtakes (l : List ℕ) (j i : ℕ) : Prop :=
  ∃ l₁ l₂ l₃, l = l₁ ++ i :: l₂ ++ i :: l₃ ∧ l₁.count i = 0 ∧ l₂.count i = 3 ∧ l₁.count j < 5 ∧
    5 ≤ (l₁ ++ i :: l₂).count j

variable {cs} {c : Creator} {s s' : Store} {w w' : World} {l : List ℕ} {p : Place}

/-! ### One statement -/

def World.done (w : World) (i : ℕ) : ℕ := (w.progress i).done

/-- What a statement has found, and what it changes: only a commit changes the store. -/
theorem World.step_cases (h : w.step cs i = .ok w') : w'.done = Function.update w.done i (w.done i + 1) ∧
      (w.done i = 0 → (cs i).lookup w.store = .ok none) ∧
      (w.done i = 1 → ∃ dir, (cs i).loadParentDir w.store.toTables = .ok dir) ∧
      (w.done i = 4 ∧ (cs i).commit w.store = .ok w'.store ∨ w.done i ≠ 4 ∧ w'.store = w.store) := by
  obtain ⟨⟨s, q⟩, hstatement, hw'⟩ := bind_eq_ok.mp h
  cases hw'
  have hdone : World.done ⟨s, Function.update w.progress i q⟩ = Function.update w.done i q.done :=
    funext fun j => Function.apply_update (fun _ => Progress.done) w.progress i q j
  rw [hdone]
  unfold World.done
  cases hp : w.progress i with
  | start =>
    rw [hp] at hstatement
    obtain ⟨found, hlookup, hfound⟩ := bind_eq_ok.mp hstatement
    cases found with
    | none =>
      cases hfound
      exact ⟨rfl, fun _ => hlookup, by simp [Progress.done], .inr ⟨by simp [Progress.done], rfl⟩⟩
    | some de => cases hfound
  | missed =>
    rw [hp] at hstatement
    obtain ⟨dir, hdir, hret⟩ := bind_eq_ok.mp hstatement
    cases hret
    exact ⟨rfl, by simp [Progress.done], fun _ => ⟨dir, hdir⟩, .inr ⟨by simp [Progress.done], rfl⟩⟩
  | contained =>
    rw [hp] at hstatement
    obtain ⟨s1, hcommit, hs1⟩ := bind_eq_ok.mp hstatement
    cases hs1
    exact ⟨rfl, by simp [Progress.done], by simp [Progress.done], .inl ⟨rfl, hcommit⟩⟩
  | created =>
    rw [hp] at hstatement
    cases hstatement
  | _ =>
    rw [hp] at hstatement
    obtain ⟨_, -, hret⟩ := bind_eq_ok.mp hstatement
    cases hret
    exact ⟨rfl, by simp [Progress.done], by simp [Progress.done], .inr ⟨by simp [Progress.done], rfl⟩⟩

/-- The first version of an entry takes no row out of use, and a commit changes no directory. -/
theorem Creator.commit_eq_ok (hpos : ∀ r ∈ s.dirents, 1 ≤ r.version) (h : c.commit s = .ok s') :
    s'.dirents = s.dirents ++ [c.de.row c.m c.pid] ∧
      s'.dirs = s.dirs ∧ s'.channels = s.channels ∧ s'.channelAcls = s.channelAcls := by
  obtain ⟨tables, hrefs, hins⟩ := bind_eq_ok.mp h
  obtain ⟨-, rfl⟩ := insertNewDirent_eq_ok.mp hins
  refine ⟨updateRows_of_forall fun r hr => ?_, updateRefcounts_frame hrefs⟩
  have hver : 1 ≤ r.version := by
    rcases mem_append.mp hr with hr | hr
    · exact hpos r hr
    · rw [mem_singleton.mp hr]
      exact c.version.ge
  rw [KVDirent.replaces, c.version]
  exact decide_eq_false fun hreplaced => hver.not_gt hreplaced.2

/-- A client that finds no entry, and then finds the directory, has found that the name is not in use. -/
theorem Creator.place_not_mem (hdirs : Unique DirRow.pkey s.dirs) (hlookup : c.lookup s = .ok none)
    (hdir : ∃ dir, c.loadParentDir s.toTables = .ok dir) : c.place ∉ s.names := by
  intro hmem
  obtain ⟨r, hr, hplace⟩ := mem_map.mp hmem
  obtain ⟨howner, hid, hvers, hmac⟩ : r.owner = c.m.owner c.pid ∧ r.dirID = c.de.parentDir ∧
      r.dirVersion = c.de.dirVersion ∧ r.nameMac = c.de.nameMac := by
    simpa [DirentRow.place, place, KVDirent.place] using hplace
  obtain ⟨⟨dir, chid⟩, hdir⟩ := hdir
  obtain ⟨row, hsel, -, -, hauth⟩ := loadDir_eq_ok hdir
  -- the row of the directory at the version of the entry
  have hrow : row ∈ s.dirs ∧ row.pkey = (c.m.owner c.pid, c.de.parentDir, c.de.dirVersion) := by
    rw [selectDir, if_neg (Nat.one_le_iff_ne_zero.mp c.dirVersion)] at hsel
    have hret := of_bind_eq_ok hsel
    have hfind := Except.ok.inj hret
    obtain ⟨hrow, hkey⟩ := mem_filter.mp (mem_of_find?_eq_some hfind)
    obtain ⟨howner, hid⟩ := of_decide_eq_true hkey
    have hvers : row.version = c.de.dirVersion := by simpa using find?_some hfind
    exact ⟨hrow, by rw [DirRow.pkey, howner, hid, hvers]⟩
  have hfound := of_bind_eq_ok hlookup
  unfold loadDirent at hfound
  split at hfound
  · -- the entry is one of those that are looked through
    next hnone =>
    have hpair : (r, row) ∈ s.joined (c.m.owner c.pid) c.de.parentDir := by
      refine mem_flatMap.mpr ⟨r, mem_filter.mpr ⟨(mem_filter.mp hr).1, by simp [howner, hid]⟩, ?_⟩
      refine mem_map.mpr ⟨row, mem_filter.mpr ⟨hrow.1, ?_⟩, rfl⟩
      rw [howner, hid, hvers]
      exact decide_eq_true hrow.2
    have hnil := argmax_eq_none.mp hnone
    have hsel : (r, row) ∈ ([] : List (DirentRow × DirRow)) := by
      rw [← hnil]
      exact mem_filter.mpr ⟨hpair, by simp [hmac, hvers]⟩
    exact absurd hsel not_mem_nil
  · -- an entry is found, in a directory that may be read
    next q hq =>
    obtain ⟨hjoined, hkey⟩ := mem_filter.mp (argmax_mem hq)
    obtain ⟨e, he, hd⟩ := mem_flatMap.mp hjoined
    obtain ⟨d, hmem, rfl⟩ := mem_map.mp hd
    obtain ⟨hmem, hpkey⟩ := mem_filter.mp hmem
    obtain ⟨howner', hid'⟩ := of_decide_eq_true (mem_filter.mp he).2
    have hsame : d = row := by
      refine hdirs.eq_of_key hmem hrow.1 ?_
      rw [hrow.2, of_decide_eq_true hpkey, howner', hid', (of_decide_eq_true hkey).2]
    rw [hsame, hauth] at hfound
    obtain ⟨_, -, hsome⟩ := map_eq_ok.mp hfound
    cases hsome

/-! ### Runs -/

/-- What holds along a run from a store: the versions begin with the first one, no directory is changed,
and a client that has made its second statement has found its directory. -/
structure World.Since (cs : ℕ → Creator) (s : Store) (w : World) : Prop where
  versions : ∀ r ∈ w.store.dirents, 1 ≤ r.version
  dirs : w.store.dirs = s.dirs ∧ w.store.channels = s.channels ∧ w.store.channelAcls = s.channelAcls
  loaded : ∀ i, 2 ≤ w.done i → ∃ dir, (cs i).loadParentDir s.toTables = .ok dir

theorem World.Since.loadParentDir (h : w.Since cs s) (c : Creator) :
    c.loadParentDir w.store.toTables = c.loadParentDir s.toTables := by
  obtain ⟨hdirs, hchannels, hacls⟩ := h.dirs
  have hsel : selectDir c.m w.store.toTables c.pid c.de.parentDir c.de.dirVersion
      = selectDir c.m s.toTables c.pid c.de.parentDir c.de.dirVersion := by
    simp only [selectDir, hdirs]
  simp only [Creator.loadParentDir, loadDir, hsel, authorizeKVNodeRead_congr hchannels hacls]

theorem World.Since.step (hw : w.Since cs s) (h : w.step cs i = .ok w') : w'.Since cs s := by
  obtain ⟨hdone, -, hdir, hstore⟩ := step_cases h
  have hloaded : ∀ j, 2 ≤ w'.done j → ∃ dir, (cs j).loadParentDir s.toTables = .ok dir := by
    intro j hj
    rw [hdone, Function.update_apply] at hj
    split at hj
    · next heq =>
      subst heq
      by_cases hone : w.done j = 1
      · rw [← hw.loadParentDir]
        exact hdir hone
      · exact hw.loaded j (by omega)
    · exact hw.loaded j hj
  rcases hstore with ⟨-, hcommit⟩ | ⟨-, hstore⟩
  · obtain ⟨hrows, hdirs, hchannels, hacls⟩ := Creator.commit_eq_ok hw.versions hcommit
    refine ⟨fun r hr => ?_, ⟨hdirs.trans hw.dirs.1, hchannels.trans hw.dirs.2.1,
      hacls.trans hw.dirs.2.2⟩, hloaded⟩
    rw [hrows] at hr
    rcases mem_append.mp hr with hr | hr
    · exact hw.versions r hr
    · rw [mem_singleton.mp hr]
      exact (cs i).version.ge
  · exact ⟨hstore ▸ hw.versions, hstore ▸ hw.dirs, hloaded⟩

/-- A commit is the only statement that adds a name. -/
theorem World.Since.names_step (hw : w.Since cs s) (h : w.step cs i = .ok w') :
    w'.store.names = w.store.names ++ if w.done i = 4 then [(cs i).place] else [] := by
  obtain ⟨-, -, -, ⟨hdone, hcommit⟩ | ⟨hdone, hstore⟩⟩ := step_cases h
  · rw [if_pos hdone, Store.names, (Creator.commit_eq_ok hw.versions hcommit).1, filter_append, map_append]
    rfl
  · rw [if_neg hdone, append_nil, hstore]

/-- A step keeps the names unique exactly when it does not commit a name that is in use. -/
theorem World.Since.namesUnique_step_iff (hw : w.Since cs s) (hunique : NamesUnique w.store)
    (h : w.step cs i = .ok w') : NamesUnique w'.store ↔ (w.done i = 4 → (cs i).place ∉ w.store.names) := by
  rw [NamesUnique, hw.names_step h]
  split
  · next hfour =>
    rw [nodup_append_comm, singleton_append, nodup_cons]
    exact ⟨fun hnew _ => hnew.1, fun hnew => ⟨hnew hfour, hunique⟩⟩
  · next hfour =>
    rw [append_nil]
    exact iff_of_true hunique fun hfour' => absurd hfour' hfour

theorem World.done_run (h : w.run cs l = .ok w') (j : ℕ) : w'.done j = w.done j + l.count j := by
  induction l generalizing w with
  | nil =>
    cases h
    rfl
  | cons i l ih =>
    obtain ⟨w1, hstep, hrest⟩ := bind_eq_ok.mp h
    rw [ih hrest, (step_cases hstep).1, Function.update_apply, count_cons]
    by_cases hij : j = i
    · subst hij
      simp only [if_true, beq_self_eq_true]
      omega
    · simp [hij, Ne.symm hij]

/-- The names after a run are those from before and those that were committed in it. -/
theorem World.Since.mem_names_run (hw : w.Since cs s) (h : w.run cs l = .ok w') : p ∈ w'.store.names ↔
      p ∈ w.store.names ∨ ∃ j, (cs j).place = p ∧ w.done j < 5 ∧ 5 ≤ w'.done j := by
  induction l generalizing w with
  | nil =>
    cases h
    refine (or_iff_left ?_).symm
    rintro ⟨j, -, hlt, hle⟩
    omega
  | cons i l ih =>
    obtain ⟨w1, hstep, hrest⟩ := bind_eq_ok.mp h
    have hdone : ∀ j, w1.done j = if j = i then w.done i + 1 else w.done j := fun j => by
      rw [(step_cases hstep).1, Function.update_apply]
    have hlast : w1.done i ≤ w'.done i := by
      rw [done_run hrest i]
      exact Nat.le_add_right ..
    have hi := hdone i
    rw [if_pos rfl] at hi
    rw [ih (hw.step hstep) hrest, hw.names_step hstep, mem_append, or_assoc]
    refine or_congr_right ?_
    constructor
    · -- the first statement commits the name, or a later one does
      rintro (hnew | ⟨j, hj, hlt, hle⟩)
      · split at hnew
        · next hfour => exact ⟨i, (mem_singleton.mp hnew).symm, by omega, by omega⟩
        · exact absurd hnew not_mem_nil
      · refine ⟨j, hj, ?_, hle⟩
        rw [hdone j] at hlt
        split at hlt
        · next heq => rw [heq]; omega
        · exact hlt
    · rintro ⟨j, hj, hlt, hle⟩
      by_cases hcommit : j = i ∧ w.done i = 4
      · rw [if_pos hcommit.2, ← hj, hcommit.1]
        exact .inl mem_cons_self
      · refine .inr ⟨j, hj, ?_, hle⟩
        rw [hdone j]
        split
        · next heq =>
          rw [heq] at hlt
          have hne : w.done i ≠ 4 := fun hfour => hcommit ⟨heq, hfour⟩
          omega
        · exact hlt

theorem World.since_start (hpos : ∀ r ∈ s.dirents, 1 ≤ r.version) : (start s).Since cs s :=
  ⟨hpos, ⟨rfl, rfl, rfl⟩, fun _ hle => absurd hle (by simp [World.done, start, Progress.done])⟩

theorem World.Since.run (hw : w.Since cs s) (h : w.run cs l = .ok w') : w'.Since cs s :=
  foldlM_invariant (fun _ _ _ _ hstep hw => hw.step hstep) h hw

/-- A client whose name is in use at its commit has been overtaken: when it looked the name up, the name
was not in use. -/
theorem World.overtaken_of_mem {l₁ : List ℕ} (l₂ : List ℕ) (hpos : ∀ r ∈ s.dirents, 1 ≤ r.version)
    (hdirs : Unique DirRow.pkey s.dirs) (hrun : (start s).run cs l₁ = .ok w) (hdone : w.done i = 4)
    (hmem : (cs i).place ∈ w.store.names) :
    ∃ j, j ≠ i ∧ (cs j).place = (cs i).place ∧ Overtakes (l₁ ++ i :: l₂) j i := by
  have hcount (l : List ℕ) (w : World) (h : (start s).run cs l = .ok w) (j : ℕ) : w.done j = l.count j :=
    (done_run h j).trans (Nat.zero_add _)
  have hfour := (hcount l₁ w hrun i).symm.trans hdone
  -- the lookup of the client
  obtain ⟨a, b, rfl, ha⟩ := eq_append_cons_of_mem (count_pos_iff.mp (by omega : 0 < l₁.count i))
  rw [← count_eq_zero] at ha
  have hsplit := hrun
  rw [World.run, foldlM_append] at hsplit
  obtain ⟨w1, hw1, hrest⟩ := bind_eq_ok.mp hsplit
  obtain ⟨w2, hlookup, hlater⟩ := bind_eq_ok.mp hrest
  have hstart : (start s).Since cs s := since_start hpos
  have hsince := hstart.run hw1
  have hfree : (cs i).place ∉ w1.store.names := by
    obtain ⟨-, hnone, -⟩ := step_cases hlookup
    refine Creator.place_not_mem (hsince.dirs.1 ▸ hdirs) (hnone ((hcount a w1 hw1 i).trans ha)) ?_
    rw [hsince.loadParentDir]
    exact (hstart.run hrun).loaded i (by omega)
  obtain ⟨j, hj, hlt, hle⟩ := (or_iff_right hfree).mp ((hsince.mem_names_run hrest).mp hmem)
  refine ⟨j, ?_, hj, a, b, l₂, rfl, ha, ?_, hcount a w1 hw1 j ▸ hlt, hcount _ w hrun j ▸ hle⟩
  · rintro rfl
    omega
  · rw [count_append, count_cons_self, ha] at hfour
    omega

/-- In every run of clients that create entries, the names are unique in every state of the run exactly when
no client is overtaken by one with the same name: nobody commits the name between its lookup and its
commit. -/
theorem namesUnique_iff (cs : ℕ → Creator) (s : Store) (l : List ℕ) (w' : World)
    (hpos : ∀ r ∈ s.dirents, 1 ≤ r.version) (hdirs : Unique DirRow.pkey s.dirs) (hs : NamesUnique s)
    (hrun : (start s).run cs l = .ok w') :
    (∀ l₁ l₂ w, l = l₁ ++ l₂ → (start s).run cs l₁ = .ok w → NamesUnique w.store) ↔
      ∀ i j, j ≠ i → (cs j).place = (cs i).place → ¬ Overtakes l j i := by
  have hsince : (start s).Since cs s := since_start hpos
  have hiff := run_forall_iff (P := fun w => w.Since cs s ∧ NamesUnique w.store)
    (fun w i w' hw h => (and_iff_right (hw.1.step h)).trans (hw.1.namesUnique_step_iff hw.2 h))
      ⟨hsince, hs⟩ hrun
  have hunique : (∀ l₁ l₂ w, l = l₁ ++ l₂ → (start s).run cs l₁ = .ok w → NamesUnique w.store) ↔
      ∀ l₁ i l₂ w, l = l₁ ++ i :: l₂ → (start s).run cs l₁ = .ok w → w.done i = 4 →
          (cs i).place ∉ w.store.names := by
    refine Iff.trans ?_ hiff
    exact ⟨fun h l₁ l₂ w hl hw => ⟨hsince.run hw, h l₁ l₂ w hl hw⟩, fun h l₁ l₂ w hl hw => (h l₁ l₂ w hl hw).2⟩
  rw [hunique]
  constructor
  · -- the one that overtakes has committed the name before the fifth statement of the other
    rintro hfree i j - hplace ⟨l₁, l₂, l₃, rfl, hi₁, hi₂, -, hj⟩
    rw [World.run, foldlM_append] at hrun
    obtain ⟨w, hw, -⟩ := bind_eq_ok.mp hrun
    have hdone (k : ℕ) : w.done k = (l₁ ++ i :: l₂).count k := (done_run hw k).trans (Nat.zero_add _)
    have hfour : w.done i = 4 := by
      rw [hdone, count_append, count_cons_self, hi₁, hi₂]
    refine hfree _ i l₃ w rfl hw hfour ((hsince.mem_names_run hw).mpr (.inr ⟨j, hplace, ?_, hdone j ▸ hj⟩))
    exact Nat.zero_lt_succ 4
  · rintro hnone l₁ i l₂ w rfl hw hdone hmem
    obtain ⟨j, hne, hplace, hover⟩ := overtaken_of_mem l₂ hpos hdirs hw hdone hmem
    exact hnone i j hne hplace hover

section Example

/-- A file in the directory of the team, and two clients that link it under one name. -/
def oneFile : Store :=
  { oneDir with
    smallFiles := [⟨exampleUser.owner exampleTeam, .smallFile 5, 1, .member 0, [], 0, none⟩], dirents := [] }

def exampleCreators (i : ℕ) : Creator where
  m := exampleUser
  pid := exampleTeam
  role := .owner
  de := { exampleEntry 1 .admin with id := 20 + i, value := .smallFile 5 }
  version := rfl
  dirVersion := le_refl 1

/-- Clients that link the file under names of their own. -/
def ownNames (i : ℕ) : Creator :=
  { exampleCreators i with
    de := { (exampleCreators i).de with nameMac := i }, version := rfl, dirVersion := le_refl 1 }

/-- Two clients overtake each other with different names. -/
theorem namesUnique_iff_ownNames :
    ∃ w', (start oneFile).run ownNames [0, 1, 0, 0, 0, 0, 1, 1, 1, 1] = .ok w' ∧
      ∀ l₁ l₂ w, [0, 1, 0, 0, 0, 0, 1, 1, 1, 1] = l₁ ++ l₂ → (start oneFile).run ownNames l₁ = .ok w →
        NamesUnique w.store := by
  have hrun : ((start oneFile).run ownNames [0, 1, 0, 0, 0, 0, 1, 1, 1, 1]).map
      (fun w => w.store.names.length) = .ok 2 := by decide +kernel
  obtain ⟨w', hw', -⟩ := map_eq_ok.mp hrun
  have hdirs : (oneFile.dirs.map DirRow.pkey).Nodup := by decide
  have hunique : NamesUnique oneFile := by decide
  refine ⟨w', hw', (namesUnique_iff _ _ _ w' (by simp [oneFile]) hdirs hunique hw').mpr ?_⟩
  intro i j hne hplace _
  exact hne (congrArg (fun p : Place => p.2.2.2) hplace)

/-- Both clients look the name up before either of them commits. Both entries are in use, under one name. -/
theorem both_creators_succeed :
    ∃ w', (start oneFile).run exampleCreators [0, 1, 0, 0, 0, 0, 1, 1, 1, 1] = .ok w' ∧
      w'.store.dirents.map (fun r => (r.direntID, r.active)) = [(20, true), (21, true)] ∧
      ¬ NamesUnique w'.store := by
  have hrun : ((start oneFile).run exampleCreators [0, 1, 0, 0, 0, 0, 1, 1, 1, 1]).map
      (fun w => w.store.dirents.map (fun r => (r.direntID, r.active)) = [(20, true), (21, true)] ∧
        ¬ NamesUnique w.store : World → Bool) = .ok true := by
    decide +kernel
  obtain ⟨w', hw', hboth⟩ := map_eq_ok.mp hrun
  exact ⟨w', hw', of_decide_eq_true hboth⟩

end Example

end Foks.KvStore
