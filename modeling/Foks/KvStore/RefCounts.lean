import Foks.KvStore.Files
import Foks.KvStore.WriteRoles
import Foks.Lib.Counts

/-!
# Reference counts of the KV store

A directory, a file or a symlink keeps a count of the entries that point at it, and a directory that is a
root counts as pointed at once more. The server changes the counts by hand: an entry that is put adds
one for its value and takes one off for the value of the version before, and a root that is replaced takes
one off (`server/kv-store/dirent.go`, `root.go`). The update of the table of entries, however, takes all
lower versions out of use, and the update of the table of roots is addressed to the host whose identifier
is the new version of the root.
-/

namespace Foks.KvStore

open Lib List Bool Tables DirentRow Store

/-! ### Roots -/

structure KVRoot where
  root : DirID
  vers : KVVersion
  rg : RoleAndGen
  bindingMac : HMAC
  deriving DecidableEq

/-- A value for a column of type `SMALLINT`. -/
def smallint (v : ℕ) : Except CoreError Unit := refuse (2 ^ 15 ≤ v) .numericValueOutOfRange

variable (m : MetaContext) (t : Tables) (pid : PartyID)

/-- The root of a party. -/
def selectRoot : Option RootRow :=
  t.roots.find? fun r => r.shortHostID = m.shortHostID ∧ r.partyID = pid

/-- The first root of a party. -/
def insertRoot (root : KVRoot) : Except CoreError Tables := do
  refuse (root.vers ≠ 1) (.badArgsError "initial root version must be 1")
  let t ← dirRef m t pid root.root 1
  let _ ← importRole root.rg.role
  integer root.rg.gen
  let rows ← insertRow RootRow.pkey (.uniqueViolation "root_pkey")
    ⟨m.shortHostID, pid, root.root, root.vers, root.rg.gen, root.rg.role, root.bindingMac⟩ t.roots
  return { t with roots := rows }

/-- A root in the place of `old`. The arguments of the update are in another order than its columns: the
host goes where the version belongs, and the version where the host belongs. -/
def replaceRoot (old : RootRow) (root : KVRoot) : Except CoreError Tables := do
  let t ← dirRef m t pid old.rootNodeID (-1)
  refuse (old.rootNodeVersion + 1 ≠ root.vers) (.kvRaceError "root version")
  let t ← dirRef m t pid root.root 1
  let _ ← importRole root.rg.role
  integer m.shortHostID
  integer root.rg.gen
  smallint root.vers
  let rows ← updateOne (fun r => r.shortHostID = root.vers ∧ r.partyID = pid) (fun r => { r with
      rootNodeID := root.root
      rootNodeVersion := m.shortHostID
      bindingMac := root.bindingMac
      ptkGen := root.rg.gen
      readRole := root.rg.role })
    (.updateError "ns") t.roots
  return { t with roots := rows }

/-- `KvPutRoot` -/
def putRoot (role : Role) (root : KVRoot) : Except CoreError Tables := do
  refuse (role.typ.isAdminOrAbove = false)
    (.permissionError "team admin permission needed for creating KV root")
  refuse (root.bindingMac = 0) (.badArgsError "binding mac must not be zero")
  match selectRoot m t pid with
  | none => insertRoot m t pid root
  | some old => replaceRoot m t pid old root

/-! ### Counts and references -/

/-- A node, with the party that it belongs to. -/
abbrev NodeRef := Owner × KVNodeID

/-- The nodes that are kept in `small_file_or_symlink`. -/
def KVNodeID.isSmall : KVNodeID → Bool
  | .smallFile _ => true
  | .symlink _ => true
  | _ => false

/-- The counts of the directories. -/
def Tables.dirCounts : List (NodeRef × ℤ) :=
  t.dirRefcounts.map fun r => ((r.owner, .dir r.dirID), r.refcount)

/-- The counts of the large files. -/
def Tables.fileCounts : List (NodeRef × ℤ) :=
  t.largeFiles.map fun r => ((r.owner, .file r.fileID), r.refcount)

/-- The counts of the small files and symlinks. -/
def Tables.smallCounts : List (NodeRef × ℤ) :=
  (t.smallFiles.filter (·.nodeID.isSmall)).map fun r => ((r.owner, r.nodeID), r.refcount)

def Tables.counts : List (NodeRef × ℤ) := t.dirCounts ++ (t.fileCounts ++ t.smallCounts)

/-- Whether an entry is in use and points at a node. -/
def DirentRow.live (r : DirentRow) : Bool := r.active && !r.value.isTombstone

def DirentRow.ref (r : DirentRow) : NodeRef := (r.owner, r.value)

/-- The references of the entries that are in use. -/
def direntRefs (rows : List DirentRow) : List NodeRef := (rows.filter live).map ref

def RootRow.ref (r : RootRow) : NodeRef := (r.owner, .dir r.rootNodeID)

/-- The references of the roots. -/
def Tables.rootRefs : List NodeRef := t.roots.map RootRow.ref

def Store.refs (s : Store) : List NodeRef := direntRefs s.dirents ++ s.rootRefs

/-- The references that an entry takes out of use. -/
def Store.retired (s : Store) (o : Owner) (de : KVDirent) : List NodeRef :=
  ((s.dirents.filter live).filter (de.replaces o)).map ref

/-- The reference to a node; a tombstone is none. -/
def valueRefs (o : Owner) (n : KVNodeID) : List NodeRef := if n.isTombstone then [] else [(o, n)]

/-- The references that the server takes off the counts for an entry: the one of the version before. -/
def released (s : Store) (pid : PartyID) (de : KVDirent) : List NodeRef :=
  (previous m s pid de).elim [] fun p => valueRefs (m.owner pid) p.1.value

/-- An entry takes out of use what the server takes off the counts. -/
def Balanced (s : Store) (pid : PartyID) (de : KVDirent) : Prop :=
  (s.retired (m.owner pid) de).Perm (released m s pid de)

instance (m : MetaContext) (s : Store) (pid : PartyID) (de : KVDirent) : Decidable (Balanced m s pid de) := by
  unfold Balanced
  infer_instance

/-! ### What a reference count does -/

variable {m : MetaContext} {pid : PartyID} {role : Role} {t t' : Tables} {s s' : Store} {k : NodeRef} {v : ℤ}
  {ρ : Type} {id : KVNodeID} {de : KVDirent} {existing : Option KVDirent} {root : KVRoot} {o : Owner}
  {channelID : Option RTChannelID} {replay : Bool} {fid : FileID} {chnk : UploadChunk}

theorem counts_bump (d : NodeRef → ℤ) :
    bump d t.counts = bump d t.dirCounts ++ (bump d t.fileCounts ++ bump d t.smallCounts) := by
  simp [bump, counts]

/-- Every node is counted in the table of its kind. -/
theorem mem_counts : k ∈ t.counts.map Prod.fst ↔ (∃ r ∈ t.dirRefcounts, (r.owner, .dir r.dirID) = k) ∨
    (∃ r ∈ t.largeFiles, (r.owner, .file r.fileID) = k) ∨
    ∃ r, (r ∈ t.smallFiles ∧ r.nodeID.isSmall = true) ∧ (r.owner, r.nodeID) = k := by
  simp [counts, dirCounts, fileCounts, smallCounts]

theorem bump_dirCounts (hk : ∀ id, k.2 ≠ .dir id) : bump (deltaAt [k] v) t.dirCounts = t.dirCounts := by
  refine bump_deltaAt_of_notMem fun hmem => ?_
  rw [dirCounts, map_map] at hmem
  obtain ⟨r, -, rfl⟩ := mem_map.mp hmem
  exact hk _ rfl

theorem bump_fileCounts (hk : ∀ id, k.2 ≠ .file id) : bump (deltaAt [k] v) t.fileCounts = t.fileCounts := by
  refine bump_deltaAt_of_notMem fun hmem => ?_
  rw [fileCounts, map_map] at hmem
  obtain ⟨r, -, rfl⟩ := mem_map.mp hmem
  exact hk _ rfl

theorem bump_smallCounts (hk : k.2.isSmall = false) : bump (deltaAt [k] v) t.smallCounts = t.smallCounts := by
  refine bump_deltaAt_of_notMem fun hmem => ?_
  rw [smallCounts, map_map] at hmem
  obtain ⟨r, hr, rfl⟩ := mem_map.mp hmem
  exact ne_true_of_eq_false hk (mem_filter.mp hr).2

/-- An update of the rows of one node changes its count. -/
theorem bump_updateRows {rows : List ρ} {p : ρ → Bool} {f : ρ → ρ} {g : ρ → NodeRef × ℤ}
    (hp : ∀ r ∈ rows, p r = true ↔ (g r).1 = k) (hf : ∀ r, g (f r) = ((g r).1, (g r).2 + v)) :
    (updateRows p f rows).map g = bump (deltaAt [k] v) (rows.map g) := by
  rw [updateRows, bump, map_map, map_map]
  refine map_congr_left fun r hr => ?_
  by_cases hk : (g r).1 = k
  · simp [(hp r hr).mpr hk, hf, hk]
  · have hnot : p r = false := by simpa [hk] using hp r hr
    simp [hnot, deltaAt_of_ne hk]

/-- What changing the counts does: those of `keys` are there, all are changed by `d`, and nothing else is. -/
structure CountsChanged (t t' : Tables) (d : NodeRef → ℤ) (keys : List NodeRef) : Prop where
  counts : t'.counts = bump d t.counts
  counted : Counted t.counts keys
  roots : t'.roots = t.roots

theorem CountsChanged.refl (v : ℤ) : CountsChanged t t (deltaAt [] v) [] := by
  refine ⟨?_, forall_mem_nil _, rfl⟩
  rw [deltaAt_nil, bump_zero]

theorem CountsChanged.trans {t1 : Tables} {d d' : NodeRef → ℤ} {keys keys' : List NodeRef}
    (h : CountsChanged t t1 d keys) (h' : CountsChanged t1 t' d' keys') :
    CountsChanged t t' (fun k => d k + d' k) (keys ++ keys') := by
  refine ⟨?_, ?_, h'.roots.trans h.roots⟩
  · rw [h'.counts, h.counts, bump_bump]
  intro k hk
  rcases mem_append.mp hk with hk | hk
  · exact h.counted k hk
  · rw [← keys_bump d, ← h.counts]
    exact h'.counted k hk

theorem updateOne_eq_ok {p : ρ → Bool} {f : ρ → ρ} {e : CoreError} {rows rows' : List ρ}
    (h : updateOne p f e rows = .ok rows') : rows' = updateRows p f rows ∧ ∃ r ∈ rows, p r = true := by
  obtain ⟨⟨⟩, hcount, hupd⟩ := bind_eq_ok.mp h
  cases hupd
  exact ⟨rfl, countP_pos_iff.mp (of_refuse hcount ▸ one_pos)⟩

theorem dirRef_changed {id : DirID} (h : dirRef m t pid id v = .ok t') :
    CountsChanged t t' (deltaAt [(m.owner pid, .dir id)] v) [(m.owner pid, .dir id)] := by
  obtain ⟨_, hrows, hret⟩ := bind_eq_ok.mp h
  obtain ⟨rfl, r, hr, hkey⟩ := updateOne_eq_ok hrows
  obtain ⟨howner, hid⟩ := of_decide_eq_true hkey
  cases hret
  refine ⟨?_, ?_, rfl⟩
  · rw [counts_bump, bump_fileCounts (by simp), bump_smallCounts rfl]
    refine congrArg₂ (· ++ ·) (bump_updateRows ?_ ?_) rfl
    · intro r _
      simp
    · exact fun r => rfl
  exact forall_mem_singleton.mpr <| mem_counts.mpr (.inl ⟨r, hr, by simp [howner, hid]⟩)

theorem fileRef_changed {id : FileID} (h : fileRef m t pid id v = .ok t') :
    CountsChanged t t' (deltaAt [(m.owner pid, .file id)] v) [(m.owner pid, .file id)] := by
  obtain ⟨_, hrows, hret⟩ := bind_eq_ok.mp h
  obtain ⟨rfl, r, hr, hkey⟩ := updateOne_eq_ok hrows
  obtain ⟨howner, hid⟩ := of_decide_eq_true hkey
  cases hret
  refine ⟨?_, ?_, rfl⟩
  · rw [counts_bump, bump_dirCounts (by simp), bump_smallCounts rfl]
    refine congrArg₂ (· ++ ·) rfl (congrArg₂ (· ++ ·) (bump_updateRows ?_ ?_) rfl)
    · intro r _
      simp
    · exact fun r => rfl
  exact forall_mem_singleton.mpr <| mem_counts.mpr (.inr (.inl ⟨r, hr, by simp [howner, hid]⟩))

theorem smallFileRef_changed (hid : id.isSmall = true) (h : smallFileRef m t pid id v = .ok t') :
    CountsChanged t t' (deltaAt [(m.owner pid, id)] v) [(m.owner pid, id)] := by
  obtain ⟨_, hrows, hret⟩ := bind_eq_ok.mp h
  obtain ⟨rfl, r, hr, hkey⟩ := updateOne_eq_ok hrows
  obtain ⟨howner, hnode⟩ := of_decide_eq_true hkey
  cases hret
  have hdir (i : DirID) : id ≠ .dir i := by
    rintro rfl
    cases hid
  have hfile (i : FileID) : id ≠ .file i := by
    rintro rfl
    cases hid
  refine ⟨?_, ?_, rfl⟩
  · rw [counts_bump, bump_dirCounts hdir, bump_fileCounts hfile]
    refine congrArg₂ (· ++ ·) rfl (congrArg₂ (· ++ ·) rfl ?_)
    have hfilter : (updateRows (fun r => decide (r.owner = m.owner pid ∧ r.nodeID = id))
        (fun r => { r with refcount := r.refcount + v }) t.smallFiles).filter (·.nodeID.isSmall)
        = updateRows (fun r => decide (r.owner = m.owner pid ∧ r.nodeID = id))
          (fun r => { r with refcount := r.refcount + v }) (t.smallFiles.filter (·.nodeID.isSmall)) := by
      rw [updateRows, filter_map]
      congr 1
      refine filter_congr fun r _ => ?_
      simp only [Function.comp]
      split <;> rfl
    rw [smallCounts]
    simp only [hfilter]
    refine bump_updateRows ?_ fun r => rfl
    simp
  · exact forall_mem_singleton.mpr <|
      mem_counts.mpr (.inr (.inr ⟨r, ⟨hr, hnode ▸ hid⟩, by simp [howner, hnode]⟩))

theorem direntRef_changed (h : direntRef m t pid id v = .ok t') :
    CountsChanged t t' (deltaAt (valueRefs (m.owner pid) id) v) (valueRefs (m.owner pid) id) := by
  cases id with
  | none =>
    cases h
    exact .refl v
  | dir id => exact dirRef_changed h
  | file id => exact fileRef_changed h
  | smallFile id | symlink id => exact smallFileRef_changed rfl h
  | unknown bytes => cases h

/-- The references that an entry adds to the counts, and those that it takes off. -/
theorem updateRefcounts_changed (h : updateRefcounts m t pid de existing = .ok t') : CountsChanged t t'
      (fun k => deltaAt (valueRefs (m.owner pid) de.value) 1 k
        + deltaAt (existing.elim [] fun ex => valueRefs (m.owner pid) ex.value) (-1) k)
      (valueRefs (m.owner pid) de.value ++ existing.elim [] fun ex => valueRefs (m.owner pid) ex.value) := by
  obtain ⟨t1, hinc, hdec⟩ := bind_eq_ok.mp h
  refine @CountsChanged.trans t t' t1 _ _ _ _ ?_ ?_
  · unfold increfValue at hinc
    split at hinc
    · next htomb =>
      cases hinc
      rw [valueRefs, if_pos htomb]
      exact .refl 1
    · exact direntRef_changed hinc
  cases existing with
  | none =>
    cases hdec
    exact .refl (-1)
  | some ex => exact direntRef_changed hdec

/-! ### Entries -/

/-- The value of the entry that is found is that of the row. -/
theorem value_importDirent {dirid : DirID} {p : DirentRow × DirRow} {ex : KVDirent}
    (h : importDirent role dirid p = .ok ex) : ex.value = p.1.value := by
  simp only [importDirent, bind_eq_ok] at h
  obtain ⟨_, _, _, _, writeRole, hwrite, hret⟩ := h
  cases hret
  rfl

theorem existing_refs (h : loadExistingDirent m s pid role de = .ok existing) :
    (existing.elim [] fun ex => valueRefs (m.owner pid) ex.value) = released m s pid de := by
  obtain ⟨-, h⟩ := loadExistingDirent_eq_ok.mp h
  unfold released
  cases hprev : previous m s pid de with
  | none =>
    rw [hprev] at h
    subst h
    rfl
  | some p =>
    rw [hprev] at h
    obtain ⟨ex, hex, -, rfl⟩ := h
    simp [value_importDirent hex]

/-- The references after an entry was put: its own is new, and what it replaces is retired. -/
theorem direntRefs_withRow (m : MetaContext) (pid : PartyID) (s : Store) (de : KVDirent) :
    (direntRefs (s.withRow m pid de) ++ s.retired (m.owner pid) de).Perm
      (direntRefs s.dirents ++ valueRefs (m.owner pid) de.value) := by
  have hrow : de.replaces (m.owner pid) (de.row m pid) = false := by
    simp [KVDirent.replaces, KVDirent.row]
  -- the rows that are in use and not replaced are the ones in use afterwards
  have hlive : direntRefs (s.withRow m pid de) = (((s.dirents ++ [de.row m pid]).filter live).filter
      (fun r => !de.replaces (m.owner pid) r)).map ref := by
    unfold direntRefs withRow
    generalize s.dirents ++ [de.row m pid] = rows
    induction rows with
    | nil => rfl
    | cons r rows ih =>
      rw [updateRows, map_cons, ← updateRows]
      by_cases hr : de.replaces (m.owner pid) r
      · by_cases hl : r.live
        · simp [hr, live, ih]
        · simp [hr, live, ih]
      by_cases hl : r.live
      · simp [hr, hl, ih]
      · simp [hr, hl, ih]
  have hretired : s.retired (m.owner pid) de = (((s.dirents ++ [de.row m pid]).filter live).filter
      (de.replaces (m.owner pid))).map ref := by
    have hnone : ([de.row m pid].filter live).filter (de.replaces (m.owner pid)) = [] := by
      refine filter_eq_nil_iff.mpr fun r hr => ?_
      rw [mem_singleton.mp (mem_of_mem_filter hr), hrow]
      exact false_ne_true
    rw [retired, filter_append, filter_append, hnone, append_nil]
  have hall : direntRefs s.dirents ++ valueRefs (m.owner pid) de.value
      = ((s.dirents ++ [de.row m pid]).filter live).map ref := by
    rw [direntRefs, valueRefs]
    by_cases htomb : de.value.isTombstone
    · simp [htomb, live, KVDirent.row]
    · simp [htomb, live, KVDirent.row, ref]
  rw [hlive, hretired, hall, ← map_append]
  apply List.Perm.map
  have hpart := filter_append_perm (fun r => !de.replaces (m.owner pid) r)
    ((s.dirents ++ [de.row m pid]).filter live)
  simpa using hpart

/-- The counts are exact, and everything that is referred to has one. -/
structure CountsExact (s : Store) : Prop where
  exact : Exact s.counts s.refs
  counted : Counted s.counts s.refs

theorem CountsExact.exchange {added retired released : List NodeRef} (hs : CountsExact s)
    (hcounts : s'.counts = bump (fun k => deltaAt added 1 k + deltaAt released (-1) k) s.counts)
    (hperm : (s'.refs ++ retired).Perm (s.refs ++ added)) (hadded : Counted s.counts added)
    (hreleased : Counted s.counts released) (hbal : retired.Perm released) : CountsExact s' := by
  refine ⟨?_, ?_⟩
  · rw [hcounts]
    exact (hs.exact.exchange_iff hs.counted hperm hadded hreleased).mpr hbal
  · rw [hcounts]
    exact hs.counted.exchange hperm hadded

/-- What an entry does to the counts and to the references. -/
theorem direntUpdater_changed (h : direntUpdater m pid role s de = .ok s') :
    CountsChanged s.toTables s'.toTables
        (fun k => deltaAt (valueRefs (m.owner pid) de.value) 1 k + deltaAt (released m s pid de) (-1) k)
        (valueRefs (m.owner pid) de.value ++ released m s pid de) ∧
      (s'.refs ++ s.retired (m.owner pid) de).Perm (s.refs ++ valueRefs (m.owner pid) de.value) := by
  obtain ⟨_, _, existing, tables, -, -, hex, -, -, hrefs, hins⟩ := direntUpdater_eq_ok.mp h
  obtain ⟨-, rfl⟩ := insertNewDirent_eq_ok.mp hins
  have hchanged := updateRefcounts_changed hrefs
  rw [existing_refs hex] at hchanged
  refine ⟨hchanged, ?_⟩
  have hroots : tables.rootRefs = s.rootRefs := by
    rw [rootRefs, hchanged.roots]
    rfl
  have hentries := direntRefs_withRow m pid s de
  have hswap : (direntRefs (s.withRow m pid de) ++ tables.rootRefs ++ s.retired (m.owner pid) de).Perm
      (direntRefs (s.withRow m pid de) ++ s.retired (m.owner pid) de ++ s.rootRefs) := by
    rw [hroots, append_assoc, append_assoc]
    exact List.Perm.append_left _ perm_append_comm
  have hback : (direntRefs s.dirents ++ valueRefs (m.owner pid) de.value ++ s.rootRefs).Perm
      (direntRefs s.dirents ++ s.rootRefs ++ valueRefs (m.owner pid) de.value) := by
    rw [append_assoc, append_assoc]
    exact List.Perm.append_left _ perm_append_comm
  exact hswap.trans ((hentries.append_right _).trans hback)

/-- An entry that is put keeps the counts exact exactly when it takes out of use what the server takes off
the counts. -/
theorem exact_direntUpdater_iff (hs : CountsExact s) (h : direntUpdater m pid role s de = .ok s') :
    CountsExact s' ↔ Balanced m s pid de := by
  obtain ⟨hchanged, hperm⟩ := direntUpdater_changed h
  have hadded : Counted s.counts (valueRefs (m.owner pid) de.value) := fun k hk =>
    hchanged.counted k (mem_append_left _ hk)
  have hreleased : Counted s.counts (released m s pid de) := fun k hk =>
    hchanged.counted k (mem_append_right _ hk)
  constructor
  · intro hs'
    rw [Balanced, ← hs.exact.exchange_iff hs.counted hperm hadded hreleased, ← hchanged.counts]
    exact hs'.exact
  · exact hs.exchange hchanged.counts hperm hadded hreleased

/-! ### Roots are counted -/

theorem exact_insertRoot (hs : CountsExact s) (h : insertRoot m s.toTables pid root = .ok t') :
    CountsExact { s with toTables := t' } := by
  have h := of_bind_eq_ok h
  obtain ⟨t1, hinc, h⟩ := bind_eq_ok.mp h
  obtain ⟨_, -, h⟩ := bind_eq_ok.mp h
  have h := of_bind_eq_ok h
  obtain ⟨rows, hrows, hret⟩ := bind_eq_ok.mp h
  obtain ⟨-, rfl⟩ := insertRow_eq_ok.mp hrows
  cases hret
  have hchanged := dirRef_changed hinc
  refine @CountsExact.exchange s _ _ [] [] hs ?_ ?_ hchanged.counted (forall_mem_nil _) (.refl [])
  · change t1.counts = _
    rw [hchanged.counts, deltaAt_nil]
    simp
  · simp only [refs, rootRefs, hchanged.roots, map_append, append_nil, ← append_assoc]
    exact .refl _

/-- A root that is replaced: the counts stay exact when the update is addressed to the host of the party. -/
theorem exact_replaceRoot {old : RootRow} (hs : CountsExact s)
    (hold : selectRoot m s.toTables pid = some old) (hvers : root.vers = m.shortHostID)
    (h : replaceRoot m s.toTables pid old root = .ok t') : CountsExact { s with toTables := t' } := by
  obtain ⟨t1, hdec, h⟩ := bind_eq_ok.mp h
  have h := of_bind_eq_ok h
  obtain ⟨t2, hinc, h⟩ := bind_eq_ok.mp h
  obtain ⟨_, -, h⟩ := bind_eq_ok.mp h
  have h := of_bind_eq_ok h
  have h := of_bind_eq_ok h
  have h := of_bind_eq_ok h
  obtain ⟨rows, hrows, hret⟩ := bind_eq_ok.mp h
  obtain ⟨_, hone, hupd⟩ := bind_eq_ok.mp hrows
  cases hret
  cases hupd
  have hchanged := (dirRef_changed hdec).trans (dirRef_changed hinc)
  have hfound : old.shortHostID = m.shortHostID ∧ old.partyID = pid := by
    simpa using find?_some hold
  have howner : old.owner = m.owner pid := by
    rw [RootRow.owner, hfound.1, hfound.2]
    rfl
  rw [hvers, hchanged.roots] at hone
  refine @CountsExact.exchange s _ [(m.owner pid, .dir root.root)] [(m.owner pid, .dir old.rootNodeID)]
    [(m.owner pid, .dir old.rootNodeID)] hs ?_ ?_ ?_ ?_ (.refl _)
  · change t2.counts = _
    rw [hchanged.counts]
    congr 1
    funext k
    exact Int.add_comm ..
  · have hroots := perm_map_updateRows (g := RootRow.ref) (f := fun r : RootRow => { r with
        rootNodeID := root.root
        rootNodeVersion := m.shortHostID
        bindingMac := root.bindingMac
        ptkGen := root.rg.gen
        readRole := root.rg.role })
      (of_refuse hone) hold
    have hperm := hroots.append_left (direntRefs s.dirents)
    simp only [refs, hvers, hchanged.roots, append_assoc]
    rw [← howner]
    exact hperm
  · exact fun k hk => hchanged.counted k (mem_append_right _ hk)
  · exact fun k hk => hchanged.counted k (mem_append_left _ hk)

theorem exact_putRoot (hs : CountsExact s) (hroot : (selectRoot m s.toTables pid).isSome →
    root.vers = m.shortHostID)
    (h : putRoot m s.toTables pid role root = .ok t') : CountsExact { s with toTables := t' } := by
  have h := of_bind_eq_ok h
  have h := of_bind_eq_ok h
  cases hold : selectRoot m s.toTables pid with
  | none =>
    rw [hold] at h
    exact exact_insertRoot hs h
  | some old =>
    rw [hold] at h hroot
    exact exact_replaceRoot hs hold (hroot rfl) h

/-! ### New nodes -/

theorem dir_mem_counts {id : DirID} (h : (o, .dir id) ∈ t.counts.map Prod.fst) :
    (o, id) ∈ t.dirRefcounts.map DirRefcountRow.pkey := by
  rcases mem_counts.mp h with ⟨r, hr, hk⟩ | ⟨r, -, hk⟩ | ⟨r, ⟨-, hsmall⟩, hk⟩
  · cases hk
    exact mem_map_of_mem hr
  · cases hk
  · rw [(Prod.mk.inj hk).2] at hsmall
    cases hsmall

theorem file_mem_counts {id : FileID} (h : (o, .file id) ∈ t.counts.map Prod.fst) :
    (o, id) ∈ t.largeFiles.map LargeFileRow.pkey := by
  rcases mem_counts.mp h with ⟨r, -, hk⟩ | ⟨r, hr, hk⟩ | ⟨r, ⟨-, hsmall⟩, hk⟩
  · cases hk
  · cases hk
    exact mem_map_of_mem hr
  · rw [(Prod.mk.inj hk).2] at hsmall
    cases hsmall

theorem small_mem_counts (hid : id.isSmall = true) (h : (o, id) ∈ t.counts.map Prod.fst) :
    ∃ r ∈ t.smallFiles, r.owner = o ∧ r.nodeID = id := by
  rcases mem_counts.mp h with ⟨r, -, hk⟩ | ⟨r, -, hk⟩ | ⟨r, ⟨hr, -⟩, hk⟩
  · cases hk
    cases hid
  · cases hk
    cases hid
  · exact ⟨r, hr, Prod.mk.inj hk⟩

theorem refs_of_roots (hroots : t'.roots = s.roots) : ({ s with toTables := t' } : Store).refs = s.refs := by
  rw [refs, rootRefs, hroots]
  rfl

/-- A call that leaves the counts alone. -/
theorem CountsExact.same (hs : CountsExact s) (hcounts : t'.counts = s.counts) (hroots : t'.roots = s.roots) :
    CountsExact { s with toTables := t' } := by
  have hrefs := refs_of_roots hroots
  refine ⟨?_, ?_⟩
  · rw [hrefs]
    exact hcounts ▸ hs.exact
  · rw [hrefs]
    exact hcounts ▸ hs.counted

/-- A call that makes a node, with a count of zero. -/
theorem CountsExact.newNode (hs : CountsExact s) (hk : k ∉ s.counts.map Prod.fst)
    (hcounts : t'.counts.Perm ((k, 0) :: s.counts)) (hroots : t'.roots = s.roots) :
    CountsExact { s with toTables := t' } := by
  have hrefs := refs_of_roots hroots
  refine ⟨?_, ?_⟩
  · rw [hrefs]
    refine hs.exact.of_mem (fun hmem => hk (hs.counted k hmem)) fun p hp => ?_
    exact (mem_cons.mp (hcounts.subset hp)).symm
  rw [hrefs]
  intro k' hk'
  obtain ⟨p, hp, rfl⟩ := mem_map.mp (hs.counted k' hk')
  exact mem_map_of_mem (hcounts.symm.subset (mem_cons_of_mem _ hp))

theorem exact_kvMkdir {dir : KVDir} (hs : CountsExact s)
    (h : kvMkdir m s.toTables pid role dir channelID = .ok (t', replay)) :
    CountsExact { s with toTables := t' } := by
  obtain ⟨chid, -, h⟩ := bind_eq_ok.mp h
  have h := of_bind_eq_ok h
  have h := of_bind_eq_ok h
  have h := of_bind_eq_ok h
  have h := of_bind_eq_ok h
  have h := of_bind_eq_ok h
  have h := of_bind_eq_ok h
  simp only at h
  split at h
  · split at h
    · cases h
      exact hs.same rfl rfl
    · cases h
  obtain ⟨counts, hcounts, hret⟩ := bind_eq_ok.mp h
  obtain ⟨hfresh, rfl⟩ := insertRow_eq_ok.mp hcounts
  cases hret
  refine hs.newNode (k := (m.owner pid, .dir dir.id)) (fun hmem => hfresh (dir_mem_counts hmem)) ?_ rfl
  simp only [counts, dirCounts, map_append, append_assoc]
  exact perm_middle

theorem exact_kvPutSmallFileOrSymlink {sfb : SmallFileBox} (hs : CountsExact s)
    (h : kvPutSmallFileOrSymlink m s.toTables pid role id sfb channelID = .ok (t', replay)) :
    CountsExact { s with toTables := t' } := by
  obtain ⟨chid, -, h⟩ := bind_eq_ok.mp h
  have h := of_bind_eq_ok h
  obtain ⟨_, -, h⟩ := bind_eq_ok.mp h
  have h := of_bind_eq_ok h
  have h := of_bind_eq_ok h
  split at h
  · split at h
    · cases h
      exact hs.same rfl rfl
    · cases h
  · next hnone =>
    cases h
    by_cases hid : id.isSmall
    · refine hs.newNode (k := (m.owner pid, id)) (fun hmem => ?_) ?_ rfl
      · obtain ⟨r, hr, hkey⟩ := small_mem_counts hid hmem
        exact find?_eq_none.mp hnone r hr (decide_eq_true hkey)
      simp only [counts, smallCounts, filter_append, filter_singleton, hid,
        map_append, ← append_assoc]
      exact perm_append_singleton ..
    · refine hs.same ?_ rfl
      simp [counts, smallCounts, hid, dirCounts, fileCounts]

theorem counts_insChunk (h : insChunk m t pid fid chnk = .ok t') :
    t'.counts = t.counts ∧ t'.roots = t.roots := by
  have h := of_bind_eq_ok h
  have h := of_bind_eq_ok h
  have h := of_bind_eq_ok h
  obtain ⟨rows, -, hret⟩ := bind_eq_ok.mp h
  cases hret
  exact ⟨rfl, rfl⟩

theorem counts_finalize (h : finalize m t pid fid chnk = .ok t') :
    t'.counts = t.counts ∧ t'.roots = t.roots := by
  unfold finalize at h
  split at h
  · cases h
    exact ⟨rfl, rfl⟩
  have h := of_bind_eq_ok h
  have h := of_bind_eq_ok h
  obtain ⟨rows, hrows, hret⟩ := bind_eq_ok.mp h
  have hupd := of_bind_eq_ok hrows
  cases hret
  cases hupd
  refine ⟨?_, rfl⟩
  refine congrArg₂ (· ++ ·) rfl (congrArg₂ (· ++ ·) ?_ rfl)
  rw [fileCounts, updateRows, map_map]
  refine map_congr_left fun r _ => ?_
  simp only [Function.comp]
  split <;> rfl

theorem exact_kvFileUploadInit {md : LargeFileMetadata} (hs : CountsExact s)
    (h : kvFileUploadInit m s.toTables pid role fid md chnk channelID = .ok t') :
    CountsExact { s with toTables := t' } := by
  obtain ⟨chid, -, h⟩ := bind_eq_ok.mp h
  have h := of_bind_eq_ok h
  obtain ⟨t1, hfile, h⟩ := bind_eq_ok.mp h
  obtain ⟨t2, hkey, h⟩ := bind_eq_ok.mp h
  obtain ⟨t3, hins, hfin⟩ := bind_eq_ok.mp h
  have hnew : CountsExact { s with toTables := t1 } := by
    obtain ⟨rows, hrows, hret⟩ := bind_eq_ok.mp hfile
    obtain ⟨hfresh, rfl⟩ := insertRow_eq_ok.mp hrows
    cases hret
    refine hs.newNode (k := (m.owner pid, .file fid)) (fun hmem => hfresh (file_mem_counts hmem)) ?_ rfl
    have hmiddle : ((s.dirCounts ++ s.fileCounts) ++ ((m.owner pid, .file fid), 0) :: s.smallCounts).Perm
        (((m.owner pid, .file fid), 0) :: ((s.dirCounts ++ s.fileCounts) ++ s.smallCounts)) := perm_middle
    simpa [counts, dirCounts, fileCounts, smallCounts] using hmiddle
  have hsame : t2.counts = t1.counts ∧ t2.roots = t1.roots := by
    obtain ⟨_, -, hkey⟩ := bind_eq_ok.mp hkey
    have hkey := of_bind_eq_ok hkey
    have hkey := of_bind_eq_ok hkey
    obtain ⟨rows, -, hret⟩ := bind_eq_ok.mp hkey
    cases hret
    exact ⟨rfl, rfl⟩
  obtain ⟨hcounts, hroots⟩ := counts_insChunk hins
  obtain ⟨hcounts', hroots'⟩ := counts_finalize hfin
  exact @CountsExact.same t' { s with toTables := t1 } hnew (hcounts'.trans (hcounts.trans hsame.1))
    (hroots'.trans (hroots.trans hsame.2))

theorem exact_fileUploadChunk (hs : CountsExact s) (h : fileUploadChunk m s.toTables pid fid chnk = .ok t') :
    CountsExact { s with toTables := t' } := by
  have h := of_bind_eq_ok h
  obtain ⟨t1, hins, hfin⟩ := bind_eq_ok.mp h
  obtain ⟨hcounts, hroots⟩ := counts_insChunk hins
  obtain ⟨hcounts', hroots'⟩ := counts_finalize hfin
  exact hs.same (hcounts'.trans hcounts) (hroots'.trans hroots)

/-! ### Runs -/

/-- The calls that write nodes, entries and roots. Nobody else writes to these tables; the tables of the
channels may change at any time. -/
inductive NodeEvent where
  | put (m : MetaContext) (pid : PartyID) (role : Role) (dirents : List KVDirent)
  | putRoot (m : MetaContext) (pid : PartyID) (role : Role) (root : KVRoot)
  | mkdir (m : MetaContext) (pid : PartyID) (role : Role) (dir : KVDir) (channelID : Option RTChannelID)
  | putSmallFileOrSymlink (m : MetaContext) (pid : PartyID) (role : Role) (id : KVNodeID)
      (sfb : SmallFileBox) (channelID : Option RTChannelID)
  | fileUploadInit (m : MetaContext) (pid : PartyID) (role : Role) (fid : FileID) (md : LargeFileMetadata)
      (chnk : UploadChunk) (channelID : Option RTChannelID)
  | fileUploadChunk (m : MetaContext) (pid : PartyID) (fid : FileID) (chnk : UploadChunk)
  | channels (channelRoots : List ChannelRootRow) (channels : List ChannelRow)
    (channelAcls : List ChannelAclRow)

def Store.stepNodes (s : Store) : NodeEvent → Except CoreError Store
  | .put m pid role dirents => putDirent m pid role dirents s
  | .putRoot m pid role root => do return { s with toTables := ← KvStore.putRoot m s.toTables pid role root }
  | .mkdir m pid role dir channelID => do
    return { s with toTables := (← kvMkdir m s.toTables pid role dir channelID).1 }
  | .putSmallFileOrSymlink m pid role id sfb channelID => do
    return { s with toTables := (← kvPutSmallFileOrSymlink m s.toTables pid role id sfb channelID).1 }
  | .fileUploadInit m pid role fid md chnk channelID => do
    return { s with toTables := ← kvFileUploadInit m s.toTables pid role fid md chnk channelID }
  | .fileUploadChunk m pid fid chnk => do
    return { s with toTables := ← KvStore.fileUploadChunk m s.toTables pid fid chnk }
  | .channels channelRoots channels channelAcls => .ok { s with channelRoots, channels, channelAcls }

/-- A sequence of requests that the server accepts. -/
def Store.runNodes (s : Store) (l : List NodeEvent) : Except CoreError Store := l.foldlM stepNodes s

/-- Every entry of a call takes out of use what the server takes off the counts, and a root is replaced by
an update that is addressed to the party's own host. -/
def NodeEvent.Balanced (s : Store) : NodeEvent → Prop
  | .put m pid role dirents =>
    Along (direntUpdater m pid role) (fun s de => KvStore.Balanced m s pid de) s dirents
  | .putRoot m pid _ root => (selectRoot m s.toTables pid).isSome → root.vers = m.shortHostID
  | _ => True

instance (s : Store) (e : NodeEvent) : Decidable (e.Balanced s) := by
  cases e <;> unfold NodeEvent.Balanced <;> infer_instance

theorem exact_stepNodes {e : NodeEvent} (hs : CountsExact s) (hbal : e.Balanced s)
    (h : s.stepNodes e = .ok s') : CountsExact s' := by
  cases e with
  | put m pid role dirents =>
    exact foldlM_along (fun _ _ _ hbal hs h => (exact_direntUpdater_iff hs h).mpr hbal) hbal hs h
  | putRoot m pid role root =>
    obtain ⟨t', ht', hret⟩ := bind_eq_ok.mp h
    cases hret
    exact exact_putRoot hs hbal ht'
  | mkdir m pid role dir channelID =>
    obtain ⟨⟨t', replay⟩, ht', hret⟩ := bind_eq_ok.mp h
    cases hret
    exact exact_kvMkdir hs ht'
  | putSmallFileOrSymlink m pid role id sfb channelID =>
    obtain ⟨⟨t', replay⟩, ht', hret⟩ := bind_eq_ok.mp h
    cases hret
    exact exact_kvPutSmallFileOrSymlink hs ht'
  | fileUploadInit m pid role fid md chnk channelID =>
    obtain ⟨t', ht', hret⟩ := bind_eq_ok.mp h
    cases hret
    exact exact_kvFileUploadInit hs ht'
  | fileUploadChunk m pid fid chnk =>
    obtain ⟨t', ht', hret⟩ := bind_eq_ok.mp h
    cases hret
    exact exact_fileUploadChunk hs ht'
  | channels channelRoots channels channelAcls =>
    cases h
    exact hs.same rfl rfl

/-- A node with a count is not a tombstone. -/
theorem not_isTombstone_of_counts (h : k ∈ t.counts.map Prod.fst) : k.2.isTombstone = false := by
  rcases mem_counts.mp h with ⟨r, -, rfl⟩ | ⟨r, -, rfl⟩ | ⟨r, ⟨-, hsmall⟩, rfl⟩
  · rfl
  · rfl
  cases hk : r.nodeID with
  | none =>
    rw [hk] at hsmall
    cases hsmall
  | _ => rfl

theorem count_refs (s : Store) (hk : k.2.isTombstone = false) : @List.count _ instBEqOfDecidableEq k s.refs
      = (s.dirents.countP fun r => r.active && decide (r.ref = k)) + s.roots.countP (·.ref = k) := by
  rw [refs, direntRefs, rootRefs, count_map_append]
  congr 1
  refine countP_congr fun r _ => ?_
  simp only [live, and_eq_true, not_eq_true', decide_eq_true_eq]
  constructor
  · rintro ⟨⟨hactive, -⟩, href⟩
    exact ⟨hactive, href⟩
  · rintro ⟨hactive, rfl⟩
    exact ⟨⟨hactive, hk⟩, rfl⟩

theorem countsExact_empty : CountsExact {} :=
  ⟨forall_mem_nil _, forall_mem_nil _⟩

/-- In every run in which the entries and the roots are balanced, the count of a node is the number of
entries in use that point at it, and one more for the root; so it is zero exactly when nothing does. -/
theorem refcounts_exact {l : List NodeEvent} (hrun : runNodes {} l = .ok s)
    (hbal : Along stepNodes NodeEvent.Balanced {} l) :
    ∀ p ∈ s.counts,
      p.2 = (s.dirents.countP fun r => r.active && r.ref = p.1) + s.roots.countP (·.ref = p.1) ∧
        (p.2 = 0 ↔ (∀ r ∈ s.dirents, r.active = true → r.ref ≠ p.1) ∧ ∀ r ∈ s.roots, r.ref ≠ p.1) := by
  have hs : CountsExact s :=
    foldlM_along (fun _ _ _ hbal hs h => exact_stepNodes hs hbal h) hbal countsExact_empty hrun
  intro p hp
  have hcount : p.2 = ((s.dirents.countP fun r => r.active && r.ref = p.1) +
      s.roots.countP (·.ref = p.1) : ℕ) := by
    rw [hs.exact p hp, count_refs s (not_isTombstone_of_counts (mem_map_of_mem hp))]
  refine ⟨by rw [hcount, Nat.cast_add], ?_⟩
  rw [hcount, Int.natCast_eq_zero, Nat.add_eq_zero_iff, countP_eq_zero, countP_eq_zero]
  simp

section Example

/-- The counts and the references are these. -/
def Store.hasLedger (s : Store) (counts : List (NodeRef × ℤ)) (refs : List NodeRef) : Bool :=
  s.counts = counts && s.refs = refs

/-- A user of a host whose roots can be replaced once: its identifier is `2`. -/
def secondHost : MetaContext := { exampleUser with shortHostID := 2 }

def exampleRoot (dir : DirID) (vers : KVVersion) : KVRoot := ⟨dir, vers, ⟨.member 0, 1⟩, 5⟩

def exampleBox : SmallFileBox := ⟨⟨.member 0, 1⟩, [1, 2, 3]⟩

/-- A root is made and replaced, and an entry for a small file is put and then removed. -/
def balancedRun : List NodeEvent :=
  [.mkdir secondHost exampleTeam .owner exampleDir none,
    .mkdir secondHost exampleTeam .owner { exampleDir with id := 11 } none,
    .putRoot secondHost exampleTeam .owner (exampleRoot 10 1),
    .putRoot secondHost exampleTeam .owner (exampleRoot 11 2),
    .putSmallFileOrSymlink secondHost exampleTeam .owner (.smallFile 30) exampleBox none,
    .put secondHost exampleTeam .owner [{ exampleEntry 1 .admin with value := .smallFile 30 }],
    .put secondHost exampleTeam .owner [exampleEntry 2 .admin]]

theorem refcounts_exact_balancedRun :
    ∃ s, runNodes {} balancedRun = .ok s ∧ ((secondHost.owner exampleTeam, .dir 11), 1) ∈ s.counts ∧
      ∀ p ∈ s.counts,
        p.2 = (s.dirents.countP fun r => r.active && r.ref = p.1) + s.roots.countP (·.ref = p.1) ∧
          (p.2 = 0 ↔ (∀ r ∈ s.dirents, r.active = true → r.ref ≠ p.1) ∧ ∀ r ∈ s.roots, r.ref ≠ p.1) := by
  have hrun : (runNodes {} balancedRun).map (·.hasLedger
      [((secondHost.owner exampleTeam, .dir 10), 0), ((secondHost.owner exampleTeam, .dir 11), 1),
        ((secondHost.owner exampleTeam, .smallFile 30), 0)]
            [(secondHost.owner exampleTeam, .dir 11)]) = .ok true := by
    decide +kernel
  obtain ⟨s, hs, hres⟩ := map_eq_ok.mp hrun
  have hcounts := of_decide_eq_true (and_eq_true_iff.mp hres).1
  refine ⟨s, hs, by simp [hcounts], refcounts_exact hs ?_⟩
  decide +kernel

/-- An entry is put at version `1` and then at version `3`: the first one is taken out of use, but what it
points at is still counted. -/
theorem skipped_version_keeps_count :
    ∃ s, runNodes {} [.mkdir exampleUser exampleTeam .owner exampleDir none,
        .putSmallFileOrSymlink exampleUser exampleTeam .owner (.smallFile 30) exampleBox none,
        .put exampleUser exampleTeam .owner [{ exampleEntry 1 .admin with value := .smallFile 30 }],
        .put exampleUser exampleTeam .owner [exampleEntry 3 .admin]] = .ok s ∧
      ((exampleUser.owner exampleTeam, .smallFile 30), 1) ∈ s.counts ∧ s.refs = [] := by
  have hrun : (runNodes {} [.mkdir exampleUser exampleTeam .owner exampleDir none,
        .putSmallFileOrSymlink exampleUser exampleTeam .owner (.smallFile 30) exampleBox none,
        .put exampleUser exampleTeam .owner [{ exampleEntry 1 .admin with value := .smallFile 30 }],
        .put exampleUser exampleTeam .owner [exampleEntry 3 .admin]]).map (·.hasLedger
      [((exampleUser.owner exampleTeam, .dir 10), 0), ((exampleUser.owner exampleTeam, .smallFile 30), 1)] [])
      = .ok true := by
    decide +kernel
  obtain ⟨s, hs, hres⟩ := map_eq_ok.mp hrun
  obtain ⟨hcounts, hrefs⟩ := and_eq_true_iff.mp hres
  exact ⟨s, hs, by simp [of_decide_eq_true hcounts], of_decide_eq_true hrefs⟩

/-- The root of a party is replaced on the first host: the update goes to the root of the same party on
the second host, and the first host's root is no longer counted. -/
theorem replaced_root_not_counted : (runNodes {} [.mkdir exampleUser exampleTeam .owner exampleDir none,
        .mkdir exampleUser exampleTeam .owner { exampleDir with id := 11 } none,
        .mkdir secondHost exampleTeam .owner exampleDir none,
        .putRoot exampleUser exampleTeam .owner (exampleRoot 10 1),
        .putRoot secondHost exampleTeam .owner (exampleRoot 10 1),
        .putRoot exampleUser exampleTeam .owner (exampleRoot 11 2)]).map (·.hasLedger
        [((exampleUser.owner exampleTeam, .dir 10), 0), ((exampleUser.owner exampleTeam, .dir 11), 1),
          ((secondHost.owner exampleTeam, .dir 10), 1)]
        [(exampleUser.owner exampleTeam, .dir 10), (secondHost.owner exampleTeam, .dir 11)]) = .ok true := by
  decide +kernel

end Example

end Foks.KvStore
