import Foks.KvStore.Nodes
import Foks.KvStore.Padding
import Mathlib.Data.List.Sort

/-!
# Files of the KV store

The server takes a large file chunk by chunk (`server/kv-store/file.go`). The first chunk comes with the
box of the file's key. The last one has to tell the size of the whole file: the server then looks at all
chunks in the order of their offsets and checks that each one begins where the one before it ended. It
knows the length of a chunk only by that of its ciphertext, so that it counts with what is left of it
without the tag and the head (`paddedLenInv`). Small files and symlinks are one box.
-/

namespace Foks.KvStore

open Lib List Except LargeFileChunkRow

def secretboxOverhead : ℕ := 16

def smallFileSize : ℕ := 2048

def smallFileOverhead : ℕ := 8

def maxInputFileChunkSize : ℕ := 4 * 1024 * 1024

def maxEncryptedChunkSize : ℕ := maxInputFileChunkSize + 5 + secretboxOverhead

def minPaddedChunkSize : ℕ := 0x20 + 2

def minEncryptedChunkSize : ℕ := minPaddedChunkSize + secretboxOverhead

structure SmallFileBox where
  rg : RoleAndGen
  dataBox : List UInt8
  deriving DecidableEq

structure LargeFileMetadata where
  rg : RoleAndGen
  keySeed : Ciphertext
  vers : KVVersion
  deriving DecidableEq

/-- `proto.UploadChunk`. The last chunk has the size of the file, `UploadFinal.Sz`. -/
structure UploadChunk where
  data : List UInt8
  offset : ℕ
  final : Option ℕ
  deriving DecidableEq

structure GetEncryptedChunkRes where
  chunk : List UInt8
  final : Bool
  offset : ℕ
  deriving DecidableEq

/-! ### Uploads -/

variable (m : MetaContext) (t : Tables) (pid : PartyID) (fid : FileID)

/-- The chunks of a file. -/
def fileChunks : List LargeFileChunkRow :=
  t.largeFileChunks.filter fun r => r.owner = m.owner pid ∧ r.fileID = fid

/-- The row of a file. -/
def selectFile : Option LargeFileRow :=
  t.largeFiles.find? fun r => r.owner = m.owner pid ∧ r.fileID = fid

def assertUploading : Except CoreError Unit :=
  let notUploading := CoreError.uploadError "file not in uploading state"
  match selectFile m t pid fid with
  | none => .error notUploading
  | some row => do
    (authorizeKVNodeRead m t pid row.channelID).mapError (unmask notUploading)
    refuse (row.status ≠ .uploading) notUploading

def insLargeFile (chid : Option ChannelID) : Except CoreError Tables := do
  let rows ← insertRow LargeFileRow.pkey (.uniqueViolation "large_file_pkey")
    ⟨m.owner pid, fid, 0, 0, .uploading, chid⟩ t.largeFiles
  return { t with largeFiles := rows }

def insKey (md : LargeFileMetadata) : Except CoreError Tables := do
  let _ ← importRole md.rg.role
  integer md.vers
  integer md.rg.gen
  let rows ← insertRow LargeFileKeyRow.pkey (.uniqueViolation "large_file_key_pkey")
    ⟨m.owner pid, fid, md.vers, md.rg.gen, md.keySeed, md.rg.role⟩ t.largeFileKeys
  return { t with largeFileKeys := rows }

variable (role : Role) (chnk : UploadChunk)

/-- The row of a chunk. -/
def UploadChunk.row (o : Owner) (fid : FileID) : LargeFileChunkRow :=
  ⟨o, fid, chnk.offset, chnk.data, chnk.final.isSome⟩

def insChunk : Except CoreError Tables := do
  refuse (maxEncryptedChunkSize < chnk.data.length)
    (.tooBigError chnk.data.length maxEncryptedChunkSize "file chunk")
  refuse (chnk.data.length < minEncryptedChunkSize) (.uploadError "chunk is too small")
  integer chnk.offset
  let rows ← insertRow pkey (.uniqueViolation "large_file_chunk_pkey")
    (chnk.row (m.owner pid) fid) t.largeFileChunks
  return { t with largeFileChunks := rows }

/-- The loop of `checkChunks`. It returns the sum of the lengths of the ciphertexts. -/
def checkChunksLoop : List LargeFileChunkRow → ℤ → ℕ → Except CoreError ℕ
  | [], _, tot => .ok tot
  | row :: rows, pos, tot => do
    refuse (row.chunkOffset ≠ pos) (.uploadError "chunks didn't line up")
    let pli ← paddedLenInv (row.data.length - secretboxOverhead)
    checkChunksLoop rows (pos + pli) (tot + row.data.length)

def checkChunks (sz : ℕ) : Except CoreError Unit := do
  let rows := (fileChunks m t pid fid).insertionSort (·.chunkOffset ≤ ·.chunkOffset)
  let tot ← checkChunksLoop rows 0 0
  refuse (tot ≠ sz) (.uploadError "wrong file size on reconstruction")

def finalize : Except CoreError Tables :=
  match chnk.final with
  | none => .ok t
  | some sz => do
    checkChunks m t pid fid sz
    integer sz
    let rows ← updateOne (fun r => r.owner = m.owner pid ∧ r.fileID = fid ∧ r.status = .uploading)
      (fun r => { r with size := sz, status := .active }) (.updateError "large_file") t.largeFiles
    return { t with largeFiles := rows }

/-- `fileUploader.run` -/
def fileUploadInit (fid : FileID) (md : LargeFileMetadata) (chnk : UploadChunk) (chid : Option ChannelID) :
    Except CoreError Tables := do
  assertAtOrAbove role md.rg.role .read .file
  let t ← insLargeFile m t pid fid chid
  let t ← insKey m t pid fid md
  let t ← insChunk m t pid fid chnk
  finalize m t pid fid chnk

def kvFileUploadInit (fid : FileID) (md : LargeFileMetadata) (chnk : UploadChunk)
    (channelID : Option RTChannelID) :
    Except CoreError Tables := do
  let chid ← authorizeKVNodeCreate m t pid channelID
  fileUploadInit m t pid role fid md chnk chid

/-- `fileUploader.doChunk` -/
def fileUploadChunk : Except CoreError Tables := do
  assertUploading m t pid fid
  let t ← insChunk m t pid fid chnk
  finalize m t pid fid chnk

/-! ### Reading large files -/

/-- The latest key of a file, beside the row of the file. -/
def selectFileKey : Option (LargeFileRow × LargeFileKeyRow) := do
  let file ← selectFile m t pid fid
  let key ← (t.largeFileKeys.filter fun r => r.owner = m.owner pid ∧ r.fileID = fid).argmax
    LargeFileKeyRow.version
  return (file, key)

def loadLargeFileMetadata : Except CoreError LargeFileMetadata :=
  let missing := CoreError.notFoundError "large file metadata"
  match selectFileKey m t pid fid with
  | none => .error missing
  | some (file, key) => do
    (authorizeKVNodeRead m t pid file.channelID).mapError (unmask missing)
    let fileRole ← importRoleFromDB key.readRole
    assertAtOrAbove role fileRole .read .file
    match file.status with
    | .uploading => .error .kvUploadInProgressError
    | .dead => .error (.kvNoentError [])
    | .active => return ⟨⟨fileRole, key.ptkGen⟩, key.keyBox, key.version⟩

def loadLargeFileReadRole : Except CoreError Role :=
  let missing := CoreError.notFoundError "large file key"
  match selectFileKey m t pid fid with
  | none => .error missing
  | some (file, key) => do
    (authorizeKVNodeRead m t pid file.channelID).mapError (unmask missing)
    importRoleFromDB key.readRole

/-- `BlobSQLStorage.Get`: the last chunk that begins at the offset or before it. -/
def blobGet (id : FileID) (offset : ℕ) : Except CoreError GetEncryptedChunkRes := do
  integer offset
  let rows := (fileChunks m t pid id).filter fun r => r.chunkOffset ≤ offset
  match rows.argmax chunkOffset with
  | none => .error (.notFoundError "large_file_blob")
  | some row => return ⟨row.data, row.final, row.chunkOffset⟩

def getChunk (id : FileID) (offset : ℕ) : Except CoreError GetEncryptedChunkRes := do
  let fileRole ← loadLargeFileReadRole m t pid id
  assertAtOrAbove role fileRole .read .file
  blobGet m t pid id offset

/-! ### Small files and symlinks -/

/-- `putSmallFileOrSymlink`. A node that is there already, with the same contents, is a replay. -/
def putSmallFileOrSymlink (id : KVNodeID)
    (sfb : SmallFileBox) (chid : Option ChannelID) : Except CoreError (Tables × Bool) := do
  assertAtOrAbove role sfb.rg.role .read .symlink
  let _ ← importRole sfb.rg.role
  let lim := smallFileSize + secretboxOverhead
  refuse (lim < sfb.dataBox.length) (.tooBigError sfb.dataBox.length lim "small file")
  integer sfb.rg.gen
  match t.smallFiles.find? fun r => r.owner = m.owner pid ∧ r.nodeID = id with
  | some stored =>
    if stored.box = sfb.dataBox ∧ stored.ptkGen = sfb.rg.gen ∧ stored.readRole = sfb.rg.role ∧
        stored.channelID = chid then return (t, true)
    else .error (.kvRaceError "small-file node id reused with different contents")
  | none =>
    let row : SmallFileRow := ⟨m.owner pid, id, sfb.rg.gen, sfb.rg.role, sfb.dataBox, 0, chid⟩
    return ({ t with smallFiles := t.smallFiles ++ [row] }, false)

def kvPutSmallFileOrSymlink (id : KVNodeID)
    (sfb : SmallFileBox) (channelID : Option RTChannelID) : Except CoreError (Tables × Bool) := do
  let chid ← authorizeKVNodeCreate m t pid channelID
  putSmallFileOrSymlink m t pid role id sfb chid

def loadSmallFileOrSymlink (nodeId : KVNodeID) (role : Role) : Except CoreError SmallFileBox :=
  let missing := CoreError.notFoundError "small file"
  match t.smallFiles.find? fun r => r.owner = m.owner pid ∧ r.nodeID = nodeId with
  | none => .error missing
  | some row => do
    (authorizeKVNodeRead m t pid row.channelID).mapError (unmask missing)
    let fileRole ← importRoleFromDB row.readRole
    assertAtOrAbove role fileRole .read .file
    return ⟨⟨fileRole, row.ptkGen⟩, row.box⟩

/-! ### The tables with a further file -/

/-- No row is about this file. -/
structure FreshFile (o : Owner) (fid : FileID) (t : Tables) : Prop where
  files : ∀ r ∈ t.largeFiles, ¬ (r.owner = o ∧ r.fileID = fid)
  keys : ∀ r ∈ t.largeFileKeys, ¬ (r.owner = o ∧ r.fileID = fid)
  chunks : ∀ r ∈ t.largeFileChunks, ¬ (r.owner = o ∧ r.fileID = fid)

/-- The tables with a further file. -/
def Tables.withFile (file : LargeFileRow) (key : LargeFileKeyRow) (chunks : List LargeFileChunkRow) : Tables :=
  { t with
    largeFiles := t.largeFiles ++ [file]
    largeFileKeys := t.largeFileKeys ++ [key]
    largeFileChunks := t.largeFileChunks ++ chunks }

section WithFile

variable {m : MetaContext} {t : Tables} {pid : PartyID} {fid : FileID} {file : LargeFileRow}
  {key : LargeFileKeyRow}
  {chunks : List LargeFileChunkRow} {u : Unit}

@[simp] theorem authorizeKVNodeRead_withFile (chid : Option ChannelID) :
    authorizeKVNodeRead m (t.withFile file key chunks) pid chid = authorizeKVNodeRead m t pid chid := by
  cases chid <;> rfl

/-- Chunks of a file whose offsets grow are in the order of the check. -/
theorem insertionSort_chunks (h : (chunks.map chunkOffset).Pairwise (· < ·)) :
    chunks.insertionSort (·.chunkOffset ≤ ·.chunkOffset) = chunks := by
  apply List.Pairwise.insertionSort_eq
  rw [pairwise_map] at h
  exact h.imp fun hlt => hlt.le

theorem integer_eq_ok {v : ℕ} : integer v = .ok u ↔ v < 2 ^ 31 := by
  rw [integer, refuse_eq_ok, not_le]

variable (hfresh : FreshFile (m.owner pid) fid t) {chnk : UploadChunk} {t' : Tables}

include hfresh

theorem fileChunks_withFile (hchunks : ∀ r ∈ chunks, r.owner = m.owner pid ∧ r.fileID = fid) :
    fileChunks m (t.withFile file key chunks) pid fid = chunks :=
  filter_append_right (fun r hr => decide_eq_false (hfresh.chunks r hr)) fun r hr =>
    decide_eq_true (hchunks r hr)

theorem insChunk_withFile (hoffset : ∀ r ∈ chunks, r.chunkOffset < chnk.offset)
    (hmin : minEncryptedChunkSize ≤ chnk.data.length) (hmax : chnk.data.length ≤ maxEncryptedChunkSize) :
    insChunk m (t.withFile file key chunks) pid fid chnk = .ok t' ↔
      chnk.offset < 2 ^ 31 ∧ t' = t.withFile file key (chunks ++ [chnk.row (m.owner pid) fid]) := by
  have hkey : (chnk.row (m.owner pid) fid).pkey ∉
      (t.withFile file key chunks).largeFileChunks.map pkey := by
    rintro hmem
    obtain ⟨r, hr, hpkey⟩ := mem_map.mp hmem
    obtain ⟨howner, hrest⟩ := Prod.mk.inj hpkey
    obtain ⟨hfid, hoff⟩ := Prod.mk.inj hrest
    rcases mem_append.mp hr with hr | hr
    · exact hfresh.chunks r hr ⟨howner, hfid⟩
    · exact (hoffset r hr).ne hoff
  simp only [insChunk, bind_eq_ok, refuse_eq_ok, integer_eq_ok, insertRow_eq_ok, pure, Except.pure, ok.injEq]
  constructor
  · rintro ⟨⟨⟩, -, ⟨⟩, -, ⟨⟩, hoff, rows, ⟨-, rfl⟩, rfl⟩
    refine ⟨hoff, ?_⟩
    simp only [Tables.withFile, append_assoc]
  · rintro ⟨hoff, rfl⟩
    refine ⟨(), hmax.not_gt, (), hmin.not_gt, (), hoff, _, ⟨hkey, rfl⟩, ?_⟩
    simp only [Tables.withFile, append_assoc]

theorem checkChunks_withFile {sz : ℕ} (hchunks : ∀ r ∈ chunks, r.owner = m.owner pid ∧ r.fileID = fid)
    (horder : (chunks.map chunkOffset).Pairwise (· < ·)) :
    checkChunks m (t.withFile file key chunks) pid fid sz = .ok u ↔ checkChunksLoop chunks 0 0 = .ok sz := by
  unfold checkChunks
  rw [fileChunks_withFile hfresh hchunks, insertionSort_chunks horder]
  simp only [bind_eq_ok, refuse_eq_ok, not_not]
  constructor
  · rintro ⟨tot, hloop, rfl⟩
    exact hloop
  · intro hloop
    exact ⟨sz, hloop, rfl⟩

variable (hfile : file.owner = m.owner pid ∧ file.fileID = fid)

include hfile

theorem selectFile_withFile : selectFile m (t.withFile file key chunks) pid fid = some file := by
  have hnone : t.largeFiles.find? (fun r => r.owner = m.owner pid ∧ r.fileID = fid) = none := by
    rw [find?_eq_none]
    intro r hr
    simpa using hfresh.files r hr
  simp only [selectFile, Tables.withFile, find?_append, hnone, Option.none_or]
  exact find?_cons_of_pos (decide_eq_true hfile)

theorem selectFileKey_withFile (hkey : key.owner = m.owner pid ∧ key.fileID = fid) :
    selectFileKey m (t.withFile file key chunks) pid fid = some (file, key) := by
  have hkeys : (t.withFile file key chunks).largeFileKeys.filter
      (fun r => r.owner = m.owner pid ∧ r.fileID = fid) = [key] := by
    refine filter_append_right (fun r hr => decide_eq_false (hfresh.keys r hr)) fun r hr => ?_
    rw [mem_singleton.mp hr]
    exact decide_eq_true hkey
  unfold selectFileKey
  rw [selectFile_withFile hfresh hfile, hkeys]
  rfl

/-- The update of a file that is being uploaded changes the one row of it. -/
theorem updateOne_withFile {f : LargeFileRow → LargeFileRow} {e : CoreError}
    (huploading : file.status = .uploading) :
    updateOne (fun r => r.owner = m.owner pid ∧ r.fileID = fid ∧ r.status = .uploading) f e
      (t.largeFiles ++ [file]) = .ok (t.largeFiles ++ [f file]) := by
  apply updateOne_concat
  · exact fun r hr => decide_eq_false fun h => hfresh.files r hr ⟨h.1, h.2.1⟩
  · exact decide_eq_true ⟨hfile.1, hfile.2, huploading⟩

/-- Whether a chunk is stored, and what is then in the tables: the new row, and for the last chunk the
size and the status of the file. -/
theorem storeChunk_eq_ok (huploading : file.status = .uploading)
    (hchunks : ∀ r ∈ chunks, r.owner = m.owner pid ∧ r.fileID = fid)
    (horder : ((chunks ++ [chnk.row (m.owner pid) fid]).map chunkOffset).Pairwise (· < ·))
    (hmin : minEncryptedChunkSize ≤ chnk.data.length) (hmax : chnk.data.length ≤ maxEncryptedChunkSize) :
    (do let t ← insChunk m (t.withFile file key chunks) pid fid chnk
        finalize m t pid fid chnk) = .ok t' ↔
      chnk.offset < 2 ^ 31 ∧
        match chnk.final with
        | none => t' = t.withFile file key (chunks ++ [chnk.row (m.owner pid) fid])
        | some sz => checkChunksLoop (chunks ++ [chnk.row (m.owner pid) fid]) 0 0 = .ok sz ∧ sz < 2 ^ 31 ∧
            t' = t.withFile { file with size := sz, status := .active } key
              (chunks ++ [chnk.row (m.owner pid) fid]) := by
  have hoffset : ∀ r ∈ chunks, r.chunkOffset < chnk.offset := by
    intro r hr
    rw [map_append, pairwise_append] at horder
    exact horder.2.2 _ (mem_map_of_mem hr) _ (mem_singleton_self _)
  have hchunks' : ∀ r ∈ chunks ++ [chnk.row (m.owner pid) fid], r.owner = m.owner pid ∧ r.fileID = fid := by
    intro r hr
    rcases mem_append.mp hr with hr | hr
    · exact hchunks r hr
    · rw [mem_singleton.mp hr]
      exact ⟨rfl, rfl⟩
  rw [bind_eq_ok]
  simp only [insChunk_withFile hfresh hoffset hmin hmax]
  cases hfinal : chnk.final with
  | none =>
    simp only [finalize, hfinal, ok.injEq]
    constructor
    · rintro ⟨_, ⟨hoff, rfl⟩, rfl⟩
      exact ⟨hoff, rfl⟩
    · rintro ⟨hoff, rfl⟩
      exact ⟨_, ⟨hoff, rfl⟩, rfl⟩
  | some sz =>
    have hupdate := @updateOne_withFile m t pid fid file hfresh hfile
      (fun r => { r with size := sz, status := .active }) (.updateError "large_file") huploading
    simp only [finalize, hfinal, bind_eq_ok, integer_eq_ok]
    constructor
    · rintro ⟨_, ⟨hoff, rfl⟩, ⟨⟩, hcheck, ⟨⟩, hsz, rows, hrows, ht'⟩
      refine ⟨hoff, (checkChunks_withFile hfresh hchunks' horder).mp hcheck, hsz, ?_⟩
      cases ok_unique hrows hupdate
      exact (ok.inj ht').symm
    · rintro ⟨hoff, hcheck, hsz, rfl⟩
      exact ⟨_, ⟨hoff, rfl⟩, (), (checkChunks_withFile hfresh hchunks' horder).mpr hcheck, (), hsz,
        _, hupdate, rfl⟩

end WithFile

end Foks.KvStore
