import Foks.KvClient.Files

/-!
# Files are read back

An upload leaves the rows of the chunks, one after the other, and a download of them gives the file back.
The invariant of the upload is that the tables hold the rows of the chunks that were sent; the download goes
from one row to the next by the offset that it has reached.
-/

namespace Foks.KvClient

open Lib KvStore List Except Function

variable {d : List UInt8} {n : ℕ} {c : ChunkSize} {cl : Client} {t : Tables}

/-! ### Uploads -/

theorem boxChunk_eq {x : Crypto} {fks : FileKeySeed} {fid : FileID} {offset sz : ℕ}
    {isFinal : Bool} (hd : d.length ≤ maxInputFileChunkSize) :
    boxChunk x fks d fid offset isFinal sz = .ok (⟨sealedChunk x fid fks offset isFinal d, offset,
        if isFinal then some (sz + encryptedLen d.length) else none⟩, sz + encryptedLen d.length) := by
  have hfive := headLen_le_five d.length
  have hmax : maxInputFileChunkSize = 0x400000 := rfl
  have hpad : padChunk (encodeBin d) = .ok (encodeBin d ++ replicate
      (countedLen d.length + headLen (countedLen d.length) - (encodeBin d).length) 0) := by
    rw [padChunk]
    nth_rewrite 1 [length_encodeBin]
    rw [paddedLen_chunk (by omega)]
    rfl
  rw [boxChunk, hpad]
  change Except.ok _ = _
  rw [← sealedChunk, length_sealedChunk]

/-- What the server asks of a new file: a role that the client has and that can be stored and read, a
generation that can be stored, and the membership of the channel. -/
structure Permitted (cl : Client) (t : Tables) (chid : Option ChannelID) : Prop where
  role : cl.readRole ≤ cl.role
  stored : ∃ rk, importRole cl.readRole = .ok rk
  read : importRoleFromDB cl.readRole = .ok cl.readRole
  gen : cl.gen < 2 ^ 31
  channel : authorizeKVNodeCreate cl.m t cl.pid cl.channelID = .ok chid

/-- The identifiers that were drawn are new. -/
structure FreshDraw (cl : Client) (t : Tables) (draw : Draw) : Prop where
  file : FreshFile cl.owner draw.fileID t
  smallFile : ∀ r ∈ t.smallFiles, ¬ (r.owner = cl.owner ∧ r.nodeID = .smallFile draw.smallFileID)

theorem FreshDraw.find?_smallFiles {draw : Draw} (h : FreshDraw cl t draw) :
    t.smallFiles.find? (fun r => r.owner = cl.owner ∧ r.nodeID = .smallFile draw.smallFileID) = none := by
  rw [find?_eq_none]
  intro r hr
  simpa using h.smallFile r hr

/-- Who may tag a node may read it. -/
theorem Permitted.readable {chid : Option ChannelID} (h : Permitted cl t chid) :
    authorizeKVNodeRead cl.m t cl.pid chid = .ok () := by
  have hchannel := h.channel
  rcases hid : cl.channelID with _ | channelID
  · rw [hid] at hchannel
    cases ok.inj hchannel
    rfl
  rw [hid] at hchannel
  obtain ⟨⟨⟩, hmember, hchid⟩ := bind_eq_ok.mp hchannel
  cases ok.inj hchid
  rw [authorizeKVNodeRead]
  cases hm : kvChannelMembership cl.m t cl.pid (RTChannelID.short channelID) with
  | ok _ => rfl
  | error e =>
    rw [hm] at hmember
    cases hmember

section Upload

variable (x : Crypto) (cl : Client) (draw : Draw) (chid : Option ChannelID) {data : List UInt8} {s : Session}

/-- The row of the file that is uploaded. -/
def fileRow : LargeFileRow := ⟨cl.owner, draw.fileID, 0, 0, .uploading, chid⟩

/-- The row of its key. -/
def keyRow : LargeFileKeyRow :=
  ⟨cl.owner, draw.fileID, 1, cl.gen,
    x.boxSeed ⟨draw.fileID, 1, draw.seed⟩ (x.partyKey cl.readRole cl.gen), cl.readRole⟩

/-- The tables while the file is uploaded. -/
def uploadingTables (t : Tables) (ds : List (List UInt8)) : Tables :=
  t.withFile (fileRow cl draw chid) (keyRow x cl draw) (chunkRows x cl draw.fileID draw.seed false 0 ds)

/-- The tables with the whole file. -/
def uploadedTables (t : Tables) (ds : List (List UInt8)) : Tables :=
  t.withFile { fileRow cl draw chid with size := totalLen ds, status := .active } (keyRow x cl draw)
    (chunkRows x cl draw.fileID draw.seed true 0 ds)

variable (done : List (List UInt8))

/-- The next chunk, when some are sent. -/
def nextChunk (final : Bool) (d : List UInt8) : UploadChunk :=
  ⟨sealedChunk x draw.fileID draw.seed done.flatten.length final d, done.flatten.length,
    if final then some (totalLen (done ++ [d])) else none⟩

/-- The session with some chunks of the file sent. -/
def uploading (s : Session) (ds : List (List UInt8)) : Session :=
  ⟨uploadingTables x cl draw chid s.tables ds,
    update s.uploads draw.fileID (some ⟨draw.seed, ds.flatten.length, totalLen ds⟩),
    some (.file draw.fileID)⟩

/-- The session with all chunks of the file sent. -/
def uploaded (s : Session) (ds : List (List UInt8)) : Session :=
  ⟨uploadedTables x cl draw chid s.tables ds,
    update s.uploads draw.fileID (some ⟨draw.seed, ds.flatten.length, totalLen ds⟩),
    some (.file draw.fileID)⟩

variable {x cl draw chid}

variable (ds : List (List UInt8))

theorem totalLen_append (ds' : List (List UInt8)) : totalLen (ds ++ ds') = totalLen ds + totalLen ds' := by
  simp [totalLen]

theorem totalLen_concat (d : List UInt8) : totalLen (done ++ [d]) = totalLen done + encryptedLen d.length := by
  simp [totalLen]

theorem length_flatten_le_totalLen : ds.flatten.length ≤ totalLen ds := by
  induction ds with
  | nil => exact Nat.le_refl 0
  | cons d ds ih =>
    have hd := length_le_encryptedLen d.length
    simp only [flatten_cons, length_append, totalLen, map_cons, sum_cons] at ih ⊢
    omega

/-- The rows up to an offset at which a chunk begins. -/
theorem filter_chunkRows {done rest : List (List UInt8)}
    (hpos : ∀ d' ∈ (done ++ d :: rest).dropLast, 0 < d'.length) :
    ((chunkRows x cl draw.fileID draw.seed true 0 (done ++ d :: rest)).filter
        fun r => r.chunkOffset ≤ done.flatten.length).argmax LargeFileChunkRow.chunkOffset
      = some (chunkRow x cl draw.fileID draw.seed done.flatten.length rest.isEmpty d) := by
  have hsplit : chunkRows x cl draw.fileID draw.seed true 0 (done ++ d :: rest)
      = (chunkRows x cl draw.fileID draw.seed false 0 done
          ++ [chunkRow x cl draw.fileID draw.seed done.flatten.length rest.isEmpty d])
        ++ chunkRows x cl draw.fileID draw.seed true (done.flatten.length + d.length) rest := by
    rw [chunkRows_append, chunkRows]
    simp
  have horder := @chunkRows_pairwise x cl draw.fileID draw.seed 0 true (done ++ d :: rest) hpos
  rw [hsplit, map_append] at horder
  rw [hsplit]
  obtain ⟨hleft, -, hcross⟩ := pairwise_append.mp horder
  have hrow := mem_append_right (chunkRows x cl draw.fileID draw.seed false 0 done)
    (mem_singleton_self (chunkRow x cl draw.fileID draw.seed done.flatten.length rest.isEmpty d))
  have hbefore : ∀ r ∈ chunkRows x cl draw.fileID draw.seed false 0 done
      ++ [chunkRow x cl draw.fileID draw.seed done.flatten.length rest.isEmpty d],
      decide (r.chunkOffset ≤ done.flatten.length) = true := by
    intro r hr
    rw [decide_eq_true_iff]
    rw [map_append, pairwise_append] at hleft
    rcases mem_append.mp hr with hr | hr
    · exact (hleft.2.2 _ (mem_map_of_mem hr) _ (mem_singleton_self _)).le
    · rw [mem_singleton.mp hr]
      exact Nat.le_refl _
  have hafter : ∀ r ∈ chunkRows x cl draw.fileID draw.seed true (done.flatten.length + d.length) rest,
      ¬ decide (r.chunkOffset ≤ done.flatten.length) = true := by
    intro r hr
    rw [decide_eq_true_iff, not_le]
    exact hcross _ (mem_map_of_mem hrow) _ (mem_map_of_mem hr)
  rw [filter_append, filter_eq_self.mpr hbefore, filter_eq_nil_iff.mpr hafter, append_nil,
    argmax_eq_getLast? hleft, getLast?_concat]

section Server

variable {t : Tables} (hfresh : FreshFile cl.owner draw.fileID t) {done : List (List UInt8)}

include hfresh

/-- What the server does with the next chunk. -/
theorem storeChunk_nextChunk {t' : Tables} {final : Bool}
    (hpos : ∀ d ∈ done, 0 < d.length) (hlen : ∀ d' ∈ done ++ [d], d'.length ≤ maxInputFileChunkSize) :
    (do let t ← insChunk cl.m (uploadingTables x cl draw chid t done) cl.pid draw.fileID
          (nextChunk x draw done final d)
        finalize cl.m t cl.pid draw.fileID (nextChunk x draw done final d)) = .ok t' ↔
      done.flatten.length < 2 ^ 31 ∧
        if final then LinesUp (done ++ [d]) ∧ totalLen (done ++ [d]) < 2 ^ 31 ∧
          t' = uploadedTables x cl draw chid t (done ++ [d])
        else t' = uploadingTables x cl draw chid t (done ++ [d]) := by
  have hbounds := encryptedLen_bounds (hlen d (by simp))
  have hdata : (nextChunk x draw done final d).data.length = encryptedLen d.length := length_sealedChunk
  have hconcat : chunkRows x cl draw.fileID draw.seed false 0 done
      ++ [(nextChunk x draw done final d).row (cl.m.owner cl.pid) draw.fileID]
      = chunkRows x cl draw.fileID draw.seed final 0 (done ++ [d]) := by
    rw [chunkRows_append]
    cases final <;> simp [chunkRows, chunkRow, nextChunk, UploadChunk.row, Client.owner]
  have hstore := @storeChunk_eq_ok cl.m t cl.pid draw.fileID (fileRow cl draw chid) (keyRow x cl draw)
    (chunkRows x cl draw.fileID draw.seed false 0 done) hfresh (nextChunk x draw done final d) t' ⟨rfl, rfl⟩
    rfl (fun r hr => owner_of_mem_chunkRows hr)
    (by rw [hconcat]; exact chunkRows_pairwise (by simpa using hpos))
    (hdata ▸ hbounds.1) (hdata ▸ hbounds.2)
  rw [hconcat] at hstore
  refine hstore.trans ?_
  cases final with
  | false => rfl
  | true =>
    refine and_congr_right' (and_congr_left' ?_)
    rw [checkChunksLoop_chunkRows hlen]
    simp

variable (hperm : Permitted cl t chid) {chnk : UploadChunk}

include hperm

theorem fileUploadChunk_uploading :
    fileUploadChunk cl.m (uploadingTables x cl draw chid t done) cl.pid draw.fileID chnk = (do
      let t ← insChunk cl.m (uploadingTables x cl draw chid t done) cl.pid draw.fileID chnk
      finalize cl.m t cl.pid draw.fileID chnk) := by
  have hassert : assertUploading cl.m (uploadingTables x cl draw chid t done) cl.pid draw.fileID = .ok () := by
    unfold assertUploading uploadingTables
    rw [selectFile_withFile hfresh ⟨rfl, rfl⟩]
    simp only [authorizeKVNodeRead_withFile]
    rw [show (fileRow cl draw chid).channelID = chid from rfl, hperm.readable]
    rfl
  rw [fileUploadChunk, hassert]
  rfl

theorem kvFileUploadInit_permitted :
    kvFileUploadInit cl.m t cl.pid cl.role draw.fileID ⟨⟨cl.readRole, cl.gen⟩, (keyRow x cl draw).keyBox, 1⟩
      chnk cl.channelID = (do
        let t ← insChunk cl.m (uploadingTables x cl draw chid t []) cl.pid draw.fileID chnk
        finalize cl.m t cl.pid draw.fileID chnk) := by
  obtain ⟨rk, hrk⟩ := hperm.stored
  have hfile : insLargeFile cl.m t cl.pid draw.fileID chid
      = .ok { t with largeFiles := t.largeFiles ++ [fileRow cl draw chid] } := by
    refine bind_eq_ok.mpr ⟨_, insertRow_eq_ok.mpr ⟨?_, rfl⟩, rfl⟩
    rintro hmem
    obtain ⟨r, hr, hpkey⟩ := mem_map.mp hmem
    exact hfresh.files r hr (Prod.mk.inj hpkey)
  have hkey : insKey cl.m { t with largeFiles := t.largeFiles ++ [fileRow cl draw chid] } cl.pid draw.fileID
      ⟨⟨cl.readRole, cl.gen⟩, (keyRow x cl draw).keyBox, 1⟩
      = .ok (uploadingTables x cl draw chid t []) := by
    refine bind_eq_ok.mpr ⟨rk, hrk, bind_eq_ok.mpr ⟨(), integer_eq_ok.mpr (Nat.one_lt_two_pow' 30), ?_⟩⟩
    refine bind_eq_ok.mpr ⟨(), integer_eq_ok.mpr hperm.gen, ?_⟩
    refine bind_eq_ok.mpr ⟨_, insertRow_eq_ok.mpr ⟨?_, rfl⟩, ?_⟩
    · rintro hmem
      obtain ⟨r, hr, hpkey⟩ := mem_map.mp hmem
      obtain ⟨howner, hrest⟩ := Prod.mk.inj hpkey
      exact hfresh.keys r hr ⟨howner, (Prod.mk.inj hrest).1⟩
    · simp only [uploadingTables, Tables.withFile, chunkRows, append_nil]
      rfl
  have hrole : assertAtOrAbove cl.role cl.readRole .read .file = .ok () := assertAtOrAbove_eq_ok.mpr hperm.role
  rw [kvFileUploadInit, hperm.channel]
  change fileUploadInit .. = _
  rw [fileUploadInit, hrole]
  rw [hfile]
  change (do let t ← insKey .. ; _) = _
  rw [hkey]
  rfl

end Server

section Put

variable {s s' : Session} (hfresh : FreshFile cl.owner draw.fileID s.tables)
  (hperm : Permitted cl s.tables chid)
  {done : List (List UInt8)}

include hfresh hperm

variable {d : List UInt8} {final : Bool}

/-- The next chunk, after the first one. -/
theorem putFileChunk_eq_ok
    (hpos : ∀ d ∈ done, 0 < d.length) (hlen : ∀ d' ∈ done ++ [d], d'.length ≤ maxInputFileChunkSize) :
    putFileChunk x cl (uploading x cl draw chid s done) draw.fileID d done.flatten.length final = .ok s' ↔
      done.flatten.length < 2 ^ 31 ∧
        if final then LinesUp (done ++ [d]) ∧ totalLen (done ++ [d]) < 2 ^ 31 ∧
          s' = uploaded x cl draw chid s (done ++ [d])
        else s' = uploading x cl draw chid s (done ++ [d]) := by
  have hflat : (done ++ [d]).flatten.length = done.flatten.length + d.length := by simp
  have hput : putFileChunk x cl (uploading x cl draw chid s done) draw.fileID d done.flatten.length final = do
      let t ← (do
        let t ← insChunk cl.m (uploadingTables x cl draw chid s.tables done) cl.pid draw.fileID
          (nextChunk x draw done final d)
        finalize cl.m t cl.pid draw.fileID (nextChunk x draw done final d))
      return ⟨t, update s.uploads draw.fileID
        (some ⟨draw.seed, (done ++ [d]).flatten.length, totalLen (done ++ [d])⟩),
            some (.file draw.fileID)⟩ := by
    unfold putFileChunk
    rw [show (uploading x cl draw chid s done).uploads draw.fileID
      = some ⟨draw.seed, done.flatten.length, totalLen done⟩ from update_self ..]
    simp only [boxChunk_eq (hlen d (by simp)), ne_eq]
    change (do let t ← fileUploadChunk cl.m (uploadingTables x cl draw chid s.tables done) cl.pid draw.fileID _
               _) = _
    rw [fileUploadChunk_uploading hfresh hperm, ← totalLen_concat, hflat]
    simp only [uploading, update_idem]
    rfl
  rw [hput, bind_eq_ok]
  simp only [storeChunk_nextChunk hfresh hpos hlen]
  cases final with
  | false =>
    constructor
    · rintro ⟨t, ⟨hoff, rfl⟩, hs'⟩
      exact ⟨hoff, (ok.inj hs').symm⟩
    · rintro ⟨hoff, rfl⟩
      exact ⟨_, ⟨hoff, rfl⟩, rfl⟩
  | true =>
    constructor
    · rintro ⟨t, ⟨hoff, hlines, htotal, rfl⟩, hs'⟩
      exact ⟨hoff, hlines, htotal, (ok.inj hs').symm⟩
    · rintro ⟨hoff, hlines, htotal, rfl⟩
      exact ⟨_, ⟨hoff, hlines, htotal, rfl⟩, rfl⟩

/-- The chunks that follow the first one. -/
theorem putFileLoop_eq_ok {c : ChunkSize} {rest : List UInt8} (hdone : ∀ d ∈ done, d.length = c) :
    putFileLoop x cl c draw.fileID rest done.flatten.length (uploading x cl draw chid s done) = .ok s' ↔
      LinesUp (done ++ chunks c rest) ∧ totalLen (done ++ chunks c rest) < 2 ^ 31 ∧
        s' = uploaded x cl draw chid s (done ++ chunks c rest) := by
  have hmax := c.2.2
  have hpos : ∀ d ∈ done, 0 < d.length := fun d hd => hdone d hd ▸ c.pos
  fun_induction chunks c rest generalizing done with
  | case1 rest hlt =>
    rw [putFileLoop, if_pos hlt, putFileChunk_eq_ok hfresh hperm hpos]
    · have hle := length_flatten_le_totalLen done
      have htotal := totalLen_concat done rest
      rw [if_pos rfl]
      refine and_iff_right_of_imp fun h => ?_
      omega
    intro d hd
    rcases mem_append.mp hd with hd | hd
    · exact hdone d hd ▸ hmax
    · rw [mem_singleton.mp hd]
      omega
  | case2 rest hlt ih =>
    have htake : (rest.take c).length = c := length_take_of_le (not_lt.mp hlt)
    have hlen : ∀ d ∈ done ++ [rest.take c], d.length = c := by
      intro d hd
      rcases mem_append.mp hd with hd | hd
      · exact hdone d hd
      · rw [mem_singleton.mp hd, htake]
    have hflat : (done ++ [rest.take c]).flatten.length = done.flatten.length + c := by simp [htake]
    rw [putFileLoop, if_neg hlt, bind_eq_ok, ← hflat]
    simp only [putFileChunk_eq_ok hfresh hperm hpos fun d hd => hlen d hd ▸ hmax]
    have hnext := ih hlen fun d hd => hlen d hd ▸ c.pos
    rw [append_assoc] at hnext
    constructor
    · rintro ⟨_, ⟨-, rfl⟩, hloop⟩
      exact hnext.mp hloop
    · rintro ⟨hlines, htotal, hs'⟩
      refine ⟨_, ⟨?_, rfl⟩, hnext.mpr ⟨hlines, htotal, hs'⟩⟩
      have hle := length_flatten_le_totalLen done
      rw [totalLen_append] at htotal
      omega

/-- The first chunk of a large file. -/
theorem putFileFirst_eq_ok
    (hlarge : smallFileSize < d.length + smallFileOverhead) (hlen : d.length ≤ maxInputFileChunkSize) :
    putFileFirst x cl draw s d final = .ok s' ↔
      s' = if final then { uploaded x cl draw chid s [d] with uploads := s.uploads }
        else uploading x cl draw chid s [d] := by
  have hlen' : ∀ d' ∈ [] ++ [d], d'.length ≤ maxInputFileChunkSize := by
    intro d' hd
    rw [mem_singleton.mp hd]
    exact hlen
  have htotal : totalLen [d] < 2 ^ 31 := by simpa [totalLen] using encryptedLen_lt hlen
  have hput : putFileFirst x cl draw s d final = (do
      let t ← (do
        let t ← insChunk cl.m (uploadingTables x cl draw chid s.tables []) cl.pid draw.fileID
          (nextChunk x draw [] final d)
        finalize cl.m t cl.pid draw.fileID (nextChunk x draw [] final d))
      return ⟨t, if final then s.uploads
        else update s.uploads draw.fileID (some ⟨draw.seed, [d].flatten.length, totalLen [d]⟩),
        some (.file draw.fileID)⟩) := by
    unfold putFileFirst
    rw [if_neg (by simpa [isSmallFile] using hlarge)]
    simp only [boxChunk_eq hlen]
    change (do let t ← kvFileUploadInit cl.m s.tables cl.pid cl.role draw.fileID
                 ⟨⟨cl.readRole, cl.gen⟩, (keyRow x cl draw).keyBox, 1⟩ _ cl.channelID
               _) = _
    rw [kvFileUploadInit_permitted hfresh hperm]
    simp only [nextChunk, totalLen, flatten_nil, length_nil, nil_append, map_singleton,
      sum_singleton, flatten_singleton, Nat.zero_add]
  rw [hput, bind_eq_ok]
  simp only [storeChunk_nextChunk hfresh (forall_mem_nil _) hlen']
  cases final with
  | false =>
    constructor
    · rintro ⟨t, ⟨-, rfl⟩, hs'⟩
      exact (ok.inj hs').symm
    · rintro rfl
      exact ⟨_, ⟨Nat.two_pow_pos 31, rfl⟩, rfl⟩
  | true =>
    constructor
    · rintro ⟨t, ⟨-, -, -, rfl⟩, hs'⟩
      exact (ok.inj hs').symm
    · rintro rfl
      exact ⟨_, ⟨Nat.two_pow_pos 31, forall_mem_nil _, htotal, rfl⟩, rfl⟩

/-- A large file is stored exactly when its full chunks are counted at their length and the column can
hold its size. -/
theorem putFile_eq_ok {chnkSz : ℤ} {c : ChunkSize} {b : List UInt8} (hc : chunkSize chnkSz = .ok c)
    (hlarge : smallFileSize < b.length + smallFileOverhead) :
    putFile x cl draw chnkSz b s = .ok s' ↔ LinesUp (chunks c b) ∧ totalLen (chunks c b) < 2 ^ 31 ∧
        s' = if b.length < c then { uploaded x cl draw chid s (chunks c b) with uploads := s.uploads }
          else uploaded x cl draw chid s (chunks c b) := by
  have hmax := c.2.2
  unfold putFile
  rw [hc]
  change (if b.length < c then _ else _) = _ ↔ _
  by_cases hlt : b.length < c
  · have htotal : totalLen [b] < 2 ^ 31 := by simpa [totalLen] using encryptedLen_lt (hlt.le.trans hmax)
    rw [if_pos hlt, if_pos hlt, putFileFirst_eq_ok hfresh hperm hlarge (hlt.le.trans hmax),
      chunks_of_lt hlt]
    exact ⟨fun h => ⟨forall_mem_nil _, htotal, h⟩, fun h => h.2.2⟩
  have htake : (b.take c).length = c := length_take_of_le (not_lt.mp hlt)
  have hfirst := @putFileFirst_eq_ok x cl draw chid s (uploading x cl draw chid s [b.take c]) hfresh hperm
    (b.take c) false (by omega) (by omega)
  have hloop := @putFileLoop_eq_ok x cl draw chid s s' hfresh hperm [b.take c] c (b.drop c)
    (by simpa using htake)
  rw [flatten_singleton, htake, singleton_append, ← chunks_of_le (not_lt.mp hlt)] at hloop
  rw [if_neg hlt, if_neg hlt, hfirst.mpr rfl]
  exact hloop

end Put

/-! ### Downloads -/

section Get

variable {t : Tables} (hfresh : FreshFile cl.owner draw.fileID t) (hperm : Permitted cl t chid) {s : Session}
  {ds : List (List UInt8)} {fuel : ℕ}

include hfresh hperm

theorem getFileMetadata_uploaded
    (hs : s.tables = uploadedTables x cl draw chid t ds) :
        getFileMetadata x cl s draw.fileID = .ok draw.seed := by
  have hmd : loadLargeFileMetadata cl.m s.tables cl.pid draw.fileID cl.role
      = .ok ⟨⟨cl.readRole, cl.gen⟩, (keyRow x cl draw).keyBox, 1⟩ := by
    rw [hs, loadLargeFileMetadata, uploadedTables, selectFileKey_withFile hfresh ⟨rfl, rfl⟩ ⟨rfl, rfl⟩]
    simp only [authorizeKVNodeRead_withFile]
    rw [show (fileRow cl draw chid).channelID = chid from rfl, hperm.readable,
      show (keyRow x cl draw).readRole = cl.readRole from rfl, hperm.read]
    refine bind_eq_ok.mpr ⟨(), rfl, bind_eq_ok.mpr ⟨cl.readRole, rfl, ?_⟩⟩
    exact bind_eq_ok.mpr ⟨(), assertAtOrAbove_eq_ok.mpr hperm.role, rfl⟩
  rw [getFileMetadata, hmd]
  change unboxFileKeySeed x draw.fileID _ = _
  unfold unboxFileKeySeed
  rw [show (keyRow x cl draw).keyBox
    = x.boxSeed ⟨draw.fileID, 1, draw.seed⟩ (x.partyKey cl.readRole cl.gen) from rfl, x.unboxSeed_boxSeed]
  simp only [ne_eq]
  rfl

/-- The reader gets the chunk that begins at an offset. -/
theorem getFileChunk_uploaded {done rest : List (List UInt8)} {d : List UInt8}
    (hs : s.tables = uploadedTables x cl draw chid t (done ++ d :: rest))
    (hpos : ∀ d' ∈ (done ++ d :: rest).dropLast, 0 < d'.length) (hlen : d.length ≤ maxInputFileChunkSize)
    (hoff : done.flatten.length < 2 ^ 31) :
    getLargeFileChunkAtOffsetWithSeed x cl s draw.fileID done.flatten.length draw.seed =
      .ok ⟨d, rest.isEmpty⟩ := by
  have hchunk : getChunk cl.m s.tables cl.pid cl.role draw.fileID done.flatten.length
      = .ok ⟨sealedChunk x draw.fileID draw.seed done.flatten.length rest.isEmpty d, rest.isEmpty,
        done.flatten.length⟩ := by
    have hrole : loadLargeFileReadRole cl.m s.tables cl.pid draw.fileID = .ok cl.readRole := by
      rw [hs, loadLargeFileReadRole, uploadedTables, selectFileKey_withFile hfresh ⟨rfl, rfl⟩ ⟨rfl, rfl⟩]
      simp only [authorizeKVNodeRead_withFile]
      rw [show (fileRow cl draw chid).channelID = chid from rfl, hperm.readable,
        show (keyRow x cl draw).readRole = cl.readRole from rfl, hperm.read]
      rfl
    refine bind_eq_ok.mpr ⟨_, hrole, bind_eq_ok.mpr ⟨(), assertAtOrAbove_eq_ok.mpr hperm.role, ?_⟩⟩
    refine bind_eq_ok.mpr ⟨(), integer_eq_ok.mpr hoff, ?_⟩
    rw [hs, uploadedTables, fileChunks_withFile hfresh fun r hr => owner_of_mem_chunkRows hr]
    simp only [filter_chunkRows hpos]
    rfl
  refine bind_eq_ok.mpr ⟨_, hchunk, ?_⟩
  have hmax : maxInputFileChunkSize < 2 ^ 32 := by decide
  rw [sealedChunk, x.openBox_sealBox]
  simp only [decodeBin_encodeBin (hlen.trans_lt hmax)]
  simp
  rfl

/-- The rest of the file is read. -/
theorem getFileLoop_uploaded {rest done : List (List UInt8)}
    (hs : s.tables = uploadedTables x cl draw chid t (done ++ rest))
    (hpos : ∀ d ∈ (done ++ rest).dropLast, 0 < d.length) (hlen : ∀ d ∈ rest, d.length ≤ maxInputFileChunkSize)
    (htotal : totalLen (done ++ rest) < 2 ^ 31) (hrest : rest ≠ []) (hfuel : rest.length ≤ fuel) :
    getFileLoop x cl s draw.fileID fuel done.flatten = some (.ok (done ++ rest).flatten) := by
  induction rest generalizing done fuel with
  | nil => exact absurd rfl hrest
  | cons d rest ih =>
    obtain ⟨fuel, rfl⟩ : ∃ n, fuel = n + 1 := ⟨fuel - 1, by simp at hfuel; omega⟩
    have hoff : done.flatten.length < 2 ^ 31 := by
      have hle := length_flatten_le_totalLen done
      rw [totalLen_append] at htotal
      omega
    have hget : getFileChunk x cl s draw.fileID done.flatten.length = .ok ⟨d, rest.isEmpty⟩ :=
      bind_eq_ok.mpr ⟨_, getFileMetadata_uploaded hfresh hperm hs,
        getFileChunk_uploaded hfresh hperm hs hpos (hlen d mem_cons_self) hoff⟩
    rw [getFileLoop, hget]
    cases rest with
    | nil => simp
    | cons d' rest =>
      have hnext : done ++ d :: d' :: rest = (done ++ [d]) ++ d' :: rest := by simp
      have hflat : done.flatten ++ d = (done ++ [d]).flatten := by simp
      simp only
      rw [hflat, hnext]
      rw [hnext] at hs hpos htotal
      exact ih hs hpos (fun d hd => hlen d (mem_cons_of_mem _ hd)) htotal (cons_ne_nil _ _)
        (Nat.le_of_succ_le_succ hfuel)

/-- A file that is stored is read back. -/
theorem getFile_uploaded
    (hs : s.tables = uploadedTables x cl draw chid t ds) (hleaf : s.leaf = some (.file draw.fileID))
    (hpos : ∀ d ∈ ds.dropLast, 0 < d.length) (hlen : ∀ d ∈ ds, d.length ≤ maxInputFileChunkSize)
    (htotal : totalLen ds < 2 ^ 31) (hne : ds ≠ []) (hfuel : ds.length ≤ fuel) :
    getFile x cl s fuel = some (.ok ds.flatten) := by
  obtain ⟨d, rest, rfl⟩ := exists_cons_of_ne_nil hne
  have hfirst : getFileForNodeID x cl s (.file draw.fileID) = .ok ⟨⟨d, rest.isEmpty⟩, some draw.fileID⟩ :=
    bind_eq_ok.mpr ⟨_, getFileMetadata_uploaded hfresh hperm hs, bind_eq_ok.mpr ⟨_,
      @getFileChunk_uploaded x cl draw chid t hfresh hperm s [] rest d hs hpos (hlen d mem_cons_self)
        (Nat.two_pow_pos 31), rfl⟩⟩
  rw [getFile, hleaf]
  simp only [hfirst]
  cases rest with
  | nil => simp
  | cons d' rest =>
    have hloop := @getFileLoop_uploaded x cl draw chid t hfresh hperm s fuel (d' :: rest) [d] hs hpos
      (fun d hd => hlen d (mem_cons_of_mem _ hd)) htotal (cons_ne_nil _ _)
      ((Nat.le_succ _).trans hfuel)
    rw [flatten_singleton] at hloop
    exact hloop

end Get

/-! ### Small files -/

variable (x cl draw chid)

/-- The row of a small file. -/
def smallFileRow (data : List UInt8) :
    SmallFileRow :=
  ⟨cl.owner, .smallFile draw.smallFileID, cl.gen, cl.readRole, boxPadded x (encodeSmallFile data)
    (x.nodeNonce (.smallFile draw.smallFileID)) (x.partyKey cl.readRole cl.gen), 0, chid⟩

/-- The session with a further small file. -/
def withSmallFile (s : Session)
    (data : List UInt8) : Session :=
  { s with
    tables := { s.tables with smallFiles := s.tables.smallFiles ++ [smallFileRow x cl draw chid data] }
    leaf := some (.smallFile draw.smallFileID) }

variable {x cl draw chid}

theorem length_boxPadded_le {nonce : Nonce} {key : BoxKey}
    (h : data.length + smallFileOverhead ≤ smallFileSize) :
    (boxPadded x (encodeSmallFile data) nonce key).length ≤ smallFileSize + secretboxOverhead := by
  have hhead : headLen data.length ≤ 3 := by
    unfold headLen smallFileSize at *
    split_ifs <;> omega
  have hmsg : (encodeSmallFile data).length ≤ 2 ^ 11 := by
    have hlen : (encodeSmallFile data).length = 5 + (data.length + headLen data.length) := by
      rw [encodeSmallFile, length_append, length_encodeBin]
      rfl
    unfold smallFileOverhead smallFileSize at h
    omega
  have hround := roundUpBase2_le hmsg (by decide)
  rw [boxPadded, x.length_sealBox, length_append, length_replicate, smallFileSize]
  omega

theorem find?_withSmallFile (hfresh : FreshDraw cl s.tables draw) :
    (withSmallFile x cl draw chid s data).tables.smallFiles.find?
      (fun r => r.owner = cl.owner ∧ r.nodeID = .smallFile draw.smallFileID)
        = some (smallFileRow x cl draw chid data) := by
  simp only [withSmallFile, find?_append, hfresh.find?_smallFiles, Option.none_or]
  exact find?_cons_of_pos (decide_eq_true ⟨rfl, rfl⟩)

section

variable (hfresh : FreshDraw cl s.tables draw) (hperm : Permitted cl s.tables chid)
  (h : data.length + smallFileOverhead ≤ smallFileSize)

include hfresh hperm h

/-- A small file is stored. -/
theorem putSmallFile_eq : putSmallFile x cl draw s data = .ok (withSmallFile x cl draw chid s data) := by
  obtain ⟨rk, hrk⟩ := hperm.stored
  refine bind_eq_ok.mpr ⟨((withSmallFile x cl draw chid s data).tables, false),
    bind_eq_ok.mpr ⟨chid, hperm.channel, ?_⟩, rfl⟩
  refine bind_eq_ok.mpr ⟨(), assertAtOrAbove_eq_ok.mpr hperm.role, bind_eq_ok.mpr ⟨rk, hrk, ?_⟩⟩
  refine bind_eq_ok.mpr ⟨(), refuse_eq_ok.mpr (length_boxPadded_le h).not_gt, ?_⟩
  refine bind_eq_ok.mpr ⟨(), integer_eq_ok.mpr hperm.gen, ?_⟩
  rw [show cl.m.owner cl.pid = cl.owner from rfl, hfresh.find?_smallFiles]
  rfl

/-- A small file is read back. -/
theorem getFile_withSmallFile (fuel : ℕ) :
    getFile x cl (withSmallFile x cl draw chid s data) fuel = some (.ok data) := by
  have hload : loadSmallFileOrSymlink cl.m (withSmallFile x cl draw chid s data).tables cl.pid
      (.smallFile draw.smallFileID) cl.role
      = .ok ⟨⟨cl.readRole, cl.gen⟩, (smallFileRow x cl draw chid data).box⟩ := by
    unfold loadSmallFileOrSymlink
    rw [show cl.m.owner cl.pid = cl.owner from rfl, find?_withSmallFile hfresh]
    have hread : authorizeKVNodeRead cl.m (withSmallFile x cl draw chid s data).tables cl.pid
        (smallFileRow x cl draw chid data).channelID = .ok () := by
      rw [← hperm.readable]
      cases chid <;> rfl
    simp only [hread]
    refine bind_eq_ok.mpr ⟨(), rfl, bind_eq_ok.mpr ⟨cl.readRole, hperm.read, ?_⟩⟩
    exact bind_eq_ok.mpr ⟨(), assertAtOrAbove_eq_ok.mpr hperm.role, rfl⟩
  have hlen : data.length < 2 ^ 32 := by
    unfold smallFileSize at h
    omega
  have hunbox : unboxSmallFile x (.smallFile draw.smallFileID)
      ⟨⟨cl.readRole, cl.gen⟩, (smallFileRow x cl draw chid data).box⟩ = .ok data := by
    unfold unboxSmallFile
    simp only [smallFileRow, boxPadded, x.openBox_sealBox]
    exact decodeSmallFile_encodeSmallFile hlen _
  have hget : getFileForNodeID x cl (withSmallFile x cl draw chid s data) (.smallFile draw.smallFileID)
      = .ok ⟨⟨data, true⟩, none⟩ :=
    bind_eq_ok.mpr ⟨data, bind_eq_ok.mpr ⟨_, hload, hunbox⟩, rfl⟩
  rw [getFile, show (withSmallFile x cl draw chid s data).leaf = some (.smallFile draw.smallFileID) from rfl]
  simp only [hget, if_true]

end

end Upload

/-! ### The round trip -/

/-- The file is stored in full. -/
def Complete (cl : Client) (s : Session) : Prop :=
  match s.leaf with
  | some (.file fid) => ∃ row, selectFile cl.m s.tables cl.pid fid = some row ∧ row.status = .active
  | some (.smallFile id) => ∃ row ∈ s.tables.smallFiles, row.owner = cl.owner ∧ row.nodeID = .smallFile id
  | _ => False

/-- The upload succeeds, the file is then complete, and reading it ends with its bytes. -/
def RoundTrips (x : Crypto) (cl : Client) (draw : Draw) (chnkSz : ℤ) (b : List UInt8) (s : Session) : Prop :=
  ∃ s', putFile x cl draw chnkSz b s = .ok s' ∧ Complete cl s' ∧
    ∃ n, ∀ fuel, n ≤ fuel → getFile x cl s' fuel = some (.ok b)

section RoundTrip

variable {x : Crypto} {cl : Client} {draw : Draw} {chid : Option ChannelID} {s : Session} {chnkSz : ℤ}
  {c : ChunkSize} {b : List UInt8}

theorem encryptedSize_of_lt (h : b.length < c) : encryptedSize c b.length < 2 ^ 31 := by
  rw [encryptedSize, Nat.div_eq_of_lt h, Nat.mod_eq_of_lt h, Nat.zero_mul, Nat.zero_add]
  exact encryptedLen_lt (h.le.trans c.2.2)

variable (hc : chunkSize chnkSz = .ok c) (hfresh : FreshDraw cl s.tables draw)
  (hperm : Permitted cl s.tables chid)

include hc hfresh hperm

theorem roundTrips_of_small (h : b.length + smallFileOverhead ≤ smallFileSize) :
    RoundTrips x cl draw chnkSz b s := by
  refine ⟨withSmallFile x cl draw chid s b, ?_, ?_, 0, fun fuel _ => getFile_withSmallFile hfresh hperm h fuel⟩
  · have hlt : b.length < c := lt_of_le_of_lt (le_trans (Nat.le_add_right ..) h) c.2.1
    refine bind_eq_ok.mpr ⟨c, hc, ?_⟩
    rw [if_pos hlt, putFileFirst, if_pos (show isSmallFile b.length = true from decide_eq_true h)]
    exact putSmallFile_eq hfresh hperm h
  · exact ⟨smallFileRow x cl draw chid b, mem_append_right _ (mem_singleton_self _), rfl, rfl⟩

theorem roundTrips_of_large (h : smallFileSize < b.length + smallFileOverhead)
    (hlines : LinesUp (chunks c b)) (htotal : totalLen (chunks c b) < 2 ^ 31) :
    RoundTrips x cl draw chnkSz b s := by
  have hput := (@putFile_eq_ok x cl draw chid s _ hfresh.file hperm chnkSz c b hc h).mpr ⟨hlines, htotal, rfl⟩
  refine ⟨_, hput, ?_, (chunks c b).length, fun fuel hfuel => ?_⟩
  all_goals
    generalize hs' : (if b.length < c then
      { uploaded x cl draw chid s (chunks c b) with uploads := s.uploads }
      else uploaded x cl draw chid s (chunks c b)) = s'
    have htables : s'.tables = uploadedTables x cl draw chid s.tables (chunks c b) := by
      rw [← hs']
      split <;> rfl
    have hleaf : s'.leaf = some (.file draw.fileID) := by
      rw [← hs']
      split <;> rfl
  · rw [Complete, hleaf]
    refine ⟨{ fileRow cl draw chid with size := totalLen (chunks c b), status := .active }, ?_, rfl⟩
    rw [htables]
    exact selectFile_withFile hfresh.file ⟨rfl, rfl⟩
  have hread := getFile_uploaded hfresh.file hperm htables hleaf
    (fun d hd => length_of_mem_dropLast_chunks hd ▸ c.pos)
    (fun d hd => (length_of_mem_chunks hd).trans c.2.2) htotal (chunks_ne_nil c b) hfuel
  rw [hread, flatten_chunks]

end RoundTrip

namespace ChunkSample

/-- Boxes that hide nothing. -/
def crypto : Crypto where
  sealBox msg _ _ := replicate secretboxOverhead 0 ++ msg
  openBox box _ _ := some (box.drop secretboxOverhead)
  boxSeed payload _ := Nat.pair payload.id (Nat.pair payload.vers payload.seed)
  unboxSeed box _ := some ⟨box.unpair.1, box.unpair.2.unpair.1, box.unpair.2.unpair.2⟩
  chunkNonce _ offset _ := offset
  nodeNonce _ := 0
  partyKey _ _ := 0
  openBox_sealBox msg _ _ := by simp
  length_sealBox msg _ _ := by simp [Nat.add_comm]
  unboxSeed_boxSeed payload _ := by simp

def client : Client where
  m := { shortHostID := 1, actorUID := some 7 }
  pid := 1
  role := .owner
  readRole := .admin
  gen := 1

def draw : Draw := ⟨5, 6, 8⟩

/-- An empty server. -/
def session : Session := ⟨{}, fun _ => none, none⟩

theorem freshDraw : FreshDraw client session.tables draw :=
  ⟨⟨nofun, nofun, nofun⟩, nofun⟩

theorem permitted : Permitted client session.tables none where
  role := by decide
  stored := ⟨_, rfl⟩
  read := rfl
  gen := by decide
  channel := rfl

end ChunkSample

/-- A file is uploaded, complete and read back exactly when it is shorter than one chunk, or the chunk size
is a power of two and the encrypted size fits into the server's column. -/
theorem putFile_getFile_iff (x : Crypto) (cl : Client) (draw : Draw) (chid : Option ChannelID) (s : Session)
    (chnkSz : ℤ) (c : ChunkSize) (b : List UInt8) (hc : chunkSize chnkSz = .ok c)
    (hfresh : FreshDraw cl s.tables draw) (hperm : Permitted cl s.tables chid) :
    RoundTrips x cl draw chnkSz b s ↔
      b.length < c ∨ (∃ k, (c : ℕ) = 2 ^ k) ∧ encryptedSize c b.length < 2 ^ 31 := by
  by_cases h : b.length + smallFileOverhead ≤ smallFileSize
  · have hlt : b.length < c := lt_of_le_of_lt (le_trans (Nat.le_add_right ..) h) c.2.1
    exact iff_of_true (roundTrips_of_small hc hfresh hperm h) (.inl hlt)
  have hlarge := not_le.mp h
  constructor
  · rintro ⟨s', hput, -, -⟩
    obtain ⟨hlines, htotal, -⟩ := (putFile_eq_ok hfresh.file hperm hc hlarge).mp hput
    rw [totalLen_chunks] at htotal
    exact (linesUp_chunks_iff.mp hlines).imp_right fun hpow => ⟨hpow, htotal⟩
  · intro hcond
    apply roundTrips_of_large hc hfresh hperm hlarge
    · exact linesUp_chunks_iff.mpr (hcond.imp_right And.left)
    · rw [totalLen_chunks]
      exact hcond.elim encryptedSize_of_lt And.right

open ChunkSample

/-- Five thousand bytes, in chunks of four kilobytes. -/
theorem putFile_getFile_two_chunks :
    RoundTrips crypto client draw 4096 (replicate 5000 1)
      session := by
  apply (putFile_getFile_iff _ _ _ none _ _ ⟨4096, by decide⟩ _ rfl freshDraw permitted).mpr
  refine .inr ⟨⟨12, rfl⟩, ?_⟩
  rw [length_replicate]
  decide +kernel

/-- Three thousand bytes in chunks of as many: the second chunk, which is empty, does not begin where the
server has counted to. -/
theorem not_roundTrips_between_powers :
    chunkSize 3000 = .ok ⟨3000, by decide⟩ ∧
      FreshDraw client session.tables draw ∧
      Permitted client session.tables none ∧
      ¬ RoundTrips crypto client draw 3000 (replicate 3000 1)
        session := by
  refine ⟨rfl, freshDraw, permitted, ?_⟩
  rintro ⟨s', hput, -, -⟩
  have hstored := (putFile_eq_ok freshDraw.file permitted (c := ⟨3000, by decide⟩) rfl
    (by rw [length_replicate]; decide)).mp hput
  rcases linesUp_chunks_iff.mp hstored.1 with hlt | ⟨k, hk⟩
  · rw [length_replicate] at hlt
    exact absurd hlt (lt_irrefl 3000)
  have hlow : 11 < k := (Nat.pow_lt_pow_iff_right (by decide)).mp (hk ▸ by decide : 2 ^ 11 < 2 ^ k)
  have hhigh : k < 12 := (Nat.pow_lt_pow_iff_right (by decide)).mp (hk ▸ by decide : 2 ^ k < 2 ^ 12)
  omega

end Foks.KvClient
