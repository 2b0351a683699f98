import Foks.KvStore.Files
import Mathlib.Data.Nat.Pairing

/-!
# Files of the KV client

The client cuts a file into chunks of one size, of which only the last one may be shorter, and sends each
one padded and encrypted (`client/libkv/putfile.go`). A file that is small enough goes into one box. The
reader asks for the chunk at the offset that it has reached, until it sees the last one
(`client/libkv/getfile.go`).

The keys and the cryptography are a parameter. What the client keeps in its caches is what the server
would answer.

After the code come the facts about the parts of a file: an encoding is read back whatever follows it, the
chunks make up the file, and the rows of successive chunks are found by their offsets.
-/

namespace Foks.KvClient

open Lib KvStore List Except Function

/-! ### Encodings -/

variable (n : ℕ)

/-- The head of a byte string in MessagePack. -/
def binHead : List UInt8 :=
  if n < 0x100 then [0xc4, .ofNat n]
  else if n < 0x10000 then [0xc5, .ofNat (n / 0x100), .ofNat n]
  else [0xc6, .ofNat (n / 0x1000000), .ofNat (n / 0x10000), .ofNat (n / 0x100), .ofNat n]

variable (x : Crypto) (ds : List (List UInt8)) (b : List UInt8)

def encodeBin : List UInt8 := binHead b.length ++ b

/-- The first `n` bytes, if there are as many. -/
def takeBytes (bytes : List UInt8) : Option (List UInt8) :=
  if n ≤ bytes.length then some (bytes.take n) else none

/-- A byte string. What follows it is not read. -/
def decodeBin : List UInt8 → Option (List UInt8)
  | 0xc4 :: a :: rest => takeBytes a.toNat rest
  | 0xc5 :: a :: b :: rest => takeBytes (a.toNat * 0x100 + b.toNat) rest
  | 0xc6 :: a :: b :: c :: d :: rest =>
    takeBytes (((a.toNat * 0x100 + b.toNat) * 0x100 + c.toNat) * 0x100 + d.toNat) rest
  | _ => none

/-- `lcl.SmallFileBoxPayload` with the data of a small file: a pair of the type and a map with one entry,
under the key `"0"`. -/
def encodeSmallFile (data : List UInt8) : List UInt8 := [0x92, 0x03, 0x81, 0xa1, 0x30] ++ encodeBin data

/-- The error of the decoder. -/
def decodeError : CoreError := .errorsNew "msgpack decode error"

def decodeSmallFile : List UInt8 → Except CoreError (List UInt8)
  | 0x92 :: 0x03 :: 0x81 :: 0xa1 :: 0x30 :: rest =>
    match decodeBin rest with
    | some data => .ok data
    | none => .error decodeError
  | 0x92 :: 0x04 :: _ => .error (.validationError "not a file")
  | _ => .error decodeError

/-! ### Keys and boxes -/

/-- `proto.FileKeySeed`: 32 bytes. -/
abbrev FileKeySeed := ℕ

/-- A 24-byte nonce. -/
abbrev Nonce := ℕ

/-- A 32-byte key of a secretbox. -/
abbrev BoxKey := ℕ

structure FileKeyBoxPayload where
  id : FileID
  vers : KVVersion
  seed : FileKeySeed
  deriving DecidableEq

/-- The keys of a party, and boxes that open to what was sealed. -/
structure Crypto where
  /-- `secretbox.Seal` -/
  sealBox : List UInt8 → Nonce → BoxKey → List UInt8
  /-- `secretbox.Open` -/
  openBox : List UInt8 → Nonce → BoxKey → Option (List UInt8)
  /-- `KeyBundle.Box` of the key of a file, under a key of the party -/
  boxSeed : FileKeyBoxPayload → BoxKey → Ciphertext
  /-- `KeyBundle.Unbox` -/
  unboxSeed : Ciphertext → BoxKey → Option FileKeyBoxPayload
  /-- `chunkNonce`: a hash of the file, the offset and whether this is the last chunk -/
  chunkNonce : FileID → ℕ → Bool → Nonce
  /-- The nonce of a node -/
  nodeNonce : KVNodeID → Nonce
  /-- `kvStoreKeyAtRoleGen` -/
  partyKey : Role → Generation → BoxKey
  openBox_sealBox : ∀ msg nonce key, openBox (sealBox msg nonce key) nonce key = some msg
  length_sealBox : ∀ msg nonce key, (sealBox msg nonce key).length = msg.length + secretboxOverhead
  unboxSeed_boxSeed : ∀ payload key, unboxSeed (boxSeed payload key) key = some payload

/-- The client of a party, with the role that the server knows it by and the role that it writes files
for. -/
structure Client where
  m : MetaContext
  pid : PartyID
  role : Role
  readRole : Role
  /-- the current generation of the key of that role -/
  gen : Generation
  channelID : Option RTChannelID := none

/-- The rows of the party. -/
def Client.owner (cl : Client) : Owner := cl.m.owner cl.pid

structure FileUploadState where
  fks : FileKeySeed
  off : ℕ
  sz : ℕ

/-- The tables of the server, the uploads that the client has begun, and the node that the entry of the
file points at. -/
structure Session where
  tables : Tables
  uploads : FileID → Option FileUploadState
  leaf : Option KVNodeID

/-- What the client draws for a new file. -/
structure Draw where
  fileID : FileID
  smallFileID : ℕ
  seed : FileKeySeed

/-! ### Uploads -/

def padChunk : Except CoreError (List UInt8) := do
  let n ← paddedLen b.length
  return b ++ replicate (n - b.length) 0

def boxChunk (fks : FileKeySeed) (chnk : List UInt8) (fid : FileID) (offset : ℕ)
    (isFinal : Bool) (sz : ℕ) : Except CoreError (UploadChunk × ℕ) := do
  let padded ← padChunk (encodeBin chnk)
  let ctext := x.sealBox padded (x.chunkNonce fid offset isFinal) fks
  let sz := sz + ctext.length
  return (⟨ctext, offset, if isFinal then some sz else none⟩, sz)

def isSmallFile (dataLen : ℕ) : Bool := dataLen + smallFileOverhead ≤ smallFileSize

/-- The loop of `roundUpBase2`. Every turn doubles the value, so that `n` turns are more than enough. -/
def roundUpLoop (n : ℕ) : ℕ → ℕ → ℕ
  | 0, ret => ret
  | fuel + 1, ret => if ret < n then roundUpLoop n fuel (ret * 2) else ret

def roundUpBase2 (min : ℕ) : ℕ := if n ≤ min then min else roundUpLoop n n (min * 2)

def minPaddedSize : ℕ := 32

/-- `BoxPaddedWithNonce`, of the payload of a small file -/
def boxPadded (msg : List UInt8) (nonce : Nonce) (key : BoxKey) : List UInt8 :=
  x.sealBox (msg ++ replicate (roundUpBase2 msg.length minPaddedSize - msg.length) 0) nonce key

variable (cl : Client)

/-- `putSmallFile`: the node, then the entry. -/
def putSmallFile (draw : Draw) (s : Session) (data : List UInt8) : Except CoreError Session := do
  let nid := KVNodeID.smallFile draw.smallFileID
  let sfb : SmallFileBox := ⟨⟨cl.readRole, cl.gen⟩,
    boxPadded x (encodeSmallFile data) (x.nodeNonce nid) (x.partyKey cl.readRole cl.gen)⟩
  let (t, _) ← kvPutSmallFileOrSymlink cl.m s.tables cl.pid cl.role nid sfb cl.channelID
  return { s with tables := t, leaf := some nid }

def putFileFirst (draw : Draw) (s : Session) (data : List UInt8) (isFinal : Bool) :
    Except CoreError Session := do
  if isSmallFile data.length then putSmallFile x cl draw s data
  else
    let fid := draw.fileID
    let key := x.partyKey cl.readRole cl.gen
    let md : LargeFileMetadata := ⟨⟨cl.readRole, cl.gen⟩, x.boxSeed ⟨fid, 1, draw.seed⟩ key, 1⟩
    let (ulc, sz) ← boxChunk x draw.seed data fid 0 isFinal 0
    let t ← kvFileUploadInit cl.m s.tables cl.pid cl.role fid md ulc cl.channelID
    let uploads := if isFinal then s.uploads
      else update s.uploads fid (some ⟨draw.seed, data.length, sz⟩)
    return ⟨t, uploads, some (.file fid)⟩

variable (s : Session)

def putFileChunk (id : FileID) (data : List UInt8) (offset : ℕ) (final : Bool) : Except CoreError Session :=
  match s.uploads id with
  | none => .error (.notFoundError "upload state")
  | some us => do
    refuse (us.off ≠ offset) (.uploadError "offset mismatch")
    let (ulc, sz) ← boxChunk x us.fks data id offset final us.sz
    let t ← fileUploadChunk cl.m s.tables cl.pid id ulc
    let uploads := update s.uploads id (some ⟨us.fks, us.off + data.length, sz⟩)
    return { s with tables := t, uploads }

/-- A chunk size that is accepted. -/
abbrev ChunkSize := {c : ℕ // smallFileSize < c ∧ c ≤ maxInputFileChunkSize}

/-- The checks of `PutFile`; zero stands for the largest size. -/
def chunkSize (chnkSz : ℤ) : Except CoreError ChunkSize :=
  if maxInputFileChunkSize < chnkSz then .error (.internalError "chunk size too big")
  else
    let c := if chnkSz = 0 then maxInputFileChunkSize else chnkSz.toNat
    if hc : smallFileSize < c ∧ c ≤ maxInputFileChunkSize then .ok ⟨c, hc⟩
    else .error (.internalError "chunk size too small, must be greater than small file")

/-- The loop of `PutFile`: the reader is left with `rest`. A chunk is the last one when the reader ends
before it is full. -/
def putFileLoop (x : Crypto) (cl : Client) (c : ChunkSize) (fid : FileID) (rest : List UInt8) (offset : ℕ)
    (s : Session) : Except CoreError Session :=
  if rest.length < c then putFileChunk x cl s fid rest offset true
  else do
    let s ← putFileChunk x cl s fid (rest.take c) offset false
    putFileLoop x cl c fid (rest.drop c) (offset + c) s
termination_by rest.length
decreasing_by
  have hc : 0 < c.1 := Nat.zero_lt_of_lt c.2.1
  rw [length_drop]
  omega

def putFile (draw : Draw) (chnkSz : ℤ) (b : List UInt8) (s : Session) : Except CoreError Session := do
  let c ← chunkSize chnkSz
  if b.length < c then putFileFirst x cl draw s b true
  else
    let s ← putFileFirst x cl draw s (b.take c) false
    match s.leaf with
    | some (.file fid) => putFileLoop x cl c fid (b.drop c) c s
    | _ => .error KVNodeID.badType

/-! ### Downloads -/

structure GetFileChunkRes where
  chunk : List UInt8
  final : Bool
  deriving DecidableEq

structure GetFileRes where
  chunk : GetFileChunkRes
  id : Option FileID

def unboxFileKeySeed (id : FileID) (md : LargeFileMetadata) : Except CoreError FileKeySeed :=
  match x.unboxSeed md.keySeed (x.partyKey md.rg.role md.rg.gen) with
  | none => .error .decryptionError
  | some pld => do
    refuse (pld.id ≠ id) (.validationError "file key seed id mismatch")
    refuse (md.vers ≠ pld.vers) (.validationError "file key seed version mismatch")
    return pld.seed

variable (fid : FileID)

def getFileMetadata : Except CoreError FileKeySeed := do
  let lfmd ← loadLargeFileMetadata cl.m s.tables cl.pid fid cl.role
  unboxFileKeySeed x fid lfmd

def getLargeFileChunkAtOffsetWithSeed (offset : ℕ) (seed : FileKeySeed) : Except CoreError GetFileChunkRes := do
  let chnk ← getChunk cl.m s.tables cl.pid cl.role fid offset
  match x.openBox chnk.chunk (x.chunkNonce fid offset chnk.final) seed with
  | none => .error .decryptionError
  | some buf =>
    match decodeBin buf with
    | none => .error decodeError
    | some ret => do
      refuse (chnk.offset < offset) (.internalError "chunk offset less than requested offset")
      let diff := chnk.offset - offset
      refuse (ret.length < diff) (.internalError "chunk runs out of bounds")
      return ⟨ret.drop diff, chnk.final⟩

def getLargeFileFirstChunk : Except CoreError GetFileRes := do
  let seed ← getFileMetadata x cl s fid
  let chunk ← getLargeFileChunkAtOffsetWithSeed x cl s fid 0 seed
  return ⟨chunk, some fid⟩

def unboxSmallFile (id : KVNodeID) (sb : SmallFileBox) : Except CoreError (List UInt8) :=
  match x.openBox sb.dataBox (x.nodeNonce id) (x.partyKey sb.rg.role sb.rg.gen) with
  | none => .error .decryptionError
  | some buf => decodeSmallFile buf

def getSmallFile (id : KVNodeID) : Except CoreError (List UInt8) := do
  let sfb ← loadSmallFileOrSymlink cl.m s.tables cl.pid id cl.role
  unboxSmallFile x id sfb

def getFileForNodeID : KVNodeID → Except CoreError GetFileRes
  | .smallFile id => do
    let data ← getSmallFile x cl s (.smallFile id)
    return ⟨⟨data, true⟩, none⟩
  | .file fid => getLargeFileFirstChunk x cl s fid
  | .unknown _ => .error KVNodeID.badType
  | _ => .error (.kvTypeError "not a file")

def getFileChunk (id : FileID) (offset : ℕ) : Except CoreError GetFileChunkRes := do
  let seed ← getFileMetadata x cl s id
  getLargeFileChunkAtOffsetWithSeed x cl s id offset seed

/-- The loop of `GetFileWithHeader`, with what is written so far; `none` when it has not ended yet. -/
def getFileLoop (x : Crypto) (cl : Client) (s : Session) (id : FileID) :
    ℕ → List UInt8 → Option (Except CoreError (List UInt8))
  | 0, _ => none
  | fuel + 1, written =>
    match getFileChunk x cl s id written.length with
    | .error e => some (.error e)
    | .ok res =>
      if res.final then some (.ok (written ++ res.chunk))
      else getFileLoop x cl s id fuel (written ++ res.chunk)

/-- `GetFileWithHeader`: what is written in so many turns of the loop. -/
def getFile (fuel : ℕ) : Option (Except CoreError (List UInt8)) :=
  match s.leaf with
  | none => some (.error (.internalError "unexpected nil file"))
  | some nid =>
    match getFileForNodeID x cl s nid with
    | .error e => some (.error e)
    | .ok res =>
      if res.chunk.final then some (.ok res.chunk.chunk)
      else
        match res.id with
        | none => some (.error (.internalError "nil file id"))
        | some id => getFileLoop x cl s id fuel res.chunk.chunk

/-! ### Encodings are read back -/

theorem length_binHead : (binHead n).length = headLen n := by
  unfold binHead headLen
  split_ifs <;> rfl

theorem length_encodeBin : (encodeBin b).length = b.length + headLen b.length := by
  rw [encodeBin, length_append, length_binHead, Nat.add_comm]

theorem takeBytes_append (pad : List UInt8) : takeBytes b.length (b ++ pad) = some b := by
  simp [takeBytes]

variable {b rest d : List UInt8} {n : ℕ} {c : ChunkSize} {cl : Client} {t : Tables}

/-- A byte string is read back, whatever follows it. -/
theorem decodeBin_encodeBin (h : b.length < 2 ^ 32) (pad : List UInt8) :
    decodeBin (encodeBin b ++ pad) = some b := by
  rw [encodeBin, binHead]
  split_ifs with h1 h2
  · have hlen : (UInt8.ofNat b.length).toNat = b.length := by
      rw [UInt8.toNat_ofNat', Nat.mod_eq_of_lt h1]
    change takeBytes (UInt8.ofNat b.length).toNat (b ++ pad) = some b
    rw [hlen, takeBytes_append]
  · have hlen : (UInt8.ofNat (b.length / 0x100)).toNat * 0x100 + (UInt8.ofNat b.length).toNat = b.length := by
      simp only [UInt8.toNat_ofNat']
      omega
    change takeBytes ((UInt8.ofNat (b.length / 0x100)).toNat * 0x100 + (UInt8.ofNat b.length).toNat)
      (b ++ pad) = some b
    rw [hlen, takeBytes_append]
  have hlen : (((UInt8.ofNat (b.length / 0x1000000)).toNat * 0x100 +
    (UInt8.ofNat (b.length / 0x10000)).toNat) * 0x100
      + (UInt8.ofNat (b.length / 0x100)).toNat) * 0x100 + (UInt8.ofNat b.length).toNat = b.length := by
    simp only [UInt8.toNat_ofNat']
    omega
  change takeBytes ((((UInt8.ofNat (b.length / 0x1000000)).toNat * 0x100
      + (UInt8.ofNat (b.length / 0x10000)).toNat) * 0x100
      + (UInt8.ofNat (b.length / 0x100)).toNat) * 0x100 + (UInt8.ofNat b.length).toNat)
    (b ++ pad) = some b
  rw [hlen, takeBytes_append]

theorem decodeSmallFile_encodeSmallFile {data : List UInt8} (h : data.length < 2 ^ 32)
    (pad : List UInt8) : decodeSmallFile (encodeSmallFile data ++ pad) = .ok data := by
  change (match decodeBin (encodeBin data ++ pad) with
    | some data => Except.ok data
    | none => .error decodeError) = .ok data
  rw [decodeBin_encodeBin h]

/-! ### Rounding up -/

/-- The loop stays below a power of two that is large enough. -/
theorem roundUpLoop_le {K : ℕ} (hn : n ≤ 2 ^ K) : ∀ (fuel k : ℕ), k ≤ K → roundUpLoop n fuel (2 ^ k) ≤ 2 ^ K
  | 0, k, hk => Nat.pow_le_pow_right Nat.two_pos hk
  | fuel + 1, k, hk => by
    rw [roundUpLoop]
    split
    · next hlt =>
      have hk : k < K := (Nat.pow_lt_pow_iff_right (by decide)).mp (hlt.trans_le hn)
      rw [← pow_succ]
      exact roundUpLoop_le hn fuel (k + 1) hk
    · exact Nat.pow_le_pow_right Nat.two_pos hk

theorem roundUpBase2_le {K : ℕ} (hn : n ≤ 2 ^ K) (hK : 6 ≤ K) : roundUpBase2 n minPaddedSize ≤ 2 ^ K := by
  unfold roundUpBase2
  split
  · calc minPaddedSize = 2 ^ 5 := rfl
      _ ≤ 2 ^ K := Nat.pow_le_pow_right Nat.two_pos (by omega)
  · exact roundUpLoop_le hn n 6 hK

/-! ### The chunks of a file -/

/-- The chunks that the client cuts a file into. -/
def chunks (c : ChunkSize) (rest : List UInt8) : List (List UInt8) :=
  if rest.length < c then [rest] else rest.take c :: chunks c (rest.drop c)
termination_by rest.length
decreasing_by
  have hc : 0 < c.1 := Nat.zero_lt_of_lt c.2.1
  rw [length_drop]
  omega

/-- The length of the ciphertext of a chunk. -/
def encryptedLen (n : ℕ) : ℕ := countedLen n + headLen (countedLen n) + secretboxOverhead

/-- The length of the ciphertexts of some chunks. -/
def totalLen : ℕ := (ds.map fun d => encryptedLen d.length).sum

/-- The length of the ciphertexts of a file of `n` bytes, in chunks of `c` bytes. -/
def encryptedSize (c n : ℕ) : ℕ := n / c * encryptedLen c + encryptedLen (n % c)

theorem ChunkSize.pos (c : ChunkSize) : 0 < c.1 := Nat.zero_lt_of_lt c.2.1

theorem chunks_of_lt (h : rest.length < c) : chunks c rest = [rest] := by
  rw [chunks, if_pos h]

theorem chunks_of_le (h : (c : ℕ) ≤ rest.length) : chunks c rest = rest.take c :: chunks c (rest.drop c) := by
  rw [chunks, if_neg h.not_gt]

theorem chunks_ne_nil (c : ChunkSize) (rest : List UInt8) : chunks c rest ≠ [] := by
  rw [chunks]
  split <;> exact cons_ne_nil _ _

theorem flatten_chunks (c : ChunkSize) (rest : List UInt8) : (chunks c rest).flatten = rest := by
  fun_induction chunks c rest with
  | case1 rest h => simp
  | case2 rest h ih => rw [flatten_cons, ih, take_append_drop]

theorem length_of_mem_chunks (h : d ∈ chunks c rest) : d.length ≤ c := by
  fun_induction chunks c rest with
  | case1 rest hlt =>
    rw [mem_singleton.mp h]
    exact hlt.le
  | case2 rest hlt ih =>
    rcases mem_cons.mp h with rfl | h
    · exact length_take_le ..
    · exact ih h

/-- All chunks but the last one are full. -/
theorem length_of_mem_dropLast_chunks (h : d ∈ (chunks c rest).dropLast) : d.length = c := by
  fun_induction chunks c rest with
  | case1 rest hlt => cases h
  | case2 rest hlt ih =>
    rw [dropLast_cons_of_ne_nil (chunks_ne_nil c _)] at h
    rcases mem_cons.mp h with rfl | h
    · exact length_take_of_le (not_lt.mp hlt)
    · exact ih h

theorem totalLen_chunks (c : ChunkSize) (rest : List UInt8) :
    totalLen (chunks c rest) = encryptedSize c rest.length := by
  fun_induction chunks c rest with
  | case1 rest hlt => simp [totalLen, encryptedSize, Nat.div_eq_of_lt hlt, Nat.mod_eq_of_lt hlt]
  | case2 rest hlt ih =>
    have hle : (c : ℕ) ≤ rest.length := not_lt.mp hlt
    have htotal : totalLen (rest.take c :: chunks c (rest.drop c))
        = encryptedLen c + encryptedSize c (rest.length - c) := by
      rw [← length_drop, ← ih, ← length_take_of_le hle]
      simp [totalLen]
    have hdiv : rest.length / c = (rest.length - c) / c + 1 := Nat.div_eq_sub_div c.pos hle
    have hmod : rest.length % c = (rest.length - c) % c := Nat.mod_eq_sub_mod hle
    rw [htotal, encryptedSize, encryptedSize, hdiv, hmod, Nat.add_mul]
    omega

/-- The full chunks are counted at their length. -/
def LinesUp : Prop := ∀ d ∈ ds.dropLast, countedLen d.length = d.length

theorem linesUp_chunks_iff : LinesUp (chunks c b) ↔ b.length < c ∨ ∃ k, (c : ℕ) = 2 ^ k := by
  have hcounted : countedLen c = c ↔ ∃ k, (c : ℕ) = 2 ^ k :=
    countedLen_eq_iff (le_trans (by decide) c.2.1.le)
  rw [← hcounted]
  constructor
  · intro h
    by_contra hnot
    obtain ⟨hle, hne⟩ := not_or.mp hnot
    have hle : (c : ℕ) ≤ b.length := not_lt.mp hle
    rw [LinesUp, chunks_of_le hle, dropLast_cons_of_ne_nil (chunks_ne_nil c _)] at h
    have htake := h _ mem_cons_self
    rw [length_take_of_le hle] at htake
    exact hne htake
  · rintro (hlt | hpow) d hd
    · rw [chunks_of_lt hlt] at hd
      cases hd
    · rw [length_of_mem_dropLast_chunks hd]
      exact hpow

/-! ### The rows of a file -/

theorem length_le_encryptedLen (n : ℕ) : n ≤ encryptedLen n := by
  have hle := le_countedLen n
  unfold encryptedLen
  omega

theorem encryptedLen_bounds (h : n ≤ maxInputFileChunkSize) :
    minEncryptedChunkSize ≤ encryptedLen n ∧ encryptedLen n ≤ maxEncryptedChunkSize := by
  have hlow := countedLen_ge n
  have htwo := two_le_headLen (countedLen n)
  have hhigh : countedLen n ≤ 2 ^ 22 := countedLen_le_of_pow (by decide) h
  have hfive := headLen_le_five (countedLen n)
  unfold encryptedLen minEncryptedChunkSize minPaddedChunkSize maxEncryptedChunkSize maxInputFileChunkSize
  omega

theorem encryptedLen_lt (h : n ≤ maxInputFileChunkSize) : encryptedLen n < 2 ^ 31 :=
  (encryptedLen_bounds h).2.trans_lt (by decide)

section Rows

variable (x : Crypto) (cl : Client) (fid : FileID) (fks : FileKeySeed) {offset : ℕ} {final : Bool}
  {ds : List (List UInt8)} {r : LargeFileChunkRow}

/-- The ciphertext of a chunk. -/
def sealedChunk (offset : ℕ) (final : Bool) (d : List UInt8) : List UInt8 :=
  x.sealBox (encodeBin d ++
    replicate (countedLen d.length + headLen (countedLen d.length) - (encodeBin d).length) 0)
    (x.chunkNonce fid offset final) fks

/-- The row of a chunk. -/
def chunkRow (offset : ℕ) (final : Bool) (d : List UInt8) : LargeFileChunkRow :=
  ⟨cl.owner, fid, offset, sealedChunk x fid fks offset final d, final⟩

/-- The rows of successive chunks, of which the last one is marked as such if `final` is set. -/
def chunkRows (final : Bool) : ℕ → List (List UInt8) → List LargeFileChunkRow
  | _, [] => []
  | offset, d :: ds =>
    chunkRow x cl fid fks offset (final && ds.isEmpty) d :: chunkRows final (offset + d.length) ds

variable {x cl fid fks}

theorem length_sealedChunk :
    (sealedChunk x fid fks offset final d).length = encryptedLen d.length := by
  have hle : (encodeBin d).length ≤ countedLen d.length + headLen (countedLen d.length) := by
    have hcounted := le_countedLen d.length
    rw [length_encodeBin]
    exact Nat.add_le_add hcounted (headLen_mono hcounted)
  rw [sealedChunk, x.length_sealBox, length_append, length_replicate, encryptedLen]
  omega

theorem owner_of_mem_chunkRows
    (h : r ∈ chunkRows x cl fid fks final offset ds) : r.owner = cl.owner ∧ r.fileID = fid := by
  induction ds generalizing offset with
  | nil => cases h
  | cons d ds ih =>
    rcases mem_cons.mp h with rfl | h
    · exact ⟨rfl, rfl⟩
    · exact ih h

theorem chunkRows_append (final : Bool) (ds ds' : List (List UInt8)) (offset : ℕ) :
    chunkRows x cl fid fks final offset (ds ++ ds') = chunkRows x cl fid fks (final && ds'.isEmpty) offset ds
        ++ chunkRows x cl fid fks final (offset + ds.flatten.length) ds' := by
  induction ds generalizing offset with
  | nil => simp [chunkRows]
  | cons d ds ih =>
    have hempty : (ds ++ ds').isEmpty = (ds'.isEmpty && ds.isEmpty) := by
      cases ds <;> simp
    rw [cons_append, chunkRows, ih, chunkRows, hempty, Bool.and_assoc, flatten_cons,
      length_append, Nat.add_assoc, cons_append]

theorem offset_of_mem_chunkRows (h : r ∈ chunkRows x cl fid fks final offset ds) : offset ≤ r.chunkOffset := by
  induction ds generalizing offset with
  | nil => cases h
  | cons d ds ih =>
    rcases mem_cons.mp h with rfl | h
    · exact Nat.le_refl _
    · exact le_trans (Nat.le_add_right ..) (ih h)

/-- The offsets grow, since only the last chunk may be empty. -/
theorem chunkRows_pairwise (h : ∀ d ∈ ds.dropLast, 0 < d.length) :
    ((chunkRows x cl fid fks final offset ds).map LargeFileChunkRow.chunkOffset).Pairwise (· < ·) := by
  induction ds generalizing offset with
  | nil => exact List.Pairwise.nil
  | cons d ds ih =>
    rcases eq_nil_or_concat' ds with rfl | ⟨_, _, rfl⟩
    · exact pairwise_singleton ..
    rw [dropLast_cons_of_ne_nil (by simp)] at h
    refine List.Pairwise.cons ?_ (ih fun d hd => h d (mem_cons_of_mem _ hd))
    intro o ho
    obtain ⟨r, hr, rfl⟩ := mem_map.mp ho
    have hoff := offset_of_mem_chunkRows hr
    have hpos := h d mem_cons_self
    change offset < r.chunkOffset
    omega

/-- The check of the server passes exactly when the full chunks are counted at their length. -/
theorem checkChunksLoop_chunkRows {pos : ℤ} {tot tot' : ℕ} (hlen : ∀ d ∈ ds, d.length ≤ maxInputFileChunkSize) :
    checkChunksLoop (chunkRows x cl fid fks final offset ds) pos tot = .ok tot' ↔
      (ds = [] ∨ (offset : ℤ) = pos) ∧ LinesUp ds ∧ tot + totalLen ds = tot' := by
  induction ds generalizing offset pos tot with
  | nil => simp [chunkRows, checkChunksLoop, LinesUp, totalLen]
  | cons d ds ih =>
    have hpli : paddedLenInv (((chunkRow x cl fid fks offset (final && ds.isEmpty) d).data.length : ℤ)
        - secretboxOverhead) = .ok (countedLen d.length : ℤ) := by
      have hhigh : countedLen d.length ≤ 2 ^ 22 :=
        countedLen_le_of_pow (by decide) (hlen d mem_cons_self)
      rw [← paddedLenInv_chunk (le_trans hhigh (by decide))]
      simp [chunkRow, length_sealedChunk, encryptedLen]
    have hlines : LinesUp (d :: ds) ↔ (ds = [] ∨ countedLen d.length = d.length) ∧ LinesUp ds := by
      cases ds with
      | nil | cons d' ds => simp [LinesUp]
    rw [chunkRows, checkChunksLoop, hpli]
    simp only [bind_eq_ok, refuse_eq_ok, not_not, ok.injEq, exists_eq_left', hlines]
    rw [ih fun d hd => hlen d (mem_cons_of_mem _ hd)]
    simp only [chunkRow, length_sealedChunk, Nat.add_assoc, cons_ne_nil, false_or]
    constructor
    · rintro ⟨⟨⟩, hpos, hnext, hup, htot⟩
      refine ⟨hpos, ⟨hnext.imp_right fun h => ?_, hup⟩, htot⟩
      omega
    · rintro ⟨hpos, ⟨hnext, hup⟩, htot⟩
      refine ⟨(), hpos, hnext.imp_right fun h => ?_, hup, htot⟩
      omega

end Rows

end Foks.KvClient
