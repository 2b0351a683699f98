import Foks.Client.Sessions
import Foks.Client.UserChain

/-!
# Loading a user

`client/libclient/user_loader.go`: a loader asks a server for the chain of a user, checks the reply,
and plays the links one after another: it keeps the devices that may sign, what is known about each
device, and the PUKs of each role. At the end it saves a state, from which the next load continues.

The fields of `UserLoader` that playing the links reads and changes are a record of their own,
`UserPlayer`. What the loader asks other packages is a record of functions, `Services`.

## Main definitions

* `UserPlayer`, `playLinks`: the player
* `UserSigchainState`: the state that is saved
* `UserLoader`, `runOnce`: the loader, and one attempt of a load
-/

namespace Foks.Client

open Lib Merkle Action
open Team (MemberRole FQEntityFixed)

structure DeviceLabelAndName where
  label : ℕ
  name : String
  deriving DecidableEq

structure DeviceLabelNameAndCommitmentKey where
  dln : DeviceLabelAndName
  commitmentKey : ℕ
  deriving DecidableEq

inductive DeviceStatus where
  | active
  | revoked
  deriving DecidableEq

structure NameBundle where
  name : String
  nameUtf8 : String
  deriving DecidableEq

structure NameAndSeqnoBundle where
  b : NameBundle
  s : Seqno
  deriving DecidableEq

/-- `rem.NameCommitmentAndKey`: the name that was committed to, and the key that opens it. -/
structure NameCommitmentAndKey where
  name : String
  seqno : Seqno
  key : ℕ
  deriving DecidableEq

section Types

variable (H : Type)

structure ProvisionInfo where
  signer : EntityID
  chain : BaseChainer H
  leaf : MerkleLeaf H
  deriving DecidableEq

structure RevokeInfo where
  revoker : EntityID
  chain : BaseChainer H
  deriving DecidableEq

structure DeviceInfo where
  status : DeviceStatus
  dn : Option DeviceLabelAndName
  key : MemberRole H
  ctime : Time
  provisioned : ProvisionInfo H
  revoked : Option (RevokeInfo H)
  deriving DecidableEq

/-- `lcl.UserSigchainState`, without the time of the clock. The keys for encryption are written and
read as a set. -/
structure UserSigchainState where
  tail : HidingChainer H
  lastHash : H
  username : NameAndSeqnoBundle
  puks : List (SharedKey H)
  devices : List (DeviceInfo H)
  sctlsc : H
  merkleLeaves : List (MerkleLeaf H)
  hepks : HEPKSet H
  stalePUKs : List Role
  deriving DecidableEq

/-- The PUKs, by role and generation. -/
abbrev PukMap := Map (RoleKey × Generation) (SharedPublicSuite H)

/-- The fields of `UserLoader` that playing the links reads and changes. -/
structure UserPlayer where
  keys : DeviceMap := ∅
  devInfo : Map FQEntityFixed (List (DeviceInfo H)) := ∅
  deviceOrder : List FQEntityFixed := []
  puks : PukMap H := ∅
  puksByRole : Map RoleKey (List (SharedPublicSuite H)) := ∅
  pukGens : Team.KeyGens := ∅
  stalePUKs : Finset RoleKey := ∅
  uncs : List H := []
  dnIdx : ℕ := 0
  sctlsc : Option H := none
  deriving DecidableEq

/-- What the loader asks other packages: the normal form of a name, whether a commitment opens to a
label, whether the tree has the name, and the order in which the PUKs are saved. -/
structure Services where
  normalizeName : String → Except CoreError String
  openCommitment : ℕ → ℕ → H → Except CoreError Unit
  checkNameLoad : EntityID → HostID → List H → List NameCommitmentAndKey →
    Option NameAndSeqnoBundle → String → ℕ → MerklePathsCompressed H → Except CoreError Seqno
  sortPuks : PukMap H → List (SharedKey H)

end Types

inductive LoadMode where
  | none
  | self
  | deadSelf
  | others
  | openOthers
  | forAdHoc
  deriving DecidableEq

/-- What playing the links reads: the fields of `UserLoader` that stay the same meanwhile. -/
structure PlayArg (H : Type) where
  uid : UID
  host : HostID
  loadMode : LoadMode
  deviceNames : List DeviceLabelNameAndCommitmentKey
  allMerkleLeaves : List (MerkleLeaf H)

variable {L H : Type} [DecidableEq H]

/-! ## Playing the links -/

section Player

/-- The part of `addDeviceKey` after the key of the maps is known: a revoked device is known, but may not
sign. -/
def putDevice (mapKey : FQEntityFixed) (ps : PublicSuite) (di : DeviceInfo H) (p : UserPlayer H) :
    UserPlayer H :=
  let keys :=
    if di.revoked = none then p.keys.insert mapKey ⟨ps, di.provisioned.chain.seqno⟩ else p.keys
  match p.devInfo.lookup mapKey with
  | none =>
    { p with keys, deviceOrder := p.deviceOrder ++ [mapKey], devInfo := p.devInfo.insert mapKey [di] }
  | some lst => { p with keys, devInfo := p.devInfo.insert mapKey (lst ++ [di]) }

def addDeviceKey (host : HostID) (ps : PublicSuite) (di : DeviceInfo H) :
    Action (UserPlayer H) CoreError Unit := do
  let fid ← (ps.entityID.fixed : Except CoreError _)
  .update (putDevice ⟨host, fid⟩ ps di)

omit [DecidableEq H] in
theorem addDeviceKey_eq_ok {host : HostID} {ps : PublicSuite} {di : DeviceInfo H} {p p' : UserPlayer H} :
    addDeviceKey host ps di p = (.ok (), p') ↔ ∃ fid, ps.entityID.fixed = .ok fid ∧
        p' = putDevice ⟨host, fid⟩ ps di p := by
  constructor
  · intro h
    obtain ⟨fid, hfid, h1⟩ := lift_bind_eq_ok.mp h
    cases h1
    exact ⟨fid, hfid, rfl⟩
  · rintro ⟨fid, hfid, rfl⟩
    exact lift_bind_eq_ok.mpr ⟨fid, hfid, rfl⟩

def addPuk (puk : SharedPublicSuite H) : Action (UserPlayer H) CoreError Unit := do
  let rk ← (importRole puk.role : Except CoreError _)
  .update fun p => { p with
    puks := p.puks.insert (rk, puk.gen) puk
    -- PUKs that come back from the saved state may be older ones
    pukGens := if (p.pukGens.lookup rk).all (· < puk.gen) then p.pukGens.insert rk puk.gen
      else p.pukGens }
  let plist ← .read fun p => (p.puksByRole.lookup rk).getD []
  .refuse (plist.getLast?.any (puk.gen ≤ ·.gen)) (.internalError "puk gen not increasing")
  .update fun p => { p with
    puksByRole := p.puksByRole.insert rk (plist ++ [puk])
    stalePUKs := p.stalePUKs.erase rk }

/-- The player after a PUK was added. -/
def UserPlayer.takePuk (p : UserPlayer H) (rk : RoleKey) (puk : SharedPublicSuite H) : UserPlayer H :=
  { p with
    puks := p.puks.insert (rk, puk.gen) puk
    pukGens := if (p.pukGens.lookup rk).all (· < puk.gen) then p.pukGens.insert rk puk.gen
      else p.pukGens
    puksByRole := p.puksByRole.insert rk ((p.puksByRole.lookup rk).getD [] ++ [puk])
    stalePUKs := p.stalePUKs.erase rk }

omit [DecidableEq H] in
theorem addPuk_eq_ok {puk : SharedPublicSuite H} {p p' : UserPlayer H} : addPuk puk p = (.ok (), p') ↔
      ∃ rk, importRole puk.role = .ok rk ∧
        ¬ ((p.puksByRole.lookup rk).getD []).getLast?.any (puk.gen ≤ ·.gen) ∧ p' = p.takePuk rk puk := by
  constructor
  · intro h
    obtain ⟨rk, hrk, h1⟩ := lift_bind_eq_ok.mp h
    have h2 := update_bind_eq_ok.mp h1
    have h3 := read_bind_eq_ok.mp h2
    obtain ⟨hless, h4⟩ := refuse_bind_eq_ok.mp h3
    cases h4
    exact ⟨rk, hrk, hless, rfl⟩
  · rintro ⟨rk, hrk, hless, rfl⟩
    refine lift_bind_eq_ok.mpr ⟨rk, hrk, ?_⟩
    refine bind_eq_ok.mpr ⟨(), _, rfl, bind_eq_ok.mpr ⟨_, _, rfl, ?_⟩⟩
    exact refuse_bind_eq_ok.mpr ⟨hless, rfl⟩

def addPuks : List (SharedPublicSuite H) → Action (UserPlayer H) CoreError Unit
  | [] => return ()
  | puk :: puks => do
    addPuk puk
    addPuks puks

variable (sv : Services H) (a : PlayArg H)

def playDeviceName (c : H) : Action (UserPlayer H) CoreError (Option DeviceLabelAndName) :=
  if a.loadMode ≠ .self then return none
  else do
    let idx ← .read UserPlayer.dnIdx
    match a.deviceNames[idx]? with
    | none => .fail (.chainLoaderError false (.clBadCountError "device-names" (idx + 1) a.deviceNames.length))
    | some dnk => do
      ((sv.openCommitment dnk.dln.label dnk.commitmentKey c).mapError fun err =>
        .chainLoaderError false (.ulOpenCommitmentError "device-name" idx err) : Except CoreError _)
      .update fun p => { p with dnIdx := p.dnIdx + 1 }
      return some dnk.dln

variable (odc : OpenDeviceChangeRes H)

/-- What is known of a device that a link adds. -/
def newDeviceInfo (dn : Option DeviceLabelAndName) (key : MemberRole H) (leaf : MerkleLeaf H) : DeviceInfo H :=
  ⟨.active, dn, key, odc.gc.chainer.base.time, ⟨odc.gc.signer.key, odc.gc.chainer.base, leaf⟩, none⟩

def playLinkEldest : Action (UserPlayer H) CoreError Unit := do
  let oer ← ((openEldestLinkWithODC odc).mapError fun err =>
    .chainLoaderError false (.ulEldestError err) : Except CoreError _)
  .refuse (oer.uid ≠ a.uid) (.internalError "wrong uid in eldest link")
  let dn ← playDeviceName sv a oer.deviceNameCommitment
  match a.allMerkleLeaves, odc.rawNewDevice with
  | [], _ => .fail (.internalError "no merkle keys")
  -- not reached: the link adds a device
  | _ :: _, none => .fail (.internalError "nil pointer")
  | leaf :: _, some key => do
    addDeviceKey a.host oer.device (newDeviceInfo odc dn key leaf)
    .update fun p => { p with uncs := p.uncs ++ [oer.usernameCommitment] }
    addPuk oer.userKey
    .update fun p => { p with sctlsc := some oer.subchainTreeLocationCommitment }

/-- `markPotentiallyStale`: each PUK is kept under its role. -/
def markPotentiallyStale (r : Role) : Action (UserPlayer H) CoreError Unit := do
  let rk ← (importRole r : Except CoreError _)
  .update fun p => { p with
    stalePUKs := p.stalePUKs ∪ (p.puks.keys.image Prod.fst).filter fun rk2 => rk.cmp rk2 ≥ 0 }

def playRevoke : Action (UserPlayer H) CoreError Unit := do
  let u ← .read id
  let cdrr ← ((checkDeviceRevokeOrRotate odc a.host u.keys u.pukGens).mapError fun err =>
    .chainLoaderError false (.ulRevokeError odc.gc.chainer.base.seqno err) : Except CoreError _)
  match cdrr.id with
  -- not reached: the link has one change
  | none => .fail (.internalError "no key for device; revoke failed")
  | some targetId => do
    let fid ← (targetId.fixed : Except CoreError _)
    let mk := ⟨a.host, fid⟩
    .refuse (mk ∉ u.keys) (.internalError "no key for device; revoke failed")
    .update fun p => { p with keys := p.keys.erase mk }
    match u.devInfo.lookup mk with
    | none => .fail (.linkError "no device info for device; revoke failed")
    | some lst =>
      match lst.getLast? with
      -- not reached: there is an entry for each time that the device was added
      | none => .fail (.internalError "index out of range")
      | some di => do
        let revoked := some ⟨odc.gc.signer.key, odc.gc.chainer.base⟩
        .update fun p => { p with
          devInfo := p.devInfo.insert mk (lst.dropLast ++ [{ di with status := .revoked, revoked }]) }
        markPotentiallyStale di.key.dstRole

def playProvision : Action (UserPlayer H) CoreError Unit := do
  let u ← .read id
  let odpr ← ((openDeviceProvision odc u.keys u.pukGens a.host).mapError fun err =>
    .chainLoaderError false (.clProvisionError odc.gc.chainer.base.seqno err) : Except CoreError _)
  match odc.rawNewDevice with
  | none => .fail (.internalError "no new device in provision")
  | some key => do
    let dn ← playDeviceName sv a odpr.deviceNameCommitment
    let seqno := odpr.gc.chainer.base.seqno
    .refuse (!isValid seqno) (.internalError "invalid seqno; refusing to -1 on 0")
    -- links are numbered from one on, and the leaves from zero on
    match a.allMerkleLeaves[seqno - 1]? with
    | none => .fail (.internalError "no merkle key for provision")
    | some leaf => addDeviceKey a.host odpr.newDevice (newDeviceInfo odc dn key leaf)

def playDeviceChange : Action (UserPlayer H) CoreError Unit :=
  match odc.gc.changes with
  | [] => return ()
  | [chng] => if chng.dstRole.typ = .none then playRevoke a odc else playProvision sv a odc
  | _ => .fail (.internalError "unexpected number of changes")

/-- The commitments to user names in a link. -/
def usernames : List H :=
  odc.gc.metadata.filterMap fun
    | .username commitment => some commitment
    | _ => none

def checkSigner : Action (UserPlayer H) CoreError Unit := do
  let fid ← (odc.lastSigner.fixed : Except CoreError _)
  let keys ← .read UserPlayer.keys
  .refuse ((⟨a.host, fid⟩ : FQEntityFixed) ∉ keys) (.chainLoaderError false
    (.clInvalidSignerError odc.gc.chainer.base.seqno ⟨odc.lastSigner, a.host⟩))

def playLinkNonEldest : Action (UserPlayer H) CoreError Unit := do
  checkSigner a odc
  -- `playUsernameChange`
  .update fun p => { p with uncs := p.uncs ++ usernames odc }
  playDeviceChange sv a odc
  addPuks odc.sharedKeys

/-- One turn of the loop of `playLinks`. -/
def playLink : Action (UserPlayer H) CoreError Unit :=
  if !isValid odc.gc.chainer.base.seqno then .fail (.chainLoaderError false .clInvalidSeqnoError)
  else if isEldest odc.gc.chainer.base.seqno then playLinkEldest sv a odc
  else playLinkNonEldest sv a odc

def playLinks (sv : Services H) (a : PlayArg H) : List (OpenDeviceChangeRes H) →
    Action (UserPlayer H) CoreError Unit
  | [] => return ()
  | odc :: odcs => do
    playLink sv a odc
    playLinks sv a odcs

end Player

/-! ## The saved state -/

section Existing

/-- The loop of `readKeysFromState`. -/
def readKeys (host : HostID) (hepks : HEPKSet H) : List (DeviceInfo H) → Action (UserPlayer H) CoreError Unit
  | [] => return ()
  | d :: ds => do
    let ps ← (importPublicSuite d.key hepks host : Except CoreError _)
    addDeviceKey host ps d
    readKeys host hepks ds

/-- The loop of `readPuksFromState`. -/
def readPuks (hepks : HEPKSet H) : List (SharedKey H) → Action (UserPlayer H) CoreError Unit
  | [] => return ()
  | k :: ks =>
    match hepks.lookup k.hepkFp with
    | none => .fail (.keyNotFoundError "hepk")
    | some hepk => do
      addPuk ⟨k, hepk⟩
      readPuks hepks ks

/-- `StaleKeys.Import` -/
def readStaleKeys : List Role → Action (UserPlayer H) CoreError Unit
  | [] => return ()
  | r :: rs => do
    let rk ← (importRole r : Except CoreError _)
    .update fun p => { p with stalePUKs := insert rk p.stalePUKs }
    readStaleKeys rs

/-- The part of `loadExistingUser` that fills the player. -/
def readExisting (host : HostID) (st : UserSigchainState H) : Action (UserPlayer H) CoreError Unit := do
  readKeys host st.hepks st.devices
  readPuks st.hepks st.puks
  readStaleKeys st.stalePUKs
  .update fun p => { p with sctlsc := some st.sctlsc }

/-- The devices in the order in which they were added. -/
def exportDevices (p : UserPlayer H) : Except CoreError (List (DeviceInfo H)) := do
  let devices ← p.deviceOrder.mapM fun did =>
    match p.devInfo.lookup did with
    | none => .error (.internalError "device not found in saveState")
    | some device => .ok device
  return devices.flatten

end Existing

/-! ## The loader -/

structure LoadUserArg where
  uid : UID
  username : String
  loadMode : LoadMode
  activeUser : Option UID
  deriving DecidableEq

def LoadUserArg.check (u : LoadUserArg) : Except CoreError Unit := do
  refuse (u.loadMode = .self ∧ u.activeUser.any (· ≠ u.uid)) (.internalError "self-load uid mismatch")
  let byUid := u.uid ≠ 0
  let byName := u.username ≠ ""
  refuse (byUid ∧ byName) (.internalError "can't load by UID and Username")
  refuse (¬ byUid ∧ ¬ byName) (.internalError "can't load by both UID and username")

/-- `rem.UserChain`: what a server sends. -/
structure UserChain (L H : Type) where
  links : List L
  locations : List TreeLocation
  usernames : List NameCommitmentAndKey
  merkle : MerklePathsCompressed H
  deviceNames : List DeviceLabelNameAndCommitmentKey
  usernameUtf8 : String
  numUsernameLinks : ℕ
  hepks : List HEPK
  deriving DecidableEq

/-- What the servers say during one attempt: the user with the name, what the session with the
Merkle server says about the root, and the chain. -/
structure UserAttempt (L H : Type) where
  resolved : Except CoreError UID
  session : Except CoreError Unit
  raw : UserChain L H

/-- `UserLoader`; a field `raw` is not needed, since each attempt sets it before it is read. -/
structure UserLoader (H : Type) where
  base : BaseChainLoader H := {}
  arg : LoadUserArg
  existing : Option (UserSigchainState H) := none
  odcs : List (OpenDeviceChangeRes H) := []
  hepks : HEPKSet H := ∅
  allMerkleLeaves : List (MerkleLeaf H) := []
  unseq : Seqno := 0
  player : UserPlayer H := {}

def newUserLoader (arg : LoadUserArg) : UserLoader H := { arg }

/-- `UserLoader.resetState`: the lists and maps that are made anew. -/
def UserLoader.resetState (u : UserLoader H) : UserLoader H :=
  { u with
    existing := none
    odcs := []
    player := { u.player with
      deviceOrder := [], keys := ∅, devInfo := ∅, puks := ∅, pukGens := ∅, puksByRole := ∅ } }

open UserLoader

/-- A method of the player. -/
def UserLoader.playing {α : Type} (x : Action (UserPlayer H) CoreError α) : Action (UserLoader H) CoreError α :=
  .within player (fun p u => { u with player := p }) x

/-- A method of the embedded `BaseChainLoader`. -/
def UserLoader.checking {α : Type} (x : Action (BaseChainLoader H) CoreError α) :
    Action (UserLoader H) CoreError α :=
  .within base (fun b u => { u with base := b }) x

def UserSigchainState.chainState (st : UserSigchainState H) : ChainState H :=
  ⟨st.tail, st.lastHash⟩

/-- What the loader has for the player after the checks. -/
def UserLoader.playArg (host : HostID) (raw : UserChain L H) (u : UserLoader H) : PlayArg H :=
  ⟨u.arg.uid, host, u.arg.loadMode, raw.deviceNames, u.allMerkleLeaves⟩

def chainerAtIndex (odcs : List (OpenDeviceChangeRes H)) (n : ℕ) : Option (HidingChainer H) :=
  odcs[n]?.map (·.gc.chainer)

section Run

variable [MerkleHash H] [LinkHash L H] [LocationHash H] [LinkFormat L H] [KeyHash H]

variable (sv : Services H)

def resolveUID (r : UserAttempt L H) : Action (UserLoader H) CoreError Unit := do
  let arg ← .read arg
  if arg.uid ≠ 0 then return ()
  else do
    let _ ← (sv.normalizeName arg.username : Except CoreError _)
    let uid ← (r.resolved : Except CoreError _)
    .update fun u => { u with arg := { u.arg with uid } }

variable (host : HostID)

variable (saved : Option (UserSigchainState H))

def loadExistingUser : Action (UserLoader H) CoreError Unit :=
  match saved with
  | none => return ()
  | some st => do
    .update fun u => { u with existing := some st, hepks := st.hepks }
    playing (readExisting host st)

/-- The loop of `openLinks`, from link `n` on. -/
def openLinks (uid : UID) (host : HostID) : ℕ → List L → Action (UserLoader H) CoreError Unit
  | _, [] => return ()
  | n, link :: links => do
    let hepks ← .read hepks
    let odc ← ((openDeviceChange link hepks (some uid) host).mapError fun err =>
      .chainLoaderError false (.clOpenLinkError n err) : Except CoreError _)
    .update fun u => { u with odcs := u.odcs ++ [odc] }
    openLinks uid host (n + 1) links

variable (raw : UserChain L H)

def checkUIDChain : Action (UserLoader H) CoreError Unit := do
  let u ← .read id
  let st := u.existing.map (·.chainState)
  checking (checkChain (prevOf st) (seqnoOf st) raw.links (chainerAtIndex u.odcs) "uid" none)

def checkMerkleUIDPaths : Action (UserLoader H) CoreError Unit := do
  let u ← .read id
  let st := u.existing.map (·.chainState)
  checking (checkMerklePaths ⟨u.arg.uid.entityID, .user, none, raw.merkle.root, "uid", none⟩
    raw.locations raw.links
      (chainerAtIndex u.odcs) raw.merkle.paths (ntlcOf st) (seqnoOf st) raw.numUsernameLinks)
  .update fun u => { u with
    allMerkleLeaves := (u.existing.map (·.merkleLeaves)).getD [] ++ u.base.merkleLeaves }

def checkRes (r : UserAttempt L H) : Action (UserLoader H) CoreError Unit := do
  -- `checkMerkleRoot`
  (r.session.mapError (.chainLoaderError false) : Except CoreError _)
  let arg ← .read arg
  openLinks arg.uid host 0 r.raw.links
  checkUIDChain r.raw
  checkMerkleUIDPaths r.raw

def checkUsername : Action (UserLoader H) CoreError Unit := do
  let u ← .read id
  let existingName := u.existing.map (·.username)
  let nseq ← (sv.checkNameLoad u.arg.uid.entityID host u.player.uncs raw.usernames existingName
    raw.usernameUtf8 raw.numUsernameLinks raw.merkle : Except CoreError _)
  if u.arg.username ≠ "" then
    let nun ← (sv.normalizeName u.arg.username : Except CoreError _)
    match raw.usernames.getLast?, existingName with
    | some un, _ => .refuse (nun ≠ un.name) (.nameError "username mismatch")
    | none, some un => .refuse (nun ≠ un.b.name) (.nameError "username mismatch")
    | none, none => .fail (.internalError "no existing name and no username links")
  .update fun u => { u with unseq := nseq }

def newNameBundle (un : String) : Except CoreError NameBundle := do
  let name ← sv.normalizeName un
  return ⟨name, un⟩

/-- `saveState`: the state that is saved. -/
def saveUserState (u : UserLoader H) : Except CoreError (UserSigchainState H) := do
  refuse (u.existing = none ∧ raw.links = []) (.internalError "no links in sigchain")
  let b ← newNameBundle sv raw.usernameUtf8
  match raw.links, u.existing with
  | [], some st => return { st with username := ⟨b, st.username.s⟩ }
  | _, _ =>
    match u.odcs[raw.links.length - 1]?, u.base.lastHash with
    | some odc, some lastHash => do
      let devices ← exportDevices u.player
      return {
        tail := odc.gc.chainer
        lastHash
        username := ⟨b, u.unseq⟩
        puks := sv.sortPuks u.player.puks
        devices
        sctlsc := u.player.sctlsc.getD MerkleHash.zero
        merkleLeaves := u.allMerkleLeaves
        hepks := u.hepks
        stalePUKs := (sorted u.player.stalePUKs).map (·.exportRole) }
    -- not reached: the links were opened and checked
    | _, _ => .error (.internalError "nil pointer")

/-- `runOnce`, up to the reply of the server. -/
def prepareUser (r : UserAttempt L H) : Action (UserLoader H) CoreError Unit := do
  .update resetState
  let arg ← .read arg
  (arg.check : Except CoreError _)
  resolveUID sv r
  loadExistingUser host saved
  -- `updateHEPKs`
  .update fun u => { u with hepks := mergeHEPKs u.hepks (importHEPKSet r.raw.hepks) }

/-- `runOnce`, after the checks of the reply. -/
def finishUser (r : UserAttempt L H) : Action (UserLoader H) CoreError (UserSigchainState H) := do
  let u ← .read id
  playing (playLinks sv (u.playArg host r.raw) u.odcs)
  checkUsername sv host r.raw
  let u ← .read id
  match u.base.fatalError with
  | some err => .fail err
  | none => (saveUserState sv r.raw u : Except CoreError _)

/-- `UserLoader.runOnce`: one attempt, and the state that it saves. -/
def runOnceUser (r : UserAttempt L H) : Action (UserLoader H) CoreError (UserSigchainState H) := do
  prepareUser sv host saved r
  checkRes host r
  finishUser sv host r

end Run

end Foks.Client
