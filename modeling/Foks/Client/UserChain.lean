import Foks.Client.ChainLoader
import Foks.Team.Link

/-!
# Links of user chains

`lib/core/chain.go`: how the links of a user are opened, and the checks that the client and the
server share. A link adds a device (the first one, or a provision), revokes one, rotates the keys
that the devices of the user share (the PUKs), or changes a name.

The encoding of links, their signatures, and the hashes of keys are parameters.
-/

namespace Foks.Client

open Lib Merkle List Except
open Team (MemberRole)

/-! ## Keys and links -/

inductive DHPublicKey where
  | curve25519 (pub : ℕ)
  -- the number of bytes, and the bytes
  | p256 (len pub : ℕ)
  deriving DecidableEq

/-- `proto.HEPK`: a hybrid public key for encryption. -/
structure HEPK where
  classical : DHPublicKey
  pqkem : ℕ
  deriving DecidableEq

abbrev Signature := ℕ

/-- `proto.KeyOwner`: the party whose key signs a link of a team, at a role. -/
structure KeyOwner where
  party : EntityID
  srcRole : Role
  deriving DecidableEq

structure GroupChangeSigner where
  key : EntityID
  keyOwner : Option KeyOwner
  deriving DecidableEq

section Types

variable (H : Type)

/-- `core.HEPKSet`: keys by their fingerprints. -/
abbrev HEPKSet := Map H HEPK

structure SharedKey where
  gen : Generation
  role : Role
  verifyKey : EntityID
  hepkFp : H
  deriving DecidableEq

/-- `core.SharedPublicSuite`: a shared key with its key for encryption. -/
structure SharedPublicSuite extends SharedKey H where
  hepk : HEPK
  deriving DecidableEq

inductive ChangeMetadata where
  | deviceName (commitment : H)
  | username (commitment : H)
  | eldest (subchainTreeLocationSeedCommitment : H)
  | teamname (commitment : H)
  | teamIndexRange (range : RationalRange)
  | memberLoadFloor (role : Role)
  | rosterDelegationFloor (role : Role)
  deriving DecidableEq

/-- `proto.GroupChange`: the contents of a link of a user or a team. -/
structure GroupChange where
  chainer : HidingChainer H
  entity : FQEntity
  signer : GroupChangeSigner
  changes : List (MemberRole H)
  sharedKeys : List (SharedKey H)
  metadata : List (ChangeMetadata H)
  deriving DecidableEq

end Types

/-- `core.PublicSuiter`: the public keys of a device. -/
structure PublicSuite where
  entityID : EntityID
  hostID : HostID
  role : Role
  hepk : HEPK
  deriving DecidableEq

structure PublicSuiterWithSeqno where
  ps : PublicSuite
  seqno : Seqno
  deriving DecidableEq

/-- The devices that may sign. -/
abbrev DeviceMap := Map Team.FQEntityFixed PublicSuiterWithSeqno

/-- The encoding of links of type `L`, and the signatures under them: a signature is over the link
with the signatures before it. -/
class LinkFormat (L H : Type) where
  openGroupChange : L → Except CoreError (GroupChange H)
  signatures : L → List Signature
  verify : EntityID → Signature → L → List Signature → Except CoreError Unit

/-- The hash of a key for encryption. -/
class KeyHash (H : Type) where
  fingerprint : HEPK → H

open LinkFormat KeyHash

variable {L H : Type} [DecidableEq H]

def importHEPKSet [KeyHash H] (hs : List HEPK) : HEPKSet H :=
  hs.foldl (fun m h => m.insert (fingerprint h) h) ∅

/-- `HEPKSet.Merge`: the keys of `o` win. -/
def mergeHEPKs (h o : HEPKSet H) : HEPKSet H := o ∪ h

/-! ## Opening a link -/

open EntityID

def importEntityPublic (e : EntityID) : Except CoreError EntityID := do
  refuse (e.len = 0) (.publicKeyError "empty entity id")
  let b := e.firstByte
  refuse (¬ (typ e).any fun t => t.isEd25519 || t = .yubi) (.publicKeyError s!"entity type not supported: {b}")
  return e

def importPublicSuiteHelper (eid : EntityID) (hepk : HEPK) (h1 : Option HostID) (h2 : HostID)
    (role : Role) : Except CoreError PublicSuite := do
  refuse (h1.any (· ≠ h2)) .hostMismatchError
  match typ eid with
  | some .device | some .user | some .namedTeam | some .backupKey | some .passphraseKey
  | some .botTokenKey =>
    match hepk.classical with
    | .curve25519 _ => return ⟨eid, h2, role, hepk⟩
    | .p256 _ _ => .error (.keyImportError "wrong type of DH key in key import")
  | some .yubi =>
    match hepk.classical with
    | .curve25519 _ => .error (.keyImportError "need DH type P256 with Yubikey/ECDSA")
    | .p256 len pub => do
      refuse (¬ (eid.len = len + 1 ∧ data eid = pub)) (.keyImportError "ECDSA public key mismatch")
      return ⟨eid, h2, role, hepk⟩
  | _ => .error (.keyImportError "unknown key type in import")

def importPublicSuite (o : MemberRole H) (hepks : HEPKSet H) (host : HostID) : Except CoreError PublicSuite :=
  match o.member.keys with
  | .user hepkFp _ =>
    match hepks.lookup hepkFp with
    | none => .error (.keyNotFoundError "hepk")
    | some hepk => importPublicSuiteHelper o.member.id.entity hepk o.member.id.host host o.dstRole
  | _ => .error (.keyImportError "only user keys supported")

/-- The loop of `OpenSharedKeys`, after a key with role `prev`. -/
def openSharedKeysFrom (hepks : HEPKSet H) :
    Option Role → List (SharedKey H) → Except CoreError (List (SharedPublicSuite H))
  | _, [] => return []
  | prev, sk :: sks => do
    refuse (prev.any fun r => !r.lessThan sk.role) (.linkError "need roles to be in strictly increasing order")
    match hepks.lookup sk.hepkFp with
    | none => .error (.keyNotFoundError "hepk")
    | some hepk => do
      let sharedKeys ← openSharedKeysFrom hepks (some sk.role) sks
      return ⟨sk, hepk⟩ :: sharedKeys

/-- `OpenSharedKeys`; the keys also verify the link. -/
def openSharedKeys (gc : GroupChange H) (hepks : HEPKSet H) : Except CoreError (List (SharedPublicSuite H)) :=
  openSharedKeysFrom hepks none gc.sharedKeys

def isValid (s : Seqno) : Bool := chainEldestSeqno ≤ s

def openChainer [MerkleHash H] (gc : GroupChange H) : Except CoreError Unit := do
  refuse (gc.chainer.nextLocationCommitment = MerkleHash.zero)
    (.linkError "need non-zero next location commitment for all links")
  refuse (isEldest gc.chainer.base.seqno ≠ gc.chainer.base.prev.isNone)
    (.linkError "nil prev hash iff seqno==0")
  refuse (!isValid gc.chainer.base.seqno) (.linkError "invalid seqno (< 1)")

section Signatures

variable (H) [LinkFormat L H]

/-- The loop of `VerifyStackedSignature`: each signature is over those before it. -/
def verifyStacked (link : L) : List Signature → List (EntityID × Signature) → Except CoreError Unit
  | _, [] => return ()
  | stack, (key, sig) :: rest => do
    verify H key sig link stack
    verifyStacked link (stack ++ [sig]) rest

def verifyStackedSignature (link : L) (keys : List EntityID) : Except CoreError Unit := do
  let sigs := signatures H link
  refuse (keys = []) (.verifyError "cannot verify with 0 keys")
  refuse (sigs.length ≠ keys.length) (.verifyError "wrong number of keys")
  verifyStacked H link [] (keys.zip sigs)

end Signatures

/-- The device that a link adds, and the keys of it that must have signed the link. -/
structure NewDevice (H : Type) where
  newDevice : PublicSuite
  raw : MemberRole H
  subkey : Option EntityID
  verifiers : List EntityID
  deriving DecidableEq

structure OpenDeviceChangeRes (H : Type) where
  gc : GroupChange H
  newDevice : Option PublicSuite
  rawNewDevice : Option (MemberRole H)
  existingDevice : EntityID
  sharedKeys : List (SharedPublicSuite H)
  subkey : Option EntityID
  lastSigner : EntityID
  deriving DecidableEq

/-- The part of `OpenDeviceChange` about the device that a link adds. -/
def openNewDevice (gc : GroupChange H) (hepks : HEPKSet H) (hostID : HostID)
    (existingDevice : EntityID) : Except CoreError (Option (NewDevice H)) :=
  match gc.changes with
  | [raw] =>
    if raw.dstRole = .none then return none
    else do
      let newDevice ← importPublicSuite raw hepks hostID
      refuse (raw.member.id.host ≠ none) (.linkError "expected empty host in change")
      match raw.member.keys with
      | .user _ subKey => do
        let subkey ← subKey.mapM importEntityPublic
        if isEldest gc.chainer.base.seqno then
          refuse (¬ (newDevice.hostID = hostID ∧ existingDevice.eq newDevice.entityID))
            (.linkError "expected eldest-link to be self-signed")
          return some ⟨newDevice, raw, subkey, subkey.toList⟩
        else return some ⟨newDevice, raw, subkey, subkey.toList ++ [newDevice.entityID]⟩
      | _ => .error (.linkError "expected user keys in change")
  | _ => return none

def openDeviceChange [MerkleHash H] [LinkFormat L H] (link : L) (hepks : HEPKSet H)
    (uid : Option UID) (hostID : HostID) : Except CoreError (OpenDeviceChangeRes H) := do
  let gc ← (openGroupChange link : Except CoreError (GroupChange H))
  refuse (typ gc.entity.entity ≠ some .user) (.linkError "expected a link for a User entity")
  refuse (hostID ≠ gc.entity.host) (.linkError "wrong host given")
  refuse (uid.any fun uid => !uid.entityID.eq gc.entity.entity) (.linkError "wrong user given")
  let sharedKeys ← openSharedKeys gc hepks
  refuse (1 < gc.changes.length) (.linkError "expected 0 or 1 device changes, got more")
  refuse (gc.signer.keyOwner ≠ none) (.linkError "expected a nil Signer.KeyOwner for user-sigchain links")
  let existingDevice ← importEntityPublic gc.signer.key
  let dev ← openNewDevice gc hepks hostID existingDevice
  openChainer gc
  verifyStackedSignature H link (sharedKeys.map (·.verifyKey) ++ (dev.map (·.verifiers)).getD [] ++
    [existingDevice])
  return {
    gc, existingDevice, sharedKeys
    newDevice := dev.map (·.newDevice)
    rawNewDevice := dev.map (·.raw)
    subkey := dev.bind (·.subkey)
    lastSigner := existingDevice }

/-! ## The shared checks -/

/-- How a role key prints. -/
def describe (rk : RoleKey) : String :=
  let typ := rk.typ.toNat
  let lev := rk.lev
  s!"\x7bTyp:{typ} Lev:{lev}\x7d"

/-- The first loop of `CheckSharedKeyUpdate`: the roles of the PUKs. -/
def checkPuks (pukGens : Team.KeyGens) : Finset RoleKey → List (SharedKey H) → Except CoreError (Finset RoleKey)
  | foundPUKs, [] => return foundPUKs
  | foundPUKs, puk :: puks => do
    let rk ← importRole puk.role
    let role := describe rk
    match pukGens.lookup rk with
    | none => .error (.linkError s!"found unneeded new PUK for generation {role}")
    | some gen => do
      let got := puk.gen
      refuse (gen + 1 ≠ got) (.linkError (s!"got wrong PUK generation, expected a strict +1 increment; " ++
          s!"(got {got} and current gen is {gen})"))
      refuse (rk ∈ foundPUKs) (.linkError s!"repeated PUK For {role}")
      checkPuks pukGens (insert rk foundPUKs) puks

/-- `CheckSharedKeyUpdate`. The second loop is over a map, in any order; here the error names the
lowest role that is missing. -/
def checkSharedKeyUpdate (sharedKeys : List (SharedKey H)) (pukGens : Team.KeyGens)
    (upperLimit : RoleKey) : Except CoreError Unit := do
  let foundPUKs ← checkPuks pukGens ∅ sharedKeys
  match sorted (pukGens.keys.filter fun rk => rk.lessThanOrEqual upperLimit ∧ rk ∉ foundPUKs) with
  | [] => return ()
  | rk :: _ =>
    let role := describe rk
    .error (.linkError s!"missing PUK for role {role}")

/-- `countRemainingOwners`: the devices are keyed by fixed IDs, and the target is compared as it is in the
link. -/
def countRemainingOwners (targetId : EntityID) (currentDevices : DeviceMap) : ℕ :=
  (currentDevices.keys.filter fun fqe => unfix fqe.entity ≠ .ok targetId ∧
    (currentDevices.lookup fqe).any (·.ps.role.typ = .owner)).card

structure CheckDeviceRevokeRes where
  role : RoleKey
  id : Option EntityID
  epno : MerkleEpno
  pswsqno : Option PublicSuiterWithSeqno
  deriving DecidableEq

variable (odc : OpenDeviceChangeRes H)

variable (m : ChangeMetadata H) (hostID : HostID) (currentDevices : DeviceMap) (pukGens : Team.KeyGens)

def checkRotateRevokeCommon (targetRole : RoleKey) : Except CoreError Unit := do
  let eid ← odc.existingDevice.fixed
  match currentDevices.lookup ⟨hostID, eid⟩ with
  | none => .error (.validationError "attempt to revoke without a current device")
  | some signer => do
    refuse (signer.ps.role ≠ .owner) (.permissionError "only owner devices can revoke devices or rotate PUKs")
    if odc.gc.sharedKeys ≠ [] then
      checkSharedKeyUpdate odc.gc.sharedKeys pukGens targetRole
    refuse (odc.gc.chainer.base.root.epno = 0) (.revokeError "need non-zero merkle Epno for revoke")

/-- `checkDeviceRevoke`, of the one change `target`. -/
def checkDeviceRevoke (target : MemberRole H) (hostID : HostID)
    (currentDevices : DeviceMap) (pukGens : Team.KeyGens) :
    Except CoreError CheckDeviceRevokeRes := do
  refuse (target.member.id.host.any (· ≠ hostID)) (.linkError "wrong hostID for revoked device")
  refuse (target.dstRole.typ ≠ .none) (.linkError "revoke must actually revoke the device")
  refuse (target.member.keys ≠ .none) (.linkError "member keys must be none for revoke")
  let targetId := target.member.id.entity
  let targetIdFixed ← targetId.fixed
  match currentDevices.lookup ⟨hostID, targetIdFixed⟩ with
  | none => .error (.linkError "device to revoke is not currently active")
  | some targetPS => do
    let targetRole ← importRole targetPS.ps.role
    let selfRevoke := odc.gc.signer.key.eq targetId
    refuse (odc.gc.sharedKeys ≠ [] ∧ selfRevoke) (.linkError "for self-revoke, need 0 shared keys")
    refuse (odc.gc.sharedKeys = [] ∧ ¬ selfRevoke)
      (.linkError "if not self-revoking, then need to provide shared keys")
    refuse (targetRole.typ = .owner ∧ countRemainingOwners targetId currentDevices = 0)
      (.revokeError "cannot revoke last owner device")
    checkRotateRevokeCommon odc hostID currentDevices pukGens targetRole
    return ⟨targetRole, some targetId, odc.gc.chainer.base.root.epno, some targetPS⟩

/-- `checkDeviceRotate`: the limit is the role of the last key, which is the highest one. -/
def checkDeviceRotate : Except CoreError CheckDeviceRevokeRes :=
  match odc.sharedKeys.getLast? with
  | none => .error (.linkError "need at least 1 new shared key")
  | some seniorDevice => do
    let upperLimit ← importRole seniorDevice.role
    checkRotateRevokeCommon odc hostID currentDevices pukGens upperLimit
    return ⟨upperLimit, none, odc.gc.chainer.base.root.epno, none⟩

def checkDeviceRevokeOrRotate : Except CoreError CheckDeviceRevokeRes :=
  match odc.gc.changes with
  | [target] => checkDeviceRevoke odc target hostID currentDevices pukGens
  | [] => checkDeviceRotate odc hostID currentDevices pukGens
  | _ =>
    .error (.linkError "expected exactly 1 device change for revoke device (or 0 for a rotate)")

def openDeviceProvisionPUK (puk : SharedPublicSuite H) (lowlyDevice : Bool)
    (pukGens : Team.KeyGens) (newDevice : PublicSuite) : Except CoreError Unit := do
  refuse (!lowlyDevice) (.linkError "can only add a shared key if adding a lower-privileged device")
  let ir ← importRole puk.role
  let newGen := puk.gen
  match pukGens.lookup ir with
  | none =>
    refuse (newGen ≠ firstGeneration) (.linkError "exepected gen=1 for new PUK shared key")
  | some curr =>
    let next := curr + 1
    refuse (newGen ≠ next) (.linkError s!"expected pukGen {next}, but got {newGen}")
  refuse (puk.role ≠ newDevice.role) (.linkError "need PUK role to be same as new device")

def openDeviceName : Except CoreError H :=
  match m with
  | .deviceName commitment => return commitment
  | _ => .error (.linkError "wrong type of metadata; need DeviceName")

def openSubchainTreeLocationCommitment : Except CoreError H :=
  match m with
  | .eldest commitment => return commitment
  | _ => .error (.linkError "wrong type of metadata; need Eldest")

def openUsername : Except CoreError H :=
  match m with
  | .username commitment => return commitment
  | _ => .error (.linkError "wrong type of metadata; need Username")

structure OpenDeviceProvisionRes (H : Type) where
  gc : GroupChange H
  newDevice : PublicSuite
  sharedKey : Option (SharedPublicSuite H)
  deviceNameCommitment : H
  root : TreeRoot H
  existingDevice : EntityID
  subkey : Option EntityID
  deriving DecidableEq

def openDeviceProvision (hostID : HostID) : Except CoreError (OpenDeviceProvisionRes H) := do
  match odc.gc.changes, odc.newDevice with
  | [_], some newDevice => do
    refuse (newDevice.role.typ = .none) (.linkError "expected exactly 1 new device for device provision")
    let eid ← odc.existingDevice.fixed
    match currentDevices.lookup ⟨hostID, eid⟩ with
    | none => .error (.validationError "attempt to provision without a current device")
    | some signer => do
      refuse (signer.ps.role ≠ .owner) (.permissionError "only owner devices can add new devices")
      let lowlyDevice := signer.ps.role.greaterThan newDevice.role
      match odc.gc.metadata with
      | [md] => do
        let commitment ← openDeviceName md
        refuse (1 < odc.sharedKeys.length) (.linkError
          "only can have at most 1 shared key (if adding a lower-privileged device")
        odc.sharedKeys.forM fun puk => openDeviceProvisionPUK puk lowlyDevice pukGens newDevice
        return ⟨odc.gc, newDevice, odc.sharedKeys.head?, commitment, odc.gc.chainer.base.root,
          odc.existingDevice, odc.subkey⟩
      | _ => .error (.linkError "expected exactly one metadata change")
  | _, _ => .error (.linkError "expected exactly 1 new device for device provision")

structure OpenEldestRes (H : Type) where
  uid : UID
  device : PublicSuite
  userKey : SharedPublicSuite H
  deviceNameCommitment : H
  usernameCommitment : H
  subchainTreeLocationCommitment : H
  root : TreeRoot H
  nextLocationCommitment : H
  subkey : Option EntityID
  seqno : Seqno
  deriving DecidableEq

def checkEldestChainer (b : BaseChainer H) : Except CoreError Unit := do
  refuse (!isValid b.seqno) (.linkError "invalid seqno for eldest chainlink")
  refuse (!isEldest b.seqno) (.linkError "need seqno=0 for eldest chainlink")
  refuse (b.prev ≠ none) (.linkError "need nil hash for eldest chainlink")

def openEldestLinkWithODC : Except CoreError (OpenEldestRes H) := do
  match odc.gc.changes, odc.newDevice with
  | [_], some newDevice => do
    refuse (newDevice.role.typ = .none) (.linkError "expected exactly 1 new device for eldest link")
    refuse (newDevice.role ≠ .owner) (.linkError "expected a role=owner, level=0 role for eldest device")
    refuse (!odc.gc.signer.key.eq newDevice.entityID) (.linkError "mismatched self-signing public keys")
    match odc.sharedKeys with
    | [sharedKey] => do
      refuse (odc.gc.signer.keyOwner ≠ none)
        (.linkError "expected a nil Signer.KeyOwner for user-sigchain links")
      refuse (!rollingEq odc.gc.entity.entity sharedKey.verifyKey)
        (.linkError "mismatched entity for User in eldest link")
      refuse (sharedKey.role ≠ .owner) (.linkError "expected role=owner PUK for eldest")
      refuse (sharedKey.gen ≠ firstGeneration) (.linkError "expected seqno=1 PUK for eldest")
      match odc.gc.metadata with
      | md0 :: md1 :: md2 :: _ => do
        let userCommitment ← openUsername md0
        let devCommitment ← openDeviceName md1
        let sctlc ← openSubchainTreeLocationCommitment md2
        checkEldestChainer odc.gc.chainer.base
        let uid ← toUID odc.gc.entity.entity
        return ⟨uid, newDevice, sharedKey, devCommitment, userCommitment, sctlc,
          odc.gc.chainer.base.root, odc.gc.chainer.nextLocationCommitment, odc.subkey,
          odc.gc.chainer.base.seqno⟩
      | _ => .error (.linkError "expected at least 3 metadata changes")
    | _ => .error (.linkError "expected exactly one PUK for eldest link")
  | _, _ => .error (.linkError "expected exactly 1 new device for eldest link")

/-! ## What the checks say -/

/-- The active device with the ID. -/
def activeDevice (devices : DeviceMap) (host : HostID) (e : EntityID) : Option PublicSuiterWithSeqno :=
  e.fixed.toOption.bind fun fid => devices.lookup ⟨host, fid⟩

theorem activeDevice_eq_some {devices : DeviceMap} {host : HostID} {e : EntityID}
    {dev : PublicSuiterWithSeqno} :
    activeDevice devices host e = some dev ↔ ∃ fid, e.fixed = .ok fid ∧
        devices.lookup ⟨host, fid⟩ = some dev := by
  simp only [activeDevice, Option.bind_eq_some_iff, toOption_eq_some]

section Rotation

variable {sks : List (SharedKey H)} {pukGens : Team.KeyGens} {limit : RoleKey} {odc : OpenDeviceChangeRes H}
  {hostID : HostID} {devices : DeviceMap} {res : CheckDeviceRevokeRes}

section

omit [DecidableEq H]

theorem checkPuks_eq_ok {found found' : Finset RoleKey} (h : checkPuks pukGens found sks = .ok found') :
    (∀ puk ∈ sks, ∃ rk gen, importRole puk.role = .ok rk ∧ pukGens.lookup rk = some gen ∧ puk.gen = gen + 1) ∧
    ∀ rk ∈ found', rk ∈ found ∨ ∃ puk ∈ sks, importRole puk.role = .ok rk := by
  induction sks generalizing found with
  | nil =>
    cases h
    exact ⟨forall_mem_nil _, fun _ hrk => .inl hrk⟩
  | cons puk sks ih =>
    obtain ⟨rk, hrk, h1⟩ := bind_eq_ok.mp h
    split at h1
    · cases h1
    · next gen hgen =>
      obtain ⟨⟨⟩, hnext, h2⟩ := bind_eq_ok.mp h1
      have h3 := of_bind_eq_ok h2
      obtain ⟨hgens, hfound⟩ := ih h3
      constructor
      · intro p hp
        rcases mem_cons.mp hp with rfl | hp
        · exact ⟨rk, gen, hrk, hgen, (of_refuse hnext).symm⟩
        · exact hgens p hp
      · intro rk' hrk'
        rcases hfound rk' hrk' with hin | ⟨p, hp, hrole⟩
        · rcases Finset.mem_insert.mp hin with rfl | hin
          · exact .inr ⟨puk, mem_cons_self, hrk⟩
          · exact .inl hin
        · exact .inr ⟨p, mem_cons_of_mem _ hp, hrole⟩

/-- The PUKs of a rotation are one generation ahead of the known ones, and no role up to the limit
is missing. -/
theorem checkSharedKeyUpdate_eq_ok (h : checkSharedKeyUpdate sks pukGens limit = .ok ()) :
    (∀ puk ∈ sks, ∃ rk gen, importRole puk.role = .ok rk ∧ pukGens.lookup rk = some gen ∧ puk.gen = gen + 1) ∧
    ∀ rk ∈ pukGens, rk ≤ limit → ∃ puk ∈ sks, importRole puk.role = .ok rk := by
  obtain ⟨found, hfound, h1⟩ := bind_eq_ok.mp h
  obtain ⟨hgens, hroles⟩ := checkPuks_eq_ok hfound
  refine ⟨hgens, fun rk hrk hle => ?_⟩
  -- the second loop has found nothing, and this role would be in it
  have hin : rk ∈ found := by
    by_contra hout
    have hmissing : rk ∈ sorted (pukGens.keys.filter fun rk =>
        rk.lessThanOrEqual limit ∧ rk ∉ found) := by
      rw [mem_sorted, Finset.mem_filter]
      exact ⟨Finmap.mem_keys.mpr hrk, RoleKey.lessThanOrEqual_iff.mpr hle, hout⟩
    split at h1
    · next hnil =>
      rw [hnil] at hmissing
      cases hmissing
    · cases h1
  rcases hroles rk hin with hempty | hpuk
  · cases hempty
  · exact hpuk

theorem checkRotateRevokeCommon_eq_ok (h : checkRotateRevokeCommon odc hostID devices pukGens limit = .ok ()) :
    (∃ dev, activeDevice devices hostID odc.existingDevice = some dev ∧ dev.ps.role = .owner) ∧
      (odc.gc.sharedKeys ≠ [] → checkSharedKeyUpdate odc.gc.sharedKeys pukGens limit = .ok ()) := by
  obtain ⟨eid, heid, h1⟩ := bind_eq_ok.mp h
  split at h1
  · cases h1
  · next dev hdev =>
    obtain ⟨⟨⟩, howner, h2⟩ := bind_eq_ok.mp h1
    refine ⟨⟨dev, activeDevice_eq_some.mpr ⟨eid, heid, hdev⟩, of_refuse howner⟩, fun hne => ?_⟩
    rw [if_pos hne] at h2
    obtain ⟨⟨⟩, hupdate, -⟩ := bind_eq_ok.mp h2
    exact hupdate

theorem checkDeviceRotate_eq_ok (h : checkDeviceRotate odc hostID devices pukGens = .ok res) :
    ∃ puk, odc.sharedKeys.getLast? = some puk ∧ importRole puk.role = .ok res.role ∧
      checkRotateRevokeCommon odc hostID devices pukGens res.role = .ok () := by
  unfold checkDeviceRotate at h
  split at h
  · cases h
  · next puk hlast =>
    obtain ⟨role, hrole, h1⟩ := bind_eq_ok.mp h
    obtain ⟨⟨⟩, hcommon, h2⟩ := bind_eq_ok.mp h1
    cases h2
    exact ⟨puk, hlast, hrole, hcommon⟩

theorem openDeviceProvisionPUK_eq_ok {puk : SharedPublicSuite H} {lowly : Bool} {dev : PublicSuite}
    (h : openDeviceProvisionPUK puk lowly pukGens dev = .ok ()) {rk : RoleKey} {gen : Generation}
    (hrole : importRole puk.role = .ok rk) (hgen : pukGens.lookup rk = some gen) :
    puk.gen = gen + 1 := by
  have h1 := of_bind_eq_ok h
  obtain ⟨rk', hrk', h2⟩ := bind_eq_ok.mp h1
  obtain rfl : rk = rk' := ok_unique hrole hrk'
  rw [hgen] at h2
  obtain ⟨⟨⟩, hnext, -⟩ := bind_eq_ok.mp h2
  exact of_refuse hnext

/-- A provision is signed by an owner device, and a PUK of a known role is one generation ahead. -/
theorem openDeviceProvision_eq_ok {res : OpenDeviceProvisionRes H}
    (h : openDeviceProvision odc devices pukGens hostID = .ok res) :
    (∃ dev, activeDevice devices hostID odc.existingDevice = some dev ∧ dev.ps.role = .owner) ∧
      ∀ puk ∈ odc.sharedKeys, ∀ rk gen, importRole puk.role = .ok rk →
        pukGens.lookup rk = some gen → puk.gen = gen + 1 := by
  unfold openDeviceProvision at h
  split at h
  · next newDevice _ _ =>
    have h1 := of_bind_eq_ok h
    obtain ⟨eid, heid, h2⟩ := bind_eq_ok.mp h1
    split at h2
    · cases h2
    · next dev hdev =>
      obtain ⟨⟨⟩, howner, h3⟩ := bind_eq_ok.mp h2
      split at h3
      · obtain ⟨commitment, -, h4⟩ := bind_eq_ok.mp h3
        have h5 := of_bind_eq_ok h4
        obtain ⟨⟨⟩, hpuks, -⟩ := bind_eq_ok.mp h5
        refine ⟨⟨dev, activeDevice_eq_some.mpr ⟨eid, heid, hdev⟩, of_refuse howner⟩, ?_⟩
        intro puk hpuk rk gen hrole hgen
        exact openDeviceProvisionPUK_eq_ok (forM_eq_ok.mp hpuks puk hpuk) hrole hgen
      · cases h3
  · cases h

end

/-- A revocation is signed by an owner device, of a device that is active. -/
theorem checkDeviceRevoke_eq_ok {target : MemberRole H}
    (h : checkDeviceRevoke odc target hostID devices pukGens = .ok res) :
    ∃ fid dev, target.member.id.entity.fixed = .ok fid ∧ devices.lookup ⟨hostID, fid⟩ = some dev ∧
      importRole dev.ps.role = .ok res.role ∧ res.id = some target.member.id.entity ∧
      checkRotateRevokeCommon odc hostID devices pukGens res.role = .ok () ∧
      (res.role.typ = .owner → countRemainingOwners target.member.id.entity devices ≠ 0) := by
  have h1 := of_bind_eq_ok h
  have h2 := of_bind_eq_ok h1
  have h3 := of_bind_eq_ok h2
  obtain ⟨fid, hfid, h4⟩ := bind_eq_ok.mp h3
  split at h4
  · cases h4
  · next dev hdev =>
    obtain ⟨role, hrole, h5⟩ := bind_eq_ok.mp h4
    have h6 := of_bind_eq_ok h5
    have h7 := of_bind_eq_ok h6
    obtain ⟨⟨⟩, hcount, h8⟩ := bind_eq_ok.mp h7
    obtain ⟨⟨⟩, hcommon, h9⟩ := bind_eq_ok.mp h8
    cases h9
    exact ⟨fid, dev, hfid, hdev, hrole, rfl, hcommon, fun howner hzero =>
      refuse_eq_ok.mp hcount ⟨howner, hzero⟩⟩

end Rotation

section Open

variable {gc : GroupChange H} {hepks : HEPKSet H}

/-- Opened keys are the keys of the link. -/
theorem openSharedKeysFrom_eq_ok {prev : Option Role} {sks : List (SharedKey H)}
    {keys : List (SharedPublicSuite H)} (h : openSharedKeysFrom hepks prev sks = .ok keys) :
    keys.map (·.toSharedKey) = sks ∧ ∀ puk ∈ keys, hepks.lookup puk.hepkFp = some puk.hepk := by
  induction sks generalizing prev keys with
  | nil =>
    cases h
    exact ⟨rfl, forall_mem_nil _⟩
  | cons sk sks ih =>
    have h1 := of_bind_eq_ok h
    split at h1
    · cases h1
    · next hepk hlookup =>
      obtain ⟨rest, hrest, h2⟩ := bind_eq_ok.mp h1
      cases h2
      obtain ⟨hsame, hhepks⟩ := ih hrest
      exact ⟨by rw [map_cons, hsame], forall_mem_cons.mpr ⟨hlookup, hhepks⟩⟩

/-- An opened link: its contents, its signer, and that the signer has signed it. -/
theorem openDeviceChange_eq_ok [MerkleHash H] [LinkFormat L H] {link : L} {uid : Option UID}
    {hostID : HostID} {odc : OpenDeviceChangeRes H}
    (h : openDeviceChange link hepks uid hostID = .ok odc) :
    openGroupChange link = .ok odc.gc ∧ odc.existingDevice = odc.gc.signer.key ∧
      odc.lastSigner = odc.gc.signer.key ∧ odc.sharedKeys.map (·.toSharedKey) = odc.gc.sharedKeys ∧
      ∃ keys, verifyStackedSignature H link (keys ++ [odc.gc.signer.key]) = .ok () := by
  obtain ⟨gc, hgc, h1⟩ := bind_eq_ok.mp h
  have h2 := of_bind_eq_ok h1
  have h3 := of_bind_eq_ok h2
  have h4 := of_bind_eq_ok h3
  obtain ⟨sharedKeys, hkeys, h5⟩ := bind_eq_ok.mp h4
  have h6 := of_bind_eq_ok h5
  have h7 := of_bind_eq_ok h6
  obtain ⟨existing, hexisting, h8⟩ := bind_eq_ok.mp h7
  obtain ⟨dev, -, h9⟩ := bind_eq_ok.mp h8
  have h10 := of_bind_eq_ok h9
  obtain ⟨⟨⟩, hsigned, h11⟩ := bind_eq_ok.mp h10
  cases h11
  -- an imported key is the key itself
  obtain rfl : gc.signer.key = existing := by
    have hsupported := of_bind_eq_ok hexisting
    exact ok.inj (of_bind_eq_ok hsupported)
  exact ⟨hgc, rfl, rfl, (openSharedKeysFrom_eq_ok hkeys).1, _, hsigned⟩

end Open

end Foks.Client
