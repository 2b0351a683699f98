import Foks.Client.Rotation

/-!
# What a link of a user does

The player changes its state link by link. Here is all that one link can do, with all that the player
asks of it: the first link adds the first device; a later link adds or revokes a device, or none; and
each of them adds PUKs.
-/

namespace Foks.Client

open Lib Merkle Bool Sample UserPlayer List
open Team (MemberRole FQEntityFixed)
open Lib.Action (lift_bind_eq_ok lift_eq_ok read_bind_eq_ok refuse_bind_eq_ok refuse_eq_ok update_bind_eq_ok)

variable {H : Type} {odc : OpenDeviceChangeRes H} {target : MemberRole H} {sv : Services H} {a : PlayArg H}
  {p p' q : UserPlayer H} {puk : SharedPublicSuite H} {puks : List (SharedPublicSuite H)}

/-- The device that a link adds. -/
def addedDevice (odc : OpenDeviceChangeRes H) : Option PublicSuite :=
  match odc.gc.changes with
  | [target] => if target.dstRole.typ = .none then none else odc.newDevice
  | _ => none

/-- The device that a link revokes, as the maps of devices have it. -/
def revokedDevice (odc : OpenDeviceChangeRes H) : Option FixedEntityID :=
  match odc.gc.changes with
  | [target] => if target.dstRole.typ = .none then target.member.id.entity.fixed.toOption else none
  | _ => none

theorem addedDevice_eq (hone : odc.gc.changes = [target]) (hsome : target.dstRole.typ ≠ .none) :
    addedDevice odc = odc.newDevice := by
  rw [addedDevice, hone]
  exact if_neg hsome

theorem revokedDevice_eq {fid : FixedEntityID} (hone : odc.gc.changes = [target])
    (hnone : target.dstRole.typ = .none)
    (hfid : target.member.id.entity.fixed = .ok fid) : revokedDevice odc = some fid := by
  rw [revokedDevice, hone]
  exact (if_pos hnone).trans (toOption_eq_some.mpr hfid)

theorem addedDevice_eq_none (h : ∀ target, odc.gc.changes = [target] → target.dstRole.typ = .none) :
    addedDevice odc = none := by
  unfold addedDevice
  split
  · next target hone => exact if_pos (h target hone)
  · rfl

theorem revokedDevice_eq_none (h : ∀ target, odc.gc.changes = [target] → target.dstRole.typ ≠ .none) :
    revokedDevice odc = none := by
  unfold revokedDevice
  split
  · next target hone => exact if_neg (h target hone)
  · rfl

/-! ## Names of devices -/

/-- The name that a device gets: one from the reply, if users load their own chain. -/
def NameTaken (sv : Services H) (a : PlayArg H) (idx : ℕ) (c : H) (dn : Option DeviceLabelAndName) : Prop :=
  if a.loadMode = .self then
    ∃ dnk, a.deviceNames[idx]? = some dnk ∧
      sv.openCommitment dnk.dln.label dnk.commitmentKey c = .ok () ∧ dn = some dnk.dln
  else dn = none

/-- How many names of the reply a new device uses up. -/
def namesTaken (a : PlayArg H) : ℕ := if a.loadMode = .self then 1 else 0

theorem playDeviceName_eq_ok {c : H} {dn : Option DeviceLabelAndName} : playDeviceName sv a c p = (.ok dn, p') ↔
      NameTaken sv a p.dnIdx c dn ∧ p' = { p with dnIdx := p.dnIdx + namesTaken a } := by
  unfold playDeviceName NameTaken namesTaken
  by_cases hself : a.loadMode = .self
  · rw [if_neg (not_not.mpr hself), if_pos hself, if_pos hself]
    constructor
    · intro h
      have h1 := read_bind_eq_ok.mp h
      cases hname : a.deviceNames[p.dnIdx]? with
      | none =>
        rw [hname] at h1
        cases h1
      | some dnk =>
        rw [hname] at h1
        obtain ⟨⟨⟩, hopened, h2⟩ := lift_bind_eq_ok.mp h1
        have h3 := update_bind_eq_ok.mp h2
        cases h3
        exact ⟨⟨dnk, rfl, mapError_eq_ok.mp hopened, rfl⟩, rfl⟩
    · rintro ⟨⟨dnk, hname, hopened, rfl⟩, rfl⟩
      refine Action.bind_eq_ok.mpr ⟨p.dnIdx, p, rfl, ?_⟩
      rw [hname]
      refine lift_bind_eq_ok.mpr ⟨(), mapError_eq_ok.mpr hopened, ?_⟩
      exact Action.bind_eq_ok.mpr ⟨(), _, rfl, rfl⟩
  · rw [if_pos hself, if_neg hself, if_neg hself]
    constructor
    · intro h
      cases h
      exact ⟨rfl, rfl⟩
    · rintro ⟨rfl, rfl⟩
      rfl

/-! ## PUKs -/

/-- The players have the same PUKs. -/
structure SamePuks (p q : UserPlayer H) : Prop where
  puks : q.puks = p.puks
  puksByRole : q.puksByRole = p.puksByRole
  pukGens : q.pukGens = p.pukGens
  stalePUKs : q.stalePUKs = p.stalePUKs

theorem SamePuks.symm (h : SamePuks p q) : SamePuks q p :=
  ⟨h.puks.symm, h.puksByRole.symm, h.pukGens.symm, h.stalePUKs.symm⟩

theorem SamePuks.trans {r : UserPlayer H} (h : SamePuks p q) (h' : SamePuks q r) : SamePuks p r :=
  ⟨h'.puks.trans h.puks, h'.puksByRole.trans h.puksByRole, h'.pukGens.trans h.pukGens,
    h'.stalePUKs.trans h.stalePUKs⟩

/-- A player with the PUKs of another one. -/
def UserPlayer.withPuks (q p : UserPlayer H) : UserPlayer H :=
  { q with puks := p.puks, puksByRole := p.puksByRole, pukGens := p.pukGens, stalePUKs := p.stalePUKs }

theorem UserPlayer.samePuks_withPuks (q p : UserPlayer H) : SamePuks p (q.withPuks p) :=
  ⟨rfl, rfl, rfl, rfl⟩

theorem SamePuks.withPuks_eq (h : SamePuks p q) : q.withPuks p = q := by
  obtain ⟨h1, h2, h3, h4⟩ := h
  unfold withPuks
  rw [← h1, ← h2, ← h3, ← h4]

theorem addPuk_frame (hsame : SamePuks p q) (h : addPuk puk p = (.ok (), p')) :
    addPuk puk q = (.ok (), q.withPuks p') := by
  obtain ⟨rk, hrk, hless, rfl⟩ := addPuk_eq_ok.mp h
  obtain ⟨hpuks, hbyRole, hgens, hstale⟩ := hsame
  refine addPuk_eq_ok.mpr ⟨rk, hrk, hbyRole ▸ hless, ?_⟩
  unfold withPuks takePuk
  rw [hpuks, hbyRole, hgens, hstale]

/-- Adding PUKs neither reads nor changes anything else. -/
theorem addPuks_frame (hsame : SamePuks p q) (h : addPuks puks p = (.ok (), p')) :
    addPuks puks q = (.ok (), q.withPuks p') := by
  induction puks generalizing p q with
  | nil =>
    cases h
    rw [hsame.withPuks_eq]
    rfl
  | cons puk puks ih =>
    obtain ⟨⟨⟩, p1, hpuk, hrest⟩ := Action.bind_eq_ok.mp h
    refine Action.bind_eq_ok.mpr ⟨(), _, addPuk_frame hsame hpuk, ?_⟩
    exact ih (q.samePuks_withPuks p1) hrest

theorem addPuks_singleton : addPuks [puk] p = (.ok (), p') ↔ addPuk puk p = (.ok (), p') := by
  rw [addPuks, Action.bind_eq_ok]
  constructor
  · rintro ⟨⟨⟩, p1, hpuk, hnil⟩
    cases hnil
    exact hpuk
  · exact fun hpuk => ⟨(), p', hpuk, rfl⟩

theorem addPuk_keys (h : addPuk puk p = (.ok (), p')) : p'.keys = p.keys := by
  have hframe := h.symm.trans (addPuk_frame ⟨rfl, rfl, rfl, rfl⟩ h)
  rw [(Prod.mk.inj hframe).2]
  rfl

theorem addPuks_keys (h : addPuks puks p = (.ok (), p')) : p'.keys = p.keys := by
  have hframe := h.symm.trans (addPuks_frame ⟨rfl, rfl, rfl, rfl⟩ h)
  rw [(Prod.mk.inj hframe).2]
  rfl

/-! ## Devices -/

theorem putDevice_keys {mapKey : FQEntityFixed} {ps : PublicSuite} {di : DeviceInfo H}
    (hactive : di.revoked = none) :
    (putDevice mapKey ps di p).keys = p.keys.insert mapKey ⟨ps, di.provisioned.chain.seqno⟩ := by
  unfold putDevice
  dsimp only
  rw [if_pos hactive]
  split <;> rfl

/-- The player after a device was revoked: its last entry is marked, and the PUKs up to its role may be
known to it. -/
def revokeDevice (mk : FQEntityFixed) (lst : List (DeviceInfo H)) (di : DeviceInfo H)
    (revoked : RevokeInfo H) (rk : RoleKey) (p : UserPlayer H) : UserPlayer H :=
  { p with
    keys := p.keys.erase mk
    devInfo := p.devInfo.insert mk (lst.dropLast ++ [{ di with status := .revoked, revoked := some revoked }])
    stalePUKs := p.stalePUKs ∪ (p.puks.keys.image Prod.fst).filter fun rk2 => rk.cmp rk2 ≥ 0 }

theorem playRevoke_iff [DecidableEq H] (hone : odc.gc.changes = [target]) : playRevoke a odc p = (.ok (), p') ↔
      ∃ res fid lst di rk, checkDeviceRevoke odc target a.host p.keys p.pukGens = .ok res ∧
        target.member.id.entity.fixed = .ok fid ∧ p.devInfo.lookup ⟨a.host, fid⟩ = some lst ∧
        lst.getLast? = some di ∧ importRole di.key.dstRole = .ok rk ∧
        p' = revokeDevice ⟨a.host, fid⟩ lst di ⟨odc.gc.signer.key, odc.gc.chainer.base⟩ rk p := by
  unfold playRevoke checkDeviceRevokeOrRotate
  rw [hone]
  constructor
  · intro h
    have h1 := read_bind_eq_ok.mp h
    obtain ⟨res, hres, h2⟩ := lift_bind_eq_ok.mp h1
    have hrevoke := mapError_eq_ok.mp hres
    obtain ⟨-, -, -, -, -, hid, -⟩ := checkDeviceRevoke_eq_ok hrevoke
    dsimp only [id] at h2
    rw [hid] at h2
    obtain ⟨fid, hfid, h3⟩ := lift_bind_eq_ok.mp h2
    obtain ⟨⟨⟩, p4, hrefuse, h4⟩ := Action.bind_eq_ok.mp h3
    obtain ⟨-, rfl⟩ := refuse_eq_ok.mp hrefuse
    have h5 := update_bind_eq_ok.mp h4
    cases hlst : p4.devInfo.lookup ⟨a.host, fid⟩ with
    | none =>
      rw [hlst] at h5
      cases h5
    | some lst =>
      rw [hlst] at h5
      dsimp only at h5
      cases hdi : lst.getLast? with
      | none =>
        rw [hdi] at h5
        cases h5
      | some di =>
        rw [hdi] at h5
        have h6 := update_bind_eq_ok.mp h5
        obtain ⟨rk, hrk, h7⟩ := lift_bind_eq_ok.mp h6
        cases h7
        exact ⟨res, fid, lst, di, rk, hrevoke, hfid, hlst, hdi, hrk, rfl⟩
  · rintro ⟨res, fid, lst, di, rk, hrevoke, hfid, hlst, hdi, hrk, rfl⟩
    obtain ⟨fid', dev, hfid', hdev, -, hid, -⟩ := checkDeviceRevoke_eq_ok hrevoke
    obtain rfl := ok_unique hfid hfid'
    have hmem : (⟨a.host, fid⟩ : FQEntityFixed) ∈ p.keys := Map.mem_iff.mpr ⟨dev, hdev⟩
    refine Action.bind_eq_ok.mpr ⟨p, p, rfl, Action.bind_eq_ok.mpr ⟨res, p, ?_, ?_⟩⟩
    · exact lift_eq_ok.mpr ⟨mapError_eq_ok.mpr hrevoke, rfl⟩
    rw [hid]
    refine lift_bind_eq_ok.mpr ⟨fid, hfid, refuse_bind_eq_ok.mpr ⟨not_not.mpr hmem, ?_⟩⟩
    rw [hlst]
    dsimp only
    rw [hdi]
    exact lift_bind_eq_ok.mpr ⟨rk, hrk, rfl⟩

theorem playProvision_iff : playProvision sv a odc p = (.ok (), p') ↔
      ∃ res fid key dn leaf, openDeviceProvision odc p.keys p.pukGens a.host = .ok res ∧
        res.newDevice.entityID.fixed = .ok fid ∧ odc.rawNewDevice = some key ∧
          NameTaken sv a p.dnIdx res.deviceNameCommitment dn ∧
        isValid res.gc.chainer.base.seqno ∧
        a.allMerkleLeaves[res.gc.chainer.base.seqno - 1]? = some leaf ∧
        p' = putDevice ⟨a.host, fid⟩ res.newDevice (newDeviceInfo odc dn key leaf)
          { p with dnIdx := p.dnIdx + namesTaken a } := by
  constructor
  · intro h
    have h1 := read_bind_eq_ok.mp h
    obtain ⟨res, hres, h2⟩ := lift_bind_eq_ok.mp h1
    cases hkey : odc.rawNewDevice with
    | none =>
      rw [hkey] at h2
      cases h2
    | some key =>
      rw [hkey] at h2
      obtain ⟨dn, p3, hname, h3⟩ := Action.bind_eq_ok.mp h2
      obtain ⟨htaken, rfl⟩ := playDeviceName_eq_ok.mp hname
      obtain ⟨hvalid, h4⟩ := refuse_bind_eq_ok.mp h3
      rw [not_eq_true', not_eq_false] at hvalid
      cases hleaf : a.allMerkleLeaves[res.gc.chainer.base.seqno - 1]? with
      | none =>
        rw [hleaf] at h4
        cases h4
      | some leaf =>
        rw [hleaf] at h4
        obtain ⟨fid, hfid, rfl⟩ := addDeviceKey_eq_ok.mp h4
        exact ⟨res, fid, key, dn, leaf, mapError_eq_ok.mp hres, hfid, rfl, htaken, hvalid, hleaf, rfl⟩
  · rintro ⟨res, fid, key, dn, leaf, hres, hfid, hkey, htaken, hvalid, hleaf, rfl⟩
    refine Action.bind_eq_ok.mpr ⟨p, p, rfl, Action.bind_eq_ok.mpr ⟨res, p, ?_, ?_⟩⟩
    · exact lift_eq_ok.mpr ⟨mapError_eq_ok.mpr hres, rfl⟩
    rw [hkey]
    refine Action.bind_eq_ok.mpr ⟨dn, _, playDeviceName_eq_ok.mpr ⟨htaken, rfl⟩, ?_⟩
    have hrefuse : ¬ ((!isValid res.gc.chainer.base.seqno) = true) := by
      rw [hvalid]
      decide
    refine refuse_bind_eq_ok.mpr ⟨hrefuse, ?_⟩
    rw [hleaf]
    exact addDeviceKey_eq_ok.mpr ⟨fid, hfid, rfl⟩

/-- The player after the first link has added its device, and before it adds its PUK. -/
def firstDevice (a : PlayArg H) (odc : OpenDeviceChangeRes H) (oer : OpenEldestRes H) (fid : FixedEntityID)
    (dn : Option DeviceLabelAndName) (key : MemberRole H) (leaf : MerkleLeaf H) (p : UserPlayer H) :
    UserPlayer H :=
  let q := putDevice ⟨a.host, fid⟩ oer.device (newDeviceInfo odc dn key leaf)
    { p with dnIdx := p.dnIdx + namesTaken a }
  { q with uncs := q.uncs ++ [oer.usernameCommitment] }

theorem playLinkEldest_iff [DecidableEq H] : playLinkEldest sv a odc p = (.ok (), p') ↔
      ∃ oer fid dn key leaf p1, openEldestLinkWithODC odc = .ok oer ∧ oer.uid = a.uid ∧
        oer.device.entityID.fixed = .ok fid ∧ NameTaken sv a p.dnIdx oer.deviceNameCommitment dn ∧
          odc.rawNewDevice = some key ∧
        a.allMerkleLeaves[0]? = some leaf ∧
        addPuk oer.userKey (firstDevice a odc oer fid dn key leaf p) = (.ok (), p1) ∧
        p' = { p1 with sctlsc := some oer.subchainTreeLocationCommitment } := by
  constructor
  · intro h
    obtain ⟨oer, hopen, h1⟩ := lift_bind_eq_ok.mp h
    obtain ⟨huid, h2⟩ := refuse_bind_eq_ok.mp h1
    obtain ⟨dn, p3, hname, h3⟩ := Action.bind_eq_ok.mp h2
    obtain ⟨htaken, rfl⟩ := playDeviceName_eq_ok.mp hname
    rcases hleaves : a.allMerkleLeaves with _ | ⟨leaf, leaves⟩ <;>
      rcases hkey : odc.rawNewDevice with _ | key <;> rw [hleaves, hkey] at h3
    case cons.some =>
      obtain ⟨⟨⟩, p4, hadd, h4⟩ := Action.bind_eq_ok.mp h3
      obtain ⟨fid, hfid, rfl⟩ := addDeviceKey_eq_ok.mp hadd
      have h5 := update_bind_eq_ok.mp h4
      obtain ⟨⟨⟩, p6, hpuk, h6⟩ := Action.bind_eq_ok.mp h5
      cases h6
      exact ⟨oer, fid, dn, key, leaf, p6, mapError_eq_ok.mp hopen, not_not.mp huid, hfid, htaken,
        rfl, rfl, hpuk, rfl⟩
    all_goals cases h3
  · rintro ⟨oer, fid, dn, key, leaf, p1, hopen, huid, hfid, htaken, hkey, hleaf, hpuk, rfl⟩
    refine Action.bind_eq_ok.mpr ⟨oer, p, ?_, ?_⟩
    · exact lift_eq_ok.mpr ⟨mapError_eq_ok.mpr hopen, rfl⟩
    refine refuse_bind_eq_ok.mpr ⟨not_not.mpr huid, ?_⟩
    refine Action.bind_eq_ok.mpr ⟨dn, _, playDeviceName_eq_ok.mpr ⟨htaken, rfl⟩, ?_⟩
    rw [hkey]
    cases hleaves : a.allMerkleLeaves with
    | nil =>
      rw [hleaves] at hleaf
      cases hleaf
    | cons leaf' leaves =>
      rw [hleaves] at hleaf
      cases hleaf
      refine Action.bind_eq_ok.mpr ⟨(), _, addDeviceKey_eq_ok.mpr ⟨fid, hfid, rfl⟩, ?_⟩
      exact Action.bind_eq_ok.mpr ⟨(), _, rfl, Action.bind_eq_ok.mpr ⟨(), p1, hpuk, rfl⟩⟩

section Checks

variable {host : HostID} {keys : DeviceMap} {pukGens : Team.KeyGens}

/-- The device of a provision. -/
theorem newDevice_of_openDeviceProvision {res : OpenDeviceProvisionRes H}
    (h : openDeviceProvision odc keys pukGens host = .ok res) :
    odc.newDevice = some res.newDevice ∧ res.gc = odc.gc := by
  unfold openDeviceProvision at h
  split at h
  · next newDevice hone hnew =>
    have h1 := of_bind_eq_ok h
    obtain ⟨eid, -, h2⟩ := bind_eq_ok.mp h1
    split at h2
    · cases h2
    have h3 := of_bind_eq_ok h2
    split at h3
    · obtain ⟨c, -, h4⟩ := bind_eq_ok.mp h3
      have h5 := of_bind_eq_ok h4
      have h6 := of_bind_eq_ok h5
      cases h6
      exact ⟨hnew, rfl⟩
    · cases h3
  · cases h

/-- The device of the first link is an owner device. -/
theorem device_of_openEldestLinkWithODC [DecidableEq H] {oer : OpenEldestRes H}
    (h : openEldestLinkWithODC odc = .ok oer) :
    odc.newDevice = some oer.device ∧ oer.device.role = .owner ∧ odc.sharedKeys = [oer.userKey] ∧
      ∃ target, odc.gc.changes = [target] := by
  unfold openEldestLinkWithODC at h
  split at h
  · next target newDevice hone hnew =>
    have h1 := of_bind_eq_ok h
    obtain ⟨⟨⟩, howner, h2⟩ := bind_eq_ok.mp h1
    have h3 := of_bind_eq_ok h2
    split at h3
    · next sharedKey hshared =>
      have h4 := of_bind_eq_ok h3
      have h5 := of_bind_eq_ok h4
      have h6 := of_bind_eq_ok h5
      have h7 := of_bind_eq_ok h6
      split at h7
      · obtain ⟨c1, -, h8⟩ := bind_eq_ok.mp h7
        obtain ⟨c2, -, h9⟩ := bind_eq_ok.mp h8
        obtain ⟨c3, -, h10⟩ := bind_eq_ok.mp h9
        have h11 := of_bind_eq_ok h10
        obtain ⟨uid, -, h12⟩ := bind_eq_ok.mp h11
        cases h12
        exact ⟨hnew, of_refuse howner, hshared, target, hone⟩
      · cases h7
    · cases h3
  · cases h

end Checks

/-! ## Links -/

/-- A link after the first one, by its number. -/
def IsLater (odc : OpenDeviceChangeRes H) : Prop :=
  isValid odc.gc.chainer.base.seqno = true ∧ isEldest odc.gc.chainer.base.seqno = false

/-- The player after the user names of a link. -/
def UserPlayer.takeNames (p : UserPlayer H) (odc : OpenDeviceChangeRes H) : UserPlayer H :=
  { p with uncs := p.uncs ++ usernames odc }

/-- The links that the player accepts: the first one, and a later one that changes no device, revokes
a device, or adds one. -/
inductive LinkStep [DecidableEq H] (sv : Services H) (a : PlayArg H) (odc : OpenDeviceChangeRes H)
    (p : UserPlayer H) : UserPlayer H → Prop
  | eldest {oer : OpenEldestRes H} {fid : FixedEntityID} {dn : Option DeviceLabelAndName} {key : MemberRole H}
      {leaf : MerkleLeaf H} {p' : UserPlayer H} (hseqno : isEldest odc.gc.chainer.base.seqno = true)
      (hopen : openEldestLinkWithODC odc = .ok oer) (huid : oer.uid = a.uid)
      (hfid : oer.device.entityID.fixed = .ok fid)
      (hname : NameTaken sv a p.dnIdx oer.deviceNameCommitment dn)
      (hkey : odc.rawNewDevice = some key) (hleaf : a.allMerkleLeaves[0]? = some leaf)
      (hpuk : addPuk oer.userKey (firstDevice a odc oer fid dn key leaf p) = (.ok (), p')) :
      LinkStep sv a odc p { p' with sctlsc := some oer.subchainTreeLocationCommitment }
  | bare {p' : UserPlayer H} (hseqno : IsLater odc)
    (hsigner : (activeDevice p.keys a.host odc.lastSigner).isSome)
      (hnil : odc.gc.changes = [])
      (hpuks : addPuks odc.sharedKeys (p.takeNames odc) = (.ok (), p')) : LinkStep sv a odc p p'
  | revoke {target : MemberRole H} {res : CheckDeviceRevokeRes} {fid : FixedEntityID}
    {lst : List (DeviceInfo H)}
      {di : DeviceInfo H} {rk : RoleKey} {p' : UserPlayer H} (hseqno : IsLater odc)
      (hsigner : (activeDevice p.keys a.host odc.lastSigner).isSome)
      (hone : odc.gc.changes = [target]) (hnone : target.dstRole.typ = .none)
      (hcheck : checkDeviceRevoke odc target a.host p.keys p.pukGens = .ok res)
      (hfid : target.member.id.entity.fixed = .ok fid) (hlst : p.devInfo.lookup ⟨a.host, fid⟩ = some lst)
      (hdi : lst.getLast? = some di) (hrk : importRole di.key.dstRole = .ok rk)
      (hpuks : addPuks odc.sharedKeys (revokeDevice ⟨a.host, fid⟩ lst di
        ⟨odc.gc.signer.key, odc.gc.chainer.base⟩ rk (p.takeNames odc)) = (.ok (), p')) :
      LinkStep sv a odc p p'
  | provision {target : MemberRole H} {res : OpenDeviceProvisionRes H} {fid : FixedEntityID}
    {key : MemberRole H}
      {dn : Option DeviceLabelAndName} {leaf : MerkleLeaf H} {p' : UserPlayer H}
      (hseqno : IsLater odc) (hsigner : (activeDevice p.keys a.host odc.lastSigner).isSome)
      (hone : odc.gc.changes = [target]) (hsome : target.dstRole.typ ≠ .none)
      (hcheck : openDeviceProvision odc p.keys p.pukGens a.host = .ok res)
      (hfid : res.newDevice.entityID.fixed = .ok fid) (hkey : odc.rawNewDevice = some key)
      (hname : NameTaken sv a p.dnIdx res.deviceNameCommitment dn)
      (hvalid : isValid res.gc.chainer.base.seqno = true)
      (hleaf : a.allMerkleLeaves[res.gc.chainer.base.seqno - 1]? = some leaf)
      (hpuks : addPuks odc.sharedKeys (putDevice ⟨a.host, fid⟩ res.newDevice (newDeviceInfo odc dn key leaf)
        { p.takeNames odc with dnIdx := p.dnIdx + namesTaken a }) = (.ok (), p')) :
      LinkStep sv a odc p p'

section Step

variable [DecidableEq H]

omit [DecidableEq H] in
theorem checkSigner_eq_ok : checkSigner a odc p = (.ok (), p') ↔
      (activeDevice p.keys a.host odc.lastSigner).isSome ∧ p' = p := by
  constructor
  · intro h
    obtain ⟨fid, hfid, h1⟩ := lift_bind_eq_ok.mp h
    have h2 := read_bind_eq_ok.mp h1
    obtain ⟨hmem, rfl⟩ := refuse_eq_ok.mp h2
    obtain ⟨dev, hdev⟩ := Map.mem_iff.mp (not_not.mp hmem)
    exact ⟨Option.isSome_iff_exists.mpr ⟨dev, activeDevice_eq_some.mpr ⟨fid, hfid, hdev⟩⟩, rfl⟩
  · rintro ⟨hsome, rfl⟩
    obtain ⟨dev, hactive⟩ := Option.isSome_iff_exists.mp hsome
    obtain ⟨fid, hfid, hdev⟩ := activeDevice_eq_some.mp hactive
    refine lift_bind_eq_ok.mpr ⟨fid, hfid, Action.bind_eq_ok.mpr ⟨p'.keys, p', rfl, ?_⟩⟩
    exact refuse_eq_ok.mpr ⟨not_not.mpr (Map.mem_iff.mpr ⟨dev, hdev⟩), rfl⟩

/-- A link after the first one: its signer, its device, its PUKs. -/
theorem playLinkNonEldest_iff : playLinkNonEldest sv a odc p = (.ok (), p') ↔
      (activeDevice p.keys a.host odc.lastSigner).isSome ∧
        ∃ p1, playDeviceChange sv a odc (p.takeNames odc) = (.ok (), p1) ∧
          addPuks odc.sharedKeys p1 = (.ok (), p') := by
  constructor
  · intro h
    obtain ⟨⟨⟩, p1, hsigner, h1⟩ := Action.bind_eq_ok.mp h
    obtain ⟨hmem, rfl⟩ := checkSigner_eq_ok.mp hsigner
    have h2 := update_bind_eq_ok.mp h1
    obtain ⟨⟨⟩, p3, hdevice, hpuks⟩ := Action.bind_eq_ok.mp h2
    exact ⟨hmem, p3, hdevice, hpuks⟩
  · rintro ⟨hmem, p1, hdevice, hpuks⟩
    refine Action.bind_eq_ok.mpr ⟨(), p, checkSigner_eq_ok.mpr ⟨hmem, rfl⟩, ?_⟩
    refine Action.bind_eq_ok.mpr ⟨(), _, rfl, ?_⟩
    exact Action.bind_eq_ok.mpr ⟨(), p1, hdevice, hpuks⟩

theorem LinkStep.of_playLinkNonEldest (hseqno : IsLater odc)
    (h : playLinkNonEldest sv a odc p = (.ok (), p')) : LinkStep sv a odc p p' := by
  obtain ⟨hsigner, p1, hdevice, hpuks⟩ := playLinkNonEldest_iff.mp h
  unfold playDeviceChange at hdevice
  rcases hchanges : odc.gc.changes with _ | ⟨target, _ | ⟨target', rest⟩⟩ <;> rw [hchanges] at hdevice
  · cases hdevice
    exact .bare hseqno hsigner hchanges hpuks
  · dsimp only at hdevice
    by_cases hnone : target.dstRole.typ = .none
    · rw [if_pos hnone] at hdevice
      obtain ⟨res, fid, lst, di, rk, hcheck, hfid, hlst, hdi, hrk, rfl⟩ := (playRevoke_iff hchanges).mp hdevice
      exact .revoke hseqno hsigner hchanges hnone hcheck hfid hlst hdi hrk hpuks
    rw [if_neg hnone] at hdevice
    obtain ⟨res, fid, key, dn, leaf, hcheck, hfid, hkey, hname, hvalid, hleaf, rfl⟩ :=
      playProvision_iff.mp hdevice
    exact .provision hseqno hsigner hchanges hnone hcheck hfid hkey hname hvalid hleaf hpuks
  · cases hdevice

/-- The links that the player accepts, and the player after them. -/
theorem playLink_eq_ok : playLink sv a odc p = (.ok (), p') ↔ LinkStep sv a odc p p' := by
  unfold playLink
  constructor
  · intro h
    split at h
    · cases h
    · next hinvalid =>
      rw [not_eq_true', not_eq_false] at hinvalid
      split at h
      · next heldest =>
        obtain ⟨oer, fid, dn, key, leaf, p1, hopen, huid, hfid, hname, hkey, hleaf, hpuk, rfl⟩ :=
          playLinkEldest_iff.mp h
        exact .eldest heldest hopen huid hfid hname hkey hleaf hpuk
      · next hlater => exact .of_playLinkNonEldest ⟨hinvalid, eq_false_iff.mpr hlater⟩ h
  · intro h
    have hlater (hseqno : IsLater odc) (hplay : playLinkNonEldest sv a odc p = (.ok (), p')) :
        (if !isValid odc.gc.chainer.base.seqno then
          Action.fail (.chainLoaderError false .clInvalidSeqnoError)
        else if isEldest odc.gc.chainer.base.seqno then playLinkEldest sv a odc
        else playLinkNonEldest sv a odc) p = (.ok (), p') := by
      rw [hseqno.1, hseqno.2]
      exact hplay
    cases h with
    | eldest hseqno hopen huid hfid hname hkey hleaf hpuk =>
      have hvalid : isValid odc.gc.chainer.base.seqno = true := by
        rw [isEldest, beq_iff_eq] at hseqno
        rw [isValid, hseqno, decide_eq_true_eq]
      rw [hvalid, hseqno]
      exact playLinkEldest_iff.mpr ⟨_, _, _, _, _, _, hopen, huid, hfid, hname, hkey, hleaf, hpuk, rfl⟩
    | bare hseqno hsigner hnil hpuks =>
      refine hlater hseqno (playLinkNonEldest_iff.mpr ⟨hsigner, _, ?_, hpuks⟩)
      rw [playDeviceChange, hnil]
      rfl
    | revoke hseqno hsigner hone hnone hcheck hfid hlst hdi hrk hpuks =>
      refine hlater hseqno (playLinkNonEldest_iff.mpr ⟨hsigner, _, ?_, hpuks⟩)
      rw [playDeviceChange, hone]
      dsimp only
      rw [if_pos hnone]
      exact (playRevoke_iff hone).mpr ⟨_, _, _, _, _, hcheck, hfid, hlst, hdi, hrk, rfl⟩
    | provision hseqno hsigner hone hsome hcheck hfid hkey hname hvalid hleaf hpuks =>
      refine hlater hseqno (playLinkNonEldest_iff.mpr ⟨hsigner, _, ?_, hpuks⟩)
      rw [playDeviceChange, hone]
      dsimp only
      rw [if_neg hsome]
      exact playProvision_iff.mpr ⟨_, _, _, _, _, hcheck, hfid, hkey, hname, hvalid, hleaf, rfl⟩

/-- The player after one more link. -/
theorem playLinks_concat {pre : List (OpenDeviceChangeRes H)}
    (h : playLinks sv a (pre ++ [odc]) p = (.ok (), p')) :
    ∃ v, playLinks sv a pre p = (.ok (), v) ∧ LinkStep sv a odc v p' := by
  obtain ⟨v, hpre, hlast⟩ := playLinks_append.mp h
  obtain ⟨⟨⟩, w, hlink, hnil⟩ := Action.bind_eq_ok.mp hlast
  cases hnil
  exact ⟨v, hpre, playLink_eq_ok.mp hlink⟩

end Step

/-! ## A format of links -/

namespace UserSample

/-- A link is its own encoding. -/
abbrev Link := GroupChange SymHash × List Signature

instance : LinkFormat Link SymHash where
  openGroupChange l := .ok l.1
  signatures l := l.2
  verify key sig _ _ := refuse (sig ≠ key.num) (.verifyError "bad signature")

/-- The keys for encryption of the sample. -/
def hepks : HEPKSet SymHash := importHEPKSet [hepk 1, hepk 2, hepk 3]

/-- The links that can be opened. -/
def opened (links : List Link) : List (OpenDeviceChangeRes SymHash) :=
  links.filterMap fun l => (openDeviceChange l hepks (some uid) host).toOption

/-- A link after the first one, with the signatures of the PUKs, of a new device, and of the device
that signs. -/
def later (seqno : Seqno) (signer : ℕ) (changes : List (MemberRole SymHash))
    (sharedKeys : List (SharedKey SymHash)) (newDevice : List EntityID) : Link :=
  (link seqno (some (.atom (seqno - 1))) signer changes sharedKeys [.deviceName (.atom 23)],
    signedBy (sharedKeys.map (·.verifyKey) ++ newDevice ++ [device signer]))

/-- The first link: device 1, and a PUK. -/
def first : Link :=
  (link 1 none 1 [change 1 .owner] [sharedKey 1 .owner ownerPuk]
    [.username (.atom 20), .deviceName (.atom 21), .eldest (.atom 22)],
    signedBy [ownerPuk, device 1])

/-- Device 1 adds a device. -/
def provision (seqno : Seqno) (n : ℕ) (role : Role) : Link :=
  later seqno 1 [change n role] [] [device n]

def playArg : PlayArg SymHash where
  uid := uid
  host := host
  loadMode := .others
  deviceNames := []
  allMerkleLeaves := replicate 4 ⟨key 1, .zero⟩

end UserSample

/-! ## Stale PUKs -/

section Stale

/-- The link adds a PUK for the role. -/
def Renews (odc : OpenDeviceChangeRes H) (rk : RoleKey) : Prop :=
    ∃ puk ∈ odc.sharedKeys, importRole puk.role = .ok rk

/-- A link after the first one revokes a device, which has the role `top` for the player. -/
def Revokes (host : HostID) (p : UserPlayer H) (odc : OpenDeviceChangeRes H) (top : RoleKey) : Prop :=
  IsLater odc ∧ ∃ e lst di, revokedDevice odc = some e ∧ p.devInfo.lookup ⟨host, e⟩ = some lst ∧
    lst.getLast? = some di ∧ importRole di.key.dstRole = .ok top

variable {links : List (OpenDeviceChangeRes H)} {rk : RoleKey}

theorem addPuks_stale (h : addPuks puks p = (.ok (), p')) :
    ((∃ g, (rk, g) ∈ p'.puks) ↔ (∃ g, (rk, g) ∈ p.puks) ∨ ∃ puk ∈ puks, importRole puk.role = .ok rk) ∧
      (rk ∈ p'.stalePUKs ↔ rk ∈ p.stalePUKs ∧ ¬ ∃ puk ∈ puks, importRole puk.role = .ok rk) := by
  induction puks generalizing p with
  | nil =>
    cases h
    simp
  | cons puk puks ih =>
    obtain ⟨⟨⟩, p1, hpuk, hrest⟩ := Action.bind_eq_ok.mp h
    obtain ⟨rk', hrk', -, rfl⟩ := addPuk_eq_ok.mp hpuk
    have hrole : importRole puk.role = .ok rk ↔ rk = rk' := by rw [hrk', Except.ok.injEq, eq_comm]
    have hhas : (∃ g, (rk, g) ∈ (p.takePuk rk' puk).puks) ↔ rk = rk' ∨ ∃ g, (rk, g) ∈ p.puks := by
      simp [takePuk, exists_or]
    have hstale : rk ∈ (p.takePuk rk' puk).stalePUKs ↔ rk ≠ rk' ∧ rk ∈ p.stalePUKs := Finset.mem_erase
    rw [(ih hrest).1, (ih hrest).2, hhas, hstale]
    simp only [mem_cons, exists_eq_or_imp, hrole]
    by_cases heq : rk = rk' <;> simp [heq]

variable [DecidableEq H]

/-- A link that revokes a device makes the PUKs up to its role stale; its own PUKs come after that. -/
theorem LinkStep.stale (h : LinkStep sv a odc p p') :
    ((∃ g, (rk, g) ∈ p'.puks) ↔ (∃ g, (rk, g) ∈ p.puks) ∨ Renews odc rk) ∧
      (rk ∈ p'.stalePUKs ↔ (rk ∈ p.stalePUKs ∨
        ∃ top, Revokes a.host p odc top ∧ rk ≤ top ∧ ∃ g, (rk, g) ∈ p.puks) ∧ ¬ Renews odc rk) := by
  -- the player before the PUKs of the link
  have hbefore : ∃ q q', addPuks odc.sharedKeys q = (.ok (), q') ∧ SamePuks p' q' ∧ q.puks = p.puks ∧
      (rk ∈ q.stalePUKs ↔ rk ∈ p.stalePUKs ∨
        ∃ top, Revokes a.host p odc top ∧ rk ≤ top ∧ ∃ g, (rk, g) ∈ p.puks) := by
    have hdevice (q : UserPlayer H) (mapKey : FQEntityFixed) (ps : PublicSuite) (di : DeviceInfo H) :
        SamePuks q (putDevice mapKey ps di q) := by
      unfold putDevice
      dsimp only
      split <;> exact ⟨rfl, rfl, rfl, rfl⟩
    cases h with
    | eldest hseqno hopen huid hfid hname hkey hleaf hpuk =>
      rw [← addPuks_singleton, ← (device_of_openEldestLinkWithODC hopen).2.2.1] at hpuk
      have hsame := hdevice { p with dnIdx := p.dnIdx + namesTaken a }
      refine ⟨_, _, hpuk, ⟨rfl, rfl, rfl, rfl⟩, (hsame _ _ _).puks, ?_⟩
      refine (iff_of_eq (congrArg (rk ∈ ·) (hsame _ _ _).stalePUKs)).trans (or_iff_left ?_).symm
      rintro ⟨top, ⟨hlater, -⟩, -⟩
      exact absurd hseqno (ne_true_of_eq_false hlater.2)
    | bare hseqno hsigner hnil hpuks =>
      refine ⟨_, p', hpuks, ⟨rfl, rfl, rfl, rfl⟩, rfl, (or_iff_left ?_).symm⟩
      rintro ⟨top, ⟨-, e, lst, di, hrevoked, -⟩, -⟩
      rw [revokedDevice, hnil] at hrevoked
      cases hrevoked
    | @revoke target res fid lst di top _ hseqno hsigner hone hnone hcheck hfid hlst hdi hrk hpuks =>
      refine ⟨_, p', hpuks, ⟨rfl, rfl, rfl, rfl⟩, rfl, ?_⟩
      have hdev := revokedDevice_eq hone hnone hfid
      have htop : ∀ top', Revokes a.host p odc top' ↔ top' = top := by
        refine fun top' => ⟨?_, fun heq => ⟨hseqno, _, lst, di, hdev, hlst, hdi, heq ▸ hrk⟩⟩
        rintro ⟨-, e, lst', di', hdev', hlst', hdi', hrk'⟩
        obtain rfl := Option.mem_unique hdev hdev'
        obtain rfl := Option.mem_unique hlst hlst'
        obtain rfl := Option.mem_unique hdi hdi'
        exact ok_unique hrk' hrk
      have hcmp : top.cmp rk ≥ 0 ↔ rk ≤ top := by
        rw [ge_iff_le, ← not_lt, RoleKey.cmp_neg_iff, not_lt]
      simp [revokeDevice, takeNames, htop, ← hcmp, Finmap.mem_keys, And.comm]
    | provision hseqno hsigner hone hsome hcheck hfid hkey hname hvalid hleaf hpuks =>
      have hsame := hdevice { p.takeNames odc with dnIdx := p.dnIdx + namesTaken a }
      refine ⟨_, p', hpuks, ⟨rfl, rfl, rfl, rfl⟩, (hsame _ _ _).puks, ?_⟩
      refine (iff_of_eq (congrArg (rk ∈ ·) (hsame _ _ _).stalePUKs)).trans (or_iff_left ?_).symm
      rintro ⟨top, ⟨-, e, lst, di, hrevoked, -⟩, -⟩
      rw [revokedDevice, hone] at hrevoked
      cases hrevoked.symm.trans (if_neg hsome)
  obtain ⟨q, q', hpuks, hsame, hhas, hstale⟩ := hbefore
  rw [← hsame.puks, ← hsame.stalePUKs, ← hstale, ← hhas]
  exact addPuks_stale hpuks

/-- A device of the role or a higher one was revoked while there was a PUK for the role, and no PUK for it
has come since, not even with the link that revokes the device. -/
def RevokedSince (sv : Services H) (a : PlayArg H) (links : List (OpenDeviceChangeRes H))
    (rk : RoleKey) : Prop :=
  ∃ pre odc post q top, links = pre ++ odc :: post ∧ playLinks sv a pre {} = (.ok (), q) ∧
    Revokes a.host q odc top ∧ rk ≤ top ∧ (∃ o ∈ pre, Renews o rk) ∧ ∀ o ∈ odc :: post, ¬ Renews o rk

theorem revokedSince_concat (h : playLinks sv a links {} = (.ok (), p)) :
    RevokedSince sv a (links ++ [odc]) rk ↔ (RevokedSince sv a links rk ∨
      ∃ top, Revokes a.host p odc top ∧ rk ≤ top ∧ ∃ o ∈ links, Renews o rk) ∧ ¬ Renews odc rk := by
  constructor
  · rintro ⟨pre, first, post, q, top, hsplit, hq, htop, hle, hpuk, hpost⟩
    rcases eq_nil_or_concat' post with rfl | ⟨post, x, rfl⟩
    · obtain ⟨rfl, ⟨⟩⟩ := append_inj' hsplit rfl
      obtain rfl : p = q := state_unique h hq
      exact ⟨.inr ⟨top, htop, hle, hpuk⟩, hpost _ mem_cons_self⟩
    rw [← cons_append, ← append_assoc] at hsplit
    obtain ⟨rfl, ⟨⟩⟩ := append_inj' hsplit rfl
    refine ⟨.inl ⟨pre, first, post, q, top, rfl, hq, htop, hle, hpuk, fun o ho => hpost o ?_⟩,
      hpost odc (by simp)⟩
    exact mem_append_left [odc] ho
  · rintro ⟨⟨pre, first, post, q, top, rfl, hq, htop, hle, hpuk, hpost⟩ | ⟨top, htop, hle, hpuk⟩, hlast⟩
    · refine ⟨pre, first, post ++ [odc], q, top, by simp, hq, htop, hle, hpuk, ?_⟩
      exact forall_mem_append.mpr ⟨hpost, forall_mem_singleton.mpr hlast⟩
    · exact ⟨links, odc, [], p, top, rfl, h, htop, hle, hpuk, forall_mem_singleton.mpr hlast⟩

/-- **Stale PUKs.** After every list of links that is played from the start, the stale roles are those of
which a device was revoked since their last PUK. -/
theorem mem_stalePUKs_iff (h : playLinks sv a links {} = (.ok (), p)) (rk : RoleKey) :
    rk ∈ p.stalePUKs ↔ RevokedSince sv a links rk := by
  have hboth : ((∃ g, (rk, g) ∈ p.puks) ↔ ∃ o ∈ links, Renews o rk) ∧
      (rk ∈ p.stalePUKs ↔ RevokedSince sv a links rk) := by
    induction links using reverseRecOn generalizing p with
    | nil =>
      cases h
      simp [RevokedSince, Finmap.notMem_empty]
    | append_singleton links odc ih =>
      obtain ⟨v, hpre, hstep⟩ := playLinks_concat h
      obtain ⟨hhas, hstale⟩ := ih hpre
      rw [hstep.stale.1, hstep.stale.2, hhas, hstale, revokedSince_concat hpre]
      exact ⟨by simp [or_and_right, exists_or], .rfl⟩
  exact hboth.2

/-- A second device joins and then revokes itself. -/
def UserSample.selfRevoke : List (OpenDeviceChangeRes SymHash) :=
  opened [first, provision 2 2 .owner, later 3 2 [⟨.none, ⟨⟨device 2, none⟩, .none, .none⟩⟩] [] []]

open UserSample in
theorem mem_stalePUKs_iff_selfRevoke : ∃ p, playLinks services playArg selfRevoke {} = (.ok (), p) ∧
    RevokedSince services playArg selfRevoke .ownerRole := by
  have hplay : playLinks services playArg selfRevoke {} = (.ok (), _) := Prod.ext (by decide +kernel) rfl
  exact ⟨_, hplay, (mem_stalePUKs_iff hplay _).mp (by decide +kernel)⟩

end Stale

end Foks.Client
