import Foks.Client.DeviceHistory
import Foks.Client.LastOwner

/-!
# Resuming a chain from the saved state

A loader that has played some links saves a state. A new loader reads it and plays the links that follow.
Is it then where it would be if it had played all of them?

It knows the same about the devices and PUKs, if it can read the PUKs. But it may let devices sign that
were revoked, namely those that were left active. They stay so until a link adds them once more.
-/

namespace Foks.Client

open Lib Merkle List Finmap Except Set
open Lib.Action (bind_eq_ok read_bind_eq_ok update_bind_eq_ok within_eq_ok)

variable {H : Type} {d : Set Team.FQEntityFixed} {odc : OpenDeviceChangeRes H}
  {host : HostID} {sv sv' : Services H}
  {names : List DeviceLabelNameAndCommitmentKey} {leaves : List (MerkleLeaf H)} {p p' q : UserPlayer H}
  {l : List (SharedPublicSuite H)} {links : List (OpenDeviceChangeRes H)}

/-! ## More devices that may sign -/

section Keys

variable {keys keys' : DeviceMap} {k : Team.FQEntityFixed} {dev : PublicSuiterWithSeqno}
  {pukGens : Team.KeyGens}

section

variable (h : MoreKeys d keys keys')

include h

theorem MoreKeys.lookup_eq_some (hdev : keys.lookup k = some dev) :
    keys'.lookup k = some dev := by
  rw [h.same k fun hk => h.absent k hk (Map.mem_iff.mpr ⟨dev, hdev⟩), hdev]

theorem MoreKeys.activeDevice {e : EntityID} (hactive : (activeDevice keys host e).isSome) :
    (Client.activeDevice keys' host e).isSome := by
  obtain ⟨dev, hdev⟩ := Option.isSome_iff_exists.mp hactive
  obtain ⟨fid, hfid, hlookup⟩ := activeDevice_eq_some.mp hdev
  exact Option.isSome_iff_exists.mpr ⟨dev, activeDevice_eq_some.mpr ⟨fid, hfid, h.lookup_eq_some hlookup⟩⟩

/-- A device that is added is the same for both from then on. -/
theorem MoreKeys.insert :
    MoreKeys (d \ {k}) (keys.insert k dev) (keys'.insert k dev) where
  same k' hk' := by
    by_cases heq : k' = k
    · rw [heq, lookup_insert, lookup_insert]
    · rw [lookup_insert_of_ne _ heq, lookup_insert_of_ne _ heq]
      exact h.same k' fun hmem => hk' ⟨hmem, heq⟩
  absent k' hk' hmem := (mem_insert.mp hmem).elim hk'.2 (h.absent k' hk'.1)
  present k' hk' := mem_insert.mpr (.inr (h.present k' hk'.1))

theorem MoreKeys.erase (hk : k ∈ keys) : MoreKeys d (keys.erase k) (keys'.erase k) where
  same k' hk' := by
    by_cases heq : k' = k
    · rw [heq, lookup_erase, lookup_erase]
    · rw [lookup_erase_ne heq, lookup_erase_ne heq]
      exact h.same k' hk'
  absent k' hk' hmem := h.absent k' hk' (mem_erase.mp hmem).2
  present k' hk' := mem_erase.mpr ⟨fun heq => h.absent k' hk' (heq ▸ hk), h.present k' hk'⟩

theorem MoreKeys.eq_iff : keys' = keys ↔ d = ∅ := by
  constructor
  · rintro rfl
    exact eq_empty_of_forall_notMem fun k hk => h.absent k hk (h.present k hk)
  · rintro rfl
    exact ext_lookup fun k => h.same k (notMem_empty k)

end

/-! The checks of a link pass with more devices that may sign. -/

section

variable (h : MoreKeys d keys keys')

include h

theorem MoreKeys.openDeviceProvision {res : OpenDeviceProvisionRes H}
    (hopen : openDeviceProvision odc keys pukGens host = .ok res) :
    Client.openDeviceProvision odc keys' pukGens host = .ok res := by
  obtain ⟨signer, hactive, -⟩ := (openDeviceProvision_eq_ok hopen).1
  obtain ⟨fid, hfid, hsigner⟩ := activeDevice_eq_some.mp hactive
  unfold Client.openDeviceProvision at hopen ⊢
  split at hopen
  · obtain ⟨⟨⟩, hrole, h1⟩ := bind_eq_ok.mp hopen
    obtain ⟨eid, heid, h2⟩ := bind_eq_ok.mp h1
    obtain rfl := ok_unique hfid heid
    rw [hsigner] at h2
    refine bind_eq_ok.mpr ⟨(), hrole, bind_eq_ok.mpr ⟨fid, hfid, ?_⟩⟩
    rw [h.lookup_eq_some hsigner]
    exact h2
  · cases hopen

theorem MoreKeys.countRemainingOwners {e : EntityID}
    (hcount : countRemainingOwners e keys ≠ 0) : Client.countRemainingOwners e keys' ≠ 0 := by
  obtain ⟨k, dev, hne, hdev, howner⟩ := countRemainingOwners_ne_zero.mp hcount
  exact countRemainingOwners_ne_zero.mpr ⟨k, dev, hne, h.lookup_eq_some hdev, howner⟩

theorem MoreKeys.checkRotateRevokeCommon {role : RoleKey}
    (hcheck : checkRotateRevokeCommon odc host keys pukGens role = .ok ()) :
    Client.checkRotateRevokeCommon odc host keys' pukGens role = .ok () := by
  obtain ⟨fid, hfid, h1⟩ := bind_eq_ok.mp hcheck
  refine bind_eq_ok.mpr ⟨fid, hfid, ?_⟩
  split at h1
  · cases h1
  · next signer hsigner =>
    rw [h.lookup_eq_some hsigner]
    exact h1

theorem MoreKeys.checkDeviceRevoke [DecidableEq H] {target : Team.MemberRole H}
    {res : CheckDeviceRevokeRes} (hcheck : checkDeviceRevoke odc target host keys pukGens = .ok res) :
    Client.checkDeviceRevoke odc target host keys' pukGens = .ok res := by
  obtain ⟨fid, dev, hfid, hdev, hres, -, hcommon, hcount⟩ := checkDeviceRevoke_eq_ok hcheck
  have howner := fun howner => hcount ((typ_of_importRole hres).trans howner)
  obtain ⟨⟨⟩, hhost, h1⟩ := bind_eq_ok.mp hcheck
  obtain ⟨⟨⟩, hnone, h2⟩ := bind_eq_ok.mp h1
  obtain ⟨⟨⟩, hkeys, h3⟩ := bind_eq_ok.mp h2
  obtain ⟨fid', hfid', h4⟩ := bind_eq_ok.mp h3
  obtain rfl := ok_unique hfid hfid'
  rw [hdev] at h4
  obtain ⟨role, hrole, h5⟩ := bind_eq_ok.mp h4
  obtain ⟨⟨⟩, hself, h6⟩ := bind_eq_ok.mp h5
  obtain ⟨⟨⟩, hshared, h7⟩ := bind_eq_ok.mp h6
  have h8 := of_bind_eq_ok h7
  have h9 := of_bind_eq_ok h8
  cases h9
  refine bind_eq_ok.mpr ⟨(), hhost, bind_eq_ok.mpr ⟨(), hnone, bind_eq_ok.mpr ⟨(), hkeys, ?_⟩⟩⟩
  refine bind_eq_ok.mpr ⟨fid, hfid, ?_⟩
  rw [h.lookup_eq_some hdev]
  refine bind_eq_ok.mpr ⟨role, hrole, bind_eq_ok.mpr ⟨(), hself, bind_eq_ok.mpr ⟨(), hshared, ?_⟩⟩⟩
  refine bind_eq_ok.mpr ⟨(), ?_, bind_eq_ok.mpr ⟨(), h.checkRotateRevokeCommon hcommon, rfl⟩⟩
  -- the owner devices that remain are still there
  rw [refuse_eq_ok]
  rintro ⟨htyp, hzero⟩
  exact h.countRemainingOwners (howner ((typ_of_importRole hrole).symm.trans htyp)) hzero

end

end Keys

/-! ## Playing on -/

/-- The players differ in the devices of `d` only, which the second one lets sign. -/
structure Sim (d : Set Team.FQEntityFixed) (p q : UserPlayer H) : Prop extends SamePuks p q where
  devInfo : q.devInfo = p.devInfo
  keys : MoreKeys d p.keys q.keys

/-- The device that a link adds, on the host of the user. -/
def adds (host : HostID) (odc : OpenDeviceChangeRes H) : Set Team.FQEntityFixed :=
  { k | k.host = host ∧ AddsDevice odc k.entity }

section Step

variable {a : PlayArg H} {puks : List (SharedPublicSuite H)} {ps : PublicSuite} {di : DeviceInfo H}
  {mk : Team.FQEntityFixed}

theorem adds_eq_singleton {dev : PublicSuite} {fid : FixedEntityID} (h : addedDevice odc = some dev)
    (hfid : dev.entityID.fixed = .ok fid) : adds host odc = {⟨host, fid⟩} := by
  ext ⟨host', e⟩
  rw [mem_singleton_iff, Team.FQEntityFixed.mk.injEq]
  refine and_congr_right fun _ => ?_
  constructor
  · rintro ⟨dev', hdev', he⟩
    obtain rfl := Option.mem_unique h hdev'
    exact ok_unique he hfid
  · rintro rfl
    exact ⟨dev, h, hfid⟩

theorem adds_eq_empty (h : addedDevice odc = none) : adds host odc = ∅ :=
  eq_empty_of_forall_notMem fun _ hk => not_addsDevice h hk.2

/-- The same name is taken from another list. -/
theorem NameTaken.of_names (hcommit : sv'.openCommitment = sv.openCommitment) {i j : ℕ} {c : H}
    {dn : Option DeviceLabelAndName} (hname : NameTaken sv a i c dn)
    (hnames : 0 < namesTaken a → names[j]? = a.deviceNames[i]?) :
    NameTaken sv' { a with deviceNames := names, allMerkleLeaves := leaves } j c dn := by
  unfold NameTaken at hname ⊢
  rw [hcommit]
  by_cases hself : a.loadMode = .self
  · rw [if_pos hself] at hname ⊢
    have htaken : 0 < namesTaken a := by
      rw [namesTaken, if_pos hself]
      exact one_pos
    rwa [hnames htaken]
  · rwa [if_neg hself] at hname ⊢

/-- The players may differ in their other fields. -/
theorem Sim.congr {p₁ q1 : UserPlayer H} (h : Sim d p q)
    (hp : SamePuks p p₁ ∧ p₁.devInfo = p.devInfo ∧ p₁.keys = p.keys)
    (hq : SamePuks q q1 ∧ q1.devInfo = q.devInfo ∧ q1.keys = q.keys) : Sim d p₁ q1 := by
  obtain ⟨hp, hpInfo, hpKeys⟩ := hp
  obtain ⟨hq, hqInfo, hqKeys⟩ := hq
  refine ⟨hp.symm.trans (h.toSamePuks.trans hq), ?_, ?_⟩
  · rw [hpInfo, hqInfo, h.devInfo]
  · rw [hpKeys, hqKeys]
    exact h.keys

theorem Sim.takeNames (h : Sim d p q) : Sim d (p.takeNames odc) (q.takeNames odc) :=
  h.congr ⟨⟨rfl, rfl, rfl, rfl⟩, rfl, rfl⟩ ⟨⟨rfl, rfl, rfl, rfl⟩, rfl, rfl⟩

theorem Sim.addPuks (h : Sim d p q) (hadd : addPuks puks p = (.ok (), p')) :
    Client.addPuks puks q = (.ok (), q.withPuks p') ∧ Sim d p' (q.withPuks p') := by
  have hsame := sameDevices_addPuks hadd
  refine ⟨addPuks_frame h.toSamePuks hadd, q.samePuks_withPuks p', ?_, ?_⟩
  · rw [hsame.devInfo]
    exact h.devInfo
  · rw [hsame.keys]
    exact h.keys

theorem addPuks_dnIdx (h : addPuks puks p = (.ok (), p')) : p'.dnIdx = p.dnIdx := by
  rw [state_unique h (addPuks_frame ⟨rfl, rfl, rfl, rfl⟩ h)]
  rfl

theorem putDevice_dnIdx : (putDevice mk ps di p).dnIdx = p.dnIdx := by
  rw [putDevice_frame]
  rfl

theorem samePuks_putDevice : SamePuks p (putDevice mk ps di p) := by
  rw [putDevice_frame]
  exact ⟨rfl, rfl, rfl, rfl⟩

theorem Sim.putDevice (h : Sim d p q) (hactive : di.revoked = none) :
    Sim (d \ {mk}) (putDevice mk ps di p) (Client.putDevice mk ps di q) := by
  refine ⟨samePuks_putDevice.symm.trans (h.toSamePuks.trans samePuks_putDevice), ?_, ?_⟩
  · rw [putDevice_devInfo, putDevice_devInfo, h.devInfo]
  · rw [putDevice_keys hactive, putDevice_keys hactive]
    exact h.keys.insert

theorem Sim.revokeDevice (h : Sim d p q) {lst : List (DeviceInfo H)}
    {info : RevokeInfo H} {rk : RoleKey} (hmem : mk ∈ p.keys) :
    Sim d (revokeDevice mk lst di info rk p) (revokeDevice mk lst di info rk q) where
  puks := h.puks
  puksByRole := h.puksByRole
  pukGens := h.pukGens
  stalePUKs := by
    unfold Client.revokeDevice
    rw [h.stalePUKs, h.puks]
  devInfo := by
    unfold Client.revokeDevice
    rw [h.devInfo]
  keys := h.keys.erase hmem

variable [DecidableEq H]

theorem LinkStep.dnIdx_le (h : LinkStep sv a odc p p') : p.dnIdx ≤ p'.dnIdx := by
  cases h with
  | eldest hseqno hopen huid hfid hname hkey hleaf hpuk =>
    have hidx := addPuks_dnIdx (addPuks_singleton.mpr hpuk)
    rw [hidx, firstDevice, putDevice_dnIdx]
    exact Nat.le_add_right ..
  | bare hseqno hsigner hnil hpuks => exact (addPuks_dnIdx hpuks).ge
  | revoke hseqno hsigner hone hnone hcheck hfid hlst hdi hrk hpuks => exact (addPuks_dnIdx hpuks).ge
  | provision hseqno hsigner hone hsome hcheck hfid hkey hname hvalid hleaf hpuks =>
    rw [addPuks_dnIdx hpuks, putDevice_dnIdx]
    exact Nat.le_add_right ..

/-- A link that one player accepts is accepted by the other one, and they stay in step. The second player
has other lists of names and leaves, where it finds the same ones. -/
theorem Sim.step (h : Sim d p q) (hcommit : sv'.openCommitment = sv.openCommitment)
    (hfirst : isEldest odc.gc.chainer.base.seqno = true → d = ∅)
    (hnames : ∀ i, p.dnIdx + i < p'.dnIdx → names[q.dnIdx + i]? = a.deviceNames[p.dnIdx + i]?)
    (hleaves : leaves[odc.gc.chainer.base.seqno - 1]? =
      a.allMerkleLeaves[odc.gc.chainer.base.seqno - 1]?) (hstep : LinkStep sv a odc p p') :
    ∃ q', LinkStep sv' { a with deviceNames := names, allMerkleLeaves := leaves } odc q q' ∧
      Sim (d \ adds a.host odc) p' q' ∧ q'.dnIdx + p.dnIdx = p'.dnIdx + q.dnIdx := by
  cases hstep with
  | @eldest oer fid dn key leaf p₁ hseqno hopen huid hfid hname hkey hleaf hpuk =>
    have hidx : p₁.dnIdx = p.dnIdx + namesTaken a := by
      rw [addPuks_dnIdx (addPuks_singleton.mpr hpuk), firstDevice, putDevice_dnIdx]
    have hleaf' : leaves[0]? = some leaf := by
      rw [isEldest, beq_iff_eq] at hseqno
      rw [hseqno] at hleaves
      exact hleaves.trans hleaf
    -- no device is let sign before the first link
    obtain rfl := hfirst hseqno
    let a' : PlayArg H := { a with deviceNames := names, allMerkleLeaves := leaves }
    have hdevice :
        Sim ∅ (firstDevice a odc oer fid dn key leaf p)
            (firstDevice a' odc oer fid dn key leaf q) := by
      have hstart :
          Sim ∅ { p with dnIdx := p.dnIdx + namesTaken a }
              { q with dnIdx := q.dnIdx + namesTaken a } :=
        h.congr ⟨⟨rfl, rfl, rfl, rfl⟩, rfl, rfl⟩ ⟨⟨rfl, rfl, rfl, rfl⟩, rfl, rfl⟩
      rw [← empty_sdiff {⟨a.host, fid⟩}]
      exact (hstart.putDevice rfl).congr ⟨⟨rfl, rfl, rfl, rfl⟩, rfl, rfl⟩ ⟨⟨rfl, rfl, rfl, rfl⟩, rfl, rfl⟩
    obtain ⟨hpuk', hsim⟩ := hdevice.addPuks (addPuks_singleton.mpr hpuk)
    refine ⟨_, .eldest hseqno hopen huid hfid (hname.of_names hcommit fun htaken => ?_) hkey hleaf'
      (addPuks_singleton.mp hpuk'), ?_, ?_⟩
    · refine hnames 0 ?_
      dsimp only
      omega
    · rw [empty_sdiff]
      exact hsim.congr ⟨⟨rfl, rfl, rfl, rfl⟩, rfl, rfl⟩ ⟨⟨rfl, rfl, rfl, rfl⟩, rfl, rfl⟩
    rw [addPuks_dnIdx hpuk', hidx, firstDevice, putDevice_dnIdx]
    dsimp only [a', namesTaken]
    omega
  | bare hseqno hsigner hnil hpuks =>
    obtain ⟨hpuks', hsim⟩ := h.takeNames.addPuks hpuks
    refine ⟨_, .bare hseqno (h.keys.activeDevice hsigner) hnil hpuks', ?_, ?_⟩
    · rw [adds_eq_empty (addedDevice_eq_none ?_), sdiff_empty]
      · exact hsim
      intro target hone
      rw [hnil] at hone
      cases hone
    · rw [addPuks_dnIdx hpuks]
      exact add_comm ..
  | @revoke target res fid lst di rk _ hseqno hsigner hone hnone hcheck hfid hlst hdi hrk hpuks =>
    obtain ⟨fid', dev, hfid', hdev, -⟩ := checkDeviceRevoke_eq_ok hcheck
    obtain rfl := ok_unique hfid hfid'
    have hmem : (⟨a.host, fid⟩ : Team.FQEntityFixed) ∈ (p.takeNames odc).keys :=
      Map.mem_iff.mpr ⟨dev, hdev⟩
    obtain ⟨hpuks', hsim⟩ := (h.takeNames.revokeDevice hmem).addPuks hpuks
    have hcheck' := h.keys.checkDeviceRevoke hcheck
    rw [← h.pukGens] at hcheck'
    rw [← h.devInfo] at hlst
    refine ⟨_, .revoke hseqno (h.keys.activeDevice hsigner) hone hnone hcheck' hfid hlst hdi hrk hpuks', ?_, ?_⟩
    · rw [adds_eq_empty (addedDevice_eq_none ?_), sdiff_empty]
      · exact hsim
      intro target' hone'
      rw [hone] at hone'
      cases hone'
      exact hnone
    · rw [addPuks_dnIdx hpuks]
      exact add_comm ..
  | @provision target res fid key dn leaf _ hseqno hsigner hone hsome hcheck hfid hkey hname hvalid
      hleaf hpuks =>
    obtain ⟨hnew, hgc⟩ := newDevice_of_openDeviceProvision hcheck
    have hidx : p'.dnIdx = p.dnIdx + namesTaken a := by
      rw [addPuks_dnIdx hpuks, putDevice_dnIdx]
    have hleaf' : leaves[res.gc.chainer.base.seqno - 1]? = some leaf := by
      rw [hgc] at hleaf ⊢
      exact hleaves.trans hleaf
    have hstart : Sim d { p.takeNames odc with dnIdx := p.dnIdx + namesTaken a }
        { q.takeNames odc with dnIdx := q.dnIdx + namesTaken a } :=
      h.congr ⟨⟨rfl, rfl, rfl, rfl⟩, rfl, rfl⟩ ⟨⟨rfl, rfl, rfl, rfl⟩, rfl, rfl⟩
    obtain ⟨hpuks', hsim⟩ := (hstart.putDevice rfl).addPuks hpuks
    have hcheck' := h.keys.openDeviceProvision hcheck
    rw [← h.pukGens] at hcheck'
    refine ⟨_, .provision hseqno (h.keys.activeDevice hsigner) hone hsome hcheck' hfid hkey
      (hname.of_names hcommit fun htaken => ?_) hvalid hleaf' hpuks', ?_, ?_⟩
    · exact hnames 0 (by omega)
    · rwa [adds_eq_singleton ((addedDevice_eq hone hsome).trans hnew) hfid]
    rw [addPuks_dnIdx hpuks', putDevice_dnIdx]
    dsimp only
    omega

end Step

section Run

variable [DecidableEq H] {a : PlayArg H} {odcs : List (OpenDeviceChangeRes H)}

theorem dnIdx_le_of_playLinks (h : playLinks sv a odcs p = (.ok (), p')) : p.dnIdx ≤ p'.dnIdx := by
  induction odcs generalizing p with
  | nil =>
    cases h
    exact le_refl _
  | cons odc odcs ih =>
    obtain ⟨⟨⟩, p₁, hlink, hrest⟩ := bind_eq_ok.mp h
    exact (playLink_eq_ok.mp hlink).dnIdx_le.trans (ih hrest)

/-- Links that one player accepts are accepted by the other one. Of the devices of `d` those are left that
no link adds. -/
theorem Sim.playLinks (h : Sim d p q) (hcommit : sv'.openCommitment = sv.openCommitment)
    (hfirst : ∀ odc ∈ odcs, isEldest odc.gc.chainer.base.seqno = true → d = ∅)
    (hnames : ∀ i, p.dnIdx + i < p'.dnIdx → names[q.dnIdx + i]? = a.deviceNames[p.dnIdx + i]?)
    (hleaves : ∀ odc ∈ odcs,
      leaves[odc.gc.chainer.base.seqno - 1]? = a.allMerkleLeaves[odc.gc.chainer.base.seqno - 1]?)
    (hplay : playLinks sv a odcs p = (.ok (), p')) :
    ∃ q', Client.playLinks sv'
        { a with deviceNames := names, allMerkleLeaves := leaves } odcs q = (.ok (), q') ∧
      Sim { k ∈ d | ∀ odc ∈ odcs, k ∉ adds a.host odc } p' q' ∧
      q'.dnIdx + p.dnIdx = p'.dnIdx + q.dnIdx := by
  induction odcs generalizing d p q with
  | nil =>
    cases hplay
    refine ⟨q, rfl, ?_, add_comm ..⟩
    have hall : { k ∈ d | ∀ odc ∈ ([] : List (OpenDeviceChangeRes H)), k ∉ adds a.host odc } = d :=
      ext fun k => and_iff_left (forall_mem_nil _)
    rwa [hall]
  | cons odc odcs ih =>
    obtain ⟨⟨⟩, p₁, hlink, hrest⟩ := bind_eq_ok.mp hplay
    have hstep := playLink_eq_ok.mp hlink
    have hle := hstep.dnIdx_le
    have hle' := dnIdx_le_of_playLinks hrest
    rw [forall_mem_cons] at hfirst hleaves
    obtain ⟨q1, hstep', hsim, hidx⟩ :=
      h.step hcommit hfirst.1 (fun i hi => hnames i (by omega)) hleaves.1 hstep
    have hfirst' : ∀ odc' ∈ odcs, isEldest odc'.gc.chainer.base.seqno = true → d \ adds a.host odc = ∅ := by
      intro odc' hodc' heldest
      rw [hfirst.2 odc' hodc' heldest, empty_sdiff]
    have hnames' : ∀ i, p₁.dnIdx + i < p'.dnIdx → names[q1.dnIdx + i]? = a.deviceNames[p₁.dnIdx + i]? := by
      intro i hi
      have hnext := hnames (p₁.dnIdx - p.dnIdx + i) (by omega)
      have hq : q.dnIdx + (p₁.dnIdx - p.dnIdx + i) = q1.dnIdx + i := by omega
      have hp : p.dnIdx + (p₁.dnIdx - p.dnIdx + i) = p₁.dnIdx + i := by omega
      rwa [hq, hp] at hnext
    obtain ⟨q', hplay', hsim', hidx'⟩ := ih hsim hfirst' hnames' hleaves.2 hrest
    refine ⟨q', bind_eq_ok.mpr ⟨(), q1, playLink_eq_ok.mpr hstep', hplay'⟩, ?_, by omega⟩
    have hall : { k ∈ d | ∀ odc' ∈ odc :: odcs, k ∉ adds a.host odc' } =
        { k ∈ d \ adds a.host odc | ∀ odc' ∈ odcs, k ∉ adds a.host odc' } := by
      simp only [forall_mem_cons, mem_sdiff, and_assoc]
    rwa [hall]

end Run

/-! ## The PUKs and names of the links -/

/-- How many names of the reply the new devices of the links use up. -/
def namesUsed (a : PlayArg H) (links : List (OpenDeviceChangeRes H)) : ℕ :=
  links.countP (fun odc => (addedDevice odc).isSome) * namesTaken a

section Links

theorem HoldsPuks.congr (h : HoldsPuks l p) (hpuks : q.puks = p.puks)
    (hbyRole : q.puksByRole = p.puksByRole) (hgens : q.pukGens = p.pukGens) : HoldsPuks l q :=
  ⟨h.roles, h.ordered, hbyRole ▸ h.byRole, hgens ▸ h.gens, hpuks ▸ h.puks⟩

theorem HoldsPuks.samePuks (h : HoldsPuks l p) (hsame : SamePuks p q) : HoldsPuks l q :=
  h.congr hsame.puks hsame.puksByRole hsame.pukGens

variable [DecidableEq H] {a : PlayArg H}

/-- A link adds its PUKs, and no other ones. -/
theorem HoldsPuks.step (h : HoldsPuks l p) (hstep : LinkStep sv a odc p p') :
    HoldsPuks (l ++ odc.sharedKeys) p' := by
  cases hstep with
  | @eldest oer fid dn key leaf p₁ hseqno hopen huid hfid hname hkey hleaf hpuk =>
    obtain ⟨-, -, hshared, -⟩ := device_of_openEldestLinkWithODC hopen
    rw [hshared]
    have hstart : HoldsPuks l { p with dnIdx := p.dnIdx + namesTaken a } := h.congr rfl rfl rfl
    have hdevice : HoldsPuks l (firstDevice a odc oer fid dn key leaf p) :=
      (hstart.samePuks samePuks_putDevice).congr rfl rfl rfl
    exact (hdevice.addPuks (addPuks_singleton.mpr hpuk)).congr rfl rfl rfl
  | bare hseqno hsigner hnil hpuks =>
    have hstart : HoldsPuks l (p.takeNames odc) := h.congr rfl rfl rfl
    exact hstart.addPuks hpuks
  | revoke hseqno hsigner hone hnone hcheck hfid hlst hdi hrk hpuks =>
    refine HoldsPuks.addPuks ?_ hpuks
    exact h.congr rfl rfl rfl
  | provision hseqno hsigner hone hsome hcheck hfid hkey hname hvalid hleaf hpuks =>
    have hstart : HoldsPuks l { p.takeNames odc with dnIdx := p.dnIdx + namesTaken a } :=
      h.congr rfl rfl rfl
    exact (hstart.samePuks samePuks_putDevice).addPuks hpuks

theorem holdsPuks_of_playLinks (h : playLinks sv a links {} = (.ok (), p)) :
    HoldsPuks (links.flatMap (·.sharedKeys)) p := by
  induction links using List.reverseRecOn generalizing p with
  | nil =>
    cases h
    exact holdsPuks_empty
  | append_singleton links odc ih =>
    obtain ⟨v, hlinks, hstep⟩ := playLinks_concat h
    rw [flatMap_append, flatMap_singleton]
    exact (ih hlinks).step hstep

/-- A new device takes its name, and nothing else does. -/
theorem LinkStep.dnIdx (h : LinkStep sv a odc p p') (hadded : addedDevice odc = odc.newDevice) :
    p'.dnIdx = p.dnIdx + namesUsed a [odc] := by
  have hone {dev : PublicSuite} (hdev : addedDevice odc = some dev) : namesUsed a [odc] = namesTaken a := by
    simp [namesUsed, hdev]
  have hzero (hnone : addedDevice odc = none) : namesUsed a [odc] = 0 := by
    simp [namesUsed, hnone]
  cases h with
  | eldest hseqno hopen huid hfid hname hkey hleaf hpuk =>
    rw [addPuks_dnIdx (addPuks_singleton.mpr hpuk), firstDevice, putDevice_dnIdx,
      hone (hadded.trans (device_of_openEldestLinkWithODC hopen).1)]
  | bare hseqno hsigner hnil hpuks =>
    rw [addPuks_dnIdx hpuks, hzero (addedDevice_eq_none fun target hone => ?_)]
    · rfl
    · rw [hnil] at hone
      cases hone
  | revoke hseqno hsigner hchange hnone hcheck hfid hlst hdi hrk hpuks =>
    rw [addPuks_dnIdx hpuks, hzero (addedDevice_eq_none fun target' hchange' => ?_)]
    · rfl
    rw [hchange] at hchange'
    cases hchange'
    exact hnone
  | provision hseqno hsigner hchange hsome hcheck hfid hkey hname hvalid hleaf hpuks =>
    rw [addPuks_dnIdx hpuks, putDevice_dnIdx, hone (hadded.trans (newDevice_of_openDeviceProvision hcheck).1)]

theorem dnIdx_of_playLinks (hadded : ∀ odc ∈ links, addedDevice odc = odc.newDevice)
    (h : playLinks sv a links {} = (.ok (), p)) : p.dnIdx = namesUsed a links := by
  induction links using List.reverseRecOn generalizing p with
  | nil =>
    cases h
    simp [namesUsed]
  | append_singleton links odc ih =>
    obtain ⟨v, hlinks, hstep⟩ := playLinks_concat h
    rw [forall_mem_append] at hadded
    rw [hstep.dnIdx (hadded.2 odc mem_cons_self), ih hadded.1 hlinks]
    simp only [namesUsed, countP_append, Nat.add_mul]

end Links

/-! ## Reading the saved state -/

section Existing

theorem readStaleKeys_eq (l : List RoleKey) (q : UserPlayer H) : readStaleKeys (l.map (·.exportRole)) q =
      (.ok (), { q with stalePUKs := q.stalePUKs ∪ l.toFinset }) := by
  induction l generalizing q with
  | nil =>
    rw [toFinset_nil, Finset.union_empty]
    rfl
  | cons rk l ih =>
    refine Action.lift_bind_eq_ok.mpr ⟨rk, importRole_exportRole rk, ?_⟩
    refine bind_eq_ok.mpr ⟨(), _, rfl, ?_⟩
    rw [ih, toFinset_cons, Finset.insert_union, Finset.union_insert]

/-- What `saveState` keeps of a player. -/
structure Saves (hepks : HEPKSet H) (p : UserPlayer H) (st : UserSigchainState H) : Prop where
  hepks : st.hepks = hepks
  devices : exportDevices p = .ok st.devices
  puks : (st.puks : Multiset (SharedKey H)) = p.puks.values.map (·.toSharedKey)
  stalePUKs : st.stalePUKs = (sorted p.stalePUKs).map (·.exportRole)

variable [DecidableEq H] {hepks : HEPKSet H} {st : UserSigchainState H}

variable (hsaves : Saves hepks p st) (hdevices : PlayedDevices hepks host links p) (hpuks : HoldsPuks l p)

include hsaves hdevices hpuks

/-- A new player that has read the devices has no PUKs yet. -/
theorem Saves.readKeys : ∃ q, Client.readKeys host hepks st.devices {} = (.ok (), q) ∧
      q = ({} : UserPlayer H).withDevices q ∧ q.devInfo = p.devInfo ∧
      MoreKeys (leftActive host links) p.keys q.keys ∧
      st.puks.Perm (l.map (·.toSharedKey)) ∧ HoldsPuks [] q := by
  obtain ⟨ds, q, hexport, hread, hframe, hinfo, hkeys⟩ := hdevices.readKeys
  obtain rfl := ok_unique hsaves.devices hexport
  refine ⟨q, hread, hframe, hinfo, hkeys, ?_, ?_⟩
  · rw [← Multiset.coe_eq_coe, hsaves.puks, hpuks.values_eq, Multiset.map_coe]
  · rw [hframe]
    exact holdsPuks_empty.congr rfl rfl rfl

variable (hhepks : ∀ puk ∈ l, hepks.lookup puk.hepkFp = some puk.hepk)

include hhepks

/-- A new player can read the state if and only if the PUKs of each role are in order. -/
theorem Saves.readExisting_iff : (∃ q, readExisting host st {} = (.ok (), q)) ↔ InOrder st.puks := by
  obtain ⟨q1, hread, -, -, -, hperm, hnew⟩ := hsaves.readKeys hdevices hpuks
  obtain rfl := hsaves.hepks
  rw [← hpuks.readPuks_iff hhepks hperm hnew]
  constructor
  · rintro ⟨q, hq⟩
    obtain ⟨⟨⟩, q1', hread', h1⟩ := bind_eq_ok.mp hq
    obtain rfl := state_unique hread hread'
    obtain ⟨⟨⟩, q2, hpuks', -⟩ := bind_eq_ok.mp h1
    exact ⟨q2, hpuks'⟩
  · rintro ⟨q2, hpuks'⟩
    have hstale := readStaleKeys_eq (sorted p.stalePUKs) q2
    rw [← hsaves.stalePUKs] at hstale
    exact ⟨_, bind_eq_ok.mpr ⟨(), q1, hread, bind_eq_ok.mpr ⟨(), q2, hpuks',
      bind_eq_ok.mpr ⟨(), _, hstale, rfl⟩⟩⟩⟩

/-- The player that has read the state is the one that was saved, except that it lets those devices sign
that were left active. -/
theorem Saves.sim_of_readExisting (hexisting : readExisting host st {} = (.ok (), q)) :
    Sim (leftActive host links) p q ∧ q.dnIdx = 0 := by
  obtain ⟨q1, hread, hframe, hinfo, hkeys, hperm, hnew⟩ := hsaves.readKeys hdevices hpuks
  obtain rfl := hsaves.hepks
  have hfresh : q1.stalePUKs = ∅ := by
    rw [hframe]
    rfl
  obtain ⟨⟨⟩, q1', hread', h1⟩ := bind_eq_ok.mp hexisting
  obtain rfl := state_unique hread hread'
  obtain ⟨⟨⟩, q2, hpuks', h2⟩ := bind_eq_ok.mp h1
  obtain rfl := hpuks.readPuks hhepks hperm hnew hfresh hpuks'
  obtain ⟨⟨⟩, q3, hstale, h3⟩ := bind_eq_ok.mp h2
  rw [hsaves.stalePUKs, readStaleKeys_eq] at hstale
  cases hstale
  cases h3
  refine ⟨⟨⟨rfl, rfl, rfl, ?_⟩, hinfo, hkeys⟩, ?_⟩
  · rw [hfresh, Finset.empty_union]
    ext rk
    rw [List.mem_toFinset, mem_sorted]
  rw [hframe]
  rfl

end Existing

/-! ## Resuming -/

/-- What the first loader has for its links: the first names and leaves. -/
def PlayArg.upTo (a : PlayArg H) (first : List (OpenDeviceChangeRes H)) : PlayArg H :=
  { a with
    deviceNames := a.deviceNames.take (namesUsed a first)
    allMerkleLeaves := a.allMerkleLeaves.take first.length }

/-- What the second loader has for the links after them: the names that are left. The leaves of the first
links are saved. -/
def PlayArg.after (a : PlayArg H) (first : List (OpenDeviceChangeRes H)) : PlayArg H :=
  { a with
    deviceNames := a.deviceNames.drop (namesUsed a first)
    allMerkleLeaves := a.allMerkleLeaves }

/-- The links of a chain have consecutive numbers. -/
def NumberedLinks (links : List (OpenDeviceChangeRes H)) : Prop :=
  ∀ i odc, links[i]? = some odc → odc.gc.chainer.base.seqno = chainEldestSeqno + i

theorem numberedLinks_iff (links : List (OpenDeviceChangeRes H)) :
    (∀ i, (links.get i).gc.chainer.base.seqno = chainEldestSeqno + i) ↔ NumberedLinks links := by
  constructor
  · intro h i odc hodc
    obtain ⟨hi, rfl⟩ := List.getElem?_eq_some_iff.mp hodc
    exact h ⟨i, hi⟩
  · exact fun h i => h i _ (List.getElem?_eq_getElem i.isLt)

instance (links : List (OpenDeviceChangeRes H)) : Decidable (NumberedLinks links) :=
  decidable_of_iff _ (numberedLinks_iff links)

/-- What `slices.SortFunc` promises of the PUKs that are saved. -/
def SortsPuks (sortPuks : PukMap H → List (SharedKey H)) : Prop :=
  ∀ m : PukMap H, Sorts comparePuks (m.values.map (·.toSharedKey)) (sortPuks m)

/-- The players agree on all that is known about the user. -/
structure SameView (p q : UserPlayer H) : Prop where
  keys : q.keys = p.keys
  devInfo : q.devInfo = p.devInfo
  pukGens : q.pukGens = p.pukGens
  puksByRole : q.puksByRole = p.puksByRole
  stalePUKs : q.stalePUKs = p.stalePUKs

section Resume

variable [DecidableEq H] [MerkleHash H] {L : Type}

/-- Play the links of a loader, save its state, read it in a new loader, and play on. With no links there
is nothing to save, and the new loader finds no state. -/
def resume (sv : Services H) (host : HostID) (raw : UserChain L H) (next : PlayArg H)
    (rest : List (OpenDeviceChangeRes H)) : Action (UserLoader H) CoreError Unit := do
  let u ← .read id
  UserLoader.playing (playLinks sv (u.playArg host raw) u.odcs)
  let u ← .read id
  let saved := (saveUserState sv raw u).toOption
  .update fun u => newUserLoader u.arg
  loadExistingUser host saved
  UserLoader.playing (playLinks sv next rest)

/-- The player of a new loader that has read the saved state, if there is one. -/
def Restores (host : HostID) (saved : Option (UserSigchainState H)) (q : UserPlayer H) : Prop :=
  match saved with
  | none => q = {}
  | some st => readExisting host st {} = (.ok (), q)

variable [LinkFormat L H]

/-- A loader that found no state, has opened and checked the links `first`, and plays them next. -/
structure FirstLoad (sv : Services H) (a : PlayArg H) (raw : UserChain L H)
    (first : List (OpenDeviceChangeRes H)) (u : UserLoader H) : Prop where
  existing : u.existing = none
  player : u.player = {}
  odcs : u.odcs = first
  playArg : u.playArg a.host raw = a.upTo first
  opened : List.Forall₂ (fun link odc => openDeviceChange link u.hepks (some u.arg.uid) a.host = .ok odc)
    raw.links first
  lastHash : first ≠ [] → ∃ hash, u.base.lastHash = some hash
  named : ∃ b, newNameBundle sv raw.usernameUtf8 = .ok b

variable {sv : Services H} {a : PlayArg H} {raw : UserChain L H} {u u' : UserLoader H}
  {first rest : List (OpenDeviceChangeRes H)} {p p₁ q : UserPlayer H} {sortPuks : PukMap H → List (SharedKey H)}
  {host : HostID}

omit [DecidableEq H] in
theorem FirstLoad.openedWith [DecidableEq H] (h : FirstLoad sv a raw first u) :
    ∀ odc ∈ first, OpenedWith u.hepks a.host odc := by
  intro odc hodc
  obtain ⟨i, hi, rfl⟩ := mem_iff_getElem.mp hodc
  have hi' : i < raw.links.length := h.opened.length_eq ▸ hi
  exact openedWith_of_openDeviceChange (h.opened.get hi' hi)

/-- The first loader accepts the first links, too. -/
theorem FirstLoad.playLinks (h : FirstLoad sv a raw first u) (hnumbered : NumberedLinks (first ++ rest))
    (hplay : playLinks sv a first {} = (.ok (), p₁)) :
    ∃ q, Client.playLinks { sv with sortPuks } (a.upTo first) first {} = (.ok (), q) ∧ Sim ∅ p₁ q := by
  have hsim : Sim ∅ ({} : UserPlayer H) {} :=
    ⟨⟨rfl, rfl, rfl, rfl⟩, rfl, fun _ _ => rfl, fun _ h => absurd h (notMem_empty _),
      fun _ h => absurd h (notMem_empty _)⟩
  have hidx := dnIdx_of_playLinks (fun odc hodc => (h.openedWith odc hodc).added) hplay
  have hcommit : ({ sv with sortPuks } : Services H).openCommitment = sv.openCommitment := rfl
  have hnames : ∀ i, 0 + i < p₁.dnIdx →
      (a.deviceNames.take (namesUsed a first))[0 + i]? = a.deviceNames[0 + i]? := by
    intro i hi
    rw [hidx] at hi
    exact List.getElem?_take_of_lt hi
  have hleaves : ∀ odc ∈ first, (a.allMerkleLeaves.take first.length)[odc.gc.chainer.base.seqno - 1]? =
        a.allMerkleLeaves[odc.gc.chainer.base.seqno - 1]? := by
    intro odc hodc
    obtain ⟨i, hi, rfl⟩ := mem_iff_getElem.mp hodc
    have hget : (first ++ rest)[i]? = some first[i] := by
      rw [List.getElem?_append_left hi, List.getElem?_eq_getElem hi]
    rw [hnumbered i _ hget]
    refine List.getElem?_take_of_lt ?_
    rw [chainEldestSeqno]
    omega
  obtain ⟨q, hq, hsim', -⟩ := hsim.playLinks hcommit (fun _ _ _ => rfl) hnames hleaves hplay
  refine ⟨q, hq, ?_⟩
  have hempty : { k ∈ (∅ : Set Team.FQEntityFixed) | ∀ odc ∈ first, k ∉ adds a.host odc } = ∅ :=
    eq_empty_of_forall_notMem fun k hk => hk.1
  rwa [hempty] at hsim'

/-- What the first loader saves. -/
theorem FirstLoad.saveUserState (h : FirstLoad sv a raw first u) (hne : first ≠ [])
    (hsort : (sortPuks p.puks : Multiset (SharedKey H)) = p.puks.values.map (·.toSharedKey))
    {ds : List (DeviceInfo H)} (hdevices : exportDevices p = .ok ds) :
    ∃ st, Client.saveUserState { sv with sortPuks } raw { u with player := p } = .ok st ∧
      Saves u.hepks p st ∧ st.puks = sortPuks p.puks := by
  have hlength := h.opened.length_eq
  have hlinks : raw.links ≠ [] := by
    intro hnil
    rw [hnil] at hlength
    exact hne (eq_nil_of_length_eq_zero hlength.symm)
  obtain ⟨b, hb⟩ := h.named
  obtain ⟨hash, hhash⟩ := h.lastHash hne
  have hlast : raw.links.length - 1 < first.length := by
    have := length_pos_of_ne_nil hne
    omega
  have hodc : u.odcs[raw.links.length - 1]? = some first[raw.links.length - 1] := by
    rw [h.odcs]
    exact List.getElem?_eq_getElem hlast
  let st : UserSigchainState H := {
    tail := first[raw.links.length - 1].gc.chainer
    lastHash := hash
    username := ⟨b, u.unseq⟩
    puks := sortPuks p.puks
    devices := ds
    sctlsc := p.sctlsc.getD MerkleHash.zero
    merkleLeaves := u.allMerkleLeaves
    hepks := u.hepks
    stalePUKs := (sorted p.stalePUKs).map (·.exportRole) }
  refine ⟨st, ?_, ⟨rfl, hdevices, hsort, rfl⟩, rfl⟩
  refine bind_eq_ok.mpr ⟨(), refuse_eq_ok.mpr fun hboth => hlinks hboth.2, ?_⟩
  refine bind_eq_ok.mpr ⟨b, hb, ?_⟩
  split
  · next hnil _ => exact absurd hnil hlinks
  · rw [hodc, hhash]
    exact bind_eq_ok.mpr ⟨ds, hdevices, rfl⟩

omit [MerkleHash H] [LinkFormat L H] in
theorem loadExistingUser_new {saved : Option (UserSigchainState H)} {arg : LoadUserArg} :
    (∃ u', loadExistingUser host saved (newUserLoader arg) = (.ok (), u') ∧ u'.player = q) ↔
        Restores host saved q := by
  cases saved with
  | none =>
    constructor
    · rintro ⟨u', hload, rfl⟩
      cases hload
      rfl
    · rintro rfl
      exact ⟨_, rfl, rfl⟩
  | some st =>
    constructor
    · rintro ⟨u', hload, rfl⟩
      have hexisting := update_bind_eq_ok.mp hload
      obtain ⟨q, hq, rfl⟩ := within_eq_ok.mp hexisting
      exact hq
    · intro hq
      refine ⟨_, bind_eq_ok.mpr ⟨(), _, rfl, within_eq_ok.mpr ⟨q, hq, rfl⟩⟩, rfl⟩

omit [LinkFormat L H] in
/-- Resuming, as a run of the players. -/
theorem resume_eq_ok {next : PlayArg H} :
    (∃ u', resume sv host raw next rest u = (.ok (), u') ∧ u'.player = q) ↔
      ∃ p2 q1, Client.playLinks sv (u.playArg host raw) u.odcs u.player = (.ok (), p2) ∧
        Restores host (Client.saveUserState sv raw { u with player := p2 }).toOption q1 ∧
        Client.playLinks sv next rest q1 = (.ok (), q) := by
  constructor
  · rintro ⟨u', hresume, rfl⟩
    have h1 := read_bind_eq_ok.mp hresume
    obtain ⟨⟨⟩, u2, hplaying, h2⟩ := bind_eq_ok.mp h1
    obtain ⟨p2, hplay, rfl⟩ := within_eq_ok.mp hplaying
    have h3 := read_bind_eq_ok.mp h2
    have h4 := update_bind_eq_ok.mp h3
    obtain ⟨⟨⟩, u6, hload, h5⟩ := bind_eq_ok.mp h4
    obtain ⟨q, hplay', rfl⟩ := within_eq_ok.mp h5
    exact ⟨p2, u6.player, hplay, loadExistingUser_new.mp ⟨u6, hload, rfl⟩, hplay'⟩
  · rintro ⟨p2, q1, hplay, hrestores, hplay'⟩
    obtain ⟨u6, hload, rfl⟩ : ∃ u6, loadExistingUser host _ (newUserLoader u.arg) = (.ok (), u6) ∧
        u6.player = q1 :=
      loadExistingUser_new.mpr hrestores
    refine ⟨{ u6 with player := q }, ?_, rfl⟩
    refine bind_eq_ok.mpr ⟨u, u, rfl, ?_⟩
    refine bind_eq_ok.mpr ⟨(), _, within_eq_ok.mpr ⟨p2, hplay, rfl⟩, ?_⟩
    refine bind_eq_ok.mpr ⟨_, _, rfl, bind_eq_ok.mpr ⟨(), _, rfl, ?_⟩⟩
    exact bind_eq_ok.mpr ⟨(), u6, hload, within_eq_ok.mpr ⟨q, hplay', rfl⟩⟩

/-- The state that the first loader saves can be read if and only if the PUKs of each role are in order, and
what is read is the player that was saved, except for the devices that were left active. -/
theorem FirstLoad.restores (h : FirstLoad sv a raw first u) (hnumbered : NumberedLinks (first ++ rest))
    (hfirst : Client.playLinks sv a first {} = (.ok (), p₁))
    (hsort : (sortPuks p₁.puks : Multiset (SharedKey H)) = p₁.puks.values.map (·.toSharedKey)) :
    ∃ p2, Client.playLinks { sv with sortPuks } (a.upTo first) first {} = (.ok (), p2) ∧
      let saved := (Client.saveUserState { sv with sortPuks } raw { u with player := p2 }).toOption
      ((∃ q, Restores a.host saved q) ↔ InOrder (sortPuks p₁.puks)) ∧
      ∀ q, Restores a.host saved q → Sim (leftActive a.host first) p₁ q ∧ q.dnIdx = 0 := by
  obtain ⟨p2, hplay, hsim⟩ := h.playLinks hnumbered hfirst
  refine ⟨p2, hplay, ?_⟩
  intro saved
  have hkeys : p2.keys = p₁.keys := hsim.keys.eq_iff.mpr rfl
  by_cases hne : first = []
  · -- nothing is saved
    subst hne
    cases hfirst
    have hnone : saved = none := by
      have hlinks : raw.links = [] := eq_nil_of_length_eq_zero h.opened.length_eq
      dsimp only [saved]
      unfold Client.saveUserState
      rw [refuse, if_pos ⟨h.existing, hlinks⟩]
      rfl
    have hnil : sortPuks (∅ : PukMap H) = [] := by
      have hzero : (∅ : PukMap H).values = 0 := rfl
      rw [← Multiset.coe_eq_zero, hsort, hzero, Multiset.map_zero]
    have hleft : leftActive a.host ([] : List (OpenDeviceChangeRes H)) = ∅ :=
      eq_empty_of_forall_notMem fun k hk => not_addedAgain_nil hk.2.1
    rw [hnone, hleft]
    refine ⟨iff_of_true ⟨{}, rfl⟩ ?_, ?_⟩
    · rw [hnil]
      exact .nil
    · rintro q rfl
      refine ⟨⟨⟨rfl, rfl, rfl, rfl⟩, rfl, fun _ _ => rfl, ?_, ?_⟩, rfl⟩
      · exact fun _ h => absurd h (notMem_empty _)
      · exact fun _ h => absurd h (notMem_empty _)
  · have hopened := h.openedWith
    have hopened' : ∀ odc ∈ first, OpenedWith u.hepks (a.upTo first).host odc := hopened
    have hdevices := playedDevices_of_playLinks hopened' hplay
    have hpuks := holdsPuks_of_playLinks hplay
    have hhepks : ∀ puk ∈ first.flatMap (·.sharedKeys), u.hepks.lookup puk.hepkFp = some puk.hepk := by
      intro puk hpuk
      obtain ⟨odc, hodc, hpuk⟩ := mem_flatMap.mp hpuk
      exact (hopened odc hodc).puks puk hpuk
    obtain ⟨ds, -, hds, -⟩ := hdevices.readKeys
    rw [← hsim.puks] at hsort ⊢
    obtain ⟨st, hst, hsaves, hstPuks⟩ := h.saveUserState hne hsort hds
    have hsome : saved = some st := by
      dsimp only [saved]
      rw [hst]
      rfl
    rw [hsome, ← hstPuks]
    refine ⟨hsaves.readExisting_iff hdevices hpuks hhepks, fun q hq => ?_⟩
    obtain ⟨hread, hidx⟩ := hsaves.sim_of_readExisting hdevices hpuks hhepks hq
    exact ⟨hread.congr ⟨hsim.toSamePuks.symm, hsim.devInfo.symm, hkeys.symm⟩ ⟨⟨rfl, rfl, rfl, rfl⟩,
      rfl, rfl⟩, hidx⟩

/-- The devices that are let sign in the end: those that were left active and that no later link adds. -/
def leftAfter (host : HostID) (first rest : List (OpenDeviceChangeRes H)) : Set Team.FQEntityFixed :=
  { k ∈ leftActive host first | ∀ odc ∈ rest, k ∉ adds host odc }

section

variable (h : FirstLoad sv a raw first u) (hfirst : Client.playLinks sv a first {} = (.ok (), p₁))

include h hfirst

/-- Resuming goes through if and only if the PUKs are saved in order, and gives the player of the whole
chain, except for some devices that it lets sign. -/
theorem FirstLoad.resume_iff (hnumbered : NumberedLinks (first ++ rest))
    (hrest : Client.playLinks sv a rest p₁ = (.ok (), p))
    (hsort : (sortPuks p₁.puks : Multiset (SharedKey H)) = p₁.puks.values.map (·.toSharedKey)) :
    ((∃ u', resume { sv with sortPuks } a.host raw (a.after first) rest u = (.ok (), u')) ↔
        InOrder (sortPuks p₁.puks)) ∧
      ∀ u', resume { sv with sortPuks } a.host raw (a.after first) rest u = (.ok (), u') →
        Sim (leftAfter a.host first rest) p u'.player := by
  obtain ⟨p2, hplay, hread, hsim⟩ := h.restores hnumbered hfirst hsort
  have hidx := dnIdx_of_playLinks (fun odc hodc => (h.openedWith odc hodc).added) hfirst
  have hplay' : Client.playLinks { sv with sortPuks } (u.playArg a.host raw) u.odcs
      u.player = (.ok (), p2) := by
    rw [h.playArg, h.odcs, h.player]
    exact hplay
  -- the second loader plays on from any player that was restored
  have hnext {q1 : UserPlayer H} (hq1 : Restores a.host (Client.saveUserState { sv with sortPuks } raw
        { u with player := p2 }).toOption q1) :
      ∃ q, Client.playLinks { sv with sortPuks } (a.after first) rest q1 = (.ok (), q) ∧
        Sim (leftAfter a.host first rest) p q := by
    obtain ⟨hsim1, hzero⟩ := hsim q1 hq1
    have hcommit : ({ sv with sortPuks } : Services H).openCommitment = sv.openCommitment := rfl
    have hnames : ∀ i, p₁.dnIdx + i < p.dnIdx →
        (a.deviceNames.drop (namesUsed a first))[q1.dnIdx + i]? = a.deviceNames[p₁.dnIdx + i]? := by
      intro i _
      rw [List.getElem?_drop, hzero, hidx, zero_add]
    have hlater : ∀ odc ∈ rest, isEldest odc.gc.chainer.base.seqno = true →
        leftActive a.host first = ∅ := by
      intro odc hodc heldest
      obtain ⟨i, hi, rfl⟩ := mem_iff_getElem.mp hodc
      have hget : (first ++ rest)[first.length + i]? = some rest[i] := by
        rw [List.getElem?_append_right (Nat.le_add_right ..), Nat.add_sub_cancel_left,
          List.getElem?_eq_getElem hi]
      rw [isEldest, beq_iff_eq] at heldest
      have hzero : first.length + i = 0 := Nat.left_eq_add.mp (heldest.symm.trans (hnumbered _ _ hget))
      rw [eq_nil_of_length_eq_zero (Nat.add_eq_zero_iff.mp hzero).1]
      exact eq_empty_of_forall_notMem fun k hk => not_addedAgain_nil hk.2.1
    obtain ⟨q, hq, hsim2, -⟩ := hsim1.playLinks hcommit hlater hnames (fun _ _ => rfl) hrest
    exact ⟨q, hq, hsim2⟩
  constructor
  · rw [← hread]
    constructor
    · rintro ⟨u', hresume⟩
      obtain ⟨p2', q1, hplay2, hq1, -⟩ := resume_eq_ok.mp ⟨u', hresume, rfl⟩
      obtain rfl := state_unique hplay' hplay2
      exact ⟨q1, hq1⟩
    · rintro ⟨q1, hq1⟩
      obtain ⟨q, hq, -⟩ := hnext hq1
      obtain ⟨u', hresume, -⟩ := resume_eq_ok.mpr ⟨p2, q1, hplay', hq1, hq⟩
      exact ⟨u', hresume⟩
  · intro u' hresume
    obtain ⟨p2', q1, hplay2, hq1, hrest2⟩ := resume_eq_ok.mp ⟨u', hresume, rfl⟩
    obtain rfl := state_unique hplay' hplay2
    obtain ⟨q, hq, hsim2⟩ := hnext hq1
    rwa [state_unique hrest2 hq]

/-- The PUKs that the first loader saves are those of the links. -/
theorem FirstLoad.values_eq : p₁.puks.values.map (·.toSharedKey) =
      ((first.flatMap (·.gc.sharedKeys) : List (SharedKey H)) : Multiset (SharedKey H)) := by
  rw [(holdsPuks_of_playLinks hfirst).values_eq, Multiset.map_coe, map_flatMap]
  exact congrArg _ (flatMap_congr fun odc hodc => (h.openedWith odc hodc).same)

theorem FirstLoad.inOrder : InOrder (first.flatMap (·.gc.sharedKeys)) := by
  have hholds := holdsPuks_of_playLinks hfirst
  have hsame : (first.flatMap (·.sharedKeys)).map (·.toSharedKey) = first.flatMap (·.gc.sharedKeys) := by
    rw [map_flatMap]
    exact flatMap_congr fun odc hodc => (h.openedWith odc hodc).same
  rw [← hsame]
  exact (ordered_iff_inOrder hholds.roles).mp hholds.ordered

end

/-- The second loader ends where a loader does that plays all links. -/
def Resumes (sv : Services H) (a : PlayArg H) (raw : UserChain L H) (u : UserLoader H)
    (first rest : List (OpenDeviceChangeRes H)) (p : UserPlayer H) : Prop :=
  ∃ u', resume sv a.host raw (a.after first) rest u = (.ok (), u') ∧ SameView p u'.player

section

omit [DecidableEq H] [MerkleHash H]

theorem sim_sameView_iff (h : Sim d p q) : SameView p q ↔ d = ∅ := by
  constructor
  · exact fun hview => h.keys.eq_iff.mp hview.keys
  · exact fun hempty =>
      ⟨h.keys.eq_iff.mpr hempty, h.devInfo, h.pukGens, h.puksByRole, h.stalePUKs⟩

theorem leftAfter_eq_empty (host : HostID) :
    leftAfter host first rest = ∅ ↔ ∀ e, LeftActive first e → ∃ odc ∈ rest, AddsDevice odc e := by
  constructor
  · intro hempty e hleft
    by_contra hnot
    push Not at hnot
    have hmem : (⟨host, e⟩ : Team.FQEntityFixed) ∈ leftAfter host first rest :=
      ⟨⟨rfl, hleft⟩, fun odc hodc hadds => hnot odc hodc hadds.2⟩
    rw [hempty] at hmem
    exact notMem_empty _ hmem
  · intro hall
    refine eq_empty_of_forall_notMem ?_
    rintro k ⟨⟨hhost, hleft⟩, hnot⟩
    obtain ⟨odc, hodc, hadds⟩ := hall k.entity hleft
    exact hnot odc hodc ⟨hhost, hadds⟩

end

/-- **Resuming and replaying.** For a chain that is accepted, resuming after the links `first` ends where
one uninterrupted play does if and only if the comparison of `saveState` puts the PUKs of `first` in order,
and each device that `first` has left active is added again by a later link. -/
theorem resume_iff_replay (hload : FirstLoad sv a raw first u) (hnumbered : NumberedLinks (first ++ rest))
    (hplay : Client.playLinks sv a (first ++ rest) {} = (.ok (), p)) :
    (∀ sortPuks, SortsPuks sortPuks → Resumes { sv with sortPuks } a raw u first rest p) ↔
      PuksInOrder (first.flatMap (·.gc.sharedKeys)) ∧
        ∀ e, LeftActive first e → ∃ odc ∈ rest, AddsDevice odc e := by
  obtain ⟨p₁, hfirst, hrest⟩ := playLinks_append.mp hplay
  have hvalues := hload.values_eq hfirst
  rw [← inOrder_iff_puksInOrder (hload.inOrder hfirst), ← leftAfter_eq_empty a.host]
  constructor
  · intro hall
    constructor
    · intro saved hsaved
      -- the sorting function may return the PUKs in this order
      classical
      let sortPuks (m : PukMap H) : List (SharedKey H) :=
        if m = p₁.puks then saved else (exists_sorts comparePuks (m.values.map (·.toSharedKey))).choose
      have hsorts : SortsPuks sortPuks := by
        intro m
        dsimp only [sortPuks]
        split
        · next heq => rwa [heq, hvalues]
        · exact (exists_sorts comparePuks (m.values.map (·.toSharedKey))).choose_spec
      obtain ⟨u', hresume, -⟩ := hall sortPuks hsorts
      have hinOrder := (hload.resume_iff hfirst hnumbered hrest (hsorts _).elements).1.mp ⟨u', hresume⟩
      dsimp only [sortPuks] at hinOrder
      rwa [if_pos rfl] at hinOrder
    · have hexists (m : PukMap H) := exists_sorts comparePuks (m.values.map (·.toSharedKey))
      choose sortPuks hsorts using hexists
      obtain ⟨u', hresume, hview⟩ := hall sortPuks hsorts
      have hsim := (hload.resume_iff hfirst hnumbered hrest (hsorts _).elements).2 u' hresume
      exact (sim_sameView_iff hsim).mp hview
  · rintro ⟨hinOrder, hempty⟩ sortPuks hsorts
    obtain ⟨hiff, hsim⟩ := hload.resume_iff hfirst hnumbered hrest (hsorts _).elements
    have hsaved := hsorts p₁.puks
    rw [hvalues] at hsaved
    obtain ⟨u', hresume⟩ := hiff.mpr (hinOrder _ hsaved)
    exact ⟨u', hresume, (sim_sameView_iff (hsim u' hresume)).mpr hempty⟩

end Resume

/-! ## A device that is active after it was revoked -/

namespace UserSample

variable {links : List Link}

theorem forall₂_opened
    (h : ∀ l ∈ links, (openDeviceChange l hepks (some Sample.uid) Sample.host).toOption.isSome) :
    List.Forall₂ (fun l odc => openDeviceChange l hepks (some Sample.uid) Sample.host = .ok odc) links
      (opened links) := by
  induction links with
  | nil => exact .nil
  | cons l links ih =>
    rw [forall_mem_cons] at h
    rcases hopen : openDeviceChange l hepks (some Sample.uid) Sample.host with err | odc
    · rw [hopen] at h
      cases h.1
    have hcons : opened (l :: links) = odc :: opened links :=
      filterMap_cons_some (by rw [hopen]; rfl)
    rw [hcons]
    exact .cons hopen (ih h.2)

/-- Device 1 revokes device 2, and replaces the PUK. -/
def revokeSecond : Link :=
  later 4 1 [⟨.none, ⟨⟨Sample.device 2, none⟩, .none, .none⟩⟩] [Sample.sharedKey 2 .owner (Sample.puk 2)] []

/-- Device 1 adds device 2 twice. -/
def addTwice : List Link := [first, provision 2 2 .owner, provision 3 2 .owner]

/-- A reply with these links. -/
def raw (links : List Link) : UserChain Link SymHash :=
  ⟨links, [], [], ⟨.v1 ⟨0, 0, .zero, .zero, ⟨0, .zero⟩⟩, []⟩, [], "", 0, []⟩

/-- A loader that has checked these links. -/
def loader (links : List Link) : UserLoader SymHash where
  base := { lastHash := some .zero }
  arg := Sample.arg
  odcs := opened links
  hepks := hepks
  allMerkleLeaves := playArg.allMerkleLeaves.take (opened links).length

theorem firstLoad (h : ∀ l ∈ links, (openDeviceChange l hepks (some Sample.uid) Sample.host).toOption.isSome) :
    FirstLoad Sample.services playArg (raw links) (opened links) (loader links) where
  existing := rfl
  player := rfl
  odcs := rfl
  playArg := by
    rfl
  opened := forall₂_opened h
  lastHash _ := ⟨.zero, rfl⟩
  named := ⟨_, rfl⟩

/-- Device 2 in its fixed form. -/
def secondFixed : FixedEntityID := (Sample.device 2).num * 256

theorem leftActive_second : LeftActive (opened (addTwice ++ [revokeSecond])) secondFixed := by decide +kernel

theorem numbered : NumberedLinks (opened addTwice ++ opened [revokeSecond]) := by decide +kernel

theorem playLinks_sample : playLinks Sample.services playArg (opened addTwice ++ opened [revokeSecond]) {} =
      (.ok (), (playLinks Sample.services playArg (opened addTwice ++ opened [revokeSecond]) {}).2) :=
  Prod.ext (by decide +kernel) rfl

end UserSample

open UserSample in
/-- Cut before device 2 is revoked, the chain is resumed as it is replayed. -/
theorem resume_iff_replay_two :
    NumberedLinks (opened addTwice ++ opened [revokeSecond]) ∧
      ∀ sortPuks, SortsPuks sortPuks → Resumes { Sample.services with sortPuks } playArg (raw addTwice)
        (loader addTwice) (opened addTwice) (opened [revokeSecond])
        (playLinks Sample.services playArg (opened addTwice ++ opened [revokeSecond]) {}).2 := by
  refine ⟨numbered, ?_⟩
  have hload : FirstLoad Sample.services playArg (raw addTwice) (opened addTwice) (loader addTwice) :=
    firstLoad (by decide +kernel)
  refine (resume_iff_replay hload numbered playLinks_sample).mpr ⟨by decide +kernel, fun e hleft => ?_⟩
  -- the device is active at the cut
  have hnone : ∀ odc ∈ opened addTwice, ∀ dev ∈ addedDevice odc,
      ∀ e ∈ dev.entityID.fixed.toOption, ¬ LeftActive (opened addTwice) e := by decide +kernel
  obtain ⟨odc, hodc, dev, hdev, he⟩ := hleft.exists_addsDevice
  exact absurd hleft (hnone odc hodc dev hdev e (toOption_eq_some.mpr he))

open UserSample in
/-- Device 2 was added twice and then revoked. It may not sign, but a loader that resumes from the saved
state lets it sign, however the PUKs were sorted. -/
theorem revoked_device_active :
    let links := addTwice ++ [revokeSecond]
    let second : Team.FQEntityFixed := ⟨Sample.host, secondFixed⟩
    ∃ p, playLinks Sample.services playArg (opened links) {} = (.ok (), p) ∧ second ∉ p.keys ∧
      ∀ sortPuks, SortsPuks sortPuks → ∃ u', resume { Sample.services with sortPuks } Sample.host
        (raw links) (playArg.after (opened links)) [] (loader links) = (.ok (), u') ∧
          second ∈ u'.player.keys := by
  intro links second
  have hload : FirstLoad Sample.services playArg (raw links) (opened links) (loader links) :=
    firstLoad (by decide +kernel)
  have hnumbered : NumberedLinks (opened links ++ []) := by
    rw [append_nil]
    exact numbered
  have hplay : playLinks Sample.services playArg (opened links) {} =
      (.ok (), (playLinks Sample.services playArg (opened links) {}).2) := playLinks_sample
  refine ⟨_, hplay, by decide +kernel, fun sortPuks hsorts => ?_⟩
  have hsaved := hsorts (playLinks Sample.services playArg (opened links) {}).2.puks
  obtain ⟨hiff, hsim⟩ := hload.resume_iff hplay hnumbered rfl hsaved.elements
  rw [hload.values_eq hplay] at hsaved
  have hinOrder := (inOrder_iff_puksInOrder (hload.inOrder hplay)).mpr (by decide +kernel) _ hsaved
  obtain ⟨u', hresume⟩ := hiff.mpr hinOrder
  refine ⟨u', hresume, (hsim u' hresume).keys.present second ⟨⟨rfl, leftActive_second⟩, ?_⟩⟩
  exact forall_mem_nil _

end Foks.Client
