import Foks.Client.PukRing

/-!
# The devices that a player knows

A player keeps an entry for each time that a device was added, and marks the last entry when the device
is revoked. The devices that may sign are in a map of their own.

`saveState` writes the entries only. A new loader lets each device sign that has an entry which is not
marked. A device that was added again while it was active has such an entry also after it was revoked.
-/

namespace Foks.Client

open Lib Merkle List Option
open Team (MemberRole FQEntityFixed)
open Finmap (lookup_eq_none notMem_empty mem_insert lookup_insert lookup_insert_of_ne)

variable {H : Type} {links : List (OpenDeviceChangeRes H)} {odc : OpenDeviceChangeRes H} {e : FixedEntityID}
  {hepks : HEPKSet H} {host : HostID} {ps : PublicSuite} {di : DeviceInfo H}

/-! ## What the links say of a device -/

def AddsDevice (odc : OpenDeviceChangeRes H) (e : FixedEntityID) : Prop :=
  ∃ dev, addedDevice odc = some dev ∧ dev.entityID.fixed = .ok e

theorem not_addsDevice (h : addedDevice odc = none) : ¬ AddsDevice odc e := by
  rintro ⟨dev, hdev, -⟩
  exact some_ne_none dev (hdev.symm.trans h)

def RevokesDevice (odc : OpenDeviceChangeRes H) (e : FixedEntityID) : Prop := revokedDevice odc = some e

variable (links e)

/-- The device was added, and not revoked since. -/
def ActiveAfter : Prop :=
  ∃ pre odc post, links = pre ++ odc :: post ∧ AddsDevice odc e ∧ ∀ odc' ∈ post, ¬ RevokesDevice odc' e

/-- The device was added while it was active. -/
def AddedAgain : Prop :=
  ∃ pre odc post, links = pre ++ odc :: post ∧ ActiveAfter pre e ∧ AddsDevice odc e

/-- The device was revoked, after it was added again. -/
def LeftActive : Prop :=
  AddedAgain links e ∧ ¬ ActiveAfter links e

variable {links e}

section History

variable {pre post : List (OpenDeviceChangeRes H)} {odc' : OpenDeviceChangeRes H}

theorem append_cons_eq_concat (h : links ++ [odc] = pre ++ odc' :: post) :
    (pre = links ∧ odc' = odc ∧ post = []) ∨
      ∃ post', post = post' ++ [odc] ∧ links = pre ++ odc' :: post' := by
  rcases eq_nil_or_concat post with rfl | ⟨post', last, rfl⟩
  · obtain ⟨rfl, hlast⟩ := append_inj' h rfl
    cases hlast
    exact .inl ⟨rfl, rfl, rfl⟩
  rw [concat_eq_append] at h ⊢
  rw [← cons_append, ← append_assoc] at h
  obtain ⟨rfl, hlast⟩ := append_inj' h rfl
  cases hlast
  exact .inr ⟨post', rfl, rfl⟩

theorem activeAfter_concat :
    ActiveAfter (links ++ [odc]) e ↔ AddsDevice odc e ∨ ActiveAfter links e ∧ ¬ RevokesDevice odc e := by
  constructor
  · rintro ⟨pre, odc', post, hsplit, hadds, hpost⟩
    rcases append_cons_eq_concat hsplit with ⟨rfl, rfl, rfl⟩ | ⟨post', rfl, rfl⟩
    · exact .inl hadds
    · refine .inr ⟨⟨pre, odc', post', rfl, hadds, fun o ho => hpost o (mem_append_left _ ho)⟩, ?_⟩
      exact hpost odc (mem_append_right _ mem_cons_self)
  · rintro (hadds | ⟨⟨pre, odc', post, rfl, hadds, hpost⟩, hnot⟩)
    · exact ⟨links, odc, [], rfl, hadds, forall_mem_nil _⟩
    refine ⟨pre, odc', post ++ [odc], ?_, hadds, fun o ho => ?_⟩
    · rw [append_assoc, cons_append]
    rcases mem_append.mp ho with ho | ho
    · exact hpost o ho
    · rwa [mem_singleton.mp ho]

theorem addedAgain_concat :
    AddedAgain (links ++ [odc]) e ↔ AddedAgain links e ∨ ActiveAfter links e ∧ AddsDevice odc e := by
  constructor
  · rintro ⟨pre, odc', post, hsplit, hactive, hadds⟩
    rcases append_cons_eq_concat hsplit with ⟨rfl, rfl, rfl⟩ | ⟨post', rfl, rfl⟩
    · exact .inr ⟨hactive, hadds⟩
    · exact .inl ⟨pre, odc', post', rfl, hactive, hadds⟩
  · rintro (⟨pre, odc', post, rfl, hactive, hadds⟩ | ⟨hactive, hadds⟩)
    · exact ⟨pre, odc', post ++ [odc], by rw [append_assoc, cons_append], hactive, hadds⟩
    · exact ⟨links, odc, [], rfl, hactive, hadds⟩

theorem not_activeAfter_nil : ¬ ActiveAfter ([] : List (OpenDeviceChangeRes H)) e := by
  rintro ⟨pre, odc, post, hsplit, -⟩
  exact append_ne_nil_of_right_ne_nil _ (cons_ne_nil _ _) hsplit.symm

theorem not_addedAgain_nil : ¬ AddedAgain ([] : List (OpenDeviceChangeRes H)) e := by
  rintro ⟨pre, odc, post, hsplit, -⟩
  exact append_ne_nil_of_right_ne_nil _ (cons_ne_nil _ _) hsplit.symm

theorem activeAfter_cons : ActiveAfter (odc :: links) e ↔
      (AddsDevice odc e ∧ ∀ odc' ∈ links, ¬ RevokesDevice odc' e) ∨ ActiveAfter links e := by
  constructor
  · rintro ⟨pre, odc', post, hsplit, hadds, hpost⟩
    rcases cons_eq_append_iff.mp hsplit with ⟨rfl, hcons⟩ | ⟨pre, rfl, rfl⟩
    · cases hcons
      exact .inl ⟨hadds, hpost⟩
    · exact .inr ⟨pre, odc', post, rfl, hadds, hpost⟩
  · rintro (⟨hadds, hpost⟩ | ⟨pre, odc', post, rfl, hadds, hpost⟩)
    · exact ⟨[], odc, links, rfl, hadds, hpost⟩
    · exact ⟨odc :: pre, odc', post, rfl, hadds, hpost⟩

/-- Only devices that were added can be left active. -/
theorem LeftActive.exists_addsDevice (h : LeftActive links e) : ∃ odc ∈ links, AddsDevice odc e := by
  obtain ⟨⟨pre, odc, post, rfl, -, hadds⟩, -⟩ := h
  exact ⟨odc, mem_append_right _ mem_cons_self, hadds⟩

end History

section Decide

instance (odc : OpenDeviceChangeRes H) (e : FixedEntityID) : Decidable (AddsDevice odc e) :=
  decidable_of_iff ((addedDevice odc).map (·.entityID.fixed) = some (.ok e)) map_eq_some_iff

instance (odc : OpenDeviceChangeRes H) (e : FixedEntityID) : Decidable (RevokesDevice odc e) :=
  inferInstanceAs (Decidable (_ = _))

instance decidableActiveAfter : ∀ (links : List (OpenDeviceChangeRes H)) (e : FixedEntityID),
    Decidable (ActiveAfter links e)
  | [], _ => isFalse not_activeAfter_nil
  | _ :: links, e =>
    have := decidableActiveAfter links e
    decidable_of_iff _ activeAfter_cons.symm

instance (links : List (OpenDeviceChangeRes H)) (e : FixedEntityID) : Decidable (AddedAgain links e) :=
  decidable_of_iff (∃ i : Fin links.length, ActiveAfter (links.take i) e ∧ AddsDevice links[i] e) <| by
    constructor
    · rintro ⟨i, hactive, hadds⟩
      refine ⟨links.take i, links[i], links.drop (i + 1), ?_, hactive, hadds⟩
      rw [Fin.getElem_fin, ← drop_eq_getElem_cons, take_append_drop]
    · rintro ⟨pre, odc, post, rfl, hactive, hadds⟩
      refine ⟨⟨pre.length, by simp⟩, ?_, ?_⟩
      · simpa using hactive
      · simpa using hadds

instance (links : List (OpenDeviceChangeRes H)) (e : FixedEntityID) : Decidable (LeftActive links e) :=
  inferInstanceAs (Decidable (_ ∧ _))

end Decide

/-! ## Links that were opened -/

/-- A link of a user, as it is opened with the keys for encryption of a loader. -/
structure OpenedWith (hepks : HEPKSet H) [DecidableEq H] (host : HostID)
    (odc : OpenDeviceChangeRes H) : Prop where
  added : addedDevice odc = odc.newDevice
  device (ps : PublicSuite) : odc.newDevice = some ps →
    ∃ raw, odc.rawNewDevice = some raw ∧ importPublicSuite raw hepks host = .ok ps
  puks : ∀ puk ∈ odc.sharedKeys, hepks.lookup puk.hepkFp = some puk.hepk
  same : odc.sharedKeys.map (·.toSharedKey) = odc.gc.sharedKeys

section Open

variable [DecidableEq H]

theorem openNewDevice_eq_ok {gc : GroupChange H} {existing : EntityID}
    {dev : Option (NewDevice H)} (h : openNewDevice gc hepks host existing = .ok dev) :
    (dev = none ∧ ∀ raw, gc.changes = [raw] → raw.dstRole = .none) ∨
      ∃ d, dev = some d ∧ gc.changes = [d.raw] ∧ d.raw.dstRole ≠ .none ∧
        importPublicSuite d.raw hepks host = .ok d.newDevice := by
  unfold openNewDevice at h
  split at h
  · next raw hone =>
    split at h
    · next hnone =>
      cases h
      refine .inl ⟨rfl, fun raw' hone' => ?_⟩
      rw [hone] at hone'
      cases hone'
      exact hnone
    · next hsome =>
      obtain ⟨newDevice, himport, h1⟩ := bind_eq_ok.mp h
      have h2 := of_bind_eq_ok h1
      split at h2
      · obtain ⟨subkey, -, h3⟩ := bind_eq_ok.mp h2
        split at h3
        · have h4 := of_bind_eq_ok h3
          cases h4
          exact .inr ⟨_, rfl, hone, hsome, himport⟩
        · cases h3
          exact .inr ⟨_, rfl, hone, hsome, himport⟩
      · cases h2
  · next hnot =>
    cases h
    exact .inl ⟨rfl, fun raw hone => absurd hone (hnot raw)⟩

omit [DecidableEq H] in
theorem Role.typ_eq_none {r : Role} : r.typ = .none ↔ r = .none := by
  cases r <;> simp [Role.typ]

theorem openedWith_of_openDeviceChange {L : Type} [MerkleHash H] [LinkFormat L H] {link : L}
    {uid : Option UID}
    (h : openDeviceChange link hepks uid host = .ok odc) : OpenedWith hepks host odc := by
  have hsame := (openDeviceChange_eq_ok h).2.2.2.1
  obtain ⟨gc, hgc, h1⟩ := bind_eq_ok.mp h
  have h2 := of_bind_eq_ok h1
  have h3 := of_bind_eq_ok h2
  have h4 := of_bind_eq_ok h3
  obtain ⟨sharedKeys, hkeys, h5⟩ := bind_eq_ok.mp h4
  have h6 := of_bind_eq_ok h5
  have h7 := of_bind_eq_ok h6
  obtain ⟨existing, hexisting, h8⟩ := bind_eq_ok.mp h7
  obtain ⟨dev, hdev, h9⟩ := bind_eq_ok.mp h8
  have h10 := of_bind_eq_ok h9
  obtain ⟨⟨⟩, hsigned, h11⟩ := bind_eq_ok.mp h10
  cases h11
  rcases openNewDevice_eq_ok hdev with ⟨rfl, hnone⟩ | ⟨d, rfl, hone, hsome, himport⟩
  · refine ⟨?_, fun ps hps => ?_, (openSharedKeysFrom_eq_ok hkeys).2, hsame⟩
    · exact addedDevice_eq_none fun raw hone => Role.typ_eq_none.mpr (hnone raw hone)
    · cases hps
  refine ⟨?_, fun ps hps => ?_, (openSharedKeysFrom_eq_ok hkeys).2, hsame⟩
  · exact addedDevice_eq hone fun hnone => hsome (Role.typ_eq_none.mp hnone)
  · cases hps
    exact ⟨d.raw, rfl, himport⟩

/-- An imported key has the ID of the member. -/
theorem entityID_of_importPublicSuite {o : MemberRole H}
    (h : importPublicSuite o hepks host = .ok ps) : ps.entityID = o.member.id.entity := by
  unfold importPublicSuite at h
  split at h
  · split at h
    · cases h
    have h1 := of_bind_eq_ok h
    split at h1
    all_goals try cases h1
    all_goals
      split at h1
      all_goals try cases h1
      all_goals try rfl
    have h2 := of_bind_eq_ok h1
    cases h2
    rfl
  · cases h

end Open

/-! ## What a link does to the devices -/

/-- The players know the same devices, in the same order, and let the same ones sign. -/
structure SameDevices (p q : UserPlayer H) : Prop where
  keys : q.keys = p.keys
  devInfo : q.devInfo = p.devInfo
  deviceOrder : q.deviceOrder = p.deviceOrder

section Devices

variable {p q r : UserPlayer H} {d : FQEntityFixed}

theorem SameDevices.trans (h : SameDevices p q) (h' : SameDevices q r) : SameDevices p r :=
  ⟨h'.keys.trans h.keys, h'.devInfo.trans h.devInfo, h'.deviceOrder.trans h.deviceOrder⟩

theorem sameDevices_addPuks {puks : List (SharedPublicSuite H)} (h : addPuks puks p = (.ok (), q)) :
    SameDevices p q := by
  have hframe := state_unique h (addPuks_frame ⟨rfl, rfl, rfl, rfl⟩ h)
  rw [hframe]
  exact ⟨rfl, rfl, rfl⟩

theorem sameDevices_addPuk {puk : SharedPublicSuite H} (h : addPuk puk p = (.ok (), q)) : SameDevices p q := by
  have hframe := state_unique h (addPuk_frame ⟨rfl, rfl, rfl, rfl⟩ h)
  rw [hframe]
  exact ⟨rfl, rfl, rfl⟩

theorem putDevice_devInfo :
    (putDevice d ps di p).devInfo = p.devInfo.insert d ((p.devInfo.lookup d).getD [] ++ [di]) := by
  unfold putDevice
  dsimp only
  cases hlst : p.devInfo.lookup d <;> rfl

theorem putDevice_deviceOrder : (putDevice d ps di p).deviceOrder =
      if d ∈ p.devInfo then p.deviceOrder else p.deviceOrder ++ [d] := by
  unfold putDevice
  dsimp only
  cases hlst : p.devInfo.lookup d with
  | none => rw [if_neg (lookup_eq_none.mp hlst)]
  | some lst => rw [if_pos (Map.mem_iff.mpr ⟨lst, hlst⟩)]

theorem putDevice_keys_of_revoked (hrevoked : di.revoked ≠ none) : (putDevice d ps di p).keys = p.keys := by
  unfold putDevice
  dsimp only
  rw [if_neg hrevoked]
  split <;> rfl

/-- What `putDevice` does to the devices is read off the devices alone. -/
theorem SameDevices.putDevice (h : SameDevices p q) :
    SameDevices (putDevice d ps di p) (putDevice d ps di q) := by
  refine ⟨?_, ?_, ?_⟩
  · by_cases hactive : di.revoked = none
    · rw [putDevice_keys hactive, putDevice_keys hactive, h.keys]
    · rw [putDevice_keys_of_revoked hactive, putDevice_keys_of_revoked hactive, h.keys]
  · rw [putDevice_devInfo, putDevice_devInfo, h.devInfo]
  · rw [putDevice_deviceOrder, putDevice_deviceOrder, h.devInfo, h.deviceOrder]

end Devices

/-- What a link does to the devices: it changes none, revokes one, or adds one. -/
inductive DeviceStep (host : HostID) (odc : OpenDeviceChangeRes H) (p p' : UserPlayer H) : Prop
  | bare (hadded : addedDevice odc = none) (hrevoked : revokedDevice odc = none) (hsame : SameDevices p p')
  | revoke {e : FixedEntityID} {lst : List (DeviceInfo H)} {di : DeviceInfo H} {info : RevokeInfo H}
      {rk : RoleKey} (hadded : addedDevice odc = none) (hrevoked : revokedDevice odc = some e)
      (hlst : p.devInfo.lookup ⟨host, e⟩ = some lst) (hlast : lst.getLast? = some di)
      (hsame : SameDevices (revokeDevice ⟨host, e⟩ lst di info rk p) p')
  | add {dev : PublicSuite} {e : FixedEntityID} {di : DeviceInfo H} (hadded : addedDevice odc = some dev)
      (he : dev.entityID.fixed = .ok e) (hrevoked : revokedDevice odc = none) (hactive : di.revoked = none)
      (hkey : odc.rawNewDevice = some di.key) (hsame : SameDevices (putDevice ⟨host, e⟩ dev di p) p')

section Step

variable [DecidableEq H] {sv : Services H} {a : PlayArg H} {p p' : UserPlayer H}

omit [DecidableEq H] in
theorem revokedDevice_of_addedDevice {dev : PublicSuite} (h : addedDevice odc = some dev) :
    revokedDevice odc = none := by
  refine revokedDevice_eq_none fun target hone hnone => ?_
  rw [addedDevice, hone] at h
  dsimp only at h
  rw [if_pos hnone] at h
  cases h

theorem LinkStep.deviceStep (h : LinkStep sv a odc p p') (hadded : addedDevice odc = odc.newDevice) :
    DeviceStep a.host odc p p' := by
  cases h with
  | @eldest oer fid dn key leaf p1 hseqno hopen huid hfid hname hkey hleaf hpuk =>
    have hdev := hadded.trans (device_of_openEldestLinkWithODC hopen).1
    have hfirst : SameDevices (putDevice ⟨a.host, fid⟩ oer.device (newDeviceInfo odc dn key leaf) p)
        (firstDevice a odc oer fid dn key leaf p) := by
      have hsame : SameDevices p { p with dnIdx := p.dnIdx + namesTaken a } := ⟨rfl, rfl, rfl⟩
      exact SameDevices.trans hsame.putDevice ⟨rfl, rfl, rfl⟩
    have hlast := hfirst.trans (sameDevices_addPuk hpuk)
    exact .add hdev hfid (revokedDevice_of_addedDevice hdev) rfl hkey ⟨hlast.keys, hlast.devInfo,
      hlast.deviceOrder⟩
  | bare hseqno hsigner hnil hpuks =>
    have hsame : SameDevices p (p.takeNames odc) := ⟨rfl, rfl, rfl⟩
    refine .bare (addedDevice_eq_none fun target hone => ?_)
      (revokedDevice_eq_none fun target hone => ?_) (hsame.trans (sameDevices_addPuks hpuks))
    · rw [hnil] at hone
      cases hone
    · rw [hnil] at hone
      cases hone
  | @revoke target res fid lst di rk _ hseqno hsigner hone hnone hcheck hfid hlst hdi hrk hpuks =>
    let marked := revokeDevice ⟨a.host, fid⟩ lst di ⟨odc.gc.signer.key, odc.gc.chainer.base⟩ rk
    have hsame : SameDevices (marked p) (marked (p.takeNames odc)) := ⟨rfl, rfl, rfl⟩
    refine .revoke (addedDevice_eq_none fun target' hone' => ?_) (revokedDevice_eq hone hnone hfid) hlst hdi
      (hsame.trans (sameDevices_addPuks hpuks))
    rw [hone] at hone'
    cases hone'
    exact hnone
  | @provision target res fid key dn leaf _ hseqno hsigner hone hsome hcheck hfid hkey hname hvalid
      hleaf hpuks =>
    have hdev := hadded.trans (newDevice_of_openDeviceProvision hcheck).1
    have hsame : SameDevices p { p.takeNames odc with dnIdx := p.dnIdx + namesTaken a } :=
      ⟨rfl, rfl, rfl⟩
    have hlast := hsame.putDevice.trans (sameDevices_addPuks hpuks)
    exact .add hdev hfid (revokedDevice_of_addedDevice hdev) rfl hkey hlast

end Step

/-! ## The entries of a device -/

section Entries

variable [DecidableEq H]

/-- The key of an entry, if the device may sign. -/
def keyOf (hepks : HEPKSet H) (host : HostID) (di : DeviceInfo H) : Option PublicSuiterWithSeqno :=
  if di.revoked = none then
    (importPublicSuite di.key hepks host).toOption.map (⟨·, di.provisioned.chain.seqno⟩)
  else none

/-- The entries `lst` and the key of a device, after some links. -/
structure DeviceEntries (hepks : HEPKSet H) (host : HostID) (links : List (OpenDeviceChangeRes H))
    (e : FixedEntityID) (lst : List (DeviceInfo H)) (key : Option PublicSuiterWithSeqno) : Prop where
  imports : ∀ di ∈ lst, di.key.member.id.entity.fixed = .ok e ∧ ∃ ps,
    importPublicSuite di.key hepks host = .ok ps
  active : ActiveAfter links e ↔ ∃ di, lst.getLast? = some di ∧ di.revoked = none
  again : AddedAgain links e ↔ ∃ di ∈ lst.dropLast, di.revoked = none
  key : key = lst.getLast?.bind (keyOf hepks host)

variable {lst : List (DeviceInfo H)} {key : Option PublicSuiterWithSeqno}

theorem DeviceEntries.nil : DeviceEntries hepks host [] e [] none where
  imports _ h := absurd h not_mem_nil
  active := iff_of_false not_activeAfter_nil fun ⟨_, h, _⟩ => some_ne_none _ h.symm
  again := iff_of_false not_addedAgain_nil fun ⟨_, h, _⟩ => not_mem_nil h
  key := rfl

section

variable (h : DeviceEntries hepks host links e lst key)

include h

theorem DeviceEntries.other
    (hadds : ¬ AddsDevice odc e) (hrevokes : ¬ RevokesDevice odc e) :
    DeviceEntries hepks host (links ++ [odc]) e lst key where
  imports := h.imports
  active := by
    rw [activeAfter_concat, or_iff_right hadds, and_iff_left hrevokes]
    exact h.active
  again := by
    rw [addedAgain_concat, or_iff_left fun hboth => hadds hboth.2]
    exact h.again
  key := h.key

/-- One more entry: the one before it stays as it is, marked or not. -/
theorem DeviceEntries.add {dev : PublicSuite}
    (hadded : addedDevice odc = some dev) (he : dev.entityID.fixed = .ok e)
    (himport : importPublicSuite di.key hepks host = .ok dev) (hactive : di.revoked = none) :
    DeviceEntries hepks host (links ++ [odc]) e (lst ++ [di]) (some ⟨dev, di.provisioned.chain.seqno⟩) where
  imports := by
    intro di' hdi'
    rcases mem_append.mp hdi' with hdi' | hdi'
    · exact h.imports di' hdi'
    · rw [mem_singleton.mp hdi']
      exact ⟨entityID_of_importPublicSuite himport ▸ he, dev, himport⟩
  active := by
    rw [activeAfter_concat, getLast?_concat]
    exact iff_of_true (.inl ⟨dev, hadded, he⟩) ⟨di, rfl, hactive⟩
  again := by
    have hadds : AddsDevice odc e := ⟨dev, hadded, he⟩
    rw [addedAgain_concat, and_iff_left hadds, h.again, h.active]
    rcases eq_nil_or_concat lst with rfl | ⟨old, last, rfl⟩
    · simp
    · simp
  key := by
    rw [getLast?_concat, bind_some, keyOf, if_pos hactive, himport]
    rfl

/-- The last entry is marked, and no other one. -/
theorem DeviceEntries.revoke
    {info : RevokeInfo H} (hadded : addedDevice odc = none) (hrevoked : revokedDevice odc = some e)
    (hlast : lst.getLast? = some di) :
    DeviceEntries hepks host (links ++ [odc]) e
      (lst.dropLast ++ [{ di with status := .revoked, revoked := some info }]) none where
  imports := by
    intro di' hdi'
    rcases mem_append.mp hdi' with hdi' | hdi'
    · exact h.imports di' (mem_of_mem_dropLast hdi')
    · rw [mem_singleton.mp hdi']
      exact h.imports di (mem_of_getLast? hlast)
  active := by
    rw [activeAfter_concat, getLast?_concat]
    refine iff_of_false (fun hactive => ?_) (fun ⟨di', hdi', hnone⟩ => ?_)
    · exact hactive.elim (not_addsDevice hadded) fun hboth => hboth.2 hrevoked
    · cases hdi'
      cases hnone
  again := by
    rw [addedAgain_concat, or_iff_left fun hboth => not_addsDevice hadded hboth.2, dropLast_concat]
    exact h.again
  key := by
    rw [getLast?_concat, bind_some, keyOf, if_neg (some_ne_none _)]

end

/-- The key of a device that is read from its entries: that of the last one which is not marked. -/
def readKey (hepks : HEPKSet H) (host : HostID) (lst : List (DeviceInfo H)) : Option PublicSuiterWithSeqno :=
  (lst.filter (·.revoked = none)).getLast?.bind (keyOf hepks host)

theorem readKey_concat_of_active (hactive : di.revoked = none) :
    readKey hepks host (lst ++ [di]) = keyOf hepks host di := by
  rw [readKey, filter_append, filter_cons_of_pos (by simpa using hactive), filter_nil,
    getLast?_concat, bind_some]

theorem readKey_concat_of_revoked (hrevoked : di.revoked ≠ none) :
    readKey hepks host (lst ++ [di]) = readKey hepks host lst := by
  rw [readKey, filter_append, filter_cons_of_neg (by simpa using hrevoked), filter_nil, append_nil, readKey]

/-- There is a key to read as soon as one entry is not marked. -/
theorem isSome_readKey (h : ∀ di ∈ lst, ∃ ps, importPublicSuite di.key hepks host = .ok ps) :
    (readKey hepks host lst).isSome ↔ ∃ di ∈ lst, di.revoked = none := by
  induction lst using reverseRecOn with
  | nil => simp [readKey]
  | append_singleton lst di ih =>
    rw [forall_mem_append] at h
    obtain ⟨ps, hps⟩ := h.2 di mem_cons_self
    by_cases hactive : di.revoked = none
    · rw [readKey_concat_of_active hactive, keyOf, if_pos hactive, hps]
      exact iff_of_true rfl ⟨di, mem_append_right _ mem_cons_self, hactive⟩
    · rw [readKey_concat_of_revoked hactive, ih h.1]
      simp [hactive]

/-- The key that is read is the key of the player, unless the device was left active. -/
theorem DeviceEntries.readKey_eq (h : DeviceEntries hepks host links e lst key)
    (hleft : ¬ LeftActive links e) : readKey hepks host lst = key := by
  rw [h.key]
  rcases eq_nil_or_concat lst with rfl | ⟨old, last, rfl⟩
  · rfl
  rw [concat_eq_append] at h ⊢
  rw [getLast?_concat, bind_some]
  by_cases hactive : last.revoked = none
  · exact readKey_concat_of_active hactive
  have hnot : ¬ ActiveAfter links e := by
    rw [h.active, getLast?_concat]
    rintro ⟨di, hdi, hnone⟩
    cases hdi
    exact hactive hnone
  have hold : ¬ (readKey hepks host old).isSome := by
    rw [isSome_readKey fun di hdi => (h.imports di (mem_append_left _ hdi)).2]
    intro hsome
    refine hleft ⟨h.again.mpr ?_, hnot⟩
    rwa [dropLast_concat]
  rw [readKey_concat_of_revoked hactive, keyOf, if_neg hactive]
  exact not_isSome_iff_eq_none.mp hold

/-- A device that was left active has no key, and one is read. -/
theorem DeviceEntries.readKey_of_leftActive (h : DeviceEntries hepks host links e lst key)
    (hleft : LeftActive links e) : key = none ∧ (readKey hepks host lst).isSome := by
  obtain ⟨hagain, hnot⟩ := hleft
  constructor
  · rw [h.key]
    cases hlast : lst.getLast? with
    | none => rfl
    | some di =>
      rw [bind_some, keyOf, if_neg fun hnone => hnot (h.active.mpr ⟨di, hlast, hnone⟩)]
  · rw [isSome_readKey fun di hdi => (h.imports di hdi).2]
    obtain ⟨di, hdi, hnone⟩ := h.again.mp hagain
    exact ⟨di, mem_of_mem_dropLast hdi, hnone⟩

end Entries

/-! ## All devices of a player -/

section Played

variable [DecidableEq H]

/-- What a player knows of the devices after some links. -/
structure PlayedDevices (hepks : HEPKSet H) (host : HostID) (links : List (OpenDeviceChangeRes H))
    (p : UserPlayer H) : Prop where
  order : p.deviceOrder.Nodup
  listed (d : FQEntityFixed) : d ∈ p.deviceOrder ↔ d ∈ p.devInfo
  onHost : ∀ d ∈ p.devInfo, d.host = host
  nonempty (d : FQEntityFixed) : p.devInfo.lookup d ≠ some []
  keysOnHost : ∀ d ∈ p.keys, d.host = host
  entries (e : FixedEntityID) : DeviceEntries hepks host links e
    ((p.devInfo.lookup ⟨host, e⟩).getD []) (p.keys.lookup ⟨host, e⟩)

variable {p p' : UserPlayer H}

theorem PlayedDevices.empty : PlayedDevices hepks host [] ({} : UserPlayer H) where
  order := nodup_nil
  listed _ := iff_of_false not_mem_nil notMem_empty
  onHost _ h := absurd h notMem_empty
  nonempty _ h := some_ne_none _ h.symm
  keysOnHost _ h := absurd h notMem_empty
  entries _ := .nil

section

variable (h : PlayedDevices hepks host links p)

include h

theorem PlayedDevices.congr (hsame : SameDevices p p') :
    PlayedDevices hepks host links p' := by
  obtain ⟨hkeys, hinfo, horder⟩ := hsame
  refine ⟨horder ▸ h.order, fun d => ?_, hinfo ▸ h.onHost, hinfo ▸ h.nonempty, hkeys ▸ h.keysOnHost,
    hkeys ▸ hinfo ▸ h.entries⟩
  rw [horder, hinfo]
  exact h.listed d

theorem PlayedDevices.bare (hadded : addedDevice odc = none)
    (hrevoked : revokedDevice odc = none) : PlayedDevices hepks host (links ++ [odc]) p where
  __ := h
  entries e := by
    refine (h.entries e).other (not_addsDevice hadded) fun hrevokes => ?_
    exact some_ne_none e (hrevokes.symm.trans hrevoked)

theorem PlayedDevices.revoke
    {lst : List (DeviceInfo H)} {info : RevokeInfo H} {rk : RoleKey}
    (hadded : addedDevice odc = none) (hrevoked : revokedDevice odc = some e)
    (hlst : p.devInfo.lookup ⟨host, e⟩ = some lst) (hlast : lst.getLast? = some di) :
    PlayedDevices hepks host (links ++ [odc]) (revokeDevice ⟨host, e⟩ lst di info rk p) where
  order := h.order
  listed d := by
    have hmem : (⟨host, e⟩ : FQEntityFixed) ∈ p.devInfo := Map.mem_iff.mpr ⟨lst, hlst⟩
    rw [revokeDevice, mem_insert, h.listed]
    exact ⟨.inr, fun hd => hd.elim (fun heq => heq ▸ hmem) id⟩
  onHost d hd := by
    rw [revokeDevice, mem_insert] at hd
    exact hd.elim (fun heq => heq ▸ rfl) (h.onHost d)
  nonempty d hnil := by
    rw [revokeDevice] at hnil
    obtain ⟨-, heq⟩ | ⟨-, hnil⟩ := Map.lookup_insert_cases hnil
    · exact concat_ne_nil _ _ heq
    · exact h.nonempty d hnil
  keysOnHost d hd := h.keysOnHost d (Finmap.mem_erase.mp hd).2
  entries e' := by
    rw [revokeDevice]
    by_cases he : e' = e
    · rw [he, lookup_insert, Finmap.lookup_erase]
      have hentries := h.entries e
      rw [hlst] at hentries
      exact hentries.revoke hadded hrevoked hlast
    have hne : (⟨host, e'⟩ : FQEntityFixed) ≠ ⟨host, e⟩ :=
      fun heq => he (congrArg FQEntityFixed.entity heq)
    rw [lookup_insert_of_ne _ hne, Finmap.lookup_erase_ne hne]
    refine (h.entries e').other (not_addsDevice hadded) fun hrevokes => ?_
    exact he (mem_unique hrevokes hrevoked)

theorem PlayedDevices.add {dev : PublicSuite}
    (hadded : addedDevice odc = some dev) (he : dev.entityID.fixed = .ok e) (hactive : di.revoked = none)
    (himport : importPublicSuite di.key hepks host = .ok dev) :
    PlayedDevices hepks host (links ++ [odc]) (putDevice ⟨host, e⟩ dev di p) where
  order := by
    rw [putDevice_deviceOrder]
    split
    · exact h.order
    · next hnew =>
      rw [← concat_eq_append]
      exact h.order.concat fun hmem => hnew ((h.listed _).mp hmem)
  listed d := by
    rw [putDevice_deviceOrder, putDevice_devInfo, mem_insert]
    split
    · next hknown =>
      rw [h.listed]
      exact ⟨.inr, fun hd => hd.elim (fun heq => heq ▸ hknown) id⟩
    · rw [mem_append, mem_singleton, h.listed, or_comm]
  onHost d hd := by
    rw [putDevice_devInfo, mem_insert] at hd
    exact hd.elim (fun heq => heq ▸ rfl) (h.onHost d)
  nonempty d hnil := by
    rw [putDevice_devInfo] at hnil
    obtain ⟨-, heq⟩ | ⟨-, hnil⟩ := Map.lookup_insert_cases hnil
    · exact concat_ne_nil _ _ heq
    · exact h.nonempty d hnil
  keysOnHost d hd := by
    rw [putDevice_keys hactive, mem_insert] at hd
    exact hd.elim (fun heq => heq ▸ rfl) (h.keysOnHost d)
  entries e' := by
    rw [putDevice_devInfo, putDevice_keys hactive]
    by_cases heq : e' = e
    · rw [heq, lookup_insert, lookup_insert]
      exact (h.entries e).add hadded he himport hactive
    have hne : (⟨host, e'⟩ : FQEntityFixed) ≠ ⟨host, e⟩ :=
      fun hsame => heq (congrArg FQEntityFixed.entity hsame)
    rw [lookup_insert_of_ne _ hne, lookup_insert_of_ne _ hne]
    refine (h.entries e').other ?_ fun hrevokes => ?_
    · rintro ⟨dev', hdev', he'⟩
      obtain rfl := mem_unique hdev' hadded
      exact heq (ok_unique he' he)
    · exact some_ne_none e' (hrevokes.symm.trans (revokedDevice_of_addedDevice hadded))

/-- What one more link adds. -/
theorem PlayedDevices.step (hopened : OpenedWith hepks host odc)
    (hstep : DeviceStep host odc p p') : PlayedDevices hepks host (links ++ [odc]) p' := by
  cases hstep with
  | bare hadded hrevoked hsame => exact (h.bare hadded hrevoked).congr hsame
  | revoke hadded hrevoked hlst hlast hsame =>
    exact (h.revoke hadded hrevoked hlst hlast).congr hsame
  | @add dev e di hadded he hrevoked hactive hkey hsame =>
    obtain ⟨raw, hraw, himport⟩ := hopened.device dev (hopened.added.symm.trans hadded)
    obtain rfl := mem_unique hkey hraw
    exact (h.add hadded he hactive himport).congr hsame

end

theorem playedDevices_of_playLinks {sv : Services H} {a : PlayArg H}
    (hopened : ∀ odc ∈ links, OpenedWith hepks a.host odc)
    (hplay : playLinks sv a links {} = (.ok (), p)) : PlayedDevices hepks a.host links p := by
  induction links using reverseRecOn generalizing p with
  | nil =>
    cases hplay
    exact .empty
  | append_singleton links odc ih =>
    obtain ⟨v, hlinks, hstep⟩ := playLinks_concat hplay
    rw [forall_mem_append] at hopened
    have hodc := hopened.2 odc mem_cons_self
    exact (ih hopened.1 hlinks).step hodc (hstep.deviceStep hodc.added)

end Played

/-! ## Devices that are read again -/

section Read

variable [DecidableEq H] {ds ds' : List (DeviceInfo H)} {p q q' : UserPlayer H}

/-- The entries of a device. -/
def ofDevice (e : FixedEntityID) (ds : List (DeviceInfo H)) : List (DeviceInfo H) :=
  ds.filter (·.key.member.id.entity.fixed = .ok e)

section

omit [DecidableEq H]

theorem ofDevice_concat_self (h : di.key.member.id.entity.fixed = .ok e) :
    ofDevice e (ds ++ [di]) = ofDevice e ds ++ [di] := by
  rw [ofDevice, filter_append, filter_cons_of_pos (by simpa using h), filter_nil, ofDevice]

theorem ofDevice_concat_other (h : di.key.member.id.entity.fixed ≠ .ok e) :
    ofDevice e (ds ++ [di]) = ofDevice e ds := by
  rw [ofDevice, filter_append, filter_cons_of_neg (by simpa using h), filter_nil, append_nil, ofDevice]

theorem exportDevices_eq (h : ∀ d ∈ p.deviceOrder, d ∈ p.devInfo) :
    exportDevices p = .ok (p.deviceOrder.flatMap fun d => (p.devInfo.lookup d).getD []) := by
  rw [flatMap_def]
  refine bind_eq_ok.mpr ⟨_, mapM_eq_map fun d hd => ?_, rfl⟩
  obtain ⟨lst, hlst⟩ := Map.mem_iff.mp (h d hd)
  rw [hlst]
  rfl

/-- The entries of a device among those of all devices. -/
theorem ofDevice_flatMap {order : List FQEntityFixed}
    {f : FQEntityFixed → List (DeviceInfo H)} (hnodup : order.Nodup)
    (hhost : ∀ d ∈ order, d.host = host)
    (hentity : ∀ d ∈ order, ∀ di ∈ f d, di.key.member.id.entity.fixed = .ok d.entity) (e : FixedEntityID) :
    ofDevice e (order.flatMap f) =
      if (⟨host, e⟩ : FQEntityFixed) ∈ order then f ⟨host, e⟩ else [] := by
  induction order with
  | nil => rfl
  | cons d order ih =>
    rw [nodup_cons] at hnodup
    rw [forall_mem_cons] at hhost hentity
    have hrest := ih hnodup.2 hhost.2 hentity.2
    unfold ofDevice at hrest ⊢
    rw [flatMap_cons, filter_append, hrest]
    by_cases he : d.entity = e
    · -- the entries of this device, and no later ones
      obtain rfl : d = ⟨host, e⟩ := by
        rw [← he, ← hhost.1]
      rw [if_neg hnodup.1, if_pos mem_cons_self, append_nil, filter_eq_self]
      exact fun di hdi => decide_eq_true (hentity.1 di hdi)
    have hnone : (f d).filter (·.key.member.id.entity.fixed = .ok e) = [] := by
      rw [filter_eq_nil_iff]
      intro di hdi heq
      exact he (ok_unique (hentity.1 di hdi) (of_decide_eq_true heq))
    have hmem : (⟨host, e⟩ : FQEntityFixed) ∈ d :: order ↔ ⟨host, e⟩ ∈ order := by
      rw [mem_cons, or_iff_right]
      rintro rfl
      exact he rfl
    rw [hnone, nil_append]
    simp only [hmem]

end

/-- The player has read some entries. -/
structure ReadDevices (hepks : HEPKSet H) (host : HostID) (ds : List (DeviceInfo H))
    (q : UserPlayer H) : Prop where
  devInfo (e : FixedEntityID) : q.devInfo.lookup ⟨host, e⟩ = entryOf (ofDevice e ds)
  keys (e : FixedEntityID) : q.keys.lookup ⟨host, e⟩ = readKey hepks host (ofDevice e ds)
  devInfoOnHost : ∀ d ∈ q.devInfo, d.host = host
  keysOnHost : ∀ d ∈ q.keys, d.host = host

theorem ReadDevices.empty : ReadDevices hepks host [] ({} : UserPlayer H) where
  devInfo _ := rfl
  keys _ := rfl
  devInfoOnHost _ h := absurd h notMem_empty
  keysOnHost _ h := absurd h notMem_empty

theorem ReadDevices.putDevice (h : ReadDevices hepks host ds q)
    (himport : importPublicSuite di.key hepks host = .ok ps) (hentity : di.key.member.id.entity.fixed = .ok e) :
    ReadDevices hepks host (ds ++ [di]) (putDevice ⟨host, e⟩ ps di q) := by
  have hother {e' : FixedEntityID} (he : e' ≠ e) : di.key.member.id.entity.fixed ≠ .ok e' :=
    fun heq => he (ok_unique heq hentity)
  have hne {e' : FixedEntityID} (he : e' ≠ e) : (⟨host, e'⟩ : FQEntityFixed) ≠ ⟨host, e⟩ :=
    fun heq => he (congrArg FQEntityFixed.entity heq)
  refine ⟨fun e' => ?_, fun e' => ?_, fun d hd => ?_, fun d hd => ?_⟩
  · rw [putDevice_devInfo]
    by_cases he : e' = e
    · rw [he, ofDevice_concat_self hentity, entryOf_concat, lookup_insert, h.devInfo, entryOf_getD]
    · rw [ofDevice_concat_other (hother he), lookup_insert_of_ne _ (hne he), h.devInfo]
  · by_cases hactive : di.revoked = none
    · rw [putDevice_keys hactive]
      by_cases he : e' = e
      · rw [he, ofDevice_concat_self hentity, readKey_concat_of_active hactive, keyOf, if_pos hactive, himport,
          lookup_insert]
        rfl
      · rw [ofDevice_concat_other (hother he), lookup_insert_of_ne _ (hne he), h.keys]
    rw [putDevice_keys_of_revoked hactive, h.keys]
    by_cases he : e' = e
    · rw [he, ofDevice_concat_self hentity, readKey_concat_of_revoked hactive]
    · rw [ofDevice_concat_other (hother he)]
  · rw [putDevice_devInfo, mem_insert] at hd
    exact hd.elim (fun heq => heq ▸ rfl) (h.devInfoOnHost d)
  by_cases hactive : di.revoked = none
  · rw [putDevice_keys hactive, mem_insert] at hd
    exact hd.elim (fun heq => heq ▸ rfl) (h.keysOnHost d)
  · rw [putDevice_keys_of_revoked hactive] at hd
    exact h.keysOnHost d hd

/-- A player with the devices of another one. -/
def UserPlayer.withDevices (q p : UserPlayer H) : UserPlayer H :=
  { q with keys := p.keys, devInfo := p.devInfo, deviceOrder := p.deviceOrder }

omit [DecidableEq H] in
theorem putDevice_frame {d : FQEntityFixed} :
    Client.putDevice d ps di q = q.withDevices (Client.putDevice d ps di q) := by
  unfold Client.putDevice
  dsimp only
  split <;> rfl

/-- Entries whose keys can be imported are read, and nothing else is changed. -/
theorem ReadDevices.readKeys (h : ReadDevices hepks host ds q)
    (himports : ∀ di ∈ ds', (∃ e, di.key.member.id.entity.fixed = .ok e) ∧
      ∃ ps, importPublicSuite di.key hepks host = .ok ps) :
    ∃ q', readKeys host hepks ds' q = (.ok (), q') ∧ ReadDevices hepks host (ds ++ ds') q' ∧
        q' = q.withDevices q' := by
  induction ds' generalizing ds q with
  | nil => exact ⟨q, rfl, by rwa [append_nil], rfl⟩
  | cons di ds' ih =>
    rw [forall_mem_cons] at himports
    obtain ⟨⟨⟨e, he⟩, ps, hps⟩, himports⟩ := himports
    obtain ⟨q', hread, hdevices, hframe⟩ := ih (h.putDevice hps he) himports
    refine ⟨q', ?_, ?_, ?_⟩
    · refine Action.lift_bind_eq_ok.mpr ⟨ps, hps, Action.bind_eq_ok.mpr ⟨(), _, ?_, hread⟩⟩
      exact addDeviceKey_eq_ok.mpr ⟨e, entityID_of_importPublicSuite hps ▸ he, rfl⟩
    · rwa [append_assoc] at hdevices
    · rw [hframe, putDevice_frame]
      rfl

/-- The devices that are let sign without need: those of `d` have no key before, and one after. -/
structure MoreKeys (d : Set FQEntityFixed) (keys keys' : DeviceMap) : Prop where
  same : ∀ k, k ∉ d → keys'.lookup k = keys.lookup k
  absent : ∀ k ∈ d, k ∉ keys
  present : ∀ k ∈ d, k ∈ keys'

/-- The devices that were left active. -/
def leftActive (host : HostID) (links : List (OpenDeviceChangeRes H)) : Set FQEntityFixed :=
  { d | d.host = host ∧ LeftActive links d.entity }

/-- A new player that reads the entries of another one knows the same about all devices, but it also lets
those sign which were left active. -/
theorem PlayedDevices.readKeys (h : PlayedDevices hepks host links p) :
    ∃ ds q, exportDevices p = .ok ds ∧ Client.readKeys host hepks ds {} = (.ok (), q) ∧
      q = ({} : UserPlayer H).withDevices q ∧ q.devInfo = p.devInfo ∧
      MoreKeys (leftActive host links) p.keys q.keys := by
  have hlisted : ∀ d ∈ p.deviceOrder, d ∈ p.devInfo := fun d hd => (h.listed d).mp hd
  have hhost : ∀ d ∈ p.deviceOrder, d.host = host := fun d hd => h.onHost d (hlisted d hd)
  have himports : ∀ d ∈ p.deviceOrder, ∀ di ∈ (p.devInfo.lookup d).getD [],
      di.key.member.id.entity.fixed = .ok d.entity ∧ ∃ ps, importPublicSuite di.key hepks host = .ok ps := by
    intro d hd di hdi
    have hd' : d = ⟨host, d.entity⟩ := by rw [← hhost d hd]
    rw [hd'] at hdi
    exact (h.entries d.entity).imports di hdi
  let ds := p.deviceOrder.flatMap fun d => (p.devInfo.lookup d).getD []
  have hds (e : FixedEntityID) : ofDevice e ds = (p.devInfo.lookup ⟨host, e⟩).getD [] := by
    rw [ofDevice_flatMap h.order hhost fun d hd di hdi => (himports d hd di hdi).1]
    split
    · rfl
    · next hnot =>
      rw [h.listed] at hnot
      rw [lookup_eq_none.mpr hnot]
      rfl
  have hall : ∀ di ∈ ds, (∃ e, di.key.member.id.entity.fixed = .ok e) ∧
      ∃ ps, importPublicSuite di.key hepks host = .ok ps := by
    intro di hdi
    obtain ⟨d, hd, hdi⟩ := mem_flatMap.mp hdi
    exact ⟨⟨d.entity, (himports d hd di hdi).1⟩, (himports d hd di hdi).2⟩
  obtain ⟨q, hread, hdevices, hframe⟩ := ReadDevices.empty.readKeys hall
  rw [nil_append] at hdevices
  refine ⟨ds, q, exportDevices_eq hlisted, hread, hframe, ?_, ?_, ?_, ?_⟩
  · refine Finmap.ext_lookup fun d => ?_
    by_cases hd : d.host = host
    · have hd' : d = ⟨host, d.entity⟩ := by rw [← hd]
      rw [hd', hdevices.devInfo, hds]
      cases hlst : p.devInfo.lookup ⟨host, d.entity⟩ with
      | none => rfl
      | some lst =>
        cases lst with
        | nil => exact absurd hlst (h.nonempty _)
        | cons di lst => rfl
    · rw [lookup_eq_none.mpr fun hmem => hd (hdevices.devInfoOnHost d hmem),
        lookup_eq_none.mpr fun hmem => hd (h.onHost d hmem)]
  · intro d hleft
    by_cases hd : d.host = host
    · have hd' : d = ⟨host, d.entity⟩ := by rw [← hd]
      rw [hd', hdevices.keys, hds]
      exact (h.entries d.entity).readKey_eq fun hactive => hleft ⟨hd, hactive⟩
    · rw [lookup_eq_none.mpr fun hmem => hd (hdevices.keysOnHost d hmem),
        lookup_eq_none.mpr fun hmem => hd (h.keysOnHost d hmem)]
  · rintro ⟨_, e⟩ ⟨rfl, hleft⟩
    exact lookup_eq_none.mp ((h.entries e).readKey_of_leftActive hleft).1
  · rintro ⟨_, e⟩ ⟨rfl, hleft⟩
    rw [Map.mem_iff, ← isSome_iff_exists, hdevices.keys, hds]
    exact ((h.entries e).readKey_of_leftActive hleft).2

end Read

end Foks.Client
