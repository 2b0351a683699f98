import Foks.Client.UserSteps

/-!
# The last owner device of a user

Only owner devices can add or revoke devices, so a user who has none left cannot change their chain any
more. A revocation counts the owner devices that remain. It finds the device by the fixed form of the ID in
the link, and leaves out of the count the device with this ID itself: an ID with a zero byte too much at its
end stands for the same device, and the count includes it. A provision counts nothing: it sets the key of the
device that it names, which may be an active one, and may be the device that signs the link. A device
that provisions itself with a lower role is no owner device any more.
-/

namespace Foks.Client

open Lib Merkle List Finmap Option
open Team (FQEntityFixed)

variable {H : Type} {host : HostID} {keys : DeviceMap} {e : EntityID} {d : FQEntityFixed}
  {odc : OpenDeviceChangeRes H} {sv : Services H} {a : PlayArg H} {p : UserPlayer H}

/-- One of the devices that may sign is an owner device. -/
def HasOwner (keys : DeviceMap) : Prop :=
  ∃ d dev, keys.lookup d = some dev ∧ dev.ps.role.typ = .owner

/-- Another device than `d` is an owner device. -/
def OtherOwner (keys : DeviceMap) (d : FQEntityFixed) : Prop :=
  ∃ d' dev, d' ≠ d ∧ keys.lookup d' = some dev ∧ dev.ps.role.typ = .owner

/-- The ID of the device that a link revokes, as the link has it. -/
def revokedID (odc : OpenDeviceChangeRes H) : Option EntityID :=
  match odc.gc.changes with
  | [target] => if target.dstRole.typ = .none then some target.member.id.entity else none
  | _ => none

/-- There is one more owner device, if a link gives the device that signs it another role than owner, or
revokes a device by an ID that is not the one of the device. -/
structure KeepsOwner (host : HostID) (keys : DeviceMap) (odc : OpenDeviceChangeRes H) : Prop where
  provision : ∀ dev f, addedDevice odc = some dev → dev.entityID.fixed = .ok f →
    odc.existingDevice.fixed = .ok f → dev.role.typ ≠ .owner → OtherOwner keys ⟨host, f⟩
  revoke : IsLater odc → ∀ e f, revokedID odc = some e → e.fixed = .ok f → EntityID.unfix f ≠ .ok e →
    OtherOwner keys ⟨host, f⟩

instance (keys : DeviceMap) : Decidable (HasOwner keys) :=
  decidable_of_iff (∃ d ∈ keys.keys, ∃ dev ∈ keys.lookup d, dev.ps.role.typ = .owner) <| by
    constructor
    · rintro ⟨d, -, dev, hdev, hrole⟩
      exact ⟨d, dev, hdev, hrole⟩
    · rintro ⟨d, dev, hdev, hrole⟩
      exact ⟨d, Map.mem_keys_iff.mpr ⟨dev, hdev⟩, dev, hdev, hrole⟩

/-! ## Counting owner devices -/

theorem countRemainingOwners_ne_zero : countRemainingOwners e keys ≠ 0 ↔
      ∃ d dev, EntityID.unfix d.entity ≠ .ok e ∧ keys.lookup d = some dev ∧ dev.ps.role.typ = .owner := by
  rw [countRemainingOwners, ← Nat.pos_iff_ne_zero, Finset.card_pos]
  constructor
  · rintro ⟨d, hd⟩
    obtain ⟨-, hne, hany⟩ := Finset.mem_filter.mp hd
    cases hdev : keys.lookup d with
    | none =>
      rw [hdev] at hany
      cases hany
    | some dev =>
      rw [hdev] at hany
      exact ⟨d, dev, hne, hdev, of_decide_eq_true hany⟩
  · rintro ⟨d, dev, hne, hdev, hrole⟩
    refine ⟨d, Finset.mem_filter.mpr ⟨Map.mem_keys_iff.mpr ⟨dev, hdev⟩, hne, ?_⟩⟩
    rw [hdev]
    exact decide_eq_true hrole

theorem hasOwner_erase : HasOwner (keys.erase d) ↔ OtherOwner keys d := by
  constructor
  · rintro ⟨d', dev, hdev, hrole⟩
    have hne : d' ≠ d := by
      rintro rfl
      rw [lookup_erase] at hdev
      cases hdev
    rw [lookup_erase_ne hne] at hdev
    exact ⟨d', dev, hne, hdev, hrole⟩
  · rintro ⟨d', dev, hne, hdev, hrole⟩
    exact ⟨d', dev, by rwa [lookup_erase_ne hne], hrole⟩

/-- A device that is set to an owner device, or beside another one. -/
theorem hasOwner_insert {dev : PublicSuiterWithSeqno} :
    HasOwner (keys.insert d dev) ↔ dev.ps.role.typ = .owner ∨ OtherOwner keys d := by
  constructor
  · rintro ⟨d', dev', hdev', hrole⟩
    obtain ⟨rfl, rfl⟩ | ⟨hne, hdev'⟩ := Map.lookup_insert_cases hdev'
    · exact .inl hrole
    · exact .inr ⟨d', dev', hne, hdev', hrole⟩
  · rintro (hrole | ⟨d', dev', hne, hdev', hrole⟩)
    · exact ⟨_, dev, lookup_insert _, hrole⟩
    · exact ⟨d', dev', by rwa [lookup_insert_of_ne _ hne], hrole⟩

/-- The owner device is another one than a device that is no owner device. -/
theorem HasOwner.other {dev : PublicSuiterWithSeqno} (h : HasOwner keys) (hdev : keys.lookup d = some dev)
    (hrole : dev.ps.role.typ ≠ .owner) : OtherOwner keys d := by
  obtain ⟨d', dev', hdev', hrole'⟩ := h
  refine ⟨d', dev', ?_, hdev', hrole'⟩
  rintro rfl
  obtain rfl := mem_unique hdev' hdev
  exact hrole hrole'

/-! ## The checks -/

theorem typ_of_importRole {role : Role} {rk : RoleKey} (h : importRole role = .ok rk) : rk.typ = role.typ := by
  rw [← exportRole_of_importRole h]
  obtain ⟨typ, lev, valid⟩ := rk
  cases typ <;> rfl

/-! ## Links and chains -/

section Step

variable [DecidableEq H] {p' : UserPlayer H}

/-- What a link does to the devices that may sign. -/
inductive KeyStep (host : HostID) (odc : OpenDeviceChangeRes H) (keys : DeviceMap) : DeviceMap → Prop
  | eldest {dev : PublicSuite} {f : FixedEntityID} {seqno : Seqno} (hfirst : ¬ IsLater odc)
      (hrole : dev.role = .owner) (hadded : ∀ dev', addedDevice odc = some dev' → dev' = dev) :
      KeyStep host odc keys (keys.insert ⟨host, f⟩ ⟨dev, seqno⟩)
  | bare (hne : keys ≠ ∅) (hadded : addedDevice odc = none) (hrevoked : revokedID odc = none) :
      KeyStep host odc keys keys
  | revoke {e : EntityID} {f : FixedEntityID} {dev : PublicSuiterWithSeqno} (hlater : IsLater odc)
      (hadded : addedDevice odc = none) (hrevoked : revokedID odc = some e) (hf : e.fixed = .ok f)
      (hdev : keys.lookup ⟨host, f⟩ = some dev)
      (howner : dev.ps.role.typ = .owner → countRemainingOwners e keys ≠ 0) :
      KeyStep host odc keys (keys.erase ⟨host, f⟩)
  | provision {signer : PublicSuiterWithSeqno} {dev : PublicSuite} {s f : FixedEntityID} {seqno : Seqno}
      (hs : odc.existingDevice.fixed = .ok s) (hsigner : keys.lookup ⟨host, s⟩ = some signer)
      (howner : signer.ps.role = .owner) (hadded : addedDevice odc = some dev)
      (hf : dev.entityID.fixed = .ok f) (hrevoked : revokedID odc = none) :
      KeyStep host odc keys (keys.insert ⟨host, f⟩ ⟨dev, seqno⟩)

theorem LinkStep.keyStep (h : LinkStep sv a odc p p') : KeyStep a.host odc p.keys p'.keys := by
  cases h with
  | @eldest oer fid dn key leaf p1 hseqno hopen huid hfid hname hkey hleaf hpuk =>
    obtain ⟨hnew, hrole, -, target, hone⟩ := device_of_openEldestLinkWithODC hopen
    have hkeys : p1.keys = p.keys.insert ⟨a.host, fid⟩ ⟨oer.device, _⟩ :=
      (addPuk_keys hpuk).trans (putDevice_keys rfl)
    rw [hkeys]
    refine .eldest (fun hlater => ?_) hrole fun dev hdev => ?_
    · have hfalse := hseqno.symm.trans hlater.2
      cases hfalse
    by_cases hnone : target.dstRole.typ = .none
    · rw [addedDevice, hone] at hdev
      dsimp only at hdev
      rw [if_pos hnone] at hdev
      cases hdev
    · rw [addedDevice_eq hone hnone, hnew] at hdev
      exact (some.inj hdev).symm
  | bare hseqno hsigner hnil hpuks =>
    rw [addPuks_keys hpuks]
    refine .bare (fun hempty => ?_) (addedDevice_eq_none fun target hone => ?_) ?_
    · obtain ⟨dev, hactive⟩ := isSome_iff_exists.mp hsigner
      obtain ⟨s, -, hdev⟩ := activeDevice_eq_some.mp hactive
      have hmem := Map.mem_iff.mpr ⟨dev, hdev⟩
      rw [hempty] at hmem
      exact notMem_empty hmem
    · rw [hnil] at hone
      cases hone
    · rw [revokedID, hnil]
  | @revoke target res fid lst di rk _ hseqno hsigner hone hnone hcheck hfid hlst hdi hrk hpuks =>
    rw [addPuks_keys hpuks]
    obtain ⟨f, dev, hf, hdev, hrole, -, -, hcount⟩ := checkDeviceRevoke_eq_ok hcheck
    obtain rfl := ok_unique hfid hf
    refine .revoke hseqno (addedDevice_eq_none fun target' hone' => ?_) ?_ hf hdev
      fun howner => hcount ((typ_of_importRole hrole).trans howner)
    · rw [hone] at hone'
      cases hone'
      exact hnone
    · rw [revokedID, hone]
      exact if_pos hnone
  | @provision target res fid key dn leaf _ hseqno hsigner hone hsome hcheck hfid hkey hname hvalid
      hleaf hpuks =>
    rw [addPuks_keys hpuks, putDevice_keys rfl]
    obtain ⟨signer, hactive, howner⟩ := (openDeviceProvision_eq_ok hcheck).1
    obtain ⟨s, hs, hdev⟩ := activeDevice_eq_some.mp hactive
    refine .provision hs hdev howner ?_ hfid ?_
    · rw [addedDevice_eq hone hsome]
      exact (newDevice_of_openDeviceProvision hcheck).1
    · rw [revokedID, hone]
      exact if_neg hsome

omit [DecidableEq H] in
/-- From the first link on, a link leaves an owner device unless the last one gives itself another
role, or is revoked by an ID that is not its own. -/
theorem KeyStep.hasOwner_iff {keys' : DeviceMap} (h : KeyStep host odc keys keys')
    (howner : keys = ∅ ∨ HasOwner keys) : HasOwner keys' ↔ KeepsOwner host keys odc := by
  cases h with
  | @eldest dev f seqno hfirst hrole hadded =>
    rw [hasOwner_insert]
    have hdev : dev.role.typ = .owner := Role.typ_eq_owner.mpr hrole
    refine iff_of_true (.inl hdev) ⟨fun dev' f' hdev' _ _ hother => ?_, fun hlater => absurd hlater hfirst⟩
    rw [hadded dev' hdev'] at hother
    exact absurd hdev hother
  | bare hne hadded hrevoked =>
    refine iff_of_true (howner.resolve_left hne) ⟨fun dev f hdev => ?_, fun _ e f he => ?_⟩
    · rw [hadded] at hdev
      cases hdev
    · rw [hrevoked] at he
      cases he
  | @revoke e f dev hlater hadded hrevoked hf hdev hcount =>
    rw [hasOwner_erase]
    constructor
    · intro hother
      refine ⟨fun dev' f' hdev' => ?_, fun _ e' f' he' hf' _ => ?_⟩
      · rw [hadded] at hdev'
        cases hdev'
      · obtain rfl := mem_unique hrevoked he'
        obtain rfl := ok_unique hf hf'
        exact hother
    · intro hkeeps
      by_cases hrole : dev.ps.role.typ = .owner
      · by_cases hunfix : EntityID.unfix f = .ok e
        · -- the count leaves out the device itself
          obtain ⟨d, dev', hne, hdev', hrole'⟩ := countRemainingOwners_ne_zero.mp (hcount hrole)
          refine ⟨d, dev', ?_, hdev', hrole'⟩
          rintro rfl
          exact hne hunfix
        · exact hkeeps.revoke hlater e f hrevoked hf hunfix
      · have hne : keys ≠ ∅ := by
          rintro rfl
          cases hdev
        exact (howner.resolve_left hne).other hdev hrole
  | @provision signer dev s f seqno hs hsigner hrole hadded hf hrevoked =>
    rw [hasOwner_insert]
    constructor
    · intro hleft
      refine ⟨fun dev' f' hdev' hf' _ hother => ?_, fun _ e f' he => ?_⟩
      · obtain rfl := mem_unique hadded hdev'
        obtain rfl := ok_unique hf hf'
        exact hleft.resolve_left hother
      · rw [hrevoked] at he
        cases he
    · intro hkeeps
      by_cases hdev : dev.role.typ = .owner
      · exact .inl hdev
      by_cases hself : s = f
      · subst hself
        exact .inr (hkeeps.provision dev s hadded hf hs hdev)
      -- the device that signs remains
      refine .inr ⟨_, signer, fun heq => hself ?_, hsigner, Role.typ_eq_owner.mpr hrole⟩
      exact congrArg FQEntityFixed.entity heq

end Step

section Chain

variable [DecidableEq H] {sv : Services H} {a : PlayArg H} {odcs : List (OpenDeviceChangeRes H)}
  {p : UserPlayer H}

/-- Before a link the player has no device yet, or an owner device. -/
theorem empty_or_hasOwner {pre : List (OpenDeviceChangeRes H)} {v : UserPlayer H}
    (hpre : playLinks sv a pre {} = (.ok (), v))
    (howner : pre ≠ [] → ∃ v', playLinks sv a pre {} = (.ok (), v') ∧ HasOwner v'.keys) :
    v.keys = ∅ ∨ HasOwner v.keys := by
  by_cases hnil : pre = []
  · subst hnil
    cases hpre
    exact .inl rfl
  obtain ⟨v', hpre', hv'⟩ := howner hnil
  obtain rfl : v = v' := state_unique hpre hpre'
  exact .inr hv'

/-- **The last owner device.** After every link of an accepted chain there is an owner device if and
only if, while there is no other owner device, no link is the provision of the owner device by itself with
another role, or its revocation by an ID that is not its own. -/
theorem owner_remains_iff (hplay : playLinks sv a odcs {} = (.ok (), p)) :
    (∀ pre post, odcs = pre ++ post → pre ≠ [] →
      ∃ v, playLinks sv a pre {} = (.ok (), v) ∧ HasOwner v.keys) ↔
    ∀ pre odc post v, odcs = pre ++ odc :: post → playLinks sv a pre {} = (.ok (), v) →
      KeepsOwner a.host v.keys odc := by
  constructor
  · intro howner pre odc post v hsplit hpre
    have hbefore := empty_or_hasOwner hpre (howner pre (odc :: post) hsplit)
    obtain ⟨w, hafter, hw⟩ := howner (pre ++ [odc]) post (by rw [hsplit]; simp) (by simp)
    obtain ⟨v', hpre', hstep⟩ := playLinks_concat hafter
    obtain rfl : v = v' := state_unique hpre hpre'
    exact (hstep.keyStep.hasOwner_iff hbefore).mp hw
  · intro hkeeps pre
    -- on the prefix, from its end: what is before its last link is covered
    induction pre using reverseRecOn with
    | nil => exact fun post _ hne => absurd rfl hne
    | append_singleton pre odc ih =>
      intro post hsplit _
      rw [hsplit, playLinks_append] at hplay
      obtain ⟨w, hafter, -⟩ := hplay
      obtain ⟨v, hpre, hstep⟩ := playLinks_concat hafter
      rw [append_assoc, singleton_append] at hsplit
      have hbefore := empty_or_hasOwner hpre (ih (odc :: post) hsplit)
      refine ⟨w, hafter, (hstep.keyStep.hasOwner_iff hbefore).mpr ?_⟩
      exact hkeeps pre odc post v hsplit hpre

end Chain

/-! ## The only device -/

namespace UserSample

open Sample

/-- Device 1 revokes itself by its ID with a zero byte after it. -/
def revokePadded : Link :=
  later 2 1 [⟨.none, ⟨⟨.ofNat 34 ((device 1).num * 256), none⟩, .none, .none⟩⟩] [sharedKey 2 .owner (puk 2)] []

/-- The link is accepted after the first one, and no owner device is left. -/
def LosesOwner (link : Link) : Prop :=
  (opened [first, link]).length = 2 ∧
    ∃ p, playLinks services playArg (opened [first, link]) {} = (.ok (), p) ∧ ¬ HasOwner p.keys

theorem losesOwner_of_play {link : Link} (hlen : (opened [first, link]).length = 2)
    (hplay : (playLinks services playArg (opened [first, link]) {}).1 = .ok ())
    (howner : ¬ HasOwner (playLinks services playArg (opened [first, link]) {}).2.keys) : LosesOwner link :=
  ⟨hlen, _, Prod.ext hplay rfl, howner⟩

end UserSample

open UserSample in
/-- The only device provisions itself as a member, or revokes itself by its ID with a zero byte after it:
the links are accepted, and no owner device is left. -/
theorem not_owner_remains : LosesOwner (provision 2 1 (.member 0)) ∧ LosesOwner revokePadded := by
  constructor
  · exact losesOwner_of_play (by decide +kernel) (by decide +kernel) (by decide +kernel)
  · exact losesOwner_of_play (by decide +kernel) (by decide +kernel) (by decide +kernel)

open UserSample in
/-- The first device adds an owner device, and then provisions itself as a member. -/
theorem owner_remains_iff_two :
    ∃ p, playLinks Sample.services playArg
        (opened [first, provision 2 2 .owner, provision 3 1 (.member 0)]) {} = (.ok (), p) ∧
      HasOwner p.keys ∧
      ∀ pre odc post v, opened [first, provision 2 2 .owner, provision 3 1 (.member 0)] =
        pre ++ odc :: post → playLinks Sample.services playArg pre {} = (.ok (), v) →
          KeepsOwner playArg.host v.keys odc := by
  let links := opened [first, provision 2 2 .owner, provision 3 1 (.member 0)]
  have hplay : playLinks Sample.services playArg links {} = (.ok (), _) := Prod.ext (by decide +kernel) rfl
  -- the states after one, two and three links
  have hstates : ∀ n ∈ [1, 2, 3], (playLinks Sample.services playArg (links.take n) {}).1 = .ok () ∧
      HasOwner (playLinks Sample.services playArg (links.take n) {}).2.keys := by
    decide +kernel
  have hlen : links.length = 3 := by decide +kernel
  refine ⟨_, hplay, by decide +kernel, (owner_remains_iff hplay).mp fun pre post hsplit hne => ?_⟩
  have hpre : links.take pre.length = pre := by
    rw [hsplit, take_left]
  have hmem : pre.length ∈ [1, 2, 3] := by
    have hle : pre.length ≤ 3 := by
      rw [← hlen, hsplit, length_append]
      exact Nat.le_add_right ..
    have hpos := length_pos_iff.mpr hne
    simp only [mem_cons, not_mem_nil, or_false]
    omega
  obtain ⟨hok, howner⟩ := hstates pre.length hmem
  rw [hpre] at hok howner
  exact ⟨_, Prod.ext hok rfl, howner⟩

end Foks.Client
