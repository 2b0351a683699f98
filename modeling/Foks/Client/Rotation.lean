import Foks.Client.UserLoader

/-!
# Who rotates the keys of a user

The PUKs of a user are rotated when a device is revoked, and by links that do nothing else. The
checks of `lib/core/chain.go` let owner devices do this, one generation at a time, and for all
roles up to the highest one at once.

The player makes these checks for links that add or revoke a device. A link without a device change
reaches the loop that takes its PUKs without them: a device of any role can replace the PUKs of any
role, with any higher generation. In chains whose links of this kind pass `checkDeviceRotate`, all
rotations are made by owner devices.
-/

namespace Foks.Client

open Lib Merkle LinkFormat List Except Action
open Lib.Action (lift_eq_ok lift_bind_eq_ok read_bind_eq_ok within_eq_ok)
open Team (MemberRole)

variable {L H : Type} [DecidableEq H]

/-- A link after the first one, and the player when it comes to the link. -/
def PlayedBefore (sv : Services H) (a : PlayArg H) (odcs : List (OpenDeviceChangeRes H))
    (p : UserPlayer H) (odc : OpenDeviceChangeRes H) (v : UserPlayer H) : Prop :=
  ∃ n, 0 < n ∧ odcs[n]? = some odc ∧ playLinks sv a (odcs.take n) p = (.ok (), v)

variable (a : PlayArg H) (v : UserPlayer H) (odc : OpenDeviceChangeRes H)

/-- The highest role that a link rotates: that of the device that is revoked, or, without a device
change, that of the last PUK. -/
def rotationLimit : Option Role :=
  match odc.gc.changes with
  | [] => odc.gc.sharedKeys.getLast?.map (·.role)
  | [target] =>
    if target.dstRole.typ = .none then
      (activeDevice v.keys a.host target.member.id.entity).map (·.ps.role)
    else none
  | _ => none

/-- A link with PUKs, as the shared checks allow it: the device that signs is an active owner
device, the PUK of a known role is one generation ahead, and a link that revokes or rotates has a
PUK for every known role up to the limit. -/
structure OwnerRotation : Prop where
  owner : ∃ dev, activeDevice v.keys a.host odc.gc.signer.key = some dev ∧ dev.ps.role = .owner
  next : ∀ puk ∈ odc.gc.sharedKeys, ∀ rk gen, importRole puk.role = .ok rk →
    v.pukGens.lookup rk = some gen → puk.gen = gen + 1
  complete : ∀ role limit, rotationLimit a v odc = some role → importRole role = .ok limit →
    ∀ rk ∈ v.pukGens, rk ≤ limit → ∃ puk ∈ odc.gc.sharedKeys, importRole puk.role = .ok rk
  checked : (∃ res, checkDeviceRevokeOrRotate odc a.host v.keys v.pukGens = .ok res) ∨
    ∃ res, openDeviceProvision odc v.keys v.pukGens a.host = .ok res

/-- A link that has PUKs and no device change passes the check of rotations. -/
def RotationChecked : Prop :=
  odc.gc.changes ≠ [] ∨ odc.gc.sharedKeys = [] ∨ ∃ res, checkDeviceRotate odc a.host v.keys v.pukGens = .ok res

/-! ## The links that were opened -/

section Opened

variable [MerkleHash H] [LinkFormat L H]

/-- All links are opened, with the keys that the loader has, and nothing else changes. -/
theorem openLinks_eq_ok {uid : UID} {host : HostID} {n : ℕ} {links : List L} {u u' : UserLoader H}
    (h : openLinks uid host n links u = (.ok (), u')) :
    ∃ odcs, List.Forall₂ (fun link odc => openDeviceChange link u.hepks (some uid) host = .ok odc)
      links odcs ∧ u' = { u with odcs := u.odcs ++ odcs } := by
  induction links generalizing n u with
  | nil =>
    cases h
    exact ⟨[], .nil, by rw [append_nil]⟩
  | cons link links ih =>
    have h1 := read_bind_eq_ok.mp h
    obtain ⟨odc, hodc, h2⟩ := lift_bind_eq_ok.mp h1
    have h3 := update_bind_eq_ok.mp h2
    obtain ⟨odcs, hodcs, rfl⟩ := ih h3
    refine ⟨odc :: odcs, .cons (mapError_eq_ok.mp hodc) hodcs, ?_⟩
    rw [append_assoc, singleton_append]

end Opened

/-- The links that pass `checkChain` are numbered one after another. -/
theorem seqno_of_checkLinks [LinkHash L H] {which : String}
    {chainers : ℕ → Option (HidingChainer H)} {links : List L} {i : ℕ} {prev last : Option H}
    {seqno : Seqno} {b b' : BaseChainLoader H}
    (h : checkLinks which none chainers i links prev seqno b = (.ok last, b')) (j : ℕ)
    (hj : j < links.length) :
    ∃ ch, chainers (i + j) = some ch ∧ ch.base.seqno = seqno + j := by
  induction links generalizing i prev seqno b j with
  | nil => cases hj
  | cons link links ih =>
    obtain ⟨hsh, b1, hlink, h1⟩ := Action.bind_eq_ok.mp h
    cases j with
    | zero =>
      cases hch : chainers i with
      | none =>
        rw [hch] at hlink
        cases hlink
      | some ch =>
        rw [hch] at hlink
        exact ⟨ch, rfl, (checkLink_eq_ok hlink).1⟩
    | succ j =>
      obtain ⟨ch, hch, hseqno⟩ := ih h1 j (Nat.lt_of_succ_lt_succ hj)
      refine ⟨ch, ?_, ?_⟩
      · rw [← hch, add_assoc, add_comm 1 j]
      · rw [hseqno, add_assoc, add_comm 1 j]

section Checked

variable [MerkleHash H] [LinkHash L H] [LocationHash H] [LinkFormat L H]

/-- A loader without a saved state has opened all links after the checks, and they are numbered from
one on. -/
theorem checkRes_eq_ok {host : HostID} {r : UserAttempt L H} {u u1 : UserLoader H}
    (hnew : u.existing = none) (hodcs : u.odcs = []) (h : checkRes host r u = (.ok (), u1)) :
    List.Forall₂ (fun link odc => openDeviceChange link u.hepks (some u.arg.uid) host = .ok odc)
      r.raw.links u1.odcs ∧
    ∀ n odc, u1.odcs[n]? = some odc → odc.gc.chainer.base.seqno = chainEldestSeqno + n := by
  obtain ⟨⟨⟩, -, h1⟩ := lift_bind_eq_ok.mp h
  have h2 := read_bind_eq_ok.mp h1
  obtain ⟨⟨⟩, v2, hopen, h3⟩ := Action.bind_eq_ok.mp h2
  obtain ⟨odcs, hopened, rfl⟩ := openLinks_eq_ok hopen
  obtain ⟨⟨⟩, v3, hchain, h4⟩ := Action.bind_eq_ok.mp h3
  -- neither of the two checks changes the links
  have hchain1 := read_bind_eq_ok.mp hchain
  obtain ⟨b, hlinks, rfl⟩ := within_eq_ok.mp hchain1
  have h5 := read_bind_eq_ok.mp h4
  obtain ⟨⟨⟩, v6, hpaths, h6⟩ := Action.bind_eq_ok.mp h5
  obtain ⟨b', -, rfl⟩ := within_eq_ok.mp hpaths
  cases h6
  dsimp only [id] at hlinks ⊢
  rw [hodcs] at hlinks ⊢
  refine ⟨hopened, fun n odc hn => ?_⟩
  obtain ⟨last, b1, hcheck, -⟩ := Action.bind_eq_ok.mp hlinks
  have hlt : n < r.raw.links.length := by
    rw [hopened.length_eq]
    exact (List.getElem?_eq_some_iff.mp hn).1
  obtain ⟨ch, hch, hseqno⟩ := seqno_of_checkLinks hcheck n hlt
  rw [zero_add, chainerAtIndex, hn] at hch
  cases hch
  rw [hseqno, hnew]
  rfl

end Checked

/-! ## What the player checks -/

variable {a : PlayArg H} {odc : OpenDeviceChangeRes H} {sv : Services H}

variable {v v' : UserPlayer H}

theorem playRevoke_eq_ok (h : playRevoke a odc v = (.ok (), v')) :
    ∃ res, checkDeviceRevokeOrRotate odc a.host v.keys v.pukGens = .ok res := by
  have h1 := read_bind_eq_ok.mp h
  obtain ⟨res, v2, hcheck, -⟩ := Action.bind_eq_ok.mp h1
  exact ⟨res, mapError_eq_ok.mp (lift_eq_ok.mp hcheck).1⟩

omit [DecidableEq H] in
theorem playProvision_eq_ok (h : playProvision sv a odc v = (.ok (), v')) :
    ∃ res, openDeviceProvision odc v.keys v.pukGens a.host = .ok res := by
  have h1 := read_bind_eq_ok.mp h
  obtain ⟨res, v2, hcheck, -⟩ := Action.bind_eq_ok.mp h1
  exact ⟨res, mapError_eq_ok.mp (lift_eq_ok.mp hcheck).1⟩

/-- Of a link that adds or revokes a device the player makes the shared check, and of a link without
a device change it makes none. -/
theorem playLinkNonEldest_eq_ok (h : playLinkNonEldest sv a odc v = (.ok (), v')) :
    odc.gc.changes = [] ∨
    (∃ target, odc.gc.changes = [target] ∧ target.dstRole.typ = .none ∧
      ∃ res, checkDeviceRevoke odc target a.host v.keys v.pukGens = .ok res) ∨
    (∃ target, odc.gc.changes = [target] ∧ target.dstRole.typ ≠ .none ∧
      ∃ res, openDeviceProvision odc v.keys v.pukGens a.host = .ok res) := by
  obtain ⟨⟨⟩, v1, hsigner, h1⟩ := Action.bind_eq_ok.mp h
  -- the check of the signer changes nothing, and new names neither keys nor generations
  obtain ⟨fid, -, hread⟩ := lift_bind_eq_ok.mp hsigner
  have hrefuse := read_bind_eq_ok.mp hread
  obtain ⟨-, rfl⟩ := refuse_eq_ok.mp hrefuse
  have h2 := update_bind_eq_ok.mp h1
  obtain ⟨⟨⟩, v4, hdevice, -⟩ := Action.bind_eq_ok.mp h2
  unfold playDeviceChange at hdevice
  rcases hchanges : odc.gc.changes with _ | ⟨target, _ | ⟨target', rest⟩⟩
  · exact .inl rfl
  · right
    rw [hchanges] at hdevice
    dsimp only at hdevice
    by_cases hnone : target.dstRole.typ = .none
    · rw [if_pos hnone] at hdevice
      obtain ⟨res, hres⟩ := playRevoke_eq_ok hdevice
      rw [checkDeviceRevokeOrRotate, hchanges] at hres
      exact .inl ⟨target, rfl, hnone, res, hres⟩
    rw [if_neg hnone] at hdevice
    obtain ⟨res, hres⟩ := playProvision_eq_ok hdevice
    exact .inr ⟨target, rfl, hnone, res, hres⟩
  · rw [hchanges] at hdevice
    cases hdevice

/-- The player that has played some links plays the others from there on. -/
theorem playLinks_append {pre post : List (OpenDeviceChangeRes H)} {p p' : UserPlayer H} :
    playLinks sv a (pre ++ post) p = (.ok (), p') ↔
      ∃ v, playLinks sv a pre p = (.ok (), v) ∧ playLinks sv a post v = (.ok (), p') := by
  induction pre generalizing p with
  | nil =>
    constructor
    · exact fun h => ⟨p, rfl, h⟩
    · rintro ⟨v, hpre, hpost⟩
      cases hpre
      exact hpost
  | cons odc pre ih =>
    rw [cons_append, playLinks, Action.bind_eq_ok]
    constructor
    · rintro ⟨⟨⟩, w, hlink, hrest⟩
      obtain ⟨v, hpre, hpost⟩ := ih.mp hrest
      exact ⟨v, Action.bind_eq_ok.mpr ⟨(), w, hlink, hpre⟩, hpost⟩
    · rintro ⟨v, hpre, hpost⟩
      obtain ⟨⟨⟩, w, hlink, hrest⟩ := Action.bind_eq_ok.mp hpre
      exact ⟨(), w, hlink, ih.mpr ⟨v, hrest, hpost⟩⟩

/-! ## The rotations -/

section Step

/-- What the check that revocations and rotations share says of a link with PUKs. -/
theorem OwnerRotation.of_common {limit : RoleKey} (hsigner : odc.existingDevice = odc.gc.signer.key)
    (hkeys : odc.gc.sharedKeys ≠ [])
    (h : checkRotateRevokeCommon odc a.host v.keys v.pukGens limit = .ok ())
    (hlimit : ∀ role rk, rotationLimit a v odc = some role → importRole role = .ok rk → rk = limit)
    (hchecked : ∃ res, checkDeviceRevokeOrRotate odc a.host v.keys v.pukGens = .ok res) :
    OwnerRotation a v odc := by
  obtain ⟨howner, hupdate⟩ := checkRotateRevokeCommon_eq_ok h
  obtain ⟨hgens, hroles⟩ := checkSharedKeyUpdate_eq_ok (hupdate hkeys)
  rw [hsigner] at howner
  refine ⟨howner, ?_, ?_, .inl hchecked⟩
  · intro puk hpuk rk gen hrole hgen
    obtain ⟨rk', gen', hrole', hgen', hnext⟩ := hgens puk hpuk
    obtain rfl : rk = rk' := ok_unique hrole hrole'
    obtain rfl : gen = gen' := Option.mem_unique hgen hgen'
    exact hnext
  · intro role rk hrole hrk known hknown hle
    exact hroles known hknown (hlimit role rk hrole hrk ▸ hle)

/-- A link after the first one that the player accepts. -/
theorem ownerRotation_of_playLinkNonEldest
    (hsigner : odc.existingDevice = odc.gc.signer.key)
    (hsame : odc.sharedKeys.map (·.toSharedKey) = odc.gc.sharedKeys) (hkeys : odc.gc.sharedKeys ≠ [])
    (hwhen : RotationChecked a v odc) (h : playLinkNonEldest sv a odc v = (.ok (), v')) :
    OwnerRotation a v odc := by
  rcases playLinkNonEldest_eq_ok h with hnil | ⟨target, hone, hnone, res, hrevoke⟩ |
      ⟨target, hone, hsome, res, hprovision⟩
  · -- a bare rotation: the player has checked nothing
    rcases hwhen with hchanges | hempty | ⟨res, hrotate⟩
    · exact absurd hnil hchanges
    · exact absurd hempty hkeys
    obtain ⟨puk, hlast, hrole, hcommon⟩ := checkDeviceRotate_eq_ok hrotate
    refine .of_common hsigner hkeys hcommon ?_ ⟨res, ?_⟩
    · intro role rk hlimit hrk
      rw [rotationLimit, hnil, ← hsame, List.getLast?_map, hlast] at hlimit
      cases hlimit
      exact ok_unique hrk hrole
    · rwa [checkDeviceRevokeOrRotate, hnil]
  · obtain ⟨fid, dev, hfid, hdev, hrole, -, hcommon, -⟩ := checkDeviceRevoke_eq_ok hrevoke
    refine .of_common hsigner hkeys hcommon ?_ ⟨res, ?_⟩
    · intro role rk hlimit hrk
      rw [rotationLimit, hone] at hlimit
      dsimp only at hlimit
      rw [if_pos hnone, activeDevice_eq_some.mpr ⟨fid, hfid, hdev⟩] at hlimit
      cases hlimit
      exact ok_unique hrk hrole
    · rwa [checkDeviceRevokeOrRotate, hone]
  obtain ⟨howner, hnext⟩ := openDeviceProvision_eq_ok hprovision
  rw [hsigner] at howner
  refine ⟨howner, ?_, ?_, .inr ⟨res, hprovision⟩⟩
  · intro puk hpuk rk gen hrole hgen
    rw [← hsame] at hpuk
    obtain ⟨suite, hsuite, rfl⟩ := mem_map.mp hpuk
    exact hnext suite hsuite rk gen hrole hgen
  -- a provision has no limit
  intro role rk hlimit
  rw [rotationLimit, hone] at hlimit
  dsimp only at hlimit
  rw [if_neg hsome] at hlimit
  cases hlimit

end Step

/-- **Only owner devices rotate the keys of a user**, if every link that rotates PUKs without a
device change passes the check of rotations. A loader without a saved state accepts a chain: it
opens the links, checks the chain and plays the links from the eldest one on. Then each later link
with PUKs carries the signature of a device that is active with the owner role just before the link;
its PUKs are one generation ahead; and if it revokes a device, or does nothing else, then no known
role up to the limit is left out. -/
theorem rotations_by_owners [MerkleHash H] [LinkHash L H] [LocationHash H] [LinkFormat L H]
    (sv : Services H) (host : HostID) (r : UserAttempt L H) {u u₁ : UserLoader H} {p : UserPlayer H}
    (hnew : u.existing = none) (hodcs : u.odcs = []) (hcheck : checkRes host r u = (.ok (), u₁))
    (hplay : playLinks sv (u₁.playArg host r.raw) u₁.odcs u₁.player = (.ok (), p))
    (hwhen : ∀ odc v, PlayedBefore sv (u₁.playArg host r.raw) u₁.odcs u₁.player odc v →
      RotationChecked (u₁.playArg host r.raw) v odc)
    {odc : OpenDeviceChangeRes H} {v : UserPlayer H}
    (hbefore : PlayedBefore sv (u₁.playArg host r.raw) u₁.odcs u₁.player odc v)
    (hkeys : odc.gc.sharedKeys ≠ []) :
    OwnerRotation (u₁.playArg host r.raw) v odc ∧
      ∃ link ∈ r.raw.links, openGroupChange link = .ok odc.gc ∧
        ∃ keys, verifyStackedSignature H link (keys ++ [odc.gc.signer.key]) = .ok () := by
  obtain ⟨hopened, hseqnos⟩ := checkRes_eq_ok hnew hodcs hcheck
  have hchecked := hwhen odc v hbefore
  obtain ⟨n, hpos, hn, hplayed⟩ := hbefore
  obtain ⟨hlt, hodc⟩ := List.getElem?_eq_some_iff.mp hn
  -- the link that was opened
  have hlt' : n < r.raw.links.length := hopened.length_eq ▸ hlt
  have hlink : openDeviceChange r.raw.links[n] u.hepks (some u.arg.uid) host = .ok odc := by
    have hget := (forall₂_iff_get.mp hopened).2 n hlt' hlt
    rwa [get_eq_getElem, get_eq_getElem, hodc] at hget
  obtain ⟨hgc, hexisting, -, hsame, hsigned⟩ := openDeviceChange_eq_ok hlink
  refine ⟨?_, r.raw.links[n], getElem_mem hlt', hgc, hsigned⟩
  -- it comes after the first link, so that it is not an eldest link
  have hseqno := hseqnos n odc hn
  have hvalid : isValid odc.gc.chainer.base.seqno = true := by
    rw [isValid, hseqno, decide_eq_true_eq]
    exact Nat.le_add_right _ _
  have hlater : isEldest odc.gc.chainer.base.seqno = false := by
    rw [isEldest, hseqno, beq_eq_false_iff_ne]
    exact Nat.ne_of_gt (Nat.lt_add_of_pos_right hpos)
  rw [← take_append_drop n u₁.odcs, drop_eq_getElem_cons hlt, hodc, playLinks_append] at hplay
  obtain ⟨v', hplayed', hrest⟩ := hplay
  obtain rfl : v = v' := state_unique hplayed hplayed'
  obtain ⟨⟨⟩, w, hstep, -⟩ := Action.bind_eq_ok.mp hrest
  unfold playLink at hstep
  rw [hvalid, hlater] at hstep
  exact ownerRotation_of_playLinkNonEldest hexisting hsame hkeys hchecked hstep

/-! ## A chain with a rotation -/

namespace Sample

-- links are numbers, and a signature is the number of the key that makes it

def host : HostID := 9

def uid : UID := 256 ^ 32 + 77

/-- The PUK of the eldest link has the number of the user. -/
def ownerPuk : EntityID := .ofNat 33 (14 * 256 ^ 32 + 77)

variable (n : ℕ)

def puk : EntityID := .ofNat 33 (14 * 256 ^ 32 + n)

def device : EntityID := .ofNat 33 (4 * 256 ^ 32 + n)

def hepk : HEPK := ⟨.curve25519 n, n⟩

def change (role : Role) : MemberRole SymHash :=
  ⟨role, ⟨⟨device n, none⟩, .none, .user (.atom n) none⟩⟩

def sharedKey (gen : Generation) (role : Role) (key : EntityID) : SharedKey SymHash :=
  ⟨gen, role, key, .atom 3⟩

/-- A link of the user, with the number of the device that signs. -/
def link (seqno : Seqno) (prev : Option SymHash) (signer : ℕ) (changes : List (MemberRole SymHash))
    (sharedKeys : List (SharedKey SymHash)) (metadata : List (ChangeMetadata SymHash)) :
    GroupChange SymHash :=
  ⟨⟨⟨seqno, prev, ⟨seqno, .zero⟩, 0⟩, .atom (6 + seqno)⟩, ⟨uid.entityID, host⟩, ⟨device signer, none⟩, changes,
    sharedKeys, metadata⟩

/-- The signatures that the keys make. -/
def signedBy (keys : List EntityID) : List Signature := keys.map (·.num)

/-- Device 1 is the first device. It adds device 2, which is a member. Then device 2 replaces the PUK
of owners (link 3), or device 1 rotates all PUKs (link 4). -/
def links : ℕ → Option (GroupChange SymHash × List Signature)
  | 1 => some (link 1 none 1 [change 1 .owner] [sharedKey 1 .owner ownerPuk]
      [.username (.atom 20), .deviceName (.atom 21), .eldest (.atom 22)], signedBy [ownerPuk, device 1])
  | 2 => some (link 2 (some (.atom 1)) 1 [change 2 (.member 0)] [sharedKey 1 (.member 0) (puk 1)]
      [.deviceName (.atom 23)], signedBy [puk 1, device 2, device 1])
  | 3 => some (link 3 (some (.atom 2)) 2 [] [sharedKey 5 .owner (puk 2)] [],
      signedBy [puk 2, device 2])
  | 4 => some (link 3 (some (.atom 2)) 1 []
      [sharedKey 2 (.member 0) (puk 3), sharedKey 2 .owner (puk 4)] [],
      signedBy [puk 3, puk 4, device 1])
  | _ => none

instance : LinkFormat ℕ SymHash where
  openGroupChange n := ((links n).map Prod.fst).elim (.error (.linkError "no such link")) .ok
  signatures n := ((links n).map Prod.snd).getD []
  verify key sig _ _ := refuse (sig ≠ key.num) (.verifyError "bad signature")

instance : KeyHash SymHash := ⟨fun hepk => .atom hepk.pqkem⟩

def services : Services SymHash where
  normalizeName := .ok
  openCommitment _ _ _ := .ok ()
  checkNameLoad _ _ _ _ _ _ _ _ := .ok 1
  sortPuks m := (sorted (m.keys.image toLex)).filterMap fun k =>
    (m.lookup (ofLex k)).map (·.toSharedKey)

def arg : LoadUserArg := ⟨uid, "", .others, none⟩

def key (seqno : Seqno) : MerkleTreeRFOutput := LocationHash.keyHash SymHash ⟨seqno, uid.entityID, .user, none⟩

def leaf (seqno : Seqno) (n : ℕ) : SymHash := .leaf (key seqno).bytes (.atom n)

/-- The tree has the links 1 and 2, and link `n` after them. -/
def left : SymHash := .node 1 0 [] (leaf 1 1) (leaf 3 n)

def root : MerkleRootV1 SymHash :=
  ⟨1, 0, .zero, .node 0 0 [] (left n) (leaf 2 2), ⟨0, .zero⟩⟩

def paths : List (MerklePathCompressedPair SymHash) :=
  [⟨⟨[(0, leaf 2 2), (0, leaf 3 n)], [], short_nil⟩, .toLeaf ⟨.atom 1, none⟩⟩,
    ⟨⟨[(0, left n)], [], short_nil⟩, .toLeaf ⟨.atom 2, none⟩⟩,
    ⟨⟨[(0, leaf 2 2), (0, leaf 1 1)], [], short_nil⟩, .toLeaf ⟨.atom n, none⟩⟩,
    ⟨⟨[(0, left n)], [], short_nil⟩, .toLeaf ⟨.atom 2, some (key 2)⟩⟩]

/-- The reply with the links 1, 2 and `n`. -/
def reply : UserAttempt ℕ SymHash where
  resolved := .ok uid
  session := .ok ()
  raw := {
    links := [1, 2, n]
    locations := [7, 8, 9]
    usernames := []
    merkle := ⟨.v1 (root n), paths n⟩
    deviceNames := []
    usernameUtf8 := "sample"
    numUsernameLinks := 0
    hepks := [hepk 1, hepk 2, hepk 3] }

/-- A new loader that has the reply, and the loader after the checks. -/
def start : UserLoader SymHash :=
  (prepareUser services host none (reply n) (newUserLoader arg)).2

def checked : UserLoader SymHash := (checkRes host (reply n) (start n)).2

def playArg (n : ℕ) : PlayArg SymHash := (checked n).playArg host (reply n).raw

/-- The player before the third link. -/
def before : UserPlayer SymHash :=
  (playLinks services (playArg n) ((checked n).odcs.take 2) (checked n).player).2

end Sample

open Sample in
/-- A member device replaces the PUK of owners, with a generation that skips some, and the loader
accepts it. -/
theorem not_rotations_by_owners :
    ∃ u₁ p odc v, checkRes host (reply 3) (start 3) = (.ok (), u₁) ∧
      playLinks services (u₁.playArg host (reply 3).raw) u₁.odcs u₁.player = (.ok (), p) ∧
      PlayedBefore services (u₁.playArg host (reply 3).raw) u₁.odcs u₁.player odc v ∧
      odc.gc.sharedKeys ≠ [] ∧
      (activeDevice v.keys host odc.gc.signer.key).map (·.ps.role) = some (.member 0) ∧
      v.pukGens.lookup .ownerRole = some 1 ∧
      odc.gc.sharedKeys.map (fun puk => (puk.role, puk.gen)) = [(.owner, 5)] ∧
      ¬ OwnerRotation (u₁.playArg host (reply 3).raw) v odc := by
  obtain ⟨odc, hodc⟩ : ∃ odc, (checked 3).odcs[2]? = some odc :=
    Option.isSome_iff_exists.mp (by decide +kernel)
  have hfacts : ∀ odc ∈ (checked 3).odcs[2]?, odc.gc.sharedKeys ≠ [] ∧
      (activeDevice (before 3).keys host odc.gc.signer.key).map (·.ps.role) = some (.member 0) ∧
      odc.gc.sharedKeys.map (fun puk => (puk.role, puk.gen)) = [(.owner, 5)] := by decide +kernel
  obtain ⟨hkeys, hmember, hgens⟩ := hfacts odc hodc
  refine ⟨checked 3, _, odc, before 3, Prod.ext (by decide +kernel) rfl,
    Prod.ext (by decide +kernel) rfl, ⟨2, by decide, hodc, Prod.ext (by decide +kernel) rfl⟩, hkeys,
    hmember, by decide +kernel, hgens, fun hrotation => ?_⟩
  obtain ⟨dev, hdev, hrole⟩ := hrotation.owner
  have hrole' : some dev.ps.role = some (.member 0) := by
    rw [← hmember]
    exact congrArg (Option.map (·.ps.role)) hdev.symm
  rw [hrole] at hrole'
  cases hrole'

open Sample in
/-- The first device rotates all PUKs. -/
theorem rotations_by_owners_sample :
    ∃ odc, (checked 4).odcs[2]? = some odc ∧ odc.gc.changes = [] ∧
      OwnerRotation (playArg 4) (before 4) odc := by
  obtain ⟨odc, hodc⟩ : ∃ odc, (checked 4).odcs[2]? = some odc :=
    Option.isSome_iff_exists.mp (by decide +kernel)
  have hfacts : ∀ odc ∈ (checked 4).odcs[2]?, odc.gc.sharedKeys ≠ [] ∧ odc.gc.changes = [] := by
    decide +kernel
  obtain ⟨hkeys, hchanges⟩ := hfacts odc hodc
  -- the second link adds a device, and the third one passes the check
  have hwhen : ∀ n ∈ [1, 2], ∀ odc ∈ (checked 4).odcs[n]?, odc.gc.changes ≠ [] ∨ (checkDeviceRotate odc host
        (playLinks services (playArg 4) ((checked 4).odcs.take n) (checked 4).player).2.keys
        (playLinks services (playArg 4) ((checked 4).odcs.take n) (checked 4).player).2.pukGens).isOk
        = true := by decide +kernel
  have hcheck : checkRes host (reply 4) (start 4) = (.ok (), checked 4) :=
    Prod.ext (by decide +kernel) rfl
  have hplay : playLinks services (playArg 4) (checked 4).odcs (checked 4).player = (.ok (), _) :=
    Prod.ext (by decide +kernel) rfl
  refine ⟨odc, hodc, hchanges, (rotations_by_owners services host (reply 4) (by decide +kernel)
    (by decide +kernel) hcheck hplay ?_ ⟨2, by decide, hodc, Prod.ext (by decide +kernel) rfl⟩
    hkeys).1⟩
  rintro odc' v ⟨n, hpos, hn, hplayed⟩
  have hlen : (checked 4).odcs.length = 3 := by decide +kernel
  have hlt := (List.getElem?_eq_some_iff.mp hn).1
  have hmem : n ∈ [1, 2] := by
    rw [mem_cons, mem_singleton]
    omega
  rcases hwhen n hmem odc' hn with hne | hok
  · exact .inl hne
  right
  right
  obtain rfl : (playLinks services (playArg 4) ((checked 4).odcs.take n) (checked 4).player).2 = v :=
    congrArg Prod.snd hplayed
  revert hok
  cases hres : checkDeviceRotate odc' host _ _ with
  | error err => exact fun hok => nomatch hok
  | ok res => exact fun _ => ⟨res, hres⟩

end Foks.Client
