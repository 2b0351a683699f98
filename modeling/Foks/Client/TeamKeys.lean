import Foks.Client.Rotation
import Foks.Client.TeamRetry
import Foks.Team.Schedule

/-!
# The keys of a team and its roster

The schedule of a change set says which keys of the team get a new generation, and the roster counts
on it; the key ring of a client counts the keys that the links carry. A server holds the two together:
it takes a link only if the link carries the keys of the schedule (`lib/team/validate.go`). A client
does not, and computes the schedule of each link for the roster alone.
-/

namespace Foks.Client

open Lib Merkle LinkFormat List Finmap Except SharedKey Prod
open Team (ChangeSet KeyGens KeySchedule KeyScheduleItem MemberKeysSet MemberRole MemberRoleSeqno
  RosterCore makeChangeSet)

variable {L H X A : Type} {a : TeamPlayArg H} {otlr : OpenTeamLinkRes H} {hepks : HEPKSet H}
  {floor : Option Role}

/-! ## The check of the server -/

/-- The loop of `MatchPublicKeys`. -/
def matchPublicKeysFrom : List KeyScheduleItem → List (SharedKey H) → Except CoreError Unit
  | [], [] => return ()
  | [], _ :: _ => .error (.teamError "too many shared keys")
  | item :: items, sks =>
    if !item.newKeyGen then matchPublicKeysFrom items sks
    else
      match sks with
      | [] => .error (.teamError "ran out of shared keys")
      | sk :: sks => do
        refuse (sk.gen ≠ item.gen) (.teamError "shared key gen mismatch")
        refuse (sk.role ≠ item.role.exportRole) (.teamError "shared key role mismatch")
        matchPublicKeysFrom items sks

def matchPublicKeys (s : KeySchedule) (sk : List (SharedKey H)) : Except CoreError Unit :=
  matchPublicKeysFrom s.items sk

/-- The role and the generation of a shared key. -/
def SharedKey.roleGen (sk : SharedKey H) : Role × Generation := (sk.role, sk.gen)

/-- The role and the generation that the shared key for a new key has. -/
def exportKey (k : RoleKey × Generation) : Role × Generation := (k.1.exportRole, k.2)

theorem exportKey_injective : Function.Injective exportKey := by
  rintro ⟨rk, g⟩ ⟨rk', g'⟩ h
  obtain ⟨hrole, hgen⟩ := Prod.mk.inj h
  exact Prod.ext (RoleKey.exportRole_injective hrole) hgen

theorem matchPublicKeys_eq_ok {s : KeySchedule} {sks : List (SharedKey H)} :
    matchPublicKeys s sks = .ok () ↔ sks.map roleGen = s.newKeys.map exportKey := by
  unfold matchPublicKeys KeySchedule.newKeys
  induction s.items generalizing sks with
  | nil =>
    cases sks with
    | nil => exact ⟨fun _ => rfl, fun _ => rfl⟩
    | cons sk sks => exact ⟨nofun, nofun⟩
  | cons item items ih =>
    unfold matchPublicKeysFrom
    cases hnew : item.newKeyGen with
    | false => simpa [hnew] using ih
    | true =>
      rw [filter_cons_of_pos hnew]
      cases sks with
      | nil => exact ⟨nofun, nofun⟩
      | cons sk sks =>
        simp only [Bool.not_true, Bool.false_eq_true, if_false, bind_eq_ok, refuse_eq_ok,
          exists_const, not_not, map_cons, List.cons.injEq, ih]
        constructor
        · rintro ⟨hgen, hrole, hrest⟩
          exact ⟨Prod.ext hrole hgen, hrest⟩
        · rintro ⟨hhead, hrest⟩
          obtain ⟨hrole, hgen⟩ := Prod.mk.inj hhead
          exact ⟨hgen, hrole, hrest⟩

/-! ## The boxes that the server takes -/

/-- `proto.SharedKeyBoxTarget`: no host is the home host. -/
structure SharedKeyBoxTarget where
  eid : EntityID
  host : Option HostID
  role : Role

structure SharedKeyBox where
  role : Role
  gen : Generation
  targ : SharedKeyBoxTarget

/-- One turn of `MatchBoxes`, for a member of an item, with the boxes that are left. -/
def matchBox (left : List SharedKeyBox) (b : Team.MemberID × RoleKey × Generation) :
    Except CoreError (List SharedKeyBox) :=
  match left with
  | [] => .error (.teamError "ran out of shared key boxes")
  | skb :: left => do
    refuse (skb.role ≠ b.2.1.exportRole) (.teamError "shared key box role mismatch")
    refuse (skb.gen ≠ b.2.2) (.teamError "shared key box gen mismatch")
    refuse (¬ ∀ h ∈ skb.targ.host, h = b.1.fqe.host) (.teamError "mismatched Host in MatchBoxes")
    let eid ← EntityID.unfix b.1.fqe.entity
    refuse (skb.targ.eid ≠ eid) (.teamError "mismatched EntityID in MatchBoxes")
    refuse (skb.targ.role ≠ b.1.srcRole.exportRole) (.teamError "shared key box srcRole mismatch")
    return left

/-- `MatchBoxes`: its two loops go over `KeySchedule.boxes`, and the host is not used. -/
def matchBoxes (s : KeySchedule) (ptks : List SharedKeyBox) (_host : HostID) : Except CoreError Unit := do
  let left ← s.boxes.foldlM matchBox ptks
  refuse (left ≠ []) (.teamError "too many shared key boxes")

/-- The box is for the key and the member, whose host it may leave out. -/
def BoxFor (b : Team.MemberID × RoleKey × Generation) (skb : SharedKeyBox) : Prop :=
  skb.role = b.2.1.exportRole ∧ skb.gen = b.2.2 ∧ (∀ h ∈ skb.targ.host, h = b.1.fqe.host) ∧
    EntityID.unfix b.1.fqe.entity = .ok skb.targ.eid ∧ skb.targ.role = b.1.srcRole.exportRole

section Boxes

variable (s : KeySchedule) (ptks : List SharedKeyBox) (host : HostID)

theorem matchBoxes_eq_ok : matchBoxes s ptks host = .ok () ↔ Forall₂ BoxFor s.boxes ptks := by
  unfold matchBoxes
  induction s.boxes generalizing ptks with
  | nil => simp [pure, Except.pure, bind, Except.bind]
  | cons b boxes ih =>
    rw [foldlM_cons, bind_assoc]
    cases ptks with
    | nil => constructor <;> rintro ⟨⟩
    | cons skb ptks =>
      simp only [matchBox, bind_assoc, bind_eq_ok, refuse_eq_ok, exists_const, not_not, pure_bind,
        ih, forall₂_cons]
      constructor
      · rintro ⟨hrole, hgen, hhost, _, heid, rfl, hsrc, hrest⟩
        exact ⟨⟨hrole, hgen, hhost, heid, hsrc⟩, hrest⟩
      · rintro ⟨⟨hrole, hgen, hhost, heid, hsrc⟩, hrest⟩
        exact ⟨hrole, hgen, hhost, _, heid, rfl, hsrc, hrest⟩

/-- The boxes that pass are those for the schedule, unless one leaves out the host of a remote member. -/
theorem matchBoxes_iff : (matchBoxes s ptks host = .ok () ↔
        Forall₂ (fun b skb => BoxFor b skb ∧ skb.targ.host.getD host = b.1.fqe.host) s.boxes ptks) ↔
      (Forall₂ BoxFor s.boxes ptks → ∀ p ∈ s.boxes.zip ptks, p.2.targ.host = none → p.1.1.fqe.host = host) := by
  rw [matchBoxes_eq_ok]
  constructor
  · intro h hall p hp hnone
    have hhost := ((forall₂_iff_zip.mp (h.mp hall)).2 hp).2
    rw [hnone] at hhost
    exact hhost.symm
  · refine fun hlocal => ⟨fun hall => ?_, fun h => h.imp fun _ _ hb => hb.1⟩
    obtain ⟨hlen, hfor⟩ := forall₂_iff_zip.mp hall
    refine forall₂_iff_zip.mpr ⟨hlen, fun {b skb} hp => ⟨hfor hp, ?_⟩⟩
    cases hhost : skb.targ.host with
    | none => exact (hlocal hall _ hp hhost).symm
    | some h => exact (hfor hp).2.2.1 h hhost

end Boxes

/-- A user and a user of another host with the same ID. -/
def twoHosts : ChangeSet := [⟨⟨⟨1, 256 ^ 33⟩, .ownerRole⟩, ⟨.ownerRole, 1, 1, 0⟩⟩,
  ⟨⟨⟨2, 256 ^ 33⟩, .ownerRole⟩, ⟨.memberRole, 1, 1, 0⟩⟩]

theorem matchBoxes_twoHosts : ∃ r s g ptks,
      Team.gameplan twoHosts ⟨⟨1, 256 ^ 33⟩, .ownerRole⟩ none none none = .ok (r, s, g) ∧
      matchBoxes s ptks 1 = .ok () ∧
      ¬ Forall₂ (fun b skb => BoxFor b skb ∧ skb.targ.host.getD 1 = b.1.fqe.host) s.boxes ptks := by
  obtain ⟨⟨r, s, g⟩, hplan, hs⟩ := exists_of_map_toOption (b := true)
    (x := Team.gameplan twoHosts ⟨⟨1, 256 ^ 33⟩, .ownerRole⟩ none none none)
    (f := fun res => res.2.1.boxes.all (·.1.fqe.entity == 256 ^ 33) && res.2.1.boxes.any (·.1.fqe.host == 2))
    (by decide +kernel)
  obtain ⟨hall, hany⟩ := Bool.and_eq_true _ _ ▸ hs
  obtain ⟨b, hb, hhost⟩ := any_eq_true.mp hany
  refine ⟨r, s, g, s.boxes.map fun b => ⟨b.2.1.exportRole, b.2.2, .ofNat 33 (256 ^ 32), none,
    b.1.srcRole.exportRole⟩,
    hplan, ?_, fun h => ?_⟩
  · rw [matchBoxes_eq_ok, forall₂_map_right_iff, forall₂_same]
    refine fun b hb => ⟨rfl, rfl, nofun, ?_, rfl⟩
    rw [eq_of_beq (all_eq_true.mp hall b hb)]
    rfl
  · rw [forall₂_map_right_iff, forall₂_same] at h
    cases (h b hb).2.trans (eq_of_beq hhost)

/-! ## The generations of a key ring -/

section Ring

variable [DecidableEq H]

theorem lookup_toKeyGens (r : TeamKeyRing H) (rk : RoleKey) :
    (toKeyGens r).lookup rk = ((r.lookup rk).bind List.getLast?).map (·.sk.gen) := by
  rw [toKeyGens]
  rcases hpub : r.lookup rk with _ | pub
  · have hkey : rk ∉ r.keys := fun hkey => by simpa [hpub] using Map.mem_keys_iff.mp hkey
    simp [hkey]
  have hkey : rk ∈ r.keys := Map.mem_keys_iff.mpr ⟨pub, hpub⟩
  rcases pub.eq_nil_or_concat with rfl | ⟨init, last, rfl⟩
  · simp [hpub]
  · simp [hpub, hkey]

/-- The keys of a role are numbered from the first generation on. -/
def Numbered (r : TeamKeyRing H) : Prop :=
  ∀ rk pub, r.lookup rk = some pub → pub.getLast?.map (·.sk.gen) = some pub.length

omit [DecidableEq H] in
theorem numbered_empty : Numbered (∅ : TeamKeyRing H) := by
  intro rk pub h
  simp at h

/-- A key that was added is the newest one of its role. -/
theorem addPub_eq_ok {k : SharedKeyWithInfo H} {r r' : TeamKeyRing H} (h : addPub k r = .ok r') :
    ∃ rk, rk.exportRole = k.sk.role ∧ toKeyGens r' = (toKeyGens r).insert rk k.sk.gen ∧
      (Numbered r → Numbered r' ∧ (toKeyGens r).lookup rk ≠ some k.sk.gen) := by
  obtain ⟨rk, hrk, h1⟩ := bind_eq_ok.mp h
  obtain ⟨⟨⟩, hgen, h2⟩ := bind_eq_ok.mp h1
  rw [refuse_eq_ok, not_not] at hgen
  generalize hpub' : (if firstGeneration < ((r.lookup rk).getD []).length then _ else _) = pub' at h2
  have hlength : pub'.length = ((r.lookup rk).getD []).length := by
    rw [← hpub']
    split <;> simp
  cases h2
  refine ⟨rk, exportRole_of_importRole hrk, ext_lookup fun rk' => ?_, fun hnum => ⟨?_, ?_⟩⟩
  · by_cases hne : rk' = rk
    · subst hne
      rw [lookup_toKeyGens]
      simp
    · rw [lookup_toKeyGens, lookup_insert_of_ne _ hne, lookup_insert_of_ne _ hne, lookup_toKeyGens]
  · intro rk' pub hlookup
    obtain ⟨rfl, rfl⟩ | ⟨-, hlookup⟩ := Map.lookup_insert_cases hlookup
    · rw [getLast?_concat, length_append, hlength]
      exact congrArg some hgen.symm
    · exact hnum rk' pub hlookup
  rw [lookup_toKeyGens, ← hgen]
  cases hpub : r.lookup rk with
  | none => simp
  | some pub =>
    rw [Option.bind_some, hnum rk pub hpub]
    simp [firstGeneration]

variable {p p' : TeamPlayer H}

/-- The keys of a link take the generations of the ring to theirs. -/
theorem addPubs_eq_ok {pi : ProvisionInfo H} {sks : List (SharedPublicSuite H)}
    (h : addPubs pi sks p = (.ok (), p')) :
    ∃ ks : List (RoleKey × Generation), ks.map exportKey = (sks.map (·.toSharedKey)).map roleGen ∧
      toKeyGens p'.ptks = (toKeyGens p.ptks).insertAll ks ∧
      (Numbered p.ptks → Numbered p'.ptks ∧
        ((ks.Pairwise fun x y => x.1 < y.1) → ∀ x ∈ ks, (toKeyGens p.ptks).lookup x.1 ≠ some x.2)) := by
  induction sks generalizing p with
  | nil =>
    cases h
    exact ⟨[], rfl, rfl, fun hnum => ⟨hnum, fun _ => forall_mem_nil _⟩⟩
  | cons sk sks ih =>
    have h1 := Action.read_bind_eq_ok.mp h
    obtain ⟨ptks, hadd, h2⟩ := Action.lift_bind_eq_ok.mp h1
    have h3 := Action.update_bind_eq_ok.mp h2
    obtain ⟨rk, hrole, hgens, hfirst⟩ := addPub_eq_ok hadd
    obtain ⟨ks, hks, hrest, hnext⟩ := ih h3
    refine ⟨(rk, sk.gen) :: ks, ?_, ?_, fun hnum => ?_⟩
    · rw [map_cons, hks]
      exact congrArg₂ List.cons (Prod.ext hrole rfl) rfl
    · rw [hrest]
      exact congrArg (fun m => Map.insertAll m ks) hgens
    obtain ⟨hnum', hnew⟩ := hfirst hnum
    refine ⟨(hnext hnum').1, fun hsorted => ?_⟩
    obtain ⟨hlt, htail⟩ := pairwise_cons.mp hsorted
    refine forall_mem_cons.mpr ⟨hnew, fun x hx => ?_⟩
    -- the keys before it are of other roles
    have hlookup := (hnext hnum').2 htail x hx
    rwa [hgens, lookup_insert_of_ne _ (hlt x hx).ne'] at hlookup

/-- The keys of a link come in the order of their roles. -/
theorem pairwise_of_openSharedKeysFrom {prev : Option RoleKey}
    {sks : List (SharedKey H)} {keys : List (SharedPublicSuite H)} {ks : List (RoleKey × Generation)}
    (hks : ks.map exportKey = sks.map roleGen)
    (h : openSharedKeysFrom hepks (prev.map RoleKey.exportRole) sks = .ok keys) :
    (∀ rk ∈ prev, ∀ x ∈ ks, rk < x.1) ∧ ks.Pairwise fun x y => x.1 < y.1 := by
  induction sks generalizing prev keys ks with
  | nil =>
    cases map_eq_nil_iff.mp hks
    exact ⟨fun _ _ => forall_mem_nil _, .nil⟩
  | cons sk sks ih =>
    obtain ⟨x, ks, rfl, hx, hrest⟩ := map_eq_cons_iff.mp hks
    obtain ⟨hrole, -⟩ := Prod.mk.inj hx
    obtain ⟨⟨⟩, horder, h1⟩ := bind_eq_ok.mp h
    split at h1
    · cases h1
    obtain ⟨rest, hopen, -⟩ := bind_eq_ok.mp h1
    rw [← hrole] at hopen
    obtain ⟨hhead, htail⟩ := @ih (some x.1) rest ks hrest hopen
    refine ⟨fun rk hrk => ?_, pairwise_cons.mpr ⟨hhead x.1 rfl, htail⟩⟩
    have hlt : rk < x.1 := by
      rw [Option.mem_def.mp hrk, ← hrole] at horder
      rw [← Role.lessThan_exportRole]
      simpa using horder
    exact forall_mem_cons.mpr ⟨hlt, fun y hy => hlt.trans (hhead x.1 rfl y hy)⟩

end Ring

/-! ## Playing a link -/

section Play

/-- The loop over the keys of a link adds them to the ring, and does nothing else. -/
theorem addPubs_iff {pi : ProvisionInfo H} {sks : List (SharedPublicSuite H)} :
    addPubs pi sks p = (.ok (), p') ↔
      ∃ ptks, sks.foldlM (fun r sk => addPub ⟨sk.toSharedKey, pi, none⟩ r) p.ptks = .ok ptks ∧
        p' = { p with ptks } := by
  induction sks generalizing p with
  | nil =>
    constructor
    · rintro ⟨⟩
      exact ⟨_, rfl, rfl⟩
    · rintro ⟨ptks, ⟨⟩, rfl⟩
      rfl
  | cons sk sks ih =>
    constructor
    · intro h
      have h1 := Action.read_bind_eq_ok.mp h
      obtain ⟨ptks, hadd, h2⟩ := Action.lift_bind_eq_ok.mp h1
      have h3 := Action.update_bind_eq_ok.mp h2
      obtain ⟨ptks', hrest, rfl⟩ := ih.mp h3
      exact ⟨ptks', bind_eq_ok.mpr ⟨ptks, hadd, hrest⟩, rfl⟩
    · rintro ⟨ptks', hfold, rfl⟩
      obtain ⟨ptks, hadd, hrest⟩ := bind_eq_ok.mp hfold
      refine Action.lift_bind_eq_ok.mpr ⟨ptks, hadd, ?_⟩
      exact Action.bind_eq_ok.mpr ⟨(), _, rfl, ih.mpr ⟨ptks', hrest, rfl⟩⟩

/-- What a link does to the range of the index: the eldest link sets it, and a later one may narrow it. -/
def RangeStep (tir : Option RationalRange) (q : Seqno) (r before after : Option RationalRange) : Prop :=
  if isEldest q then r ≠ none ∧ before = none ∧ after = r
  else ∃ prev, before.or tir = some prev ∧ (r = none ∧ after = before ∨
      ∃ rng, r = some rng ∧ ¬ prev.eq rng = true ∧ prev.includes rng = true ∧ after = some rng)

theorem addIndexRange_iff {tir r : Option RationalRange} {q : Seqno} :
    addIndexRange tir r q p = (.ok (), p') ↔
      ∃ range, RangeStep tir q r p.indexRange range ∧ p' = { p with indexRange := range } := by
  unfold addIndexRange RangeStep
  by_cases heldest : isEldest q
  · simp only [if_pos heldest, addIndexRangeEldest, Action.bind_eq_ok, Action.refuse_eq_ok,
      Action.read_apply, Action.update_apply, Prod.mk.injEq, ok.injEq, true_and]
    constructor
    · rintro ⟨⟨⟩, _, ⟨hsome, rfl⟩, _, _, ⟨rfl, rfl⟩, ⟨⟩, _, ⟨hfirst, rfl⟩, rfl⟩
      exact ⟨r, ⟨hsome, not_not.mp hfirst, rfl⟩, rfl⟩
    · rintro ⟨range, ⟨hsome, hfirst, rfl⟩, rfl⟩
      exact ⟨(), p, ⟨hsome, rfl⟩, p, p, ⟨rfl, rfl⟩, (), p, ⟨not_not.mpr hfirst, rfl⟩, rfl⟩
  simp only [if_neg heldest, Action.bind_apply, Action.read_apply, id, TeamPlayer.getIndexRange]
  rcases hprev : p.indexRange.or tir with _ | prev
  · simp
  cases r with
  | none =>
    constructor
    · intro h
      exact ⟨p.indexRange, ⟨prev, rfl, .inl ⟨rfl, rfl⟩⟩, (Prod.mk.inj h).2.symm⟩
    · rintro ⟨range, ⟨prev', -, ⟨-, rfl⟩ | ⟨rng, hrng, -⟩⟩, rfl⟩
      · rfl
      · cases hrng
  | some rng =>
    simp only [Action.bind_eq_ok, Action.refuse_eq_ok, Action.update_apply, Prod.mk.injEq, true_and]
    constructor
    · rintro ⟨⟨⟩, _, ⟨hnew, rfl⟩, ⟨⟩, _, ⟨hincl, rfl⟩, rfl⟩
      refine ⟨some rng, ⟨prev, rfl, .inr ⟨rng, rfl, hnew, ?_, rfl⟩⟩, rfl⟩
      simpa using hincl
    · rintro ⟨range, ⟨prev', hprev', ⟨hnone, -⟩ | ⟨rng', hrng, hnew, hincl, rfl⟩⟩, rfl⟩
      · cases hnone
      cases hprev'
      cases hrng
      exact ⟨(), p, ⟨hnew, rfl⟩, (), p, ⟨by simpa using hincl, rfl⟩, rfl⟩

/-- What playing a link does: it adds the keys of the link with the leaf of the link, and takes the range
and the floor. -/
theorem playTeamLink_iff : playTeamLink a otlr p = (.ok (), p') ↔
      rejectAdHocMembershipChange a.team otlr.gc.chainer.base.seqno otlr.gc.changes.length = .ok () ∧
      isValid otlr.gc.chainer.base.seqno = true ∧
      ∃ leaf ptks range, a.allMerkleLeaves[otlr.gc.chainer.base.seqno - 1]? = some leaf ∧
        otlr.sharedKeys.foldlM (fun r sk => addPub ⟨sk.toSharedKey,
          ⟨otlr.gc.signer.key, otlr.gc.chainer.base, leaf⟩, none⟩ r) p.ptks = .ok ptks ∧
        RangeStep a.tir otlr.gc.chainer.base.seqno otlr.range p.indexRange range ∧
        p' = { p with
          tncs := p.tncs ++ otlr.tnc.toList
          ptks
          indexRange := range
          rosterDelegationFloor := otlr.rosterDelegationFloor.or p.rosterDelegationFloor } := by
  constructor
  · intro h
    obtain ⟨⟨⟩, hadHoc, h1⟩ := Action.lift_bind_eq_ok.mp h
    have h2 := Action.update_bind_eq_ok.mp h1
    obtain ⟨hvalid, h3⟩ := Action.refuse_bind_eq_ok.mp h2
    refine ⟨hadHoc, by simpa using hvalid, ?_⟩
    rcases hleaf : a.allMerkleLeaves[otlr.gc.chainer.base.seqno - 1]? with _ | leaf
    · rw [hleaf] at h3
      cases h3
    rw [hleaf] at h3
    obtain ⟨⟨⟩, p2, hadd, h4⟩ := Action.bind_eq_ok.mp h3
    obtain ⟨ptks, hfold, rfl⟩ := addPubs_iff.mp hadd
    obtain ⟨⟨⟩, p3, hrange, h5⟩ := Action.bind_eq_ok.mp h4
    obtain ⟨range, hstep, rfl⟩ := addIndexRange_iff.mp hrange
    cases h5
    exact ⟨leaf, ptks, range, rfl, hfold, hstep, rfl⟩
  · rintro ⟨hadHoc, hvalid, leaf, ptks, range, hleaf, hfold, hstep, rfl⟩
    refine Action.lift_bind_eq_ok.mpr ⟨(), hadHoc, ?_⟩
    refine Action.refuse_bind_eq_ok.mpr ⟨by simp [hvalid], ?_⟩
    rw [hleaf]
    refine Action.bind_eq_ok.mpr ⟨(), _, addPubs_iff.mpr ⟨ptks, hfold, rfl⟩, ?_⟩
    exact Action.bind_eq_ok.mpr ⟨(), _, addIndexRange_iff.mpr ⟨range, hstep, rfl⟩, rfl⟩

/-- What playing a link does to the key ring. -/
theorem playTeamLink_ptks (h : playTeamLink a otlr p = (.ok (), p')) :
    ∃ pi p1 p2, addPubs pi otlr.sharedKeys p1 = (.ok (), p2) ∧ p1.ptks = p.ptks ∧ p'.ptks = p2.ptks := by
  obtain ⟨-, -, leaf, ptks, range, -, hfold, -, rfl⟩ := playTeamLink_iff.mp h
  exact ⟨_, p, _, addPubs_iff.mpr ⟨ptks, hfold, rfl⟩, rfl, rfl⟩

theorem playTeamLinkEldest_ptks
    (h : playTeamLinkEldest otlr p = (.ok (), p')) : p'.ptks = p.ptks := by
  obtain ⟨res, -, h1⟩ := Action.lift_bind_eq_ok.mp h
  cases h1
  rfl

/-- One turn of the loop of `playLinks`. -/
def playTeamStep (a : TeamPlayArg H) (otlr : OpenTeamLinkRes H) : Action (TeamPlayer H) CoreError Unit := do
  if isEldest otlr.gc.chainer.base.seqno then playTeamLinkEldest otlr
  playTeamLink a otlr

theorem playTeamLinks_cons {otlrs : List (OpenTeamLinkRes H)} :
    playTeamLinks a (otlr :: otlrs) p = (.ok (), p') ↔
      ∃ v, playTeamStep a otlr p = (.ok (), v) ∧ playTeamLinks a otlrs v = (.ok (), p') := by
  rw [playTeamLinks]
  unfold playTeamStep
  split
  · simp only [Action.bind_eq_ok]
    constructor
    · rintro ⟨⟨⟩, v, heldest, ⟨⟩, w, hlink, hrest⟩
      exact ⟨w, ⟨(), v, heldest, hlink⟩, hrest⟩
    · rintro ⟨w, ⟨⟨⟩, v, heldest, hlink⟩, hrest⟩
      exact ⟨(), v, heldest, (), w, hlink, hrest⟩
  simp only [Action.bind_eq_ok]
  constructor
  · rintro ⟨⟨⟩, w, hlink, hrest⟩
    exact ⟨w, hlink, hrest⟩
  · rintro ⟨w, hlink, hrest⟩
    exact ⟨(), w, hlink, hrest⟩

theorem playTeamStep_ptks (h : playTeamStep a otlr p = (.ok (), p')) :
    ∃ pi p1 p2, addPubs pi otlr.sharedKeys p1 = (.ok (), p2) ∧ p1.ptks = p.ptks ∧ p'.ptks = p2.ptks := by
  unfold playTeamStep at h
  split at h
  · obtain ⟨⟨⟩, v, heldest, hlink⟩ := Action.bind_eq_ok.mp h
    rw [← playTeamLinkEldest_ptks heldest]
    exact playTeamLink_ptks hlink
  · exact playTeamLink_ptks h

end Play

/-! ## Links that the server takes -/

section Match

/-- The schedule for changes of a roster. -/
def Roster.schedule (r : Roster H) (changes : ChangeSet) : KeySchedule :=
  let core := r.core.getD .newRosterCore
  let forced := if r.core.isNone then Team.forcedNewKeyGens else ∅
  (core.planChangesLocked changes (r.keyGens.getD ∅) (core.apply changes) forced).1

/-- A link that passes the check of the server after a roster: it carries the keys of the schedule
for its changes. -/
def KeysMatch [LinkFormat L H] (host : HostID) (roster : Roster H) (link : L) : Prop :=
  ∀ (gc : GroupChange H) (changes : ChangeSet) (mks : MemberKeysSet H),
    openGroupChange link = .ok gc → makeChangeSet host gc.memberRoleSeqnos = .ok (changes, mks) →
      matchPublicKeys (roster.schedule changes) gc.sharedKeys = .ok ()

instance [LinkFormat L H] (host : HostID) (roster : Roster H) (link : L) :
    Decidable (KeysMatch host roster link) :=
  decidable_of_iff (∀ gc ∈ (openGroupChange link : Except CoreError (GroupChange H)).toOption,
      ∀ x ∈ (makeChangeSet host gc.memberRoleSeqnos).toOption,
        matchPublicKeys (roster.schedule x.1) gc.sharedKeys = .ok ())
    ⟨fun h gc changes mks hgc hchanges => h gc (by rw [hgc]; rfl) (changes, mks) (by rw [hchanges]; rfl),
      fun h gc hgc x hx => h gc x.1 x.2 (toOption_eq_some.mp hgc) (toOption_eq_some.mp hx)⟩

/-- A plan is the schedule for the changes, and the generations change by the new keys of it. -/
theorem Roster.gameplan_eq_ok {r rosterPost : Roster H} {doerKO : KeyOwner} {host : HostID}
    {v : List (MemberRoleSeqno H)} {verifyKey : Option EntityID} {opts : Team.GameplanOpts}
    {sched : KeySchedule} (hopts : opts.testingNoCheck = false)
    (h : r.gameplan doerKO host v verifyKey opts = .ok (rosterPost, sched)) :
    ∃ changes mks, makeChangeSet host v = .ok (changes, mks) ∧ sched = r.schedule changes ∧
      rosterPost.keyGens = some ((r.keyGens.getD ∅).insertAll sched.newKeys) := by
  obtain ⟨changes, mks, _, rPost, keysPost, hchanges, hplan, rfl⟩ := Roster.exists_of_gameplan h
  obtain ⟨hcheck, -, hres⟩ := Team.gameplan_eq_ok hplan
  have hsound := RosterCore.sound_of_checkChangesLocked (hcheck (by simp [hopts]))
  obtain ⟨rfl, hplanned⟩ := Prod.mk.inj hres
  have hgens :=
    hsound.planChangesLocked_keyGens (r.keyGens.getD ∅)
      (if r.core.isNone then Team.forcedNewKeyGens else ∅)
  rw [← hplanned] at hgens
  exact ⟨changes, mks, hchanges, congrArg fst hplanned, congrArg some hgens⟩

variable [DecidableEq H] [MerkleHash H] [LinkFormat L H] {team : Option TeamID} {host : HostID}
  {roster : Roster H}
  {link : L}

section

variable (hopen : openTeamLink link hepks team host roster floor = .ok otlr)

include hopen

/-- For a link that was opened, the check of the server is one of its schedule. -/
theorem keysMatch_iff :
    KeysMatch host roster link ↔ otlr.gc.sharedKeys.map roleGen = otlr.sched.newKeys.map exportKey := by
  obtain ⟨hgc, -, keyOwner, opts, -, hopts, hplan⟩ := openTeamLink_eq_ok hopen
  obtain ⟨changes, mks, hchanges, hsched, -⟩ := Roster.gameplan_eq_ok hopts hplan
  rw [hsched, ← matchPublicKeys_eq_ok]
  constructor
  · exact fun h => h otlr.gc changes mks hgc hchanges
  · intro h gc changes' mks' hgc' hchanges'
    obtain rfl := ok_unique hgc hgc'
    obtain ⟨rfl, -⟩ := Prod.mk.inj (ok_unique hchanges hchanges')
    exact h

/-- A link takes a ring that agrees with the roster to one that does if and only if it carries the
keys of the schedule. -/
theorem toKeyGens_step_iff
    (hplay : playTeamStep a otlr p = (.ok (), p')) (hnum : Numbered p.ptks)
    (hpre : toKeyGens p.ptks = roster.keyGens.getD ∅) :
    Numbered p'.ptks ∧ (toKeyGens p'.ptks = otlr.rosterPost.keyGens.getD ∅ ↔ KeysMatch host roster link) := by
  obtain ⟨hgc, hkeys, keyOwner, opts, -, hopts, hplan⟩ := openTeamLink_eq_ok hopen
  obtain ⟨changes, mks, hchanges, hsched, hgens⟩ := Roster.gameplan_eq_ok hopts hplan
  obtain ⟨pi, p1, p2, hadd, hp1, hp2⟩ := playTeamStep_ptks hplay
  obtain ⟨ks, hks, hring, hnext⟩ := addPubs_eq_ok hadd
  rw [(openSharedKeysFrom_eq_ok hkeys).1] at hks
  rw [← hp1] at hnum hpre
  obtain ⟨hnum', hnew⟩ := hnext hnum
  have horder : openSharedKeysFrom hepks (Option.map RoleKey.exportRole none) otlr.gc.sharedKeys
      = .ok otlr.sharedKeys := hkeys
  have hsorted := (pairwise_of_openSharedKeysFrom hks horder).2
  refine ⟨hp2 ▸ hnum', ?_⟩
  rw [keysMatch_iff hopen, ← hks, (map_injective_iff.mpr exportKey_injective).eq_iff, hp2,
    hring, hgens, hpre]
  refine Map.insertAll_inj hsorted ?_ (hpre ▸ hnew hsorted) ?_
  · rw [hsched]
    exact Team.WorkingSchedule.newKeys_pairwise _ _
  · rw [hsched]
    exact fun x hx => Team.WorkingSchedule.lookup_ne_of_mem_newKeys hx

end

end Match

/-! ## The links of a load -/

section Load

variable [DecidableEq H]

/-- The ring and the roster agree after the first `n` of some links. -/
def AgreesAfter (a : TeamPlayArg H) (roster : Roster H) (p : TeamPlayer H)
    (otlrs : List (OpenTeamLinkRes H)) (n : ℕ) : Prop :=
  ∃ p', playTeamLinks a (otlrs.take n) p = (.ok (), p') ∧
    toKeyGens p'.ptks = (rosterAfter roster (otlrs.take n)).keyGens.getD ∅

variable {roster : Roster H} {p p' : TeamPlayer H} {otlrs : List (OpenTeamLinkRes H)} {n : ℕ} {links : List L}

theorem agreesAfter_zero : AgreesAfter a roster p otlrs 0 ↔ toKeyGens p.ptks = roster.keyGens.getD ∅ := by
  constructor
  · rintro ⟨p', hplay, hagree⟩
    cases hplay
    exact hagree
  · exact fun hagree => ⟨p, rfl, hagree⟩

theorem agreesAfter_succ (hplay : playTeamStep a otlr p = (.ok (), p')) :
    AgreesAfter a roster p (otlr :: otlrs) (n + 1) ↔ AgreesAfter a otlr.rosterPost p' otlrs n := by
  unfold AgreesAfter
  simp only [take_succ_cons, rosterAfter_cons, playTeamLinks_cons, hplay, Prod.mk.injEq, true_and,
    exists_eq_left']

variable [MerkleHash H] [LinkFormat L H] {tid : TeamID} {host : HostID}

/-- The ring and the roster agree after each of the links that were opened, if and only if each of
them is one that the server takes after the links before it. -/
theorem agreesAfter_iff_of_opened
    (hopen : openedTeamLinks hepks tid host n roster floor links = .ok otlrs)
    (hplay : playTeamLinks a otlrs p = (.ok (), p')) (hnum : Numbered p.ptks)
    (hpre : toKeyGens p.ptks = roster.keyGens.getD ∅) :
    (∀ i ≤ otlrs.length, AgreesAfter a roster p otlrs i) ↔
      ∀ i link, links[i]? = some link → KeysMatch host (rosterAfter roster (otlrs.take i)) link := by
  induction links generalizing n roster floor otlrs p with
  | nil =>
    cases hopen
    refine ⟨fun _ => nofun, fun _ i hi => ?_⟩
    obtain rfl := Nat.le_zero.mp hi
    exact agreesAfter_zero.mpr hpre
  | cons link links ih =>
    obtain ⟨otlr, hotlr, rest, hrest, rfl⟩ := openedTeamLinks_cons.mp hopen
    obtain ⟨v, hstep, hplay'⟩ := playTeamLinks_cons.mp hplay
    obtain ⟨hnum', hiff⟩ := toKeyGens_step_iff hotlr hstep hnum hpre
    constructor
    · intro h
      have hpost := agreesAfter_zero.mp ((agreesAfter_succ hstep).mp (h 1 (by simp)))
      have htail := (ih hrest hplay' hnum' hpost).mp fun i hi =>
        (agreesAfter_succ hstep).mp (h (i + 1) (by simpa using hi))
      intro i link' hlink
      cases i with
      | zero =>
        cases hlink
        exact hiff.mp hpost
      | succ i =>
        rw [take_succ_cons, rosterAfter_cons]
        exact htail i link' hlink
    · intro h
      have hpost := hiff.mpr (h 0 link rfl)
      have htail := (ih hrest hplay' hnum' hpost).mpr fun i link' hlink => by
        have hmatch := h (i + 1) link' hlink
        rwa [take_succ_cons, rosterAfter_cons] at hmatch
      intro i hi
      cases i with
      | zero => exact agreesAfter_zero.mpr hpre
      | succ i => exact (agreesAfter_succ hstep).mpr (htail i (by simpa using hi))

/-- The links that the server takes carry the new keys of their schedules and no others. -/
theorem newKeys_of_opened
    (hopen : openedTeamLinks hepks tid host n roster floor links = .ok otlrs)
    (hmatch : ∀ i link, links[i]? = some link → KeysMatch host (rosterAfter roster (otlrs.take i)) link) :
    ∀ otlr ∈ otlrs, otlr.gc.sharedKeys.map roleGen = otlr.sched.newKeys.map exportKey := by
  induction links generalizing n roster floor otlrs with
  | nil =>
    cases hopen
    exact forall_mem_nil _
  | cons link links ih =>
    obtain ⟨otlr, hotlr, rest, hrest, rfl⟩ := openedTeamLinks_cons.mp hopen
    refine forall_mem_cons.mpr ⟨?_, ih hrest fun i link' hlink => ?_⟩
    · exact (keysMatch_iff hotlr).mp (hmatch 0 link rfl)
    · have hnext := hmatch (i + 1) link' hlink
      rwa [take_succ_cons, rosterAfter_cons] at hnext

section

omit [MerkleHash H] [LinkFormat L H]

/-- A state that is read comes with its keys, and with a roster that has its generations from
them. -/
theorem readTeamState_eq_some {sv : TeamServices L H X A} {saved : Option (TeamChainState H X)}
    {st : TeamChainState H X} {ptks : TeamKeyRing H}
    (h : readTeamState sv host saved = .ok (some (st, ptks, roster))) :
    st.ptks.foldlM (fun r k => addPub k r) ∅ = .ok ptks ∧ roster.keyGens = some (toKeyGens ptks) := by
  cases saved with
  | none => cases h
  | some st' =>
    unfold readTeamState at h
    dsimp only at h
    split at h
    · cases h
    obtain ⟨ptks', hptks, h1⟩ := bind_eq_ok.mp h
    have h2 := of_bind_eq_ok h1
    cases hload : Roster.load (toKeyGens ptks') st'.members host with
    | error e =>
      rw [hload] at h2
      cases h2
    | ok roster' =>
      rw [hload] at h2
      cases h2
      obtain ⟨changes, -, hroster⟩ := bind_eq_ok.mp hload
      cases hroster
      exact ⟨hptks, rfl⟩

/-- A load starts from a ring and a roster that agree. -/
theorem startPlayer_agrees (sv : TeamServices L H X A) (host : HostID) (saved : Option (TeamChainState H X)) :
    Numbered (startPlayer (teamStart sv host saved)).ptks ∧
      toKeyGens (startPlayer (teamStart sv host saved)).ptks
        = (startRoster (teamStart sv host saved)).keyGens.getD ∅ := by
  have hnew : Numbered (startPlayer (none : TeamStart H X)).ptks ∧
      toKeyGens (startPlayer (none : TeamStart H X)).ptks =
        (startRoster (none : TeamStart H X)).keyGens.getD ∅ :=
    ⟨numbered_empty, rfl⟩
  unfold teamStart
  rcases hread : readTeamState sv host saved with e | start
  · exact hnew
  cases start with
  | none => exact hnew
  | some start =>
    obtain ⟨st, ptks, roster⟩ := start
    obtain ⟨hptks, hgens⟩ := readTeamState_eq_some hread
    refine ⟨foldlM_invariant (fun k _ r r' hadd hnum => ?_) hptks numbered_empty, ?_⟩
    · obtain ⟨rk, -, -, hnext⟩ := addPub_eq_ok hadd
      exact (hnext hnum).1
    · exact (congrArg (Option.getD · ∅) hgens).symm

end

variable [LinkHash L H] [LocationHash H] [KeyHash H]

/-- For every saved state, every reply and every load that opens and plays the links of the reply, be
it the first attempt or a later one: after each link the generations of the key ring are those of the
roster, and each link has brought the new keys of its schedule and no others, if and only if each link
is one that the server takes after the links before it. -/
theorem agreesAfter_iff_keysMatch {sv : TeamServices L H X A} {arg : LoadTeamArg}
    {saved : Option (TeamChainState H X)} {left : Leftover H} {r : TeamAttempt L H A}
    {l₀ l l₁ : TeamLoader H X} (hready : TeamReady (teamStart sv arg.host saved) arg left l₀)
    (hprepare : prepareTeam sv saved r l₀ = (.ok (), l)) (hcheck : checkTeamRes r l = (.ok (), l₁))
    (hplay : playTeamLinks l₁.playArg l₁.otlrs l₁.player = (.ok (), p)) :
    ((∀ n ≤ l₁.otlrs.length, AgreesAfter l₁.playArg l₁.rosterPre l₁.player l₁.otlrs n) ∧
        ∀ otlr ∈ l₁.otlrs,
          otlr.gc.sharedKeys.map roleGen = otlr.sched.newKeys.map exportKey) ↔
      ∀ n link, r.raw.links[n]? = some link →
        KeysMatch arg.host (rosterAfter l₁.rosterPre (l₁.otlrs.take n)) link := by
  obtain ⟨-, rfl⟩ := (prepareTeam_eq_ok hready).mp hprepare
  obtain ⟨hnum, hpre⟩ := startPlayer_agrees sv arg.host saved
  generalize teamStart sv arg.host saved = start at hready hprepare hcheck hnum hpre
  rcases checkTeamRes_cases sv hready r with ⟨e, l', -, herror, -⟩ | ⟨otlrs, hopen, hchecked⟩
  · rw [herror] at hcheck
    cases hcheck
  have hopened := of_bind_eq_ok hopen
  have hl₁ := hchecked _ _ rfl
  rw [hcheck] at hl₁
  split at hl₁
  · cases hl₁
  obtain rfl := (Prod.mk.inj hl₁).2
  have hiff := agreesAfter_iff_of_opened hopened hplay hnum hpre
  exact ⟨fun h => hiff.mp h.1, fun h => ⟨hiff.mpr h, newKeys_of_opened hopened h⟩⟩

end Load

/-! ## Two chains -/

namespace TeamSample

def host : HostID := 9

def team : TeamID := 3 * 256 ^ 32 + 77

def user (n : ℕ) : EntityID := .ofNat 33 (256 ^ 32 + n)

/-- The key of a user that signs. -/
def puk (n : ℕ) : EntityID := .ofNat 33 (14 * 256 ^ 32 + n)

/-- The keys of the team; the admin key of the first link has the number of the team. -/
def ptk (n : ℕ) : EntityID := .ofNat 33 (15 * 256 ^ 32 + n)

/-- User 1 creates the team with user 2 as a member, and then removes user 2, with new keys or
without. -/
inductive Link where
  | create
  | remove (keys : Bool)

instance : LinkHash Link SymHash where
  linkHash
    | .create => .atom 1
    | .remove false => .atom 2
    | .remove true => .atom 3

/-- User `n` gets a role, with keys unless the user is removed. -/
def change (n : ℕ) (role : Role) : MemberRole SymHash :=
  ⟨role, ⟨⟨user n, none⟩, .owner, if role = .none then .none else .team ⟨puk n, .atom 3, 1, none, none⟩⟩⟩

def sharedKey (gen : Generation) (role : Role) (n : ℕ) : SharedKey SymHash :=
  ⟨gen, role, ptk n, .atom 3⟩

/-- A link that user 1 signs. -/
def link (seqno : Seqno) (prev : Option SymHash) (changes : List (MemberRole SymHash))
    (sharedKeys : List (SharedKey SymHash)) (metadata : List (ChangeMetadata SymHash)) :
    GroupChange SymHash :=
  ⟨⟨⟨seqno, prev, ⟨seqno, .zero⟩, 0⟩, .atom (6 + seqno)⟩, ⟨TeamID.entityID team, host⟩,
    ⟨puk 1, some ⟨user 1, .owner⟩⟩,
    changes, sharedKeys, metadata⟩

def range : RationalRange := ⟨⟨false, [], 0⟩, ⟨true, [], 0⟩⟩

def contents : Link → GroupChange SymHash
  | .create => link 1 none [change 1 .owner, change 2 (.member 0)]
      [sharedKey 1 (.member (-0x4000)) 71, sharedKey 1 (.member 0) 72, sharedKey 1 .admin 77,
        sharedKey 1 .owner 73]
      [.teamname (.atom 20), .eldest (.atom 22), .teamIndexRange range]
  | .remove false => link 2 (some (.atom 1)) [change 2 .none] [] []
  | .remove true => link 2 (some (.atom 1)) [change 2 .none]
      [sharedKey 2 (.member (-0x4000)) 74, sharedKey 2 (.member 0) 75] []

-- a signature is the number of the key that makes it
instance : LinkFormat Link SymHash where
  openGroupChange l := .ok (contents l)
  signatures l := ((contents l).sharedKeys.map (·.verifyKey) ++ [puk 1]).map (·.num)
  verify key sig _ _ := refuse (sig ≠ key.num) (.verifyError "bad signature")

def services : TeamServices Link SymHash Unit Unit where
  normalizeName := .ok
  checkNameLoad _ _ _ _ _ _ _ _ := .ok 1
  readParcels _ := .ok ()
  openBoxes _ _ _ _ _ _ := .ok ()

def arg : LoadTeamArg := ⟨some team, host, "", none, false, true, false, host⟩

def key (seqno : Seqno) : MerkleTreeRFOutput :=
    LocationHash.keyHash SymHash ⟨seqno, TeamID.entityID team, .team, none⟩

def leaf (seqno : Seqno) (l : Link) : SymHash := .leaf (key seqno).bytes (LinkHash.linkHash l)

variable (keys : Bool)

/-- The reply with the two links. -/
def reply : TeamAttempt Link SymHash Unit where
  token := .ok team
  reuses := true
  session := .ok ()
  raw := {
    links := [.create, .remove keys]
    locations := [7, 8]
    teamnames := []
    merkle := ⟨.v1 ⟨1, 0, .zero, .node 0 0 [] (leaf 1 .create) (leaf 2 (.remove keys)), ⟨0, .zero⟩⟩, [
      ⟨⟨[(0, leaf 2 (.remove keys))], [], short_nil⟩, .toLeaf ⟨.atom 1, none⟩⟩,
      ⟨⟨[(0, leaf 1 .create)], [], short_nil⟩, .toLeaf ⟨LinkHash.linkHash (Link.remove keys), none⟩⟩,
      ⟨⟨[(0, leaf 2 (.remove keys))], [], short_nil⟩, .toLeaf ⟨.atom 1, some (key 1)⟩⟩]⟩
    teamnameUtf8 := "sample"
    numTeamnameLinks := 0
    hepks := [⟨.curve25519 3, 3⟩]
    remoteViewTokens := []
    boxes := () }

/-- A new loader that has the reply, and the loader after the checks. -/
def start : TeamLoader SymHash Unit :=
  (prepareTeam services none (reply keys) (newTeamLoader arg)).2

def checked : TeamLoader SymHash Unit := (checkTeamRes (reply keys) (start keys)).2

def played (otlrs : List (OpenTeamLinkRes SymHash)) : TeamPlayer SymHash :=
  (playTeamLinks (checked keys).playArg otlrs (checked keys).player).2

end TeamSample

open TeamSample in
/-- User 2 is removed, with no new keys. The load succeeds, the roster has a new generation of the key
that user 2 has seen, and the key ring does not. -/
theorem not_agreesAfter :
    ∃ l l₁ p, prepareTeam services none (reply false) (newTeamLoader arg) = (.ok (), l) ∧
      checkTeamRes (reply false) l = (.ok (), l₁) ∧
      playTeamLinks l₁.playArg l₁.otlrs l₁.player = (.ok (), p) ∧
      (runOnceTeam services none (reply false) (newTeamLoader arg)).1.isOk = true ∧
      (l₁.rosterPost.keyGens.getD ∅).lookup .memberRole = some 2 ∧
      (toKeyGens p.ptks).lookup .memberRole = some 1 ∧
      ¬ AgreesAfter l₁.playArg l₁.rosterPre l₁.player l₁.otlrs l₁.otlrs.length := by
  have hplay : playTeamLinks (checked false).playArg (checked false).otlrs (checked false).player
      = (.ok (), played false (checked false).otlrs) := fst_eq_iff.mp (by decide +kernel)
  refine ⟨start false, checked false, played false (checked false).otlrs,
    fst_eq_iff.mp (by decide +kernel), fst_eq_iff.mp (by decide +kernel), hplay,
    by decide +kernel, by decide +kernel, by decide +kernel, ?_⟩
  rintro ⟨p, hplay', hagree⟩
  rw [take_length, hplay] at hplay'
  rw [← (Prod.mk.inj hplay').2] at hagree
  have hgens := congrArg (Finmap.lookup RoleKey.memberRole) hagree
  revert hgens
  decide +kernel

open TeamSample in
/-- User 2 is removed, with new keys for what user 2 has seen. -/
theorem agreesAfter_iff_keysMatch_sample :
    KeysMatch host (checked true).rosterPre Link.create ∧
      KeysMatch host (rosterAfter (checked true).rosterPre ((checked true).otlrs.take 1))
        (Link.remove true) := by
  have hprepare : prepareTeam services none (reply true) (newTeamLoader arg) = (.ok (), start true) :=
    fst_eq_iff.mp (by decide +kernel)
  have hcheck : checkTeamRes (reply true) (start true) = (.ok (), checked true) :=
    fst_eq_iff.mp (by decide +kernel)
  have hplay : playTeamLinks (checked true).playArg (checked true).otlrs (checked true).player
      = (.ok (), played true (checked true).otlrs) := fst_eq_iff.mp (by decide +kernel)
  have hlength : (checked true).otlrs.length = 2 := by decide +kernel
  have hmatch := (agreesAfter_iff_keysMatch TeamReady.new hprepare hcheck hplay).mp ⟨?_, ?_⟩
  · exact ⟨hmatch 0 _ rfl, hmatch 1 _ rfl⟩
  · intro n hn
    have hn' : n = 0 ∨ n = 1 ∨ n = 2 := by omega
    refine ⟨played true ((checked true).otlrs.take n), fst_eq_iff.mp ?_, ?_⟩
    · rcases hn' with rfl | rfl | rfl <;> decide +kernel
    · rcases hn' with rfl | rfl | rfl <;> decide +kernel
  · decide +kernel

end Foks.Client
