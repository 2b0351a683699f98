import Foks.Client.TeamRing

/-!
# Saving the members of a team

The roster of a team is saved as a list of members with their roles and keys (`Roster.Export`) and read
back with `Roster.Load`, as if one link had added all of them. What is not saved is lost: which members
were removed, and by which role the members are indexed. No link asks for it.

The ID of a member is saved in as many bytes as its type asks for. Nobody has checked that the ID has no
more, or that the type is known.
-/

namespace Foks.Client

open Lib Merkle LinkFormat List Finmap Bool Except Map Team
open EntityID (unfix fixed exists_fixed_of_unfix)
open Team (MemberID Change ChangeSet RosterCore KeyGens KeySchedule GameplanOpts)

variable {L H : Type} {x : MemberRoleSeqno H} {v : List (MemberRoleSeqno H)}
  {id : MemberID} {r post r' : Roster H}
  {doerKO : KeyOwner} {host : HostID} {verifyKey : Option EntityID} {opts : GameplanOpts}
    {sched : KeySchedule} {link : L}
  {hepks : HEPKSet H} {team : Option TeamID} {floor : Option Role} {otlr : OpenTeamLinkRes H}

/-! ## IDs -/

/-- An ID that is the same after it was saved and read back. -/
def KeepsID (f : FixedEntityID) : Prop := (unfix f >>= fixed) = .ok f

instance (f : FixedEntityID) : Decidable (KeepsID f) := inferInstanceAs (Decidable (_ = _))

/-- What is saved can be read, and what is read is kept when it is saved once more. -/
theorem keepsID_of_unfix {f : FixedEntityID} {e : EntityID} (h : unfix f = .ok e) :
    ∃ f', e.fixed = .ok f' ∧ KeepsID f' := by
  obtain ⟨f', hfixed, hunfix⟩ := exists_fixed_of_unfix h
  exact ⟨f', hfixed, bind_eq_ok.mpr ⟨e, hunfix, hfixed⟩⟩

/-! ## Changes -/

/-- The loop over changes that have keys. -/
theorem makeChangesFrom_of_keys {mh : HostID} {ys : List (Change × Option (TeamMemberKeys H))}
    (h : List.Forall₂ (fun x y => makeChange mh x = .ok y) v ys)
    (hkeys : ∀ y ∈ ys, ∃ tk, y.2 = some tk ∧ verifyKeyToIndex tk.verifyKey = .ok ())
    (ads : MemberKeysSet H) :
    makeChangesFrom mh ads v = .ok (ys.map Prod.fst, ads.insertAll (ys.map keyEntry)) := by
  induction h generalizing ads with
  | nil => rfl
  | @cons x y v ys hx _ ih =>
    obtain ⟨chng, keys⟩ := y
    rw [forall_mem_cons] at hkeys
    obtain ⟨⟨tk, rfl, hindex⟩, hrest⟩ := hkeys
    have hadd : addTeamMemberKeys ads chng.member (some tk) = .ok (ads.insert chng.member (some tk)) :=
      bind_eq_ok.mpr ⟨(), hindex, rfl⟩
    exact bind_eq_ok.mpr ⟨_, hx, bind_eq_ok.mpr ⟨_, hadd, bind_eq_ok.mpr ⟨_, ih hrest _, rfl⟩⟩⟩

/-! ## The keys of the members -/

namespace Roster

/-- The members of a roster, none if there is no roster. -/
def members (r : Roster H) : Map MemberID Team.MemberInfo := (r.core.getD .newRosterCore).members

/-- The keys of a party, none if it was removed. -/
def keysOf (r : Roster H) (id : MemberID) : Option (TeamMemberKeys H) :=
  ((r.mks.getD ∅).lookup id).getD none

end Roster

section Overwrite

variable {a : Option (MemberKeysSet H)} {b : MemberKeysSet H}

theorem lookup_cloneAndOverwriteWith_of_some {keys : Option (TeamMemberKeys H)} (h : b.lookup id = some keys) :
    (((cloneAndOverwriteWith a b).lookup id).getD none) = keepTrkc (((a.getD ∅).lookup id).getD none) keys := by
  cases a with
  | none =>
    rw [cloneAndOverwriteWith, h]
    rfl
  | some a =>
    have hmem : id ∈ b.keys := mem_keys_iff.mpr ⟨keys, h⟩
    rw [cloneAndOverwriteWith, lookup_union, lookup_ofFinset, if_pos hmem, h]
    rfl

theorem lookup_cloneAndOverwriteWith_of_none (h : b.lookup id = none) :
    (((cloneAndOverwriteWith a b).lookup id).getD none) = ((a.getD ∅).lookup id).getD none := by
  cases a with
  | none =>
    rw [cloneAndOverwriteWith, h]
    rfl
  | some a =>
    have hmem : id ∉ b.keys := by
      rw [mem_keys_iff, h]
      rintro ⟨v, ⟨⟩⟩
    rw [cloneAndOverwriteWith, lookup_union, lookup_ofFinset, if_neg hmem]
    rfl

/-- New keys get the commitment from before at most. -/
theorem keepTrkc_eq_some (existing : Option (TeamMemberKeys H)) (tk : TeamMemberKeys H) :
    ∃ tk', keepTrkc existing (some tk) = some tk' ∧ tk'.gen = tk.gen ∧ tk'.verifyKey = tk.verifyKey := by
  cases existing with
  | none => exact ⟨tk, rfl, rfl, rfl⟩
  | some old =>
    unfold keepTrkc
    dsimp only
    split
    · exact ⟨_, rfl, rfl, rfl⟩
    · exact ⟨_, rfl, rfl, rfl⟩

theorem keepTrkc_none (existing : Option (TeamMemberKeys H)) : keepTrkc existing none = none := by
  cases existing with
  | none | some old => rfl

end Overwrite

section Plan

/-- What is known of a member: it has the keys of its last change. -/
structure MemberKeyed (id : MemberID) (info : Team.MemberInfo) (keys : Option (TeamMemberKeys H)) : Prop where
  srcRole : id.srcRole.isNone = false
  role : info.role.typ ≠ .none
  keys : ∃ tk, keys = some tk ∧ tk.gen = info.gen ∧ verifyKeyToIndex tk.verifyKey = .ok ()

/-- The members of a roster have keys, and nobody else has. -/
structure Keyed (r : Roster H) : Prop where
  members (id : MemberID) (info : Team.MemberInfo) : r.members.lookup id = some info →
    MemberKeyed id info (r.keysOf id)
  others (id : MemberID) : id ∉ r.members → r.keysOf id = none

theorem keyed_empty : Keyed ({} : Roster H) where
  members id info h := by
    have hnone : (∅ : Map MemberID Team.MemberInfo).lookup id = some info := h
    rw [lookup_empty] at hnone
    cases hnone
  others id _ := by
    have hnone : (∅ : MemberKeysSet H).lookup id = none := lookup_empty id
    exact congrArg (Option.getD · none) hnone

/-- Of the changes, one is of the member, or none. -/
theorem exists_change_or (ys : List (Change × Option (TeamMemberKeys H))) (id : MemberID) :
    (∃ y ∈ ys, y.1.member = id) ∨ ∀ y ∈ ys, y.1.member ≠ id := by
  by_cases h : ∃ y ∈ ys, y.1.member = id
  · exact .inl h
  · exact .inr fun y hy heq => h ⟨y, hy, heq⟩

section MakeChange

variable {chng : Change} {keys : Option (TeamMemberKeys H)} (h : makeChange host x = .ok (chng, keys))

include h

/-- A change that is not a removal leaves its member with keys. -/
theorem memberKeyed_of_makeChange {existing : Option (TeamMemberKeys H)}
    (hkeys : ∀ tk ∈ keys, verifyKeyToIndex tk.verifyKey = .ok ()) (hrm : chng.rm = false) :
    MemberKeyed chng.member chng.info (keepTrkc existing keys) := by
  obtain ⟨-, -, -, hsrc, -, -, -, hcases⟩ := makeChange_iff.mp h
  rcases hcases with ⟨htyp, -⟩ | ⟨htyp, tk, -, rfl, hgen⟩
  · rw [Change.rm, htyp] at hrm
    cases hrm
  obtain ⟨tk', hkeep, hgen', hverify⟩ := keepTrkc_eq_some existing tk
  exact ⟨hsrc, htyp, tk', hkeep, hgen'.trans hgen.symm, by rw [hverify]; exact hkeys tk rfl⟩

theorem keys_of_rm (hrm : chng.rm = true) : keys = none := by
  obtain ⟨-, -, -, -, -, -, -, hcases⟩ := makeChange_iff.mp h
  rcases hcases with ⟨-, -, rfl, -⟩ | ⟨htyp, -⟩
  · rfl
  · rw [Change.rm, beq_iff_eq] at hrm
    exact absurd hrm htyp

end MakeChange

variable (hopts : opts.testingNoCheck = false) (h : r.gameplan doerKO host v verifyKey opts = .ok (post, sched))

include hopts h

/-- What a plan does to the members and their keys: each change sets those of its member, and no member
has two changes. -/
theorem Roster.gameplan_changes :
    post.core.isSome ∧ post.mks.isSome ∧ post.keyGens.isSome ∧
    ∃ ys, List.Forall₂ (fun x y => makeChange host x = .ok y) v ys ∧
      (∀ y ∈ ys, ∀ tk ∈ y.2, verifyKeyToIndex tk.verifyKey = .ok ()) ∧
      (∀ y ∈ ys, post.members.lookup y.1.member = (if y.1.rm then none else some y.1.info) ∧
        post.keysOf y.1.member = keepTrkc (r.keysOf y.1.member) y.2) ∧
      ∀ id, (∀ y ∈ ys, y.1.member ≠ id) →
        post.members.lookup id = r.members.lookup id ∧ post.keysOf id = r.keysOf id := by
  obtain ⟨changes, mks, _, rPost, keysPost, hchanges, hplan, rfl⟩ := Roster.exists_of_gameplan h
  obtain ⟨ys, hys, rfl, rfl, hkeys⟩ := makeChangesFrom_eq_ok hchanges
  obtain ⟨hcheck, -, hres⟩ := Team.gameplan_eq_ok hplan
  obtain ⟨rfl, -⟩ := Prod.mk.inj hres
  have hnodup := (RosterCore.sound_of_checkChangesLocked (hcheck (by simp [hopts]))).nodup
  have hentries : ((ys.map keyEntry).map Prod.fst).Nodup := by
    rw [map_map]
    rw [map_map] at hnodup
    exact hnodup
  refine ⟨rfl, rfl, rfl, ys, hys, hkeys, fun y hy => ⟨?_, ?_⟩, fun id hid => ⟨?_, ?_⟩⟩
  · have hlast := lastChange_of_mem hnodup (mem_map_of_mem hy)
    exact (RosterCore.lookup_apply _ _ _).trans (by rw [hlast])
  · have hmem : (y.1.member, y.2) ∈ ys.map keyEntry := mem_map_of_mem hy
    exact lookup_cloneAndOverwriteWith_of_some (Map.lookup_insertAll_of_mem hentries hmem)
  · have hnone : lastChange (ys.map Prod.fst) id = none := by
      cases hlast : lastChange (ys.map Prod.fst) id with
      | none => rfl
      | some chng =>
        obtain ⟨hmem, hmember⟩ := lastChange_eq_some hlast
        obtain ⟨y, hy, rfl⟩ := mem_map.mp hmem
        exact absurd hmember (hid y hy)
    exact (RosterCore.lookup_apply _ _ _).trans (by rw [hnone]; rfl)
  refine lookup_cloneAndOverwriteWith_of_none ?_
  rw [lookup_insertAll_of_not_mem]
  · exact lookup_empty id
  intro entry hentry
  obtain ⟨y, hy, rfl⟩ := mem_map.mp hentry
  exact hid y hy

/-- A plan leads to a roster whose members have keys. -/
theorem Keyed.gameplan (hr : Keyed r) : Keyed post := by
  obtain ⟨-, -, -, ys, hys, hkeys, hchanged, hsame⟩ := Roster.gameplan_changes hopts h
  constructor
  · intro id info hinfo
    -- the link changes the member, or it leaves it alone
    rcases exists_change_or ys id with ⟨⟨chng, keys⟩, hy, rfl⟩ | hnone
    · obtain ⟨x, -, hx⟩ := exists_of_forall₂ hys hy
      obtain ⟨hmember, hkeysOf⟩ := hchanged _ hy
      rw [hmember] at hinfo
      rw [hkeysOf]
      split at hinfo
      · cases hinfo
      · next hrm =>
        obtain rfl := Option.some.inj hinfo
        exact memberKeyed_of_makeChange hx (hkeys _ hy) (eq_false_of_not_eq_true hrm)
    obtain ⟨hmember, hkeysOf⟩ := hsame id hnone
    rw [hmember] at hinfo
    rw [hkeysOf]
    exact hr.members id info hinfo
  · intro id hid
    rcases exists_change_or ys id with ⟨⟨chng, keys⟩, hy, rfl⟩ | hnone
    · obtain ⟨x, -, hx⟩ := exists_of_forall₂ hys hy
      obtain ⟨hmember, hkeysOf⟩ := hchanged _ hy
      have hrm : chng.rm = true := by
        by_contra hrm
        rw [if_neg hrm] at hmember
        exact hid (Map.mem_iff.mpr ⟨_, hmember⟩)
      rw [hkeysOf]
      obtain rfl := keys_of_rm hx hrm
      exact keepTrkc_none _
    obtain ⟨hmember, hkeysOf⟩ := hsame id hnone
    rw [hkeysOf]
    refine hr.others id fun hmem => hid ?_
    obtain ⟨info, hinfo⟩ := Map.mem_iff.mp hmem
    exact Map.mem_iff.mpr ⟨info, hmember.trans hinfo⟩

/-- Every ID in a roster is one that is kept. -/
def KeepsIDs (r : Roster H) : Prop := ∀ id ∈ r.members, KeepsID id.fqe.entity

theorem keepsIDs_gameplan_iff (hr : KeepsIDs r) :
    KeepsIDs post ↔ ∀ x ∈ v, x.mr.dstRole ≠ .none → ∀ f ∈ x.mr.member.id.entity.fixed.toOption, KeepsID f := by
  obtain ⟨-, -, -, ys, hys, -, hchanged, hsame⟩ := Roster.gameplan_changes hopts h
  -- a change removes its member if it has no role for it
  have hrm {x : MemberRoleSeqno H} {chng : Change} {keys : Option (TeamMemberKeys H)}
      (hchng : makeChange host x = .ok (chng, keys)) : chng.rm = true ↔ x.mr.dstRole = .none := by
    have hrole := (makeChange_iff.mp hchng).1
    rw [Team.Change.rm_iff]
    constructor
    · intro hnone
      rw [← exportRole_of_importRole hrole, hnone]
      rfl
    · intro hnone
      rw [hnone] at hrole
      exact (ok.inj hrole).symm
  constructor
  · -- the member of a change that is not a removal is a member after it
    intro hpost x hx hdst f hf
    obtain ⟨⟨chng, keys⟩, hy, hchng⟩ := exists_of_forall₂ hys.flip hx
    obtain ⟨-, -, -, -, hfqe, -⟩ := makeChange_iff.mp hchng
    have hmem : chng.member ∈ post.members :=
      Map.mem_iff.mpr ⟨chng.info,
        (hchanged _ hy).1.trans (if_neg fun hremoved => hdst ((hrm hchng).mp hremoved))⟩
    obtain rfl := ok_unique (FQEntity.fixed_eq_ok.mp hfqe).1 (toOption_eq_some.mp hf)
    exact hpost _ hmem
  · intro hnames id hid
    obtain ⟨info, hinfo⟩ := Map.mem_iff.mp hid
    rcases exists_change_or ys id with ⟨⟨chng, keys⟩, hy, rfl⟩ | hnone
    · obtain ⟨x, hx, hchng⟩ := exists_of_forall₂ hys hy
      obtain ⟨-, -, -, -, hfqe, -⟩ := makeChange_iff.mp hchng
      refine hnames x hx (fun hdst => ?_) _ (toOption_eq_some.mpr (FQEntity.fixed_eq_ok.mp hfqe).1)
      rw [(hchanged _ hy).1, if_pos ((hrm hchng).mpr hdst)] at hinfo
      cases hinfo
    · rw [(hsame id hnone).1] at hinfo
      exact hr id (Map.mem_iff.mpr ⟨info, hinfo⟩)

end Plan

/-! ## Links -/

section Links

variable [DecidableEq H] [MerkleHash H] [LinkFormat L H] {roster : Roster H}

theorem Keyed.openTeamLink (h : Keyed roster)
    (hopen : openTeamLink link hepks team host roster floor = .ok otlr) : Keyed otlr.rosterPost := by
  obtain ⟨-, -, keyOwner, opts, -, hopts, hplan⟩ := openTeamLink_eq_ok hopen
  exact h.gameplan hopts hplan

/-- A link whose changes name members by IDs that are kept, unless they remove them. -/
def NamesKeptIDs (H : Type) [LinkFormat L H] (link : L) : Prop :=
  ∀ gc ∈ (openGroupChange link : Except CoreError (GroupChange H)).toOption, ∀ ch ∈ gc.changes,
    ch.dstRole ≠ .none → ∀ f ∈ ch.member.id.entity.fixed.toOption, KeepsID f

instance (link : L) : Decidable (NamesKeptIDs H link) :=
  inferInstanceAs (Decidable (∀ gc ∈ Except.toOption _, ∀ ch ∈ GroupChange.changes gc, _ ≠ _ →
    ∀ f ∈ Except.toOption _, KeepsID f))

theorem keepsIDs_openTeamLink_iff (h : KeepsIDs roster)
    (hopen : openTeamLink link hepks team host roster floor = .ok otlr) :
    KeepsIDs otlr.rosterPost ↔ NamesKeptIDs H link := by
  obtain ⟨hgc, -, keyOwner, opts, -, hopts, hplan⟩ := openTeamLink_eq_ok hopen
  rw [keepsIDs_gameplan_iff hopts hplan h]
  constructor
  · intro hnames gc hgc' ch hch
    obtain rfl := ok_unique hgc (toOption_eq_some.mp hgc')
    exact hnames _ (mem_map_of_mem hch)
  · intro hnames x hx
    obtain ⟨ch, hch, rfl⟩ := mem_map.mp hx
    exact hnames otlr.gc (toOption_eq_some.mpr hgc) ch hch

end Links

/-! ## Rosters that cannot be told apart -/

/-- Rosters with the same members, keys of members and generations. They may differ in who was removed
before. -/
structure SameRoster (r r' : Roster H) : Prop where
  core : r.core.isSome ∧ r'.core.isSome
  mks : r.mks.isSome ∧ r'.mks.isSome
  members : r'.members = r.members
  keysOf (id : MemberID) : r'.keysOf id = r.keysOf id
  keyGens : r'.keyGens = r.keyGens

section Same

/-- The key that signs is that of a member. -/
theorem matchSigningKey_iff (hmks : r.mks.isSome) : matchSigningKey r.mks id verifyKey = .ok () ↔
      ∃ vk tk, verifyKey = some vk ∧ r.keysOf id = some tk ∧ vk.eq tk.verifyKey := by
  obtain ⟨a, ha⟩ := Option.isSome_iff_exists.mp hmks
  unfold Roster.keysOf
  rw [ha]
  cases verifyKey with
  | none => simp [matchSigningKey]
  | some vk =>
    rw [matchSigningKey]
    rcases hlookup : a.lookup id with - | (- | tk)
    · simp [hlookup]
    · simp [hlookup]
    · simp [hlookup, refuse_eq_ok]

theorem SameRoster.gameplan (hsame : SameRoster r r')
    (h : r.gameplan doerKO host v verifyKey opts = .ok (post, sched)) :
    ∃ post', r'.gameplan doerKO host v verifyKey opts = .ok (post', sched) ∧ SameRoster post post' := by
  obtain ⟨c, hc⟩ := Option.isSome_iff_exists.mp hsame.core.1
  obtain ⟨c', hc'⟩ := Option.isSome_iff_exists.mp hsame.core.2
  have hmembers : c'.members = c.members := by
    have hboth := hsame.members
    unfold Roster.members at hboth
    rwa [hc, hc'] at hboth
  have hplan := h
  obtain ⟨⟨changes, mks⟩, hchanges, h1⟩ := bind_eq_ok.mp hplan
  obtain ⟨doerSrcRole, hdoer, h2⟩ := bind_eq_ok.mp h1
  obtain ⟨doer, hfixed, h3⟩ := bind_eq_ok.mp h2
  obtain ⟨⟨⟩, hsigner, h4⟩ := bind_eq_ok.mp h3
  obtain ⟨⟨rPost, sched', keysPost⟩, hteam, h5⟩ := bind_eq_ok.mp h4
  cases h5
  rw [hc] at hteam
  obtain ⟨rPost', hteam', hpost⟩ := gameplan_congr hmembers hteam
  have hsigner' : matchSigningKey r'.mks ⟨doer, doerSrcRole⟩ verifyKey = .ok () := by
    rw [matchSigningKey_iff hsame.mks.1] at hsigner
    rwa [matchSigningKey_iff hsame.mks.2, hsame.keysOf]
  have h' : r'.gameplan doerKO host v verifyKey opts =
      .ok (⟨some rPost', some keysPost, some (cloneAndOverwriteWith r'.mks mks)⟩, sched) := by
    refine bind_eq_ok.mpr ⟨_, hchanges, bind_eq_ok.mpr ⟨_, hdoer, bind_eq_ok.mpr ⟨doer, hfixed, ?_⟩⟩⟩
    refine bind_eq_ok.mpr ⟨(), hsigner', bind_eq_ok.mpr ⟨(rPost', sched, keysPost), ?_, rfl⟩⟩
    rw [hc', hsame.keyGens]
    exact hteam'
  refine ⟨_, h', ⟨rfl, rfl⟩, ⟨rfl, rfl⟩, hpost, fun id => ?_, rfl⟩
  -- the keys of the link are written over keys that are the same
  have hold : (((r'.mks.getD ∅).lookup id).getD none) = ((r.mks.getD ∅).lookup id).getD none :=
    hsame.keysOf id
  unfold Roster.keysOf
  dsimp only [Option.getD_some]
  cases hmks : mks.lookup id with
  | none =>
    rw [lookup_cloneAndOverwriteWith_of_none hmks, lookup_cloneAndOverwriteWith_of_none hmks, hold]
  | some keys =>
    rw [lookup_cloneAndOverwriteWith_of_some hmks, lookup_cloneAndOverwriteWith_of_some hmks, hold]

variable [DecidableEq H] [MerkleHash H] [LinkFormat L H] {hepks' : HEPKSet H}

/-- A link that is opened with one of two such rosters is opened with the other. -/
theorem SameRoster.openTeamLink (hsame : SameRoster r r')
    (hopen : openTeamLink link hepks team host r floor = .ok otlr) :
    ∃ post', openTeamLink link hepks team host r' floor = .ok { otlr with rosterPost := post' } ∧
      SameRoster otlr.rosterPost post' := by
  obtain ⟨gc, hgc, h1⟩ := bind_eq_ok.mp hopen
  obtain ⟨⟨⟩, hteam, h2⟩ := bind_eq_ok.mp h1
  obtain ⟨⟨⟩, hhost, h3⟩ := bind_eq_ok.mp h2
  obtain ⟨⟨⟩, hadHoc, h4⟩ := bind_eq_ok.mp h3
  obtain ⟨⟨⟩, hentity, h5⟩ := bind_eq_ok.mp h4
  obtain ⟨sharedKeys, hkeys, h6⟩ := bind_eq_ok.mp h5
  obtain ⟨signer, hsigner, h7⟩ := bind_eq_ok.mp h6
  split at h7
  · cases h7
  · next keyOwner howner =>
    obtain ⟨⟨⟩, hverify, h8⟩ := bind_eq_ok.mp h7
    obtain ⟨⟨⟩, hchainer, h9⟩ := bind_eq_ok.mp h8
    obtain ⟨md, hmd, h10⟩ := bind_eq_ok.mp h9
    obtain ⟨floorKey, hfloor, h11⟩ := bind_eq_ok.mp h10
    obtain ⟨⟨rosterPost, sched⟩, hplan, h12⟩ := bind_eq_ok.mp h11
    cases h12
    obtain ⟨post', hplan', hpost⟩ := hsame.gameplan hplan
    refine ⟨post', ?_, hpost⟩
    refine bind_eq_ok.mpr ⟨gc, hgc, bind_eq_ok.mpr ⟨(), hteam, bind_eq_ok.mpr ⟨(), hhost, ?_⟩⟩⟩
    refine bind_eq_ok.mpr ⟨(), hadHoc, bind_eq_ok.mpr ⟨(), hentity, ?_⟩⟩
    refine bind_eq_ok.mpr ⟨sharedKeys, hkeys, bind_eq_ok.mpr ⟨signer, hsigner, ?_⟩⟩
    rw [howner]
    refine bind_eq_ok.mpr ⟨(), hverify, bind_eq_ok.mpr ⟨(), hchainer, bind_eq_ok.mpr ⟨md, hmd, ?_⟩⟩⟩
    exact bind_eq_ok.mpr ⟨floorKey, hfloor, bind_eq_ok.mpr ⟨_, hplan', rfl⟩⟩

end Same

/-! ## Saving a roster and reading it back -/

section Save

variable {c : RosterCore} {info : Team.MemberInfo}

theorem mem_sortedMembers : (id, info) ∈ Roster.sortedMembers c ↔ c.members.lookup id = some info := by
  unfold Roster.sortedMembers
  rw [mem_filterMap]
  constructor
  · rintro ⟨k, -, hk⟩
    obtain ⟨info', hinfo, hpair⟩ := Option.map_eq_some_iff.mp hk
    obtain ⟨rfl, rfl⟩ := Prod.mk.inj hpair
    exact hinfo
  · intro hinfo
    refine ⟨toLex (info.role, id), mem_sorted.mpr (Finset.mem_image.mpr ⟨id, ?_, ?_⟩), ?_⟩
    · exact mem_keys_iff.mpr ⟨info, hinfo⟩
    · rw [hinfo]
      rfl
    · exact Option.map_eq_some_iff.mpr ⟨info, hinfo, rfl⟩

theorem nodup_sortedMembers (c : RosterCore) : ((Roster.sortedMembers c).map Prod.fst).Nodup := by
  refine pairwise_map.mpr (pairwise_filterMap.mpr ?_)
  refine (sorted_nodup _).imp_of_mem ?_
  intro k k' hk hk' hne x hx y hy heq
  obtain ⟨info, -, rfl⟩ := Option.map_eq_some_iff.mp hx
  obtain ⟨info', -, rfl⟩ := Option.map_eq_some_iff.mp hy
  -- the role that a member is sorted by is a function of its ID
  obtain ⟨id, -, rfl⟩ := Finset.mem_image.mp (mem_sorted.mp hk)
  obtain ⟨id', -, rfl⟩ := Finset.mem_image.mp (mem_sorted.mp hk')
  obtain rfl : id = id' := heq
  exact hne rfl

/-- One change for each member leads to the members. -/
theorem apply_sortedMembers (hroles : ∀ id info, c.members.lookup id = some info → info.role.typ ≠ .none) :
    (RosterCore.newRosterCore.apply ((Roster.sortedMembers c).map fun m => ⟨m.1, m.2⟩)).members =
        c.members := by
  refine ext_lookup fun id => ?_
  rw [RosterCore.lookup_apply]
  cases hinfo : c.members.lookup id with
  | none =>
    have hlast : lastChange ((Roster.sortedMembers c).map fun m => ⟨m.1, m.2⟩) id = none := by
      refine find?_eq_none.mpr fun chng hchng heq => ?_
      obtain ⟨⟨id', info⟩, hm, rfl⟩ := mem_map.mp (mem_reverse.mp hchng)
      obtain rfl : id' = id := of_decide_eq_true heq
      rw [mem_sortedMembers.mp hm] at hinfo
      cases hinfo
    rw [hlast]
    exact lookup_empty id
  | some info =>
    have hmem : (⟨id, info⟩ : Change) ∈ (Roster.sortedMembers c).map fun m => ⟨m.1, m.2⟩ :=
      mem_map.mpr ⟨(id, info), mem_sortedMembers.mpr hinfo, rfl⟩
    have hnodup : (((Roster.sortedMembers c).map fun m => (⟨m.1, m.2⟩ : Change)).map Change.member).Nodup := by
      rw [map_map]
      exact nodup_sortedMembers c
    have hrm : Change.rm ⟨id, info⟩ = false := beq_false_of_ne (hroles id info hinfo)
    rw [lastChange_of_mem hnodup hmem]
    simp only [hrm, false_eq_true, if_false]

/-- The keys of the members, and of nobody else. -/
theorem lookup_insertAll_sortedMembers (f : MemberID → Option (TeamMemberKeys H)) (id : MemberID) :
    ((∅ : MemberKeysSet H).insertAll ((Roster.sortedMembers c).map fun m => (m.1, f m.1))).lookup id =
      if id ∈ c.members then some (f id) else none := by
  split
  · next hid =>
    obtain ⟨info, hinfo⟩ := Map.mem_iff.mp hid
    refine Map.lookup_insertAll_of_mem ?_ (mem_map.mpr ⟨(id, info), mem_sortedMembers.mpr hinfo, rfl⟩)
    rw [map_map]
    exact nodup_sortedMembers c
  · next hid =>
    rw [lookup_insertAll_of_not_mem]
    · exact lookup_empty id
    · rintro x hx rfl
      obtain ⟨m, hm, rfl⟩ := mem_map.mp hx
      exact hid (Map.mem_iff.mpr ⟨m.2, mem_sortedMembers.mp hm⟩)

variable {kg : KeyGens} {saved : List (MemberRoleSeqno H)}

/-- A member that is saved, and read back. -/
theorem makeChange_exportMember (h : MemberKeyed id info (r.keysOf id)) (hmks : r.mks.isSome)
    (hsave : r.exportMember host id info = .ok x) :
    ∃ f, (unfix id.fqe.entity >>= fixed) = .ok f ∧ KeepsID f ∧
      makeChange host x = .ok (⟨⟨⟨id.fqe.host, f⟩, id.srcRole⟩, info⟩, r.keysOf id) := by
  obtain ⟨e, hunfix, hx⟩ := bind_eq_ok.mp hsave
  cases hx
  obtain ⟨f, hfixed, hkeeps⟩ := keepsID_of_unfix hunfix
  obtain ⟨tk, htk, hgen, -⟩ := h.keys
  obtain ⟨a, ha⟩ := Option.isSome_iff_exists.mp hmks
  have hkeys : r.mks.bind (·.lookup id) = some (some tk) := by
    unfold Roster.keysOf at htk
    rw [ha] at htk ⊢
    cases hlookup : a.lookup id with
    | none =>
      rw [Option.getD_some, hlookup] at htk
      cases htk
    | some keys =>
      rw [Option.getD_some, hlookup] at htk
      exact hlookup.trans (congrArg some htk)
  refine ⟨f, bind_eq_ok.mpr ⟨e, hunfix, hfixed⟩, hkeeps, makeChange_iff.mpr ⟨importRole_exportRole _, ?_,
    importRole_exportRole _, h.srcRole, FQEntity.fixed_eq_ok.mpr ⟨hfixed, ?_⟩, rfl, rfl,
    .inr ⟨h.role, tk, ?_, htk, hgen.symm⟩⟩⟩
  · split
    · nofun
    · next hne => exact fun heq => hne (Option.some.inj heq)
  · unfold FQEntityInHostScope.withHost
    dsimp only
    split
    · next heq => rw [heq]; rfl
    · rfl
  · rw [hkeys]

/-- The changes that members are read back as, if their IDs are kept. -/
theorem forall₂_makeChange {ms : List (MemberID × Team.MemberInfo)} (hmks : r.mks.isSome)
    (hms : ∀ m ∈ ms, MemberKeyed m.1 m.2 (r.keysOf m.1) ∧ KeepsID m.1.fqe.entity)
    (hsave : List.Forall₂ (fun m x => r.exportMember host m.1 m.2 = .ok x) ms saved) :
    List.Forall₂ (fun x y => makeChange host x = .ok y) saved (ms.map fun m => (⟨m.1, m.2⟩, r.keysOf m.1)) := by
  induction hsave with
  | nil => exact .nil
  | cons hx _ ih =>
    rw [forall_mem_cons] at hms
    refine .cons ?_ (ih hms.2)
    obtain ⟨f, hread, -, hchange⟩ := makeChange_exportMember hms.1.1 hmks hx
    rwa [ok_unique hread hms.1.2] at hchange

theorem exportMember_eq_ok (r : Roster H) (host : HostID) (info : Team.MemberInfo)
    (h : KeepsID id.fqe.entity) : ∃ x, r.exportMember host id info = .ok x := by
  obtain ⟨e, hunfix, -⟩ := bind_eq_ok.mp h
  exact ⟨_, bind_eq_ok.mpr ⟨e, hunfix, rfl⟩⟩

/-- A roster whose IDs are kept is read back as it was saved, with the generations that it is read
with. -/
theorem Keyed.load (h : Keyed r) (hcore : r.core.isSome) (hmks : r.mks.isSome) (hids : KeepsIDs r)
    (host : HostID) (kg : KeyGens) :
    ∃ saved r', r.exportMembers host = .ok saved ∧ Roster.load kg saved host = .ok r' ∧
      SameRoster { r with keyGens := some kg } r' := by
  let ms := Roster.sortedMembers (r.core.getD .newRosterCore)
  have hmem : ∀ m ∈ ms, r.members.lookup m.1 = some m.2 := fun m hm => mem_sortedMembers.mp hm
  have hms : ∀ m ∈ ms, MemberKeyed m.1 m.2 (r.keysOf m.1) ∧ KeepsID m.1.fqe.entity := fun m hm =>
    ⟨h.members m.1 m.2 (hmem m hm), hids m.1 (Map.mem_iff.mpr ⟨m.2, hmem m hm⟩)⟩
  obtain ⟨saved, hsave⟩ := mapM_eq_ok fun m (hm : m ∈ ms) =>
    exportMember_eq_ok r host m.2 (hms m hm).2
  have hchanges := forall₂_makeChange hmks hms (mapM_iff_forall₂.mp hsave)
  have hkeys : ∀ y ∈ ms.map fun m => ((⟨m.1, m.2⟩ : Change), r.keysOf m.1),
      ∃ tk, y.2 = some tk ∧ verifyKeyToIndex tk.verifyKey = .ok () := by
    intro y hy
    obtain ⟨m, hm, rfl⟩ := mem_map.mp hy
    obtain ⟨tk, htk, -, hindex⟩ := (hms m hm).1.keys
    exact ⟨tk, htk, hindex⟩
  refine ⟨saved, _, hsave, bind_eq_ok.mpr ⟨_, makeChangesFrom_of_keys hchanges hkeys ∅, rfl⟩,
    ⟨hcore, rfl⟩, ⟨hmks, rfl⟩, ?_, fun id => ?_, rfl⟩
  · rw [map_map]
    exact apply_sortedMembers fun id info hinfo => (h.members id info hinfo).role
  unfold Roster.keysOf
  dsimp only
  rw [map_map]
  refine (congrArg (Option.getD · none) (lookup_insertAll_sortedMembers r.keysOf id)).trans ?_
  split
  · rfl
  · next hid => exact (h.others id hid).symm

/-- The IDs of a roster that is read back are kept. -/
theorem Keyed.keepsIDs_of_load (h : Keyed r) (hmks : r.mks.isSome)
    (hsave : r.exportMembers host = .ok saved) (hload : Roster.load kg saved host = .ok r') :
    KeepsIDs r' := by
  obtain ⟨⟨changes, mks⟩, hchanges, hres⟩ := bind_eq_ok.mp hload
  cases hres
  obtain ⟨ys, hys, rfl, rfl, -⟩ := makeChangesFrom_eq_ok hchanges
  intro id hid
  obtain ⟨info, hinfo⟩ := Map.mem_iff.mp hid
  -- the member comes from a change, and the change from a member that was saved
  have hlookup := (RosterCore.lookup_apply .newRosterCore (ys.map Prod.fst) id).symm.trans hinfo
  rcases hlast : lastChange (ys.map Prod.fst) id with _ | chng
  · rw [hlast] at hlookup
    cases hlookup
  obtain ⟨hmem, rfl⟩ := lastChange_eq_some hlast
  obtain ⟨y, hy, rfl⟩ := mem_map.mp hmem
  obtain ⟨x, hx, hchange⟩ := exists_of_forall₂ hys hy
  obtain ⟨m, hm, hexport⟩ := exists_of_mem_mapM hsave hx
  have hkeyed := h.members m.1 m.2 (mem_sortedMembers.mp hm)
  obtain ⟨f, -, hkeeps, hchange'⟩ := makeChange_exportMember hkeyed hmks hexport
  obtain rfl := ok_unique hchange' hchange
  exact hkeeps

end Save

end Foks.Client
