import Foks.Team.Link
import Foks.Team.Schedule

/-!
# Who may change whom

A change set is signed by one member of the roster, the doer. What the checks of a gameplan ask of
the doer is said here in one place: nobody is changed who was above the doer, nobody ends up above
it, and a doer that is no admin only works below the role at which plain members stand. The last
part is about the keys as well, since a schedule touches a key for three reasons only and each of
them is bounded by the role of a changed member.
-/

namespace Foks.Team

open Lib RosterCore Option Except

variable {r : RosterCore} {doer : MemberID} {d : ChangeSet} {chng : Change} {info : MemberInfo}
  {opts : Option GameplanOpts} {keyGensPre : KeyGens} {newRoster : RosterCore} {forced : Finset RoleKey}

/-- The member of the change has a role up to `bound`, if it has one, and gets a role up to it. -/
structure BelowDoer (r : RosterCore) (bound : RoleKey) (chng : Change) : Prop where
  before : ∀ e, r.members.lookup chng.member = some e → e.role ≤ bound
  after : chng.info.role ≤ bound

/-- A change that a doer may make by delegation: it adds a new member or removes one, not the doer
itself, and in both cases at `m/0` or below. -/
structure Delegated (r : RosterCore) (doer : MemberID) (chng : Change) : Prop where
  other : chng.member ≠ doer
  removes : chng.rm → ∃ e, r.members.lookup chng.member = some e ∧ e.role ≤ plainMemberCeiling
  adds : ¬ chng.rm → r.members.lookup chng.member = none ∧ chng.info.role ≤ plainMemberCeiling

/-! ## What the checks ask of the doer -/

namespace RosterCore

theorem checkDoerRole_eq_ok (h : r.checkDoerRole info chng = .ok ()) : BelowDoer r info.role chng := by
  simp only [checkDoerRole, bind_eq_ok, refuse_eq_ok, RoleKey.lessThan_iff, not_lt] at h
  obtain ⟨⟨⟩, hafter, hbefore⟩ := h
  refine ⟨fun e he => ?_, hafter⟩
  simpa [he] using hbefore

theorem delegatedChangeAllowed_eq_ok (h : r.delegatedChangeAllowed doer chng = .ok ()) :
    Delegated r doer chng := by
  simp only [delegatedChangeAllowed, bind_eq_ok, refuse_eq_ok] at h
  obtain ⟨⟨⟩, hother, h⟩ := h
  by_cases hrm : chng.rm
  · simp only [hrm] at h
    refine ⟨hother, fun _ => ?_, fun hadd => absurd hrm hadd⟩
    cases he : r.members.lookup chng.member with
    | none => simp [he] at h
    | some e =>
      refine ⟨e, rfl, ?_⟩
      simpa [he] using h
  simp only [hrm, Bool.false_eq_true, if_false, bind_eq_ok] at h
  obtain ⟨⟨⟩, hnew, hrole⟩ := h
  refine ⟨hother, fun h => absurd h hrm, fun _ => ⟨?_, ?_⟩⟩
  · simpa using hnew
  · simpa using hrole

/-- A doer that is neither admin nor owner is a member at the delegation floor or above. -/
theorem delegatedChangesAllowedLocked_eq_ok (h : r.delegatedChangesAllowedLocked opts info doer d = .ok ()) :
    (∃ floor, opts.bind (·.delegationFloor) = some floor ∧ floor ≤ info.role) ∧ ∀ chng ∈ d,
        Delegated r doer chng := by
  unfold delegatedChangesAllowedLocked at h
  cases hfloor : opts.bind (·.delegationFloor) with
  | none => simp [hfloor] at h
  | some floor =>
    simp only [hfloor, bind_eq_ok, refuse_eq_ok, forM_eq_ok, not_or, RoleKey.lessThan_iff, not_lt] at h
    obtain ⟨⟨⟩, ⟨-, hle⟩, ⟨⟩, -, ⟨⟩, -, hall⟩ := h
    exact ⟨⟨floor, rfl, hle⟩, fun chng hmem => delegatedChangeAllowed_eq_ok (hall chng hmem)⟩

/-- What the checks of an edit ask of the doer. -/
theorem checkChangesLocked_doer (h : r.checkChangesLocked doer d false opts = .ok ()) :
    ∃ info, r.members.lookup doer = some info ∧ (∀ chng ∈ d, BelowDoer r info.role chng) ∧
      (info.role.typ ≠ .admin → info.role.typ ≠ .owner →
        (∃ floor, opts.bind (·.delegationFloor) = some floor ∧ floor ≤ info.role) ∧
          ∀ chng ∈ d, Delegated r doer chng) := by
  simp only [checkChangesLocked, bind_eq_ok, forM_eq_ok] at h
  obtain ⟨⟨⟩, -, info, hinfo, ⟨⟩, hrole, -⟩ := h
  have hbelow : ∀ chng ∈ d, BelowDoer r info.role chng :=
    fun chng hmem => checkDoerRole_eq_ok (hrole chng hmem)
  simp only [doerInfo, Bool.false_eq_true, if_false] at hinfo
  rcases hdoer : r.members.lookup doer with _ | found
  · simp [hdoer] at hinfo
  simp only [hdoer] at hinfo
  split at hinfo
  · -- the delegated path
    simp only [bind_eq_ok] at hinfo
    obtain ⟨⟨⟩, hdeleg, hinfo⟩ := hinfo
    obtain rfl : found = info := ok.inj hinfo
    exact ⟨found, rfl, hbelow, fun _ _ => delegatedChangesAllowedLocked_eq_ok hdeleg⟩
  · next hpriv =>
    obtain rfl : found = info := ok.inj hinfo
    exact ⟨found, rfl, hbelow, fun hadmin howner => absurd ⟨hadmin, howner⟩ hpriv⟩

end RosterCore

/-! ## What the changed roles say about the keys -/

/-- A key in a schedule is at a role that some changed member had or gets. -/
theorem mem_includes_le {k : RoleKey} (h : k ∈ (r.workingSchedule d keyGensPre newRoster forced).includes) :
    ∃ chng ∈ d, k ≤ chng.info.role ∨ ∃ e, r.members.lookup chng.member = some e ∧ k ≤ e.role := by
  obtain ⟨chng, hmem, ⟨-, -, rfl⟩ | ⟨-, ⟨hrot, -⟩ | hfills⟩⟩ := mem_includes.mp h
  · exact ⟨chng, hmem, .inl le_rfl⟩
  · obtain ⟨e, he, -, hle, -⟩ := hrot
    exact ⟨chng, hmem, .inr ⟨e, he, hle⟩⟩
  · exact ⟨chng, hmem, .inl hfills.1⟩

/-- A change of role `NONE` is of no role above anyone. -/
theorem Delegated.role_le (h : Delegated r doer chng) : chng.info.role ≤ plainMemberCeiling := by
  by_cases hrm : chng.rm
  · rw [Change.rm_iff.mp hrm]
    decide
  · exact (h.adds hrm).2

theorem Delegated.existing_le (h : Delegated r doer chng) {e : MemberInfo}
    (he : r.members.lookup chng.member = some e) : e.role ≤ plainMemberCeiling := by
  by_cases hrm : chng.rm
  · obtain ⟨e', he', hle⟩ := h.removes hrm
    rw [he] at he'
    exact some.inj he' ▸ hle
  · rw [(h.adds hrm).1] at he
    cases he

/-- The schedule of delegated changes holds no key above `m/0`. -/
theorem includes_le_of_delegated {k : RoleKey} (h : ∀ chng ∈ d, Delegated r doer chng)
    (hk : k ∈ (r.workingSchedule d keyGensPre newRoster forced).includes) :
    k ≤ plainMemberCeiling := by
  obtain ⟨chng, hmem, hle | ⟨e, he, hle⟩⟩ := mem_includes_le hk
  · exact hle.trans (h chng hmem).role_le
  · exact hle.trans ((h chng hmem).existing_le he)

/-! ## Accepted edits -/

theorem lookup_apply_of_mem (hd : (d.map Change.member).Nodup) (hmem : chng ∈ d) :
    (r.apply d).members.lookup chng.member = if chng.rm then none else some chng.info := by
  rw [lookup_apply, lastChange_of_mem hd hmem]

/-- **No privilege escalation.** In an accepted edit every changed member has a role up to that of
the doer, before and after. A doer that is neither admin nor owner is at the delegation floor or
above it, and adds and removes members at `m/0` or below, not itself; no key above `m/0` changes its
generation or is boxed for anyone. -/
theorem gameplan_no_escalation {rPre rPost : RosterCore} {keysPre keysPost : KeyGens}
    {sched : KeySchedule} (hchecked : opts.all fun o => !o.testingNoCheck)
    (h : gameplan d doer (some rPre) (some keysPre) opts = .ok (rPost, sched, keysPost)) :
    ∃ info, rPre.members.lookup doer = some info ∧
      (∀ chng ∈ d,
        (∀ e, rPre.members.lookup chng.member = some e → e.role ≤ info.role) ∧
        ∀ e, rPost.members.lookup chng.member = some e → e.role ≤ info.role) ∧
      (info.role.typ ≠ .admin → info.role.typ ≠ .owner →
        (∃ floor, opts.bind (·.delegationFloor) = some floor ∧ floor ≤ info.role) ∧
        (∀ chng ∈ d, chng.member ≠ doer ∧
          ((∃ e, rPre.members.lookup chng.member = some e ∧ e.role ≤ plainMemberCeiling ∧
              rPost.members.lookup chng.member = none) ∨
            rPre.members.lookup chng.member = none ∧
              ∃ e, rPost.members.lookup chng.member = some e ∧ e.role ≤ plainMemberCeiling)) ∧
        ∀ k, plainMemberCeiling < k →
          keysPost.lookup k = keysPre.lookup k ∧ (∀ g, (k, g) ∉ sched.newKeys) ∧
            ∀ m g, (m, k, g) ∉ sched.boxes) := by
  obtain ⟨hcheck, -, hres⟩ := gameplan_eq_ok h
  have hok : rPre.checkChangesLocked doer d false opts = .ok () := hcheck hchecked
  have hnodup := (sound_of_checkChangesLocked hok).nodup
  obtain ⟨info, hdoer, hbelow, hdeleg⟩ := checkChangesLocked_doer hok
  obtain ⟨rfl, hplan⟩ := Prod.mk.inj hres
  obtain ⟨rfl, rfl⟩ := Prod.mk.inj hplan
  refine ⟨info, hdoer, fun chng hmem => ⟨(hbelow chng hmem).before, fun e he => ?_⟩, fun hadmin howner => ?_⟩
  · simp only [Option.getD_some, lookup_apply_of_mem hnodup hmem] at he
    split at he
    · cases he
    · exact some.inj he ▸ (hbelow chng hmem).after
  obtain ⟨hfloor, hall⟩ := hdeleg hadmin howner
  refine ⟨hfloor, fun chng hmem => ⟨(hall chng hmem).other, ?_⟩, fun k hk => ?_⟩
  · by_cases hrm : chng.rm
    · obtain ⟨e, he, hle⟩ := (hall chng hmem).removes hrm
      refine .inl ⟨e, he, hle, ?_⟩
      exact (lookup_apply_of_mem hnodup hmem).trans (if_pos hrm)
    obtain ⟨hnew, hle⟩ := (hall chng hmem).adds hrm
    refine .inr ⟨hnew, chng.info, ?_, hle⟩
    exact (lookup_apply_of_mem hnodup hmem).trans (if_neg hrm)
  -- a key above `m/0` is not in the working schedule, so nothing is exported for it
  have hout : k ∉ (rPre.workingSchedule d keysPre (rPre.apply d) ∅).includes :=
    fun hincl => not_le_of_gt hk (includes_le_of_delegated hall hincl)
  refine ⟨?_, fun g hg => ?_, fun m g hbox => ?_⟩
  · exact (WorkingSchedule.lookup_keyGensPost _ _ k).trans (if_neg hout)
  · exact hout (WorkingSchedule.mem_newKeys.mp hg).2.1
  · exact hout (mem_includes_of_mem_rekeys (WorkingSchedule.mem_boxes.mp hbox).1)

/-! ## Changes that change nothing -/

section Repeats

/-- The doer may list the member once more with the role and the key generation that the roster has: it
is an admin or an owner and not below the member, and the member has an ID and a source role that a link
can name, a role, and a valid generation. -/
structure MayRepeat (r : RosterCore) (doer m : MemberID) (e : MemberInfo) : Prop where
  privileged : ∃ info, r.members.lookup doer = some info ∧ (info.role.typ = .admin ∨ info.role.typ = .owner) ∧
    e.role ≤ info.role
  onHost : e.role.typ.isAdminOrAbove → doer.fqe.host = m.fqe.host
  entity : m.fqe.entity < 256 ^ 34
  srcRole : m.srcRole.isNone = false
  role : e.role.typ ≠ .none
  gen : firstGeneration ≤ e.gen

variable {m : MemberID} {e : MemberInfo} {H : Type}

/-- The change that gives a member the role and the generation that it has, in a link with number `n`. -/
def repetition (m : MemberID) (e : MemberInfo) (n : Seqno) : Change := ⟨m, { e with seqno := n }⟩

/-- An accepted edit with the repetition of a member: the doer may make it, and it is not of the link
that the member was changed in last. -/
theorem mayRepeat_of_checkChangesLocked {n : Seqno} (h : r.checkChangesLocked doer d false opts = .ok ())
    (hm : r.members.lookup m = some e) (hd : chng ∈ d) (hmember : chng.member = m)
    (hentity : m.fqe.entity < 256 ^ 34) (hsrc : m.srcRole.isNone = false) (hrm : ¬ chng.rm)
    (hrole : chng.info.role = e.role) (hgen : chng.info.gen = e.gen) (hseqno : chng.info.seqno = n) :
    MayRepeat r doer m e ∧ e.seqno ≠ n := by
  subst hmember
  obtain ⟨info, hdoer, hbelow, hdeleg⟩ := checkChangesLocked_doer h
  simp only [checkChangesLocked, bind_eq_ok, forM_eq_ok] at h
  obtain ⟨⟨⟩, -, -, -, ⟨⟩, -, ⟨⟩, hlocal, hchange⟩ := h
  have hok := hchange chng hd
  simp only [checkChange, bind_eq_ok, refuse_eq_ok, hm] at hok
  obtain ⟨⟨⟩, -, ⟨⟩, -, ⟨⟩, hsame, ⟨⟩, -, hvalid⟩ := hok
  have hpriv : info.role.typ = .admin ∨ info.role.typ = .owner := by
    by_contra! hnot
    -- a delegated change is of nobody in the roster
    have hnone := (((hdeleg hnot.1 hnot.2).2 chng hd).adds hrm).1
    rw [hm] at hnone
    cases hnone
  refine ⟨⟨⟨info, hdoer, hpriv, (hbelow chng hd).before e hm⟩, fun hadmin => ?_, hentity, hsrc, ?_, ?_⟩, ?_⟩
  · have hhost := hlocal chng hd
    rw [checkLocal, refuse_eq_ok, hrole] at hhost
    by_contra hne
    exact hhost ⟨hadmin, hne⟩
  · simpa [Change.rm, hrole] using hrm
  · simpa [hrm, hgen, Generation.isValid] using hvalid
  · rintro rfl
    exact hsame (by simp [MemberInfo.eq, hrole, hgen, hseqno])

/-- The repetition passes the checks in every link but the one that the member was changed in last. -/
theorem checkChangesLocked_repetition {n : Seqno} (hm : r.members.lookup m = some e)
    (hmay : MayRepeat r doer m e) (hseqno : e.seqno ≠ n) (opts : Option GameplanOpts) :
    r.checkChangesLocked doer [repetition m e n] false opts = .ok () := by
  obtain ⟨info, hdoer, hpriv, hle⟩ := hmay.privileged
  have hrm : (repetition m e n).rm = false := by
    simpa [repetition, Change.rm] using hmay.role
  have hinfo : r.doerInfo doer [repetition m e n] false opts = .ok info := by
    have hnot : ¬ (info.role.typ ≠ .admin ∧ info.role.typ ≠ .owner) := by tauto
    simp only [doerInfo, hdoer, hnot, Bool.false_eq_true, if_false]
    rfl
  have hrole : r.checkDoerRole info (repetition m e n) = .ok () := by
    simp [checkDoerRole, repetition, hm, hle, bind_eq_ok]
  have hlocal : checkLocal doer (repetition m e n) = .ok () := by
    rw [checkLocal, refuse_eq_ok]
    rintro ⟨hadmin, hne⟩
    exact hne (hmay.onHost hadmin)
  have hchange : r.checkChange (repetition m e n) = .ok () := by
    have hgen : firstGeneration ≤ e.gen := hmay.gen
    unfold repetition at hrm ⊢
    simp [checkChange, bind_eq_ok, hrm, hm, MemberInfo.eq, hseqno, Generation.isValid, hgen]
  simp only [checkChangesLocked, bind_eq_ok, forM_eq_ok, List.forall_mem_singleton]
  exact ⟨(), by simp [checkNoDuplicates, bind_eq_ok], info, hinfo, (), hrole, (), hlocal, hchange⟩

/-- An entry of a link that stands for the repetition of a member. -/
def repeatedEntry [Inhabited H] (mh : HostID) (m : MemberID) (e : MemberInfo) (n : Seqno) :
    MemberRoleSeqno H where
  mr := {
    dstRole := e.role.exportRole
    member := {
      id := ⟨.ofNat 34 m.fqe.entity, if m.fqe.host = mh then none else some m.fqe.host⟩
      srcRole := m.srcRole.exportRole
      keys := .team ⟨.ofNat 33 (14 * 256 ^ 32), default, e.gen, none, none⟩ } }
  seqno := n
  time := e.time

theorem makeChangeSet_repeatedEntry [Inhabited H] (mh : HostID) (n : Seqno) (hmay : MayRepeat r doer m e) :
    ∃ mks : MemberKeysSet H, makeChangeSet mh [repeatedEntry mh m e n] = .ok ([repetition m e n], mks) := by
  have hfqe : ((repeatedEntry mh m e n : MemberRoleSeqno H).mr.member.id.withHost mh).fixed = .ok m.fqe := by
    refine FQEntity.fixed_eq_ok.mpr ⟨EntityID.fixed_eq_ok.mpr ⟨le_rfl, ?_⟩, ?_⟩
    · simpa [repeatedEntry, FQEntityInHostScope.withHost, EntityID.ofNat] using Nat.mod_eq_of_lt hmay.entity
    · by_cases hhost : m.fqe.host = mh
      · simp [repeatedEntry, FQEntityInHostScope.withHost, hhost]
      · simp [repeatedEntry, FQEntityInHostScope.withHost, hhost]
  have hmake : makeChange mh (repeatedEntry mh m e n : MemberRoleSeqno H) =
      .ok (repetition m e n, some ⟨.ofNat 33 (14 * 256 ^ 32), default, e.gen, none, none⟩) := by
    refine makeChange_iff.mpr ⟨importRole_exportRole _, ?_, importRole_exportRole _, hmay.srcRole,
      hfqe, rfl, rfl,
      .inr ⟨hmay.role, _, rfl, rfl, rfl⟩⟩
    by_cases hhost : m.fqe.host = mh
    · simp [repeatedEntry, hhost]
    · simp [repeatedEntry, hhost]
  refine ⟨_, bind_eq_ok.mpr ⟨_, hmake, bind_eq_ok.mpr ⟨_, bind_eq_ok.mpr ⟨(), ?_, rfl⟩, rfl⟩⟩⟩
  exact show verifyKeyToIndex (.ofNat 33 (14 * 256 ^ 32)) = .ok () by decide +kernel

/-- Every accepted edit that a doer signs in link `n` gives each member that it lists and keeps another
role or a later key, if and only if every member that the doer may list once more was changed last in link
`n` itself: `MemberInfo.Eq` compares the number of the link too, and `MakeChangeSet` sets that of the new
link. -/
theorem changes_members_iff [Inhabited H] (r : RosterCore) (doer : MemberID) (opts : Option GameplanOpts)
    (mh : HostID) (n : Seqno) :
    (∀ (v : List (MemberRoleSeqno H)) d mks, (∀ x ∈ v, x.seqno = n) → makeChangeSet mh v = .ok (d, mks) →
      r.checkChangesLocked doer d false opts = .ok () →
      ∀ chng ∈ d, ¬ chng.rm → ∀ e, r.members.lookup chng.member = some e →
        chng.info.role ≠ e.role ∨ e.gen < chng.info.gen) ↔
      ∀ m e, r.members.lookup m = some e → MayRepeat r doer m e → e.seqno = n := by
  constructor
  · -- the entry that lists the member once more would be accepted
    intro hall m e hm hmay
    by_contra hseqno
    obtain ⟨mks, hset⟩ := makeChangeSet_repeatedEntry (H := H) mh n hmay
    have hrm : ¬ (repetition m e n).rm := by
      simpa [repetition, Change.rm] using hmay.role
    rcases hall _ _ _ (by simp [repeatedEntry]) hset (checkChangesLocked_repetition hm hmay hseqno opts) _
      (List.mem_singleton_self _) hrm e hm with hrole | hgen
    · exact hrole rfl
    · exact lt_irrefl _ hgen
  · -- an accepted entry with the same role and no later key lists the member once more
    intro hall v d mks hv hset hok chng hd hrm e he
    by_contra! hsame
    obtain ⟨x, hx, keys, hmake⟩ := exists_of_mem_makeChangeSet hset hd
    obtain ⟨-, -, -, hsrc, hfqe, hseqno, -⟩ := makeChange_iff.mp hmake
    have hgen : chng.info.gen = e.gen := by
      refine hsame.2.antisymm ?_
      simp only [checkChangesLocked, bind_eq_ok, forM_eq_ok] at hok
      obtain ⟨⟨⟩, -, -, -, ⟨⟩, -, ⟨⟩, -, hchange⟩ := hok
      have hchng := hchange chng hd
      simp only [checkChange, bind_eq_ok, refuse_eq_ok] at hchng
      obtain ⟨⟨⟩, -, ⟨⟩, -, ⟨⟩, -, ⟨⟩, hgen, -⟩ := hchng
      simpa [hrm, he] using hgen
    have hentity := EntityID.fixed_lt (FQEntity.fixed_eq_ok.mp hfqe).1
    obtain ⟨hmay, hne⟩ := mayRepeat_of_checkChangesLocked hok he hd rfl hentity hsrc hrm hsame.1 hgen
      (hseqno.trans (hv x hx))
    exact hne (hall _ e he hmay)

end Repeats

/-! ## An edit by delegation -/

section Example

def stewardRole : RoleKey := ⟨.member, 1, by decide⟩

def owner : MemberID := ⟨⟨1, 1⟩, .ownerRole⟩

def steward : MemberID := ⟨⟨1, 2⟩, .ownerRole⟩

def leaver : MemberID := ⟨⟨1, 3⟩, .ownerRole⟩

def newcomer : MemberID := ⟨⟨1, 4⟩, .ownerRole⟩

/-- A team with an owner, a member at `m/1` and a member at `m/0`. -/
def staffed : RosterCore :=
  newRosterCore.apply [⟨owner, ⟨.ownerRole, 1, 1, 0⟩⟩, ⟨steward, ⟨stewardRole, 1, 1, 0⟩⟩,
    ⟨leaver, ⟨.memberRole, 1, 1, 0⟩⟩]

def staffedKeys : KeyGens :=
  (((∅ : KeyGens).insert .ownerRole 1).insert stewardRole 1).insert .memberRole 1

/-- The member at `m/1` removes the one at `m/0` and adds another. -/
def handover : ChangeSet :=
  [⟨leaver, ⟨.noneRole, 0, 2, 0⟩⟩, ⟨newcomer, ⟨.memberRole, 1, 2, 0⟩⟩]

def delegation : Option GameplanOpts :=
  some { requireOwner := true, delegationFloor := some stewardRole }

theorem gameplan_handover : ∃ rPost sched keysPost,
    gameplan handover steward (some staffed) (some staffedKeys) delegation
      = .ok (rPost, sched, keysPost) ∧ keysPost.lookup .memberRole = some 2 := by
  obtain ⟨res, hplan, hrot⟩ := exists_of_map_toOption (f := fun res => res.2.2.lookup .memberRole) (b := some 2)
    (x := gameplan handover steward (some staffed) (some staffedKeys) delegation) (by decide +kernel)
  exact ⟨res.1, res.2.1, res.2.2, hplan, hrot⟩

theorem gameplan_no_escalation_handover : ∃ rPost sched keysPost,
    gameplan handover steward (some staffed) (some staffedKeys) delegation
      = .ok (rPost, sched, keysPost) ∧ keysPost.lookup .memberRole = some 2 ∧
      keysPost.lookup stewardRole = some 1 ∧ ∀ m g, (m, stewardRole, g) ∉ sched.boxes := by
  obtain ⟨rPost, sched, keysPost, hplan, hrot⟩ := gameplan_handover
  obtain ⟨info, hinfo, -, hdeleg⟩ := gameplan_no_escalation (by decide) hplan
  have hsteward : staffed.members.lookup steward = some ⟨stewardRole, 1, 1, 0⟩ := by
    decide +kernel
  obtain rfl : info = ⟨stewardRole, 1, 1, 0⟩ := mem_unique hinfo hsteward
  obtain ⟨-, -, hkeys⟩ := hdeleg (by decide) (by decide)
  obtain ⟨hsame, -, hboxes⟩ := hkeys stewardRole (by decide)
  exact ⟨rPost, sched, keysPost, hplan, hrot, hsame.trans (by decide +kernel), hboxes⟩

theorem gameplan_schedule_handover : ∃ rPost sched keysPost,
    gameplan handover steward (some staffed) (some staffedKeys) delegation = .ok (rPost, sched, keysPost) ∧
      ∃ item ∈ sched.items, item.role = .memberRole ∧ item.newKeyGen := by
  obtain ⟨rPost, sched, keysPost, hplan, hrot⟩ := gameplan_handover
  obtain ⟨-, -, -, -, hnew⟩ := gameplan_schedule (by decide) hplan
  refine ⟨rPost, sched, keysPost, hplan, (hnew _).mpr ?_⟩
  rw [hrot]
  decide +kernel

theorem gameplan_perm_handover : ∃ res,
    gameplan handover.reverse steward (some staffed) (some staffedKeys) delegation = .ok res := by
  obtain ⟨rPost, sched, keysPost, hplan, -⟩ := gameplan_handover
  exact ⟨_, (gameplan_perm handover.reverse_perm.symm (.inl (by decide)) _).mp hplan⟩

/-- Without the checks the last of two changes of a member counts. -/
theorem gameplan_unchecked_order : ∃ d d' : ChangeSet, d.Perm d' ∧
    (gameplan d owner none none (some { testingNoCheck := true })).toOption.map (·.1.members.lookup owner) ≠
      (gameplan d' owner none none (some { testingNoCheck := true })).toOption.map (·.1.members.lookup owner) :=
  ⟨[⟨owner, ⟨.ownerRole, 1, 1, 0⟩⟩, ⟨owner, ⟨.memberRole, 1, 1, 0⟩⟩], _, .swap .., by decide +kernel⟩

/-- An entry of link two with the role and the key that the member at `m/0` has from link one. -/
def repeated : MemberRoleSeqno ℕ :=
  ⟨⟨.member 0, ⟨⟨.ofNat 34 3, none⟩, .owner, .team ⟨.ofNat 33 (14 * 256 ^ 32), 0, 1, none, none⟩⟩⟩, 2, 0⟩

theorem repeated_accepted : ∃ d, (makeChangeSet 1 [repeated]).map Prod.fst = .ok d ∧
    staffed.checkChangesLocked owner d false none = .ok () ∧
    ¬ ∀ chng ∈ d, ¬ chng.rm → ∀ e, staffed.members.lookup chng.member = some e →
        chng.info.role ≠ e.role ∨ e.gen < chng.info.gen := by
  refine ⟨[⟨leaver, ⟨.memberRole, 1, 2, 0⟩⟩], by decide +kernel, by decide +kernel, fun hall => ?_⟩
  have hnew := hall _ (List.mem_singleton_self _) (by decide) ⟨.memberRole, 1, 1, 0⟩ (by decide +kernel)
  revert hnew
  decide

end Example

end Foks.Team
