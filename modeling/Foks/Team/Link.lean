import Foks.Core.Entity
import Foks.Team.Roster

/-!
# Changes on the wire

The members and roles that a team link carries, and the changes that they stand for
(`lib/team/hilev.go`), and the floor from which members may change the roster
(`lib/team/delegation.go`).

## Main definitions

* `MemberRole`: a member, its new role and its keys, as a link has them
* `makeChange`, `makeChangeSet`: the change set of a link, and the keys that come with it
* `memberRoleToMemberID`: the member that a change is about
* `checkRosterDelegationFloor`, `rosterDelegationFloorActive`: the floor
-/

namespace Foks

/-- `FQEntity.Fixed`: of an ID that is too long it returns neither an entity nor an error, and the
callers follow the nil pointer. -/
def FQEntity.fixed (f : FQEntity) : Except CoreError Team.FQEntityFixed :=
  match f.entity.fixed with
  | .ok fid => .ok ⟨f.host, fid⟩
  | .error _ => .error nilPointer

theorem FQEntity.fixed_eq_ok {f : FQEntity} {g : Team.FQEntityFixed} :
    f.fixed = .ok g ↔ f.entity.fixed = .ok g.entity ∧ g.host = f.host := by
  obtain ⟨host, entity⟩ := g
  unfold fixed
  cases f.entity.fixed with
  | error e => simp
  | ok fid => simp [eq_comm, and_comm]

end Foks

namespace Foks.Team

open Lib

/-! ## Members and their roles -/

/-- `proto.KeyCommitment`: 32 bytes. -/
abbrev KeyCommitment := ℕ

/-- `proto.FQEntityInHostScope`: no host is the home host. -/
structure FQEntityInHostScope where
  entity : EntityID
  host : Option HostID
  deriving DecidableEq

def FQEntityInHostScope.withHost (f : FQEntityInHostScope) (h : HostID) : FQEntity :=
  ⟨f.entity, f.host.getD h⟩

section Types

variable (H : Type)

structure TeamMemberKeys where
  verifyKey : EntityID
  hepkFp : H
  gen : Generation
  trkc : Option KeyCommitment
  -- the index range, of a team
  tir : Option RationalRange
  deriving DecidableEq

inductive MemberKeys where
  | none
  | user (hepkFp : H) (subKey : Option EntityID)
  | team (keys : TeamMemberKeys H)
  deriving DecidableEq

structure Member where
  id : FQEntityInHostScope
  srcRole : Role
  keys : MemberKeys H
  deriving DecidableEq

structure MemberRole where
  dstRole : Role
  member : Member H
  deriving DecidableEq

structure MemberRoleSeqno where
  mr : MemberRole H
  seqno : Seqno
  time : Time
  deriving DecidableEq

/-- `MemberKeysSet`: the keys of each member, none for one that was removed. The index by verify key
is left out. -/
abbrev MemberKeysSet := Map MemberID (Option (TeamMemberKeys H))

end Types

/-! ## Change sets -/

variable {H : Type}

/-- `verifyKeyToIndex`, as far as it may fail: a key without a place in the index by verify key. -/
def verifyKeyToIndex (v : EntityID) : Except CoreError Unit := do
  refuse (v.len < 2) (.dataError "entity ID too short")
  let rolling := v.typ.map (·.rollingType) ≠ v.typ
  refuse (rolling ∧ v.len ≠ 33) (.entityError "input raw was wrong size")
  refuse (34 < v.len) (.entityError "entity ID exceeds expected length")

/-- `MakeChange`: the change, and the keys of the member. -/
def makeChange (mh : HostID) (mrq : MemberRoleSeqno H) :
    Except CoreError (Change × Option (TeamMemberKeys H)) := do
  let mr := mrq.mr
  let dstRole ← importRole mr.dstRole
  refuse (mr.member.id.host = some mh)
    (.linkError "for teams, can only specify hostID if different from home host")
  let srcRole ← importRole mr.member.srcRole
  refuse srcRole.isNone .teamNoSrcRoleError
  let fqef ← (mr.member.id.withHost mh).fixed
  let member := ⟨fqef, srcRole⟩
  if dstRole.typ = .none then
    match mr.member.keys with
    | .none => return (⟨member, ⟨dstRole, 0, mrq.seqno, mrq.time⟩⟩, none)
    | _ => .error (.teamError "cannot add keys to NONE role")
  else
    match mr.member.keys with
    | .team tk => return (⟨member, ⟨dstRole, tk.gen, mrq.seqno, mrq.time⟩⟩, some tk)
    | _ => .error (.teamError "need member keys type")

/-- What a change is: it has keys unless it removes the member. -/
theorem makeChange_iff {mh : HostID} {x : MemberRoleSeqno H} {chng : Change}
    {keys : Option (TeamMemberKeys H)} :
    makeChange mh x = .ok (chng, keys) ↔
      importRole x.mr.dstRole = .ok chng.info.role ∧ x.mr.member.id.host ≠ some mh ∧
        importRole x.mr.member.srcRole = .ok chng.member.srcRole ∧ chng.member.srcRole.isNone = false ∧
        (x.mr.member.id.withHost mh).fixed = .ok chng.member.fqe ∧
        chng.info.seqno = x.seqno ∧ chng.info.time = x.time ∧
        (chng.info.role.typ = .none ∧ x.mr.member.keys = .none ∧ keys = none ∧ chng.info.gen = 0 ∨
          chng.info.role.typ ≠ .none ∧ ∃ tk, x.mr.member.keys = .team tk ∧ keys = some tk ∧
            chng.info.gen = tk.gen) := by
  obtain ⟨⟨fqe, srcRole⟩, ⟨dstRole, gen, seqno, time⟩⟩ := chng
  unfold makeChange
  simp only [bind_eq_ok, refuse_eq_ok, exists_const, Bool.not_eq_true]
  constructor
  · rintro ⟨dstRole, hdst, hhost, srcRole, hsrc, hnone, fqe, hfqe, hres⟩
    split at hres
    · next htyp =>
      split at hres
      · next hkeys =>
        cases hres
        exact ⟨hdst, hhost, hsrc, hnone, hfqe, rfl, rfl, .inl ⟨htyp, hkeys, rfl, rfl⟩⟩
      · cases hres
    · next htyp =>
      split at hres
      · next tk hkeys =>
        cases hres
        exact ⟨hdst, hhost, hsrc, hnone, hfqe, rfl, rfl, .inr ⟨htyp, tk, hkeys, rfl, rfl⟩⟩
      · cases hres
  · rintro ⟨hdst, hhost, hsrc, hnone, hfqe, rfl, rfl, hcases⟩
    refine ⟨dstRole, hdst, hhost, srcRole, hsrc, hnone, fqe, hfqe, ?_⟩
    rcases hcases with ⟨htyp, hkeys, rfl, rfl⟩ | ⟨htyp, tk, hkeys, rfl, rfl⟩
    · rw [if_pos htyp, hkeys]
      rfl
    · rw [if_neg htyp, hkeys]
      rfl

section AddKeys

variable (a : MemberKeysSet H) (m : MemberID) (d : Option (TeamMemberKeys H))

/-- The part of `AddTeamMemberKeys` that keeps the index: the entry of a member without new keys is
found by the keys from before. -/
def checkIndex : Except CoreError Unit :=
  match d, a.lookup m with
  | some d, _ => verifyKeyToIndex d.verifyKey
  | none, some (some prev) => verifyKeyToIndex prev.verifyKey
  | none, some none => .error nilPointer
  | none, none => return ()

def addTeamMemberKeys : Except CoreError (MemberKeysSet H) := do
  checkIndex a m d
  return a.insert m d

end AddKeys

/-- The loop of `MakeChangeSet`. -/
def makeChangesFrom (mh : HostID) : MemberKeysSet H → List (MemberRoleSeqno H) →
    Except CoreError (ChangeSet × MemberKeysSet H)
  | ads, [] => return ([], ads)
  | ads, mrq :: v => do
    let (chng, auxData) ← makeChange mh mrq
    let ads ← addTeamMemberKeys ads chng.member auxData
    let (changes, ads) ← makeChangesFrom mh ads v
    return (chng :: changes, ads)

def makeChangeSet (mh : HostID) (v : List (MemberRoleSeqno H)) :
    Except CoreError (ChangeSet × MemberKeysSet H) :=
  makeChangesFrom mh ∅ v

/-- The place of the keys of a change in the keys of the members. -/
def keyEntry (y : Change × Option (TeamMemberKeys H)) : MemberID × Option (TeamMemberKeys H) :=
  (y.1.member, y.2)

/-- What the loop over the changes returns. -/
theorem makeChangesFrom_eq_ok {mh : HostID} {v : List (MemberRoleSeqno H)} {ads ads' : MemberKeysSet H}
    {changes : ChangeSet} (h : makeChangesFrom mh ads v = .ok (changes, ads')) :
    ∃ ys, List.Forall₂ (fun x y => makeChange mh x = .ok y) v ys ∧ changes = ys.map Prod.fst ∧
      ads' = ads.insertAll (ys.map keyEntry) ∧
      ∀ y ∈ ys, ∀ tk ∈ y.2, verifyKeyToIndex tk.verifyKey = .ok () := by
  induction v generalizing ads changes with
  | nil =>
    cases h
    exact ⟨[], .nil, rfl, rfl, List.forall_mem_nil _⟩
  | cons x v ih =>
    obtain ⟨⟨chng, keys⟩, hx, h1⟩ := bind_eq_ok.mp h
    obtain ⟨ads1, hadd, h2⟩ := bind_eq_ok.mp h1
    obtain ⟨⟨changes1, ads2⟩, hrest, h3⟩ := bind_eq_ok.mp h2
    cases h3
    obtain ⟨⟨⟩, hindex, hinsert⟩ := bind_eq_ok.mp hadd
    cases hinsert
    obtain ⟨ys, hys, rfl, rfl, hkeys⟩ := ih hrest
    refine ⟨(chng, keys) :: ys, .cons hx hys, rfl, rfl, List.forall_mem_cons.mpr ⟨?_, hkeys⟩⟩
    rintro tk htk
    obtain rfl := Option.mem_def.mp htk
    exact hindex

/-- A change of a change set is made from an entry of the link. -/
theorem exists_of_mem_makeChangeSet {mh : HostID} {v : List (MemberRoleSeqno H)} {changes : ChangeSet}
    {mks : MemberKeysSet H} (h : makeChangeSet mh v = .ok (changes, mks)) {chng : Change}
      (hchng : chng ∈ changes) :
    ∃ x ∈ v, ∃ keys, makeChange mh x = .ok (chng, keys) := by
  obtain ⟨ys, hys, rfl, -, -⟩ := makeChangesFrom_eq_ok h
  obtain ⟨⟨chng', keys⟩, hy, rfl⟩ := List.mem_map.mp hchng
  obtain ⟨x, hx, hmake⟩ := exists_of_forall₂ hys hy
  exact ⟨x, hx, keys, hmake⟩

def memberRoleToMemberID (mr : MemberRole H) (host : HostID) : Except CoreError MemberID := do
  let rk ← importRole mr.member.srcRole
  let mem ← (mr.member.id.withHost host).fixed
  return ⟨mem, rk⟩

/-- The members of an ad-hoc team are local users. -/
def checkAdHocMembersAreLocalUsers (changes : List (MemberRole H)) : Except CoreError Unit :=
  forM changes fun ch => do
    refuse (ch.member.id.entity.typ ≠ some .user) (.linkError "ad-hoc team members must be users, not teams")
    refuse (ch.member.id.host ≠ none) (.linkError "ad-hoc team members must be local (same-host) users")

/-! ## The delegation floor -/

/-- `CheckRosterDelegationFloor`: the values that a link may set. -/
def checkRosterDelegationFloor (r : Role) : Except CoreError Unit := do
  let rk ← importRole r
  refuse (rk.typ ≠ .none ∧ ¬ (rk.typ = .member ∧ 1 ≤ rk.lev)) (.linkError
    "roster delegation floor must be a member role at viz level >= 1, or none to turn delegation off")

/-- `RosterDelegationFloorActive`: no floor when the role is none. -/
def rosterDelegationFloorActive : Option Role → Except CoreError (Option RoleKey)
  | none => return none
  | some r => do
    let rk ← importRole r
    return if rk.typ = .none then none else some rk

end Foks.Team
