import Mathlib.Data.List.Find
import Foks.Team.Roster

/-!
# What a gameplan does

One specification for each part of a gameplan: the roster after a change set is read off the
last change of each member, and the three closures of the planning loop are replaced by the
roles that a change rotates, opens or fills. The proofs about runs use only these.
-/

namespace Foks.Team

open Lib List Finmap Except RosterCore WorkingSchedule RoleKey Change Map Prod

/-! ## The roster after a change set -/

/-- The last change of `d` for the member `m`; a checked change set has one at most. -/
def lastChange (d : ChangeSet) (m : MemberID) : Option Change :=
  d.reverse.find? fun chng => chng.member = m

theorem lastChange_concat (d : ChangeSet) (chng : Change) (m : MemberID) :
    lastChange (d ++ [chng]) m = if chng.member = m then some chng else lastChange d m := by
  simp only [lastChange]
  split <;> simp_all

variable {d d' : ChangeSet} {x y chng : Change} {rPre : Option RosterCore}
  {keysPre : Option KeyGens}
  {opts : Option GameplanOpts} {doer : MemberID}

theorem lastChange_eq_some {m : MemberID} (h : lastChange d m = some chng) :
    chng ∈ d ∧ chng.member = m :=
  ⟨mem_reverse.mp (mem_of_find?_eq_some h), by simpa using find?_some h⟩

theorem lastChange_of_mem (hd : (d.map member).Nodup) (h : chng ∈ d) :
    lastChange d chng.member = some chng := by
  cases hlast : lastChange d chng.member with
  | none => simpa using find?_eq_none.mp hlast chng (by simpa using h)
  | some last =>
    obtain ⟨hmem, heq⟩ := lastChange_eq_some hlast
    rw [inj_on_of_nodup_map hd hmem h heq]

namespace RosterCore

theorem lookup_applyChange (r : RosterCore) (chng : Change) (m : MemberID) :
    (r.applyChange chng).members.lookup m =
      if chng.member = m then (if chng.rm then none else some chng.info)
      else r.members.lookup m := by
  have hmembers : (r.applyChange chng).members =
      if chng.rm then r.members.erase chng.member else r.members.insert chng.member chng.info := by
    unfold applyChange
    cases chng.rm <;> rfl
  rw [hmembers]
  by_cases hm : chng.member = m
  · subst hm
    cases chng.rm <;> simp
  · cases chng.rm <;>
      simp [hm, lookup_erase_ne (Ne.symm hm), lookup_insert_of_ne _ (Ne.symm hm)]

theorem lookup_apply (r : RosterCore) (d : ChangeSet) (m : MemberID) :
    (r.apply d).members.lookup m =
      match lastChange d m with
      | some chng => if chng.rm then none else some chng.info
      | none => r.members.lookup m := by
  induction d using reverseRecOn with
  | nil => rfl
  | append_singleton d chng ih =>
    have hstep : r.apply (d ++ [chng]) = (r.apply d).applyChange chng := by simp [apply]
    rw [hstep, lookup_applyChange, lastChange_concat]
    split
    · rfl
    · exact ih

/-- A change takes the member out of the set of its old role, and puts it into the one of its new
role. -/
theorem lookup_roleIndex_applyChange (r : RosterCore) (k : RoleKey) :
    (r.applyChange chng).roleIndex.lookup k =
      let kept := (r.roleIndex.lookup k).map fun ind =>
        if (r.members.lookup chng.member).any (·.role = k) then ind.erase chng.member else ind
      if ¬ chng.rm ∧ chng.info.role = k then some (insert chng.member (kept.getD ∅)) else kept := by
  unfold applyChange
  rcases r.members.lookup chng.member with _ | ⟨role, gen, seqno, time⟩
  · rcases eq_or_ne chng.info.role k with rfl | hnew <;> cases chng.rm <;>
      simp [lookup_insert_ite, *]
  rcases eq_or_ne chng.info.role k with rfl | hnew
  · cases hi : r.roleIndex.lookup role <;> rcases eq_or_ne role chng.info.role with rfl | hold <;>
      cases chng.rm <;> simp [lookup_insert_ite, *]
  · cases hi : r.roleIndex.lookup role <;> rcases eq_or_ne role k with rfl | hold <;>
      cases chng.rm <;> simp [lookup_insert_ite, *]

/-- Changes of two members can be made in any order. -/
theorem applyChange_comm (hne : x.member ≠ y.member) (r : RosterCore) :
    (r.applyChange x).applyChange y = (r.applyChange y).applyChange x := by
  have hx : (r.applyChange y).members.lookup x.member = r.members.lookup x.member := by
    rw [lookup_applyChange, if_neg hne.symm]
  have hy : (r.applyChange x).members.lookup y.member = r.members.lookup y.member := by
    rw [lookup_applyChange, if_neg hne]
  have hmembers :
      ((r.applyChange x).applyChange y).members = ((r.applyChange y).applyChange x).members := by
    refine ext_lookup fun m => ?_
    simp only [lookup_applyChange]
    grind
  have hindex : ((r.applyChange x).applyChange y).roleIndex =
      ((r.applyChange y).applyChange x).roleIndex := by
    refine ext_lookup fun k => ?_
    simp only [lookup_roleIndex_applyChange, hx, hy]
    cases r.roleIndex.lookup k <;> split_ifs <;>
      simp [Finset.erase_right_comm, Finset.erase_insert_of_ne, Finset.pair_comm,
        Finset.insert_comm, hne, hne.symm]
  exact congrArg₂ mk hmembers hindex

theorem apply_perm (hd : (d.map member).Nodup) (hperm : d.Perm d') (r : RosterCore) :
    r.apply d' = r.apply d := by
  refine (hperm.foldl_eq' (fun x hx y hy r => ?_) r).symm
  by_cases hxy : x = y
  · rw [hxy]
  · exact applyChange_comm (fun heq => hxy (inj_on_of_nodup_map hd hx hy heq)) r

variable {r : RosterCore}

theorem mem_holders {k : RoleKey} {m : MemberID} : m ∈ r.holders k ↔
    ∃ i, r.members.lookup m = some i ∧ k ≤ i.role := by
  simp only [holders, Finset.mem_filter, mem_keys_iff]
  cases r.members.lookup m <;> simp

theorem hasOwnerLocked_iff : r.hasOwnerLocked ↔ ∃ m i, r.members.lookup m = some i ∧
    i.role = .ownerRole := by
  simp only [hasOwnerLocked, decide_eq_true_eq, mem_keys_iff]
  constructor
  · rintro ⟨m, ⟨i, hi⟩, hrole⟩
    rw [hi] at hrole
    exact ⟨m, i, hi, eq_ownerRole_of_typ (by simpa using hrole)⟩
  · rintro ⟨m, i, hi, hrole⟩
    refine ⟨m, ⟨i, hi⟩, ?_⟩
    simp [hi, hrole, ownerRole]

theorem holders_nonempty (h : r.hasOwnerLocked) (k : RoleKey) : (r.holders k).Nonempty := by
  obtain ⟨m, i, hi, hrole⟩ := hasOwnerLocked_iff.mp h
  exact ⟨m, mem_holders.mpr ⟨i, hi, hrole ▸ le_ownerRole k⟩⟩

end RosterCore

theorem Change.rm_iff : chng.rm ↔ chng.info.role = .noneRole := by
  rw [rm, beq_iff_eq, typ_eq_none_iff]

/-! ## The working schedule -/

section Plan

variable (r : RosterCore) (keyGensPre : KeyGens) (newRoster : RosterCore)
  (allKeyRoles : Finset RoleKey)

/-- A change rotates the key `k`: it takes a role or a generation from a member who has seen
the key, and the key is not one that the member keeps. -/
def Rotates (chng : Change) (k : RoleKey) : Prop :=
  ∃ e, r.members.lookup chng.member = some e ∧
    (chng.info.role < e.role ∨ e.role = chng.info.role ∧ e.gen < chng.info.gen) ∧
    k ≤ e.role ∧ (e.gen = chng.info.gen → chng.info.role < k)

/-- A change opens the key `k`: it grants a role that has no key yet. -/
def Opens (chng : Change) (k : RoleKey) : Prop :=
  keyGensPre.lookup chng.info.role = none ∧ ¬ chng.rm ∧ k = chng.info.role

/-- A change fills in the key `k` for its member, who has not seen it yet. -/
def Fills (chng : Change) (k : RoleKey) : Prop :=
  k ≤ chng.info.role ∧ ∀ e, r.members.lookup chng.member = some e → e.role < k

namespace WorkingSchedule

variable {r keyGensPre newRoster allKeyRoles} {k : RoleKey} {m : MemberID}

theorem mem_floodPairs {top : RoleKey} {floor : Option RoleKey} :
    (k, m) ∈ floodPairs newRoster allKeyRoles top floor ↔
      k ∈ allKeyRoles ∧ k ≤ top ∧ (∀ f ∈ floor, f < k) ∧ m ∈ newRoster.holders k := by
  simp only [floodPairs, Finset.mem_biUnion, Finset.mem_filter, Finset.mem_image, Prod.mk.injEq,
    Bool.and_eq_true, lessThanOrEqual_iff, Option.all_eq_true, lessThan_iff]
  constructor
  · rintro ⟨role, ⟨hall, hle, hfloor⟩, m', hm, rfl, rfl⟩
    exact ⟨hall, hle, hfloor, hm⟩
  · rintro ⟨hall, hle, hfloor, hm⟩
    exact ⟨k, ⟨hall, hle, hfloor⟩, m, hm, rfl, rfl⟩

variable (r keyGensPre newRoster allKeyRoles) (chng : Change)

/-- The pairs that `planDowngrade` adds are those of the roles that the change rotates. -/
theorem planDowngrade_eq : ∃ pairs : Finset (RoleKey × MemberID),
      (∀ ws, planDowngrade r newRoster allKeyRoles chng ws = { ws with
          incrs := ws.incrs ∪ pairs.image fst
          includes := ws.includes ∪ pairs.image fst
          rekeys := ws.rekeys ∪ pairs }) ∧
      ∀ k m, (k, m) ∈ pairs ↔ k ∈ allKeyRoles ∧ Rotates r chng k ∧ m ∈ newRoster.holders k := by
  unfold planDowngrade Rotates
  rcases he : r.members.lookup chng.member with _ | e
  · exact ⟨∅, by simp⟩
  simp only [cmp_pos_iff, cmp_eq_zero_iff]
  split
  · next hdown =>
    refine ⟨_, fun ws => rfl, fun k m => ?_⟩
    rw [mem_floodPairs]
    by_cases hgen : e.gen = chng.info.gen <;> simp at hdown ⊢ <;> tauto
  · next hdown =>
    refine ⟨∅, by simp, fun k m => ?_⟩
    simp only [Finset.notMem_empty, false_iff, Option.some.injEq]
    rintro ⟨-, ⟨e', rfl, hdown', -⟩, -⟩
    exact hdown hdown'

/-- The roles that `planUpgrade` boxes for the member are those that the change fills. -/
theorem planUpgrade_eq : ∃ roles : Finset RoleKey,
    (∀ ws, planUpgrade r allKeyRoles chng ws = { ws with
          includes := ws.includes ∪ roles
          rekeys := ws.rekeys ∪ roles.image (·, chng.member) }) ∧
      ∀ k, k ∈ roles ↔ k ∈ allKeyRoles ∧ Fills r chng k := by
  unfold planUpgrade Fills
  rcases he : r.members.lookup chng.member with _ | e
  · exact ⟨_, fun ws => rfl, fun k => by simp⟩
  simp only [cmp_neg_iff]
  split
  · next hup => exact ⟨_, fun ws => rfl, fun k => by simp⟩
  · next hup =>
    refine ⟨∅, by simp, fun k => ?_⟩
    simp only [Finset.notMem_empty, false_iff, Option.some.injEq, forall_eq']
    rintro ⟨-, hle, hlt⟩
    exact hup (hlt.trans_le hle)

theorem planNewRole_eq : ∃ roles : Finset RoleKey,
    (∀ ws, planNewRole keyGensPre newRoster chng ws = { ws with
          includes := ws.includes ∪ roles
          rekeys := ws.rekeys ∪ roles.biUnion fun k => (newRoster.holders k).image (k, ·) }) ∧
      ∀ k, k ∈ roles ↔ Opens keyGensPre chng k := by
  unfold planNewRole Opens
  split
  · next h =>
    refine ⟨{chng.info.role}, fun ws => ?_, fun k => ?_⟩
    · simp [keyAtLevel]
    · simp only [Finset.mem_singleton]
      exact ⟨fun hk => ⟨by simpa using h.1, h.2, hk⟩, fun hk => hk.2.2⟩
  · next h =>
    refine ⟨∅, by simp, fun k => ?_⟩
    simp only [Finset.notMem_empty, false_iff]
    rintro ⟨hnone, hrm, -⟩
    exact h ⟨by simp [hnone], hrm⟩

/-- What one turn of the planning loop adds to the working schedule. -/
theorem planChange_spec (ws : WorkingSchedule) :
    let ws' := planChange r keyGensPre newRoster allKeyRoles ws chng
    (∀ k, k ∈ ws'.incrs ↔ k ∈ ws.incrs ∨ k ∈ allKeyRoles ∧ Rotates r chng k ∧
      (newRoster.holders k).Nonempty) ∧
    (∀ k, k ∈ ws'.includes ↔ k ∈ ws.includes ∨ (Opens keyGensPre chng k ∨ k ∈ allKeyRoles ∧
        (Rotates r chng k ∧ (newRoster.holders k).Nonempty ∨ Fills r chng k))) ∧
    (∀ k m, (k, m) ∈ ws'.rekeys ↔ (k, m) ∈ ws.rekeys ∨
      (Opens keyGensPre chng k ∧ m ∈ newRoster.holders k ∨ k ∈ allKeyRoles ∧
        (Rotates r chng k ∧ m ∈ newRoster.holders k ∨ Fills r chng k ∧ m = chng.member))) := by
  obtain ⟨opened, hopened, memOpened⟩ := planNewRole_eq keyGensPre newRoster chng
  obtain ⟨pairs, hpairs, memPairs⟩ := planDowngrade_eq r newRoster allKeyRoles chng
  obtain ⟨filled, hfilled, memFilled⟩ := planUpgrade_eq r allKeyRoles chng
  have memFst : ∀ k, k ∈ pairs.image Prod.fst ↔
      k ∈ allKeyRoles ∧ Rotates r chng k ∧ (newRoster.holders k).Nonempty := by
    intro k
    simp only [Finset.mem_image, Prod.exists, exists_and_right, exists_eq_right, memPairs,
      exists_and_left, Finset.Nonempty]
  simp only [planChange, planMembership, hfilled, hpairs, hopened]
  refine ⟨fun k => ?_, fun k => ?_, fun k m => ?_⟩
  · rw [Finset.mem_union, memFst]
  · rw [Finset.mem_union, Finset.mem_union, Finset.mem_union, memFst, memOpened, memFilled]
    simp only [or_assoc, and_or_left]
  have hopens : (k, m) ∈ opened.biUnion (fun k => (newRoster.holders k).image (k, ·)) ↔
      Opens keyGensPre chng k ∧ m ∈ newRoster.holders k := by
    simp [memOpened]
  have hfills : (k, m) ∈ filled.image (·, chng.member) ↔ (k ∈ allKeyRoles ∧ Fills r chng k) ∧
      m = chng.member := by
    simp [memFilled, eq_comm]
  rw [Finset.mem_union, Finset.mem_union, Finset.mem_union, hopens, hfills, memPairs]
  simp only [or_assoc, and_or_left, and_assoc]

/-- One turn of the planning loop notes a new and a removed member. -/
theorem planChange_membs (ws : WorkingSchedule) (m : MemberID) :
    let ws' := planChange r keyGensPre newRoster allKeyRoles ws chng
    (m ∈ ws'.newMembs ↔ m ∈ ws.newMembs ∨ chng.member = m ∧ m ∉ r.members) ∧
    (m ∈ ws'.delMembs ↔ m ∈ ws.delMembs ∨ chng.member = m ∧ chng.rm) := by
  obtain ⟨opened, hopened, -⟩ := planNewRole_eq keyGensPre newRoster chng
  obtain ⟨pairs, hpairs, -⟩ := planDowngrade_eq r newRoster allKeyRoles chng
  obtain ⟨filled, hfilled, -⟩ := planUpgrade_eq r allKeyRoles chng
  simp only [planChange, planMembership, hfilled, hpairs, hopened, Option.isNone_iff_eq_none,
    lookup_eq_none]
  constructor
  · by_cases hm : chng.member ∈ r.members
    · simp only [hm]
      refine ⟨.inl, ?_⟩
      rintro (h | ⟨rfl, h⟩)
      · exact h
      · exact absurd hm h
    simp only [hm, not_false_eq_true, if_true, Finset.mem_insert]
    constructor
    · rintro (rfl | h)
      · exact .inr ⟨rfl, hm⟩
      · exact .inl h
    · rintro (h | ⟨rfl, -⟩)
      · exact .inr h
      · exact .inl rfl
  · by_cases hrm : chng.rm
    · simp [hrm, or_comm, eq_comm]
    · simp [hrm]

end WorkingSchedule

variable {r keyGensPre newRoster} {forced : Finset RoleKey} {k : RoleKey} {m : MemberID}

namespace RosterCore

theorem mem_incrs : k ∈ (r.workingSchedule d keyGensPre newRoster forced).incrs ↔
      ∃ chng ∈ d, k ∈ keyGensPre.keys ∪ forced ∧ Rotates r chng k ∧
          (newRoster.holders k).Nonempty := by
  have hstep := fun ws chng => (planChange_spec r keyGensPre newRoster
    (keyGensPre.keys ∪ forced) chng ws).1 k
  simpa [workingSchedule] using foldl_iff (P := fun ws : WorkingSchedule => k ∈ ws.incrs) hstep d {}

theorem mem_includes : k ∈ (r.workingSchedule d keyGensPre newRoster forced).includes ↔
      ∃ chng ∈ d, Opens keyGensPre chng k ∨ k ∈ keyGensPre.keys ∪ forced ∧
        (Rotates r chng k ∧ (newRoster.holders k).Nonempty ∨ Fills r chng k) := by
  have hstep := fun ws chng => (planChange_spec r keyGensPre newRoster
    (keyGensPre.keys ∪ forced) chng ws).2.1 k
  simpa [workingSchedule] using foldl_iff (P := fun ws : WorkingSchedule => k ∈ ws.includes)
    hstep d {}

theorem mem_rekeys : (k, m) ∈ (r.workingSchedule d keyGensPre newRoster forced).rekeys ↔
      ∃ chng ∈ d, Opens keyGensPre chng k ∧ m ∈ newRoster.holders k ∨ k ∈ keyGensPre.keys ∪ forced ∧
          (Rotates r chng k ∧ m ∈ newRoster.holders k ∨ Fills r chng k ∧ m = chng.member) := by
  have hstep := fun ws chng => (planChange_spec r keyGensPre newRoster
    (keyGensPre.keys ∪ forced) chng ws).2.2 k m
  simpa [workingSchedule] using foldl_iff (P := fun ws : WorkingSchedule => (k, m) ∈ ws.rekeys)
    hstep d {}

theorem mem_includes_of_mem_rekeys
    (h : (k, m) ∈ (r.workingSchedule d keyGensPre newRoster forced).rekeys) :
    k ∈ (r.workingSchedule d keyGensPre newRoster forced).includes := by
  rw [mem_rekeys] at h
  rw [mem_includes]
  obtain ⟨chng, hmem, ⟨hopens, -⟩ | ⟨hall, ⟨hrot, hm⟩ | ⟨hfills, -⟩⟩⟩ := h
  · exact ⟨chng, hmem, .inl hopens⟩
  · exact ⟨chng, hmem, .inr ⟨hall, .inl ⟨hrot, m, hm⟩⟩⟩
  · exact ⟨chng, hmem, .inr ⟨hall, .inr hfills⟩⟩

theorem mem_newMembs : m ∈ (r.workingSchedule d keyGensPre newRoster forced).newMembs ↔
      ∃ chng ∈ d, chng.member = m ∧ m ∉ r.members := by
  have hstep := fun ws chng => (planChange_membs r keyGensPre newRoster
    (keyGensPre.keys ∪ forced) chng ws m).1
  simpa [workingSchedule] using foldl_iff (P := fun ws : WorkingSchedule => m ∈ ws.newMembs)
    hstep d {}

theorem mem_delMembs : m ∈ (r.workingSchedule d keyGensPre newRoster forced).delMembs ↔
      ∃ chng ∈ d, chng.member = m ∧ chng.rm := by
  have hstep := fun ws chng => (planChange_membs r keyGensPre newRoster
    (keyGensPre.keys ∪ forced) chng ws m).2
  simpa [workingSchedule] using foldl_iff (P := fun ws : WorkingSchedule => m ∈ ws.delMembs)
    hstep d {}

attribute [ext] WorkingSchedule

theorem workingSchedule_perm (hperm : d.Perm d') :
    r.workingSchedule d' keyGensPre newRoster forced =
      r.workingSchedule d keyGensPre newRoster forced := by
  ext x
  · simp only [mem_incrs, hperm.mem_iff]
  · simp only [mem_includes, hperm.mem_iff]
  · obtain ⟨k, m⟩ := x
    simp only [mem_rekeys, hperm.mem_iff]
  · simp only [mem_newMembs, hperm.mem_iff]
  · simp only [mem_delMembs, hperm.mem_iff]

end RosterCore

end Plan

/-! ## The exported schedule -/

/-- The boxes of a schedule: for which member, of which key, at which generation. -/
def KeySchedule.boxes (sched : KeySchedule) : List (MemberID × RoleKey × Generation) :=
  sched.items.flatMap fun item => item.members.map (·, item.role, item.gen)

/-- The keys that a schedule starts a new generation of. -/
def KeySchedule.newKeys (sched : KeySchedule) : List (RoleKey × Generation) :=
  (sched.items.filter (·.newKeyGen)).map fun item => (item.role, item.gen)

namespace WorkingSchedule

variable {ws : WorkingSchedule} {keyGensPre : KeyGens} {k : RoleKey} {m : MemberID} {g : Generation}

theorem lookup_keyGensPost (ws : WorkingSchedule) (keyGensPre : KeyGens) (k : RoleKey) :
    (ws.keyGensPost keyGensPre).lookup k =
      if k ∈ ws.includes then some (ws.postGen keyGensPre k) else keyGensPre.lookup k := by
  rw [keyGensPost, lookup_union, lookup_ofFinset]
  split <;> simp

theorem mem_boxes : (m, k, g) ∈ (ws.exportSchedule keyGensPre).1.boxes ↔
      (k, m) ∈ ws.rekeys ∧ g = (ws.keyGensPost keyGensPre).get k := by
  simp only [KeySchedule.boxes, exportSchedule, mem_flatMap, mem_map, mem_sorted, Finset.mem_image,
    Prod.exists]
  constructor
  · rintro ⟨_, ⟨_, -, rfl⟩, m', hm', heq⟩
    obtain ⟨rfl, rfl, rfl⟩ := by simpa using heq
    exact ⟨by simpa using hm', rfl⟩
  · rintro ⟨hmem, rfl⟩
    refine ⟨_, ⟨k, ⟨k, m, hmem, rfl⟩, rfl⟩, m, ?_, rfl⟩
    simpa using hmem

theorem postGen_of_lookup (h : keyGensPre.lookup k = some g) :
    ws.postGen keyGensPre k = if k ∈ ws.incrs then g + 1 else g := by
  simp [postGen, h]

theorem mem_newKeys : (k, g) ∈ (ws.exportSchedule keyGensPre).1.newKeys ↔
      (∃ m, (k, m) ∈ ws.rekeys) ∧ k ∈ ws.includes ∧ ws.newKey keyGensPre k ∧
          g = ws.postGen keyGensPre k := by
  have hget : k ∈ ws.includes → (ws.keyGensPost keyGensPre).get k = ws.postGen keyGensPre k :=
    fun hk => get_of_lookup ((lookup_keyGensPost ws keyGensPre k).trans (if_pos hk))
  simp only [KeySchedule.newKeys, exportSchedule, mem_map, mem_filter, mem_sorted,
    Finset.mem_image, Prod.exists, Prod.mk.injEq]
  constructor
  · rintro ⟨_, ⟨⟨role, ⟨_, m, hmem, rfl⟩, rfl⟩, hnew⟩, rfl, rfl⟩
    obtain ⟨hincl, hkey⟩ : _ ∈ ws.includes ∧ ws.newKey keyGensPre _ := by simpa using hnew
    exact ⟨⟨m, hmem⟩, hincl, hkey, hget hincl⟩
  · rintro ⟨⟨m, hmem⟩, hincl, hkey, rfl⟩
    exact ⟨_, ⟨⟨k, ⟨k, m, hmem, rfl⟩, rfl⟩, by simp [hincl, hkey]⟩, rfl, hget hincl⟩

/-- The items are sorted by role. -/
theorem items_pairwise (ws : WorkingSchedule) (keyGensPre : KeyGens) :
    (ws.exportSchedule keyGensPre).1.items.Pairwise fun x y => x.role < y.role :=
  pairwise_map.mpr ((sorted_pairwise _).imp₂ (fun _ _ hle hne => lt_of_le_of_ne hle hne)
    (sorted_nodup _))

theorem newKeys_pairwise (ws : WorkingSchedule) (keyGensPre : KeyGens) :
    (ws.exportSchedule keyGensPre).1.newKeys.Pairwise fun x y => x.1 < y.1 :=
  pairwise_map.mpr ((items_pairwise ws keyGensPre).filter _)

/-- An item has the generation after the plan, and is boxed for members in their order. -/
theorem item_of_mem (hboxed : ∀ k, k ∈ ws.includes ↔ ∃ m, (k, m) ∈ ws.rekeys)
    {item : KeyScheduleItem}
    (h : item ∈ (ws.exportSchedule keyGensPre).1.items) :
    (ws.keyGensPost keyGensPre).lookup item.role = some item.gen ∧ item.members.Pairwise (· < ·) ∧
        item.members ≠ [] := by
  obtain ⟨role, hrole, rfl⟩ := mem_map.mp h
  obtain ⟨⟨_, m⟩, hmem, rfl⟩ := Finset.mem_image.mp (mem_sorted.mp hrole)
  have hpost := (lookup_keyGensPost ws keyGensPre _).trans (if_pos ((hboxed _).mpr ⟨m, hmem⟩))
  refine ⟨hpost.trans (congrArg some (get_of_lookup hpost).symm), ?_, ?_⟩
  · exact (sorted_pairwise _).imp₂ (fun _ _ hle hne => lt_of_le_of_ne hle hne) (sorted_nodup _)
  · exact ne_nil_of_mem
      (mem_sorted.mpr (Finset.mem_image.mpr ⟨_, Finset.mem_filter.mpr ⟨hmem, rfl⟩, rfl⟩))

/-- A new key is of a generation that its role did not have. -/
theorem lookup_ne_of_mem_newKeys
    (h : (k, g) ∈ (ws.exportSchedule keyGensPre).1.newKeys) : keyGensPre.lookup k ≠ some g := by
  obtain ⟨-, -, hnew, rfl⟩ := mem_newKeys.mp h
  intro hpre
  unfold newKey at hnew
  rw [hpre, decide_eq_true_eq] at hnew
  have hpost : ws.postGen keyGensPre k = ws.postGen keyGensPre k + 1 :=
    (postGen_of_lookup hpre).trans (if_pos hnew)
  exact absurd hpost (Nat.succ_ne_self _).symm

/-- If every key of the schedule is boxed for someone, the generations after it are those of its new
keys, and else those from before. -/
theorem keyGensPost_eq_insertAll (hboxed : ∀ k, k ∈ ws.includes ↔ ∃ m, (k, m) ∈ ws.rekeys) :
    ws.keyGensPost keyGensPre = keyGensPre.insertAll (ws.exportSchedule keyGensPre).1.newKeys := by
  refine ext_lookup fun k => ?_
  by_cases hnew : k ∈ ws.includes ∧ ws.newKey keyGensPre k
  · have hmem := mem_newKeys.mpr ⟨(hboxed k).mp hnew.1, hnew.1, hnew.2, rfl⟩
    have hkeys := (pairwise_map.mpr (newKeys_pairwise ws keyGensPre)).imp fun hlt => ne_of_lt hlt
    rw [lookup_keyGensPost, if_pos hnew.1, lookup_insertAll_of_mem hkeys hmem]
  rw [lookup_insertAll_of_not_mem, lookup_keyGensPost]
  · split
    · next hincl =>
      -- the key is in the schedule, but it is not new
      have hkey : ¬ ws.newKey keyGensPre k := fun hkey => hnew ⟨hincl, hkey⟩
      unfold newKey at hkey
      cases hpre : keyGensPre.lookup k with
      | none => simp [hpre] at hkey
      | some g =>
        rw [hpre] at hkey
        rw [postGen_of_lookup hpre, if_neg (by simpa using hkey)]
    · rfl
  · rintro ⟨k', g⟩ hmem rfl
    obtain ⟨-, hincl, hkey, -⟩ := mem_newKeys.mp hmem
    exact hnew ⟨hincl, hkey⟩

end WorkingSchedule

/-! ## Successful gameplans -/

theorem checkNoDuplicates_eq_ok {found : Finset MemberID} : checkNoDuplicates found d = .ok () ↔
      (∀ chng ∈ d, chng.member ∉ found) ∧ (d.map member).Nodup := by
  induction d generalizing found with
  | nil => simp [checkNoDuplicates]
  | cons chng d ih =>
    simp only [checkNoDuplicates, bind_eq_ok, refuse_eq_ok, ih, map_cons,
      nodup_cons, mem_map, forall_mem_cons, Finset.mem_insert]
    constructor
    · rintro ⟨⟨⟩, hfound, hrest, hnodup⟩
      refine ⟨⟨hfound, fun c hc => fun h => hrest c hc (.inr h)⟩, ?_, hnodup⟩
      rintro ⟨c, hc, heq⟩
      exact hrest c hc (.inl heq)
    · rintro ⟨⟨hfound, hrest⟩, hnew, hnodup⟩
      refine ⟨(), hfound, fun c hc => ?_, hnodup⟩
      rintro (heq | h)
      · exact hnew ⟨c, hc, heq⟩
      · exact hrest c hc h

namespace RosterCore

variable {r newRoster : RosterCore} {m : MemberID} {create : Bool}
  {keyGensPre : KeyGens} {forced : Finset RoleKey}

/-- What the checks promise to the plan: every member shows up once, and only members are
removed. -/
structure Sound (r : RosterCore) (d : ChangeSet) : Prop where
  nodup : (d.map member).Nodup
  removes : ∀ chng ∈ d, chng.rm → ∃ e, r.members.lookup chng.member = some e

theorem sound_of_checkChangesLocked (h : r.checkChangesLocked doer d create opts = .ok ()) :
    r.Sound d := by
  simp only [checkChangesLocked, bind_eq_ok, forM_eq_ok] at h
  obtain ⟨⟨⟩, hdup, info, -, ⟨⟩, -, ⟨⟩, -, hchange⟩ := h
  refine ⟨(checkNoDuplicates_eq_ok.mp hdup).2, fun chng hmem hrm => ?_⟩
  have hok := hchange chng hmem
  simp only [checkChange, bind_eq_ok, refuse_eq_ok] at hok
  obtain ⟨-, hexists, -⟩ := hok
  rw [not_and, Option.isNone_iff_eq_none] at hexists
  exact Option.ne_none_iff_exists'.mp fun hnone => hexists hnone hrm

/-- The checks do not depend on the order of the changes. -/
theorem checkChangesLocked_perm (hperm : d.Perm d')
    (h : r.checkChangesLocked doer d create opts = .ok ()) :
    r.checkChangesLocked doer d' create opts = .ok () := by
  have hd := (sound_of_checkChangesLocked h).nodup
  have hfind : find d doer .ownerRole = find d' doer .ownerRole := by
    refine congrArg _ (find?_eq_find?_of_perm hperm fun x hx y hy =>
      inj_on_of_nodup_map hd hx.1 hy.1 ?_)
    rw [eq_of_beq (Bool.and_eq_true_iff.mp hx.2).1, eq_of_beq (Bool.and_eq_true_iff.mp hy.2).1]
  simp only [checkChangesLocked, bind_eq_ok, forM_eq_ok, hperm.mem_iff] at h ⊢
  obtain ⟨⟨⟩, hdup, info, hinfo, hrest⟩ := h
  refine ⟨(), ?_, info, ?_, hrest⟩
  · simpa only [checkNoDuplicates_eq_ok, hperm.mem_iff, (hperm.map _).nodup_iff] using hdup
  simp only [doerInfo, hfind] at hinfo ⊢
  split_ifs at hinfo ⊢
  · exact hinfo
  cases hdoer : r.members.lookup doer with
  | none => simp [hdoer] at hinfo
  | some i =>
    simp only [hdoer] at hinfo ⊢
    split_ifs at hinfo ⊢
    · obtain ⟨⟨⟩, hallowed, hi⟩ := bind_eq_ok.mp hinfo
      refine bind_eq_ok.mpr ⟨(), ?_, hi⟩
      unfold delegatedChangesAllowedLocked at hallowed ⊢
      split at hallowed
      · cases hallowed
      · simpa only [bind_eq_ok, forM_eq_ok, hperm.mem_iff, ← length_eq_zero_iff, hperm.length_eq]
          using hallowed
    · exact hinfo

/-- Additions are of new members. -/
theorem not_mem_of_mem_additions
    (h : m ∈ (r.planChangesLocked d keyGensPre newRoster forced).1.additions) :
    m ∉ r.members := by
  obtain ⟨-, -, -, hm⟩ := mem_newMembs.mp (mem_sorted.mp h)
  exact hm

/-- Removals are of old members. -/
theorem Sound.mem_of_mem_removals (hsound : r.Sound d)
    (h : m ∈ (r.planChangesLocked d keyGensPre newRoster forced).1.removals) : m ∈ r.members := by
  obtain ⟨chng, hmem, rfl, hrm⟩ := mem_delMembs.mp (mem_sorted.mp h)
  exact Map.mem_iff.mpr (hsound.removes chng hmem hrm)

/-- After a checked change set the members are the new ones and the old ones that it does not
remove. -/
theorem Sound.mem_apply (h : r.Sound d) (keyGensPre : KeyGens) (newRoster : RosterCore)
    (forced : Finset RoleKey) (m : MemberID) :
    let sched := (r.planChangesLocked d keyGensPre newRoster forced).1
    m ∈ (r.apply d).members ↔ m ∈ sched.additions ∨ m ∈ r.members ∧ m ∉ sched.removals := by
  intro sched
  have hadd : m ∈ sched.additions ↔ ∃ chng ∈ d, chng.member = m ∧ m ∉ r.members :=
    mem_sorted.trans mem_newMembs
  have hrem : m ∈ sched.removals ↔ ∃ chng ∈ d, chng.member = m ∧ chng.rm :=
    mem_sorted.trans mem_delMembs
  rw [hadd, hrem, Map.mem_iff, lookup_apply]
  cases hlast : lastChange d m with
  | none =>
    have hno : ∀ chng ∈ d, chng.member ≠ m := by
      intro chng hmem hm
      rw [← hm, lastChange_of_mem h.nodup hmem] at hlast
      cases hlast
    have hin : (∃ b, r.members.lookup m = some b) ↔ m ∈ r.members := Map.mem_iff.symm
    refine hin.trans ⟨fun hm => .inr ⟨hm, ?_⟩, ?_⟩
    · exact fun ⟨chng, hmem, heq, _⟩ => hno chng hmem heq
    · rintro (⟨chng, hmem, heq, -⟩ | ⟨hm, -⟩)
      · exact absurd heq (hno chng hmem)
      · exact hm
  | some chng =>
    obtain ⟨hmem, rfl⟩ := lastChange_eq_some hlast
    have honly : ∀ c ∈ d, c.member = chng.member → c = chng :=
      fun c hc heq => inj_on_of_nodup_map h.nodup hc hmem heq
    by_cases hrm : chng.rm
    · obtain ⟨e, he⟩ := h.removes chng hmem hrm
      have hin : chng.member ∈ r.members := Map.mem_iff.mpr ⟨e, he⟩
      simp only [hrm, if_true, reduceCtorEq, exists_false, false_iff]
      rintro (⟨c, -, -, hout⟩ | ⟨-, hkeep⟩)
      · exact hout hin
      · exact hkeep ⟨chng, hmem, rfl, hrm⟩
    simp only [hrm, Bool.false_eq_true, if_false, Option.some.injEq, exists_eq', true_iff]
    by_cases hin : chng.member ∈ r.members
    · refine .inr ⟨hin, ?_⟩
      rintro ⟨c, hc, heq, hcrm⟩
      exact hrm (honly c hc heq ▸ hcrm)
    · exact .inl ⟨chng, hmem, rfl, hin⟩

/-- After a checked change set every key in the schedule is boxed for someone. -/
theorem Sound.mem_includes_iff (h : r.Sound d) (keyGensPre : KeyGens) (forced : Finset RoleKey)
    (k : RoleKey) :
    k ∈ (r.workingSchedule d keyGensPre (r.apply d) forced).includes ↔
      ∃ m, (k, m) ∈ (r.workingSchedule d keyGensPre (r.apply d) forced).rekeys := by
  refine ⟨fun hk => ?_, fun ⟨m, hm⟩ => mem_includes_of_mem_rekeys hm⟩
  obtain ⟨chng, hmem, hopens | ⟨hall, ⟨hrot, m, hm⟩ | hfills⟩⟩ := mem_includes.mp hk
  · -- the member that gets the role holds the key
    obtain ⟨hnone, hrm, rfl⟩ := hopens
    refine ⟨chng.member, mem_rekeys.mpr ⟨chng, hmem, .inl ⟨⟨hnone, hrm, rfl⟩, ?_⟩⟩⟩
    refine mem_holders.mpr ⟨chng.info, ?_, le_rfl⟩
    rw [lookup_apply, lastChange_of_mem h.nodup hmem]
    simp [hrm]
  · exact ⟨m, mem_rekeys.mpr ⟨chng, hmem, .inr ⟨hall, .inl ⟨hrot, hm⟩⟩⟩⟩
  · exact ⟨chng.member, mem_rekeys.mpr ⟨chng, hmem, .inr ⟨hall, .inr ⟨hfills, rfl⟩⟩⟩⟩

/-- The generations after a checked change set are those of the new keys of its schedule, and else
those from before. -/
theorem Sound.planChangesLocked_keyGens (h : r.Sound d) (keyGensPre : KeyGens)
    (forced : Finset RoleKey) :
    (r.planChangesLocked d keyGensPre (r.apply d) forced).2
      = keyGensPre.insertAll (r.planChangesLocked d keyGensPre (r.apply d) forced).1.newKeys :=
  keyGensPost_eq_insertAll (h.mem_includes_iff keyGensPre forced)

/-- A created team has the doer as its owner. -/
theorem hasOwnerLocked_of_create (h : newRosterCore.checkChangesLocked doer d true opts = .ok ()) :
    (newRosterCore.apply d).hasOwnerLocked := by
  have hnodup := (sound_of_checkChangesLocked h).nodup
  simp only [checkChangesLocked, bind_eq_ok, doerInfo, if_true] at h
  obtain ⟨-, -, info, ⟨-, -, hinfo⟩, -⟩ := h
  rcases hfind : find d doer .ownerRole with _ | i
  · simp [hfind] at hinfo
  obtain ⟨chng, hchng, -⟩ := Option.map_eq_some_iff.mp hfind
  have hmem := mem_of_find?_eq_some hchng
  obtain ⟨rfl, hrole⟩ : chng.member = doer ∧ chng.info.role = .ownerRole := by
    simpa using find?_some hchng
  have hrm : ¬ chng.rm := by simp [rm, hrole, ownerRole]
  refine hasOwnerLocked_iff.mpr ⟨chng.member, chng.info, ?_, hrole⟩
  rw [lookup_apply, lastChange_of_mem hnodup hmem]
  simp [hrm]

end RosterCore

theorem gameplan_eq_ok {res : RosterCore × KeySchedule × KeyGens}
    (h : gameplan d doer rPre keysPre opts = .ok res) :
    ((opts.all fun o => !o.testingNoCheck) →
      (rPre.getD .newRosterCore).checkChangesLocked doer d rPre.isNone opts = .ok ()) ∧
    (opts.any (·.requireOwner) → (rPre.getD .newRosterCore).hasOwnerLocked →
      ((rPre.getD .newRosterCore).apply d).hasOwnerLocked) ∧
    res = ((rPre.getD .newRosterCore).apply d, (rPre.getD .newRosterCore).planChangesLocked d
      (keysPre.getD ∅)
        ((rPre.getD .newRosterCore).apply d) (if rPre.isNone then forcedNewKeyGens else ∅)) := by
  simp only [gameplan, bind_eq_ok] at h
  obtain ⟨⟨⟩, -, h⟩ := h
  split at h
  · next hopts =>
    simp only [bind_eq_ok, refuse_eq_ok] at h
    obtain ⟨⟨⟩, hcheck, ⟨⟩, howner, hres⟩ := h
    refine ⟨fun _ => hcheck, fun hreq hpre => ?_, (ok.inj hres).symm⟩
    by_contra hpost
    exact howner ⟨hreq, hpre, hpost⟩
  · next hopts =>
    simp only [bind_eq_ok, refuse_eq_ok] at h
    obtain ⟨⟨⟩, howner, hres⟩ := h
    refine ⟨fun h => absurd h hopts, fun hreq hpre => ?_, (ok.inj hres).symm⟩
    by_contra hpost
    exact howner ⟨hreq, hpre, hpost⟩

section Checked

variable {roster : RosterCore} {sched : KeySchedule} {keyGens : KeyGens}
  (hchecked : opts.all fun o => !o.testingNoCheck)
  (h : gameplan d doer rPre keysPre opts = .ok (roster, sched, keyGens))

include hchecked h

/-- The members after a checked gameplan, in terms of its additions and removals. -/
theorem gameplan_members :
    sched.additions.Nodup ∧ (∀ m ∈ sched.additions, m ∉ (rPre.getD .newRosterCore).members) ∧
      ∀ m, m ∈ roster.members ↔
        (m ∈ (rPre.getD .newRosterCore).members ∨ m ∈ sched.additions) ∧ m ∉ sched.removals := by
  obtain ⟨hcheck, -, hres⟩ := gameplan_eq_ok h
  have hsound := sound_of_checkChangesLocked (hcheck hchecked)
  obtain ⟨rfl, hplan⟩ := mk.inj hres
  obtain rfl : sched = _ := congrArg fst hplan
  refine ⟨sorted_nodup _, fun m => not_mem_of_mem_additions, fun m => ?_⟩
  have happly := hsound.mem_apply (keysPre.getD ∅) ((rPre.getD .newRosterCore).apply d)
    (if rPre.isNone then forcedNewKeyGens else ∅) m
  refine happly.trans ⟨?_, ?_⟩
  · rintro (hadd | ⟨hpre, hrem⟩)
    · exact ⟨.inr hadd, fun hrem => not_mem_of_mem_additions hadd (hsound.mem_of_mem_removals hrem)⟩
    · exact ⟨.inl hpre, hrem⟩
  · rintro ⟨hpre | hadd, hrem⟩
    · exact .inr ⟨hpre, hrem⟩
    · exact .inl hadd

open WorkingSchedule in
/-- **The key schedule.** A key stays or goes to the next generation, and a new one is at the first.
The items are in order, have the generations after the plan, and start a new one exactly where the
plan changes something. -/
theorem gameplan_schedule :
    (∀ k g, (keysPre.getD ∅).lookup k = some g → keyGens.lookup k = some g ∨
      keyGens.lookup k = some (g + 1)) ∧
      (∀ k g, (keysPre.getD ∅).lookup k = none → keyGens.lookup k = some g → g = firstGeneration) ∧
      sched.items.Pairwise (fun x y => x.role < y.role) ∧
      (∀ item ∈ sched.items, keyGens.lookup item.role = some item.gen ∧
        item.members.Pairwise (· < ·) ∧ item.members ≠ []) ∧
      ∀ k, (∃ item ∈ sched.items, item.role = k ∧ item.newKeyGen) ↔
          keyGens.lookup k ≠ (keysPre.getD ∅).lookup k := by
  obtain ⟨hcheck, -, hres⟩ := gameplan_eq_ok h
  have hboxed := (sound_of_checkChangesLocked (hcheck hchecked)).mem_includes_iff (keysPre.getD ∅)
    (if rPre.isNone then forcedNewKeyGens else ∅)
  obtain ⟨-, hplan⟩ := mk.inj hres
  obtain ⟨rfl, rfl⟩ := mk.inj hplan
  generalize workingSchedule _ _ _ _ _ = ws at hboxed
  have hlookup := lookup_keyGensPost ws (keysPre.getD ∅)
  refine ⟨fun k g hk => ?_, fun k g hk => ?_, items_pairwise .., fun item =>
    item_of_mem hboxed, fun k => ?_⟩
  · rw [hlookup, postGen_of_lookup hk]
    split_ifs
    · exact .inr rfl
    · exact .inl rfl
    · exact .inl hk
  · simp only [hlookup, postGen, hk]
    split
    · exact fun hg => (Option.some.inj hg).symm
    · exact nofun
  constructor
  · rintro ⟨item, hmem, rfl, hnew⟩
    rw [(item_of_mem hboxed hmem).1]
    exact (lookup_ne_of_mem_newKeys (mem_map.mpr ⟨item, mem_filter.mpr ⟨hmem, hnew⟩, rfl⟩)).symm
  · intro hne
    rw [keyGensPost_eq_insertAll hboxed] at hne
    by_contra hnot
    refine hne (lookup_insertAll_of_not_mem fun x hx heq => hnot ?_)
    obtain ⟨item, hitem, rfl⟩ := mem_map.mp hx
    exact ⟨item, (mem_filter.mp hitem).1, heq, (mem_filter.mp hitem).2⟩

end Checked

/-- **Order.** A gameplan does not depend on the order of its changes, if they are checked or of
different members. -/
theorem gameplan_perm (hperm : d.Perm d') (hd : (opts.all fun o => !o.testingNoCheck) ∨
    (d.map member).Nodup)
    (res : RosterCore × KeySchedule × KeyGens) :
    gameplan d doer rPre keysPre opts = .ok res ↔ gameplan d' doer rPre keysPre opts = .ok res := by
  suffices hone : ∀ {d d' : ChangeSet}, d.Perm d' →
      ((opts.all fun o => !o.testingNoCheck) ∨ (d.map member).Nodup) →
      gameplan d doer rPre keysPre opts = .ok res →
        gameplan d' doer rPre keysPre opts = .ok res from
    ⟨hone hperm hd, hone hperm.symm (hd.imp_right (hperm.map _).nodup_iff.mp)⟩
  intro d d' hperm hd h
  have hnodup : (d.map member).Nodup :=
    hd.elim (fun hopts => (sound_of_checkChangesLocked ((gameplan_eq_ok h).1 hopts)).nodup) id
  unfold gameplan planChangesLocked at h ⊢
  simp only [apply_perm hnodup hperm, workingSchedule_perm hperm, bind_eq_ok] at h ⊢
  obtain ⟨⟨⟩, hboth, h⟩ := h
  refine ⟨(), hboth, ?_⟩
  by_cases hopts : opts.all fun o => !o.testingNoCheck
  · rw [if_pos hopts] at h ⊢
    obtain ⟨⟨⟩, hcheck, h⟩ := bind_eq_ok.mp h
    exact bind_eq_ok.mpr ⟨(), checkChangesLocked_perm hperm hcheck, h⟩
  · rw [if_neg hopts] at h ⊢
    exact h

/-! ## Rosters with the same members -/

section SameMembers

variable {c c' : RosterCore}

section

variable (h : c'.members = c.members)

include h

theorem RosterCore.checkChangesLocked_congr (doer : MemberID)
    (create : Bool) (opts : Option GameplanOpts) :
    c'.checkChangesLocked doer d create opts = c.checkChangesLocked doer d create opts := by
  obtain ⟨members, index⟩ := c
  obtain ⟨members', index'⟩ := c'
  obtain rfl : members' = members := h
  rfl

theorem RosterCore.planChangesLocked_congr {post post' : RosterCore}
    (hpost : post'.members = post.members) (keysPre : KeyGens) (forced : Finset RoleKey) :
    c'.planChangesLocked d keysPre post' forced = c.planChangesLocked d keysPre post forced := by
  obtain ⟨members, index⟩ := c
  obtain ⟨members', index'⟩ := c'
  obtain rfl : members' = members := h
  obtain ⟨membersPost, indexPost⟩ := post
  obtain ⟨membersPost', indexPost'⟩ := post'
  obtain rfl : membersPost' = membersPost := hpost
  rfl

theorem RosterCore.hasOwnerLocked_congr : c'.hasOwnerLocked = c.hasOwnerLocked := by
  unfold hasOwnerLocked
  rw [h]

/-- A plan reads the members of the roster only, and not how they are indexed. -/
theorem gameplan_congr {post : RosterCore} {sched : KeySchedule} {keysPost : KeyGens}
    (hplan : gameplan d doer (some c) keysPre opts = .ok (post, sched, keysPost)) :
    ∃ post', gameplan d doer (some c') keysPre opts = .ok (post', sched, keysPost) ∧
        post'.members = post.members := by
  have hmembers : (c'.apply d).members = (c.apply d).members := by
    refine ext_lookup fun m => ?_
    rw [lookup_apply, lookup_apply, h]
  obtain ⟨-, -, hres⟩ := gameplan_eq_ok hplan
  obtain ⟨rfl, -⟩ := mk.inj hres
  refine ⟨c'.apply d, ?_, hmembers⟩
  unfold gameplan at hplan ⊢
  simp only [Option.getD_some, checkChangesLocked_congr h,
    hasOwnerLocked_congr h, hasOwnerLocked_congr hmembers,
    planChangesLocked_congr h hmembers, bind_eq_ok] at hplan ⊢
  obtain ⟨⟨⟩, hboth, hplan⟩ := hplan
  refine ⟨(), hboth, ?_⟩
  by_cases hopts : opts.all fun o => !o.testingNoCheck
  · rw [if_pos hopts] at hplan ⊢
    obtain ⟨⟨⟩, hcheck, h1⟩ := bind_eq_ok.mp hplan
    obtain ⟨⟨⟩, howner, h2⟩ := bind_eq_ok.mp h1
    cases h2
    exact bind_eq_ok.mpr ⟨(), hcheck, bind_eq_ok.mpr ⟨(), howner, rfl⟩⟩
  rw [if_neg hopts] at hplan ⊢
  obtain ⟨⟨⟩, howner, h1⟩ := bind_eq_ok.mp hplan
  cases h1
  exact bind_eq_ok.mpr ⟨(), howner, rfl⟩

end

end SameMembers

end Foks.Team
