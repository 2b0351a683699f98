import Foks.Lib.Custody
import Foks.Team.Schedule

/-!
# Who holds which team key, over whole runs

A team is created by one gameplan and changed by further ones. The boxes of all schedules are
kept: a box that has been handed out cannot be taken back. A run refines the abstract custody of
graded keys, and its two invariants become the two properties of a team: nobody misses the
current key of a role it may read, and nobody holds the current key of a role it may not read.
-/

namespace Foks.Team

open Lib List Finset Option Except RosterCore WorkingSchedule

/-- The arguments of `ChangeSet.Gameplan` that do not come from the team. -/
structure Call where
  changes : ChangeSet
  doer : MemberID
  opts : Option GameplanOpts

structure TeamState where
  roster : RosterCore
  keyGens : KeyGens
  -- every box handed out since the team was created
  boxes : List (MemberID × RoleKey × Generation)

namespace TeamState

def initial : TeamState := ⟨.newRosterCore, ∅, []⟩

def create (c : Call) : Except CoreError TeamState := do
  let (roster, sched, keyGens) ← gameplan c.changes c.doer none none c.opts
  return ⟨roster, keyGens, sched.boxes⟩

def edit (t : TeamState) (c : Call) : Except CoreError TeamState := do
  let (roster, sched, keyGens) ← gameplan c.changes c.doer (some t.roster) (some t.keyGens) c.opts
  return ⟨roster, keyGens, t.boxes ++ sched.boxes⟩

/-- A creation, then edits. -/
def run (c : Call) (cs : List Call) : Except CoreError TeamState := do
  cs.foldlM edit (← create c)

/-- The team after a plan for the changes `d`; `forced` are the roles that get a key anyway. -/
def after (t : TeamState) (forced : Finset RoleKey) (d : ChangeSet) : TeamState :=
  let plan := t.roster.planChangesLocked d t.keyGens (t.roster.apply d) forced
  ⟨t.roster.apply d, plan.2, t.boxes ++ plan.1.boxes⟩

/-- The abstract state: roles, generations and boxes. -/
def custody (t : TeamState) : Custody.State MemberID RoleKey where
  role m := (t.roster.members.lookup m).map (·.role)
  gen := t.keyGens.lookup
  boxes := {x | x ∈ t.boxes}

variable {t t' : TeamState} {forced : Finset RoleKey} {d : ChangeSet} {m : MemberID} {k : RoleKey}
  {g : Generation}
  {c : Call} {cs : List Call}

theorem sees_iff : Custody.Sees t.custody.role m k ↔ ∃ i, t.roster.members.lookup m = some i ∧ k ≤ i.role := by
  simp [Custody.Sees, custody]

/-- The working schedule behind `after`. -/
def schedule (t : TeamState) (forced : Finset RoleKey) (d : ChangeSet) : WorkingSchedule :=
  t.roster.workingSchedule d t.keyGens (t.roster.apply d) forced

theorem lookup_after_keyGens (t : TeamState) (forced : Finset RoleKey) (d : ChangeSet)
    (k : RoleKey) : (t.after forced d).keyGens.lookup k =
      if k ∈ (t.schedule forced d).includes then some ((t.schedule forced d).postGen t.keyGens k)
      else t.keyGens.lookup k :=
  lookup_keyGensPost _ _ _

theorem mem_after_boxes : (m, k, g) ∈ (t.after forced d).boxes ↔ (m, k, g) ∈ t.boxes ∨
      (k, m) ∈ (t.schedule forced d).rekeys ∧ (t.after forced d).keyGens.lookup k = some g := by
  have hget : ∀ {k}, (k, m) ∈ (t.schedule forced d).rekeys →
      (g = (t.after forced d).keyGens.get k ↔ (t.after forced d).keyGens.lookup k = some g) := by
    intro k hrekey
    have hinc : k ∈ (t.schedule forced d).includes := mem_includes_of_mem_rekeys hrekey
    have hlookup := lookup_after_keyGens t forced d k
    rw [if_pos hinc] at hlookup
    rw [Map.get_of_lookup hlookup, hlookup, some.injEq, eq_comm]
  rw [after, mem_append]
  refine or_congr_right (mem_boxes.trans ?_)
  exact and_congr_right fun hrekey => hget hrekey

/-- A key that is not rotated keeps its generation. -/
theorem lookup_after_of_not_incr (hpre : t.keyGens.lookup k = some g)
    (hincr : k ∉ (t.schedule forced d).incrs) :
    (t.after forced d).keyGens.lookup k = some g := by
  rw [lookup_after_keyGens, postGen_of_lookup hpre, if_neg hincr, hpre, ite_self]

theorem mem_includes_of_mem_incrs (h : k ∈ (t.schedule forced d).incrs) :
    k ∈ (t.schedule forced d).includes := by
  obtain ⟨chng, hmem, hall, hrot, hholders⟩ := mem_incrs.mp h
  exact mem_includes.mpr ⟨chng, hmem, .inr ⟨hall, .inl ⟨hrot, hholders⟩⟩⟩

/-- A rotated key goes up one generation. -/
theorem lookup_after_of_incr (hpre : t.keyGens.lookup k = some g) (hincr : k ∈ (t.schedule forced d).incrs) :
    (t.after forced d).keyGens.lookup k = some (g + 1) := by
  rw [lookup_after_keyGens, postGen_of_lookup hpre, if_pos hincr,
    if_pos (mem_includes_of_mem_incrs hincr)]

/-! ## Coverage -/

/-- A member without a box for a key that it may see has not been passed over: it saw the key
before. -/
theorem sees_of_not_mem_rekeys (hsees : Custody.Sees (t.after forced d).custody.role m k)
    (hall : k ∈ t.keyGens.keys ∪ forced) (hbox : (k, m) ∉ (t.schedule forced d).rekeys) :
    Custody.Sees t.custody.role m k := by
  obtain ⟨i, hi, hle⟩ := sees_iff.mp hsees
  have hi' : (t.roster.apply d).members.lookup m = some i := hi
  rw [lookup_apply] at hi'
  rcases hlast : lastChange d m with _ | chng
  · rw [hlast] at hi'
    exact sees_iff.mpr ⟨i, hi', hle⟩
  obtain ⟨hmem, rfl⟩ := lastChange_eq_some hlast
  have hinfo : chng.info = i := by
    rw [hlast] at hi'
    by_cases hrm : chng.rm <;> simp [hrm] at hi'
    exact hi'
  -- the change would have filled in the key, had the member not seen it
  by_contra hunseen
  refine hbox (mem_rekeys.mpr ⟨chng, hmem, .inr ⟨hall, .inr ⟨⟨?_, ?_⟩, rfl⟩⟩⟩)
  · exact hinfo ▸ hle
  intro e he
  by_contra hlt
  exact hunseen (sees_iff.mpr ⟨e, he, not_lt.mp hlt⟩)

/-- One plan leaves nobody without a key, as long as a role is forced into it only while nobody
could have seen its key before. -/
theorem after_covers (hforced : ∀ k ∈ forced, t.keyGens.lookup k = none →
    ∀ m, t.roster.members.lookup m = none) :
    Custody.Covers t.custody (t.after forced d).custody := by
  refine ⟨fun x hx => mem_after_boxes.mpr (.inl hx), ?_⟩
  intro m k g hsees hgen
  by_cases hbox : (k, m) ∈ (t.schedule forced d).rekeys
  · exact .inl (mem_after_boxes.mpr (.inr ⟨hbox, hgen⟩))
  right
  have hholder : m ∈ (t.roster.apply d).holders k := mem_holders.mpr (sees_iff.mp hsees)
  have hincr : k ∉ (t.schedule forced d).incrs := by
    intro h
    obtain ⟨chng, hmem, hall, hrot, -⟩ := mem_incrs.mp h
    exact hbox (mem_rekeys.mpr ⟨chng, hmem, .inr ⟨hall, .inl ⟨hrot, hholder⟩⟩⟩)
  have hall : k ∈ t.keyGens.keys ∪ forced := by
    by_cases hinc : k ∈ (t.schedule forced d).includes
    · obtain ⟨chng, hmem, hopens | ⟨hall, -⟩⟩ := mem_includes.mp hinc
      · exact absurd (mem_rekeys.mpr ⟨chng, hmem, .inl ⟨hopens, hholder⟩⟩) hbox
      · exact hall
    have hpre := lookup_after_keyGens t forced d k
    rw [if_neg hinc] at hpre
    exact mem_union_left _ (Map.mem_keys_iff.mpr ⟨g, hpre.symm.trans hgen⟩)
  have hbefore := sees_of_not_mem_rekeys hsees hall hbox
  refine ⟨hbefore, ?_⟩
  cases hpre : t.keyGens.lookup k with
  | some g0 =>
    rw [← hgen]
    exact hpre.trans (lookup_after_of_not_incr hpre hincr).symm
  | none =>
    have hk : k ∈ forced := by
      rcases mem_union.mp hall with h | h
      · obtain ⟨v, hv⟩ := Map.mem_keys_iff.mp h
        simp [hpre] at hv
      · exact h
    obtain ⟨e, he, -⟩ := sees_iff.mp hbefore
    simp [hforced k hk hpre m] at he

/-! ## Revocation -/

/-- No key is kept for nobody. -/
def NoNoneKey (t : TeamState) : Prop := t.keyGens.lookup .noneRole = none

/-- A box of a checked plan is for somebody who may see it. -/
theorem sees_of_mem_rekeys (hsound : t.roster.Sound d) (hbox : (k, m) ∈ (t.schedule forced d).rekeys) :
    Custody.Sees (t.after forced d).custody.role m k := by
  rw [sees_iff]
  obtain ⟨chng, hmem, ⟨-, hm⟩ | ⟨-, ⟨-, hm⟩ | ⟨⟨hle, hseen⟩, rfl⟩⟩⟩ := mem_rekeys.mp hbox
  · exact mem_holders.mp hm
  · exact mem_holders.mp hm
  have hrm : ¬ chng.rm := by
    intro hrm
    obtain ⟨e, he⟩ := hsound.removes chng hmem hrm
    have hlt := (hseen e he).trans_le (hle.trans_eq (Change.rm_iff.mp hrm))
    exact absurd hlt (not_lt.mpr (RoleKey.noneRole_le e.role))
  refine ⟨chng.info, ?_, hle⟩
  change (t.roster.apply d).members.lookup chng.member = some chng.info
  rw [lookup_apply, lastChange_of_mem hsound.nodup hmem]
  simp [hrm]

/-- A key that a member may see no longer is rotated by the change that took it away. -/
theorem mem_incrs_of_revoked (hnone : t.NoNoneKey) (howner : (t.roster.apply d).hasOwnerLocked)
    (hsees : Custody.Sees t.custody.role m k)
    (hlost : ¬ Custody.Sees (t.after forced d).custody.role m k)
    (hgen : t.keyGens.lookup k = some g) : k ∈ (t.schedule forced d).incrs := by
  obtain ⟨e, he, hle⟩ := sees_iff.mp hsees
  have hlookup : (t.after forced d).roster.members.lookup m = (t.roster.apply d).members.lookup m := rfl
  rw [lookup_apply] at hlookup
  rcases hlast : lastChange d m with _ | chng
  · rw [hlast] at hlookup
    exact absurd (sees_iff.mpr ⟨e, hlookup.trans he, hle⟩) hlost
  obtain ⟨hmem, rfl⟩ := lastChange_eq_some hlast
  rw [hlast] at hlookup
  have hlt : chng.info.role < k := by
    by_cases hrm : chng.rm
    · rw [Change.rm_iff.mp hrm]
      refine lt_of_le_of_ne (RoleKey.noneRole_le k) ?_
      rintro rfl
      simp [NoNoneKey, hgen] at hnone
    by_contra hge
    refine hlost (sees_iff.mpr ⟨chng.info, ?_, not_lt.mp hge⟩)
    simpa [hrm] using hlookup
  refine mem_incrs.mpr ⟨chng, hmem, ?_, ?_, holders_nonempty howner k⟩
  · exact mem_union_left _ (Map.mem_keys_iff.mpr ⟨g, hgen⟩)
  · exact ⟨e, he, .inl (hlt.trans_le hle), hle, fun _ => hlt⟩

/-- One checked plan that leaves an owner revokes what it takes away. -/
theorem after_revokes (hsound : t.roster.Sound d) (hnone : t.NoNoneKey)
    (howner : (t.roster.apply d).hasOwnerLocked) :
    Custody.Revokes t.custody (t.after forced d).custody := by
  refine ⟨?_, ?_, ?_⟩
  · intro m k g hbox
    rcases mem_after_boxes.mp hbox with hold | ⟨hnew, hgen⟩
    · exact .inl hold
    · exact .inr ⟨hgen, sees_of_mem_rekeys hsound hnew⟩
  · intro k g hgen
    by_cases hincr : k ∈ (t.schedule forced d).incrs
    · exact ⟨g + 1, lookup_after_of_incr hgen hincr, Nat.le_succ g⟩
    · exact ⟨g, lookup_after_of_not_incr hgen hincr, le_refl g⟩
  intro m k g hsees hlost hgen hcur
  have hincr := mem_incrs_of_revoked hnone howner hsees hlost hgen
  have hnext := lookup_after_of_incr hgen hincr
  exact absurd (mem_unique hnext hcur) (Nat.succ_ne_self g)

theorem noNoneKey_after (hnone : t.NoNoneKey) (hforced : RoleKey.noneRole ∉ forced) :
    (t.after forced d).NoNoneKey := by
  rw [NoNoneKey, lookup_after_keyGens, if_neg, hnone]
  intro hinc
  obtain ⟨chng, -, ⟨-, hrm, hrole⟩ | ⟨hall, -⟩⟩ := mem_includes.mp hinc
  · exact hrm (Change.rm_iff.mpr hrole.symm)
  rcases mem_union.mp hall with h | h
  · obtain ⟨v, hv⟩ := Map.mem_keys_iff.mp h
    simp [NoNoneKey, hv] at hnone
  · exact hforced h

/-! ## Runs -/

theorem create_eq_ok (h : create c = .ok t) : ((c.opts.all fun o => !o.testingNoCheck) →
      newRosterCore.checkChangesLocked c.doer c.changes true c.opts = .ok ()) ∧
    t = initial.after forcedNewKeyGens c.changes := by
  obtain ⟨⟨roster, sched, keyGens⟩, hplan, hres⟩ := bind_eq_ok.mp h
  obtain ⟨hcheck, -, hval⟩ := gameplan_eq_ok hplan
  obtain ⟨rfl, rfl, rfl⟩ := by simpa using hval
  exact ⟨hcheck, (ok.inj hres).symm⟩

theorem edit_eq_ok (h : t.edit c = .ok t') : ((c.opts.all fun o => !o.testingNoCheck) →
      t.roster.checkChangesLocked c.doer c.changes false c.opts = .ok ()) ∧
    (c.opts.any (·.requireOwner) → t.roster.hasOwnerLocked → (t.roster.apply c.changes).hasOwnerLocked) ∧
    t' = t.after ∅ c.changes := by
  obtain ⟨⟨roster, sched, keyGens⟩, hplan, hres⟩ := bind_eq_ok.mp h
  obtain ⟨hcheck, howner, hval⟩ := gameplan_eq_ok hplan
  obtain ⟨rfl, rfl, rfl⟩ := by simpa using hval
  exact ⟨hcheck, howner, (ok.inj hres).symm⟩

/-- What creation establishes and what every edit keeps, a run has at its end. -/
theorem run_invariant {P : TeamState → Prop} (hrun : run c cs = .ok t) (hcreate : ∀ t, create c = .ok t → P t)
    (hedit : ∀ e ∈ cs, ∀ t t', t.edit e = .ok t' → P t → P t') : P t := by
  obtain ⟨t0, hfirst, hrest⟩ := bind_eq_ok.mp hrun
  exact foldlM_invariant hedit hrest (hcreate t0 hfirst)

theorem covered_run (hrun : run c cs = .ok t) : Custody.Covered t.custody := by
  refine run_invariant (P := fun t => Custody.Covered t.custody) hrun (fun t hcreate => ?_)
    (fun e _ t t' hedit ht => ?_)
  · rw [(create_eq_ok hcreate).2]
    refine (after_covers fun k _ _ m => rfl).covered ?_
    intro m k g hsees
    obtain ⟨i, hi, -⟩ := sees_iff.mp hsees
    exact absurd hi (by simp [initial, newRosterCore])
  · rw [(edit_eq_ok hedit).2.2]
    exact (after_covers (by simp)).covered ht

/-- What the checks keep of a team besides the custody of its keys. -/
structure Guarded (t : TeamState) : Prop where
  confined : Custody.Confined t.custody
  noNoneKey : t.NoNoneKey
  owner : t.roster.hasOwnerLocked

theorem guarded_create (hchecked : c.opts.all fun o => !o.testingNoCheck) (h : create c = .ok t) :
    t.Guarded := by
  obtain ⟨hcheck, rfl⟩ := create_eq_ok h
  have howner := hasOwnerLocked_of_create (hcheck hchecked)
  have hnone : initial.NoNoneKey := rfl
  refine ⟨Custody.Revokes.confined (s := initial.custody) ?_ ⟨?_, ?_⟩, ?_, howner⟩
  · exact after_revokes (sound_of_checkChangesLocked (hcheck hchecked)) hnone howner
  · exact fun m k g hbox => absurd hbox not_mem_nil
  · exact fun m k g hbox => absurd hbox not_mem_nil
  · exact noNoneKey_after hnone (by decide)

theorem guarded_edit (hchecked : c.opts.all fun o => !o.testingNoCheck)
    (hreq : c.opts.any (·.requireOwner)) (h : t.edit c = .ok t') (ht : t.Guarded) :
    t'.Guarded := by
  obtain ⟨hcheck, hkeeps, rfl⟩ := edit_eq_ok h
  have howner := hkeeps hreq ht.owner
  refine ⟨Custody.Revokes.confined ?_ ht.confined, ?_, howner⟩
  · exact after_revokes (sound_of_checkChangesLocked (hcheck hchecked)) ht.noNoneKey howner
  · exact noNoneKey_after ht.noNoneKey (notMem_empty _)

end TeamState

section Main

variable {c : Call} {cs : List Call} {t : TeamState} {m : MemberID} {k : RoleKey} {g : Generation}

open TeamState

/-- **Box coverage.** After any run, every member has been boxed the current key of every role
up to its own. -/
theorem boxed_current_key (hrun : TeamState.run c cs = .ok t) {i : MemberInfo}
    (hm : t.roster.members.lookup m = some i) (hgen : t.keyGens.lookup k = some g)
    (hle : k ≤ i.role) : (m, k, g) ∈ t.boxes :=
  covered_run hrun m k g (sees_iff.mpr ⟨i, hm, hle⟩) hgen

/-- **Revocation.** After any run of checked calls that keep an owner, whoever has been boxed the
current key of a role is a member of at least that role. -/
theorem current_box_below_role (hchecked : ∀ e ∈ c :: cs, e.opts.all fun o => !o.testingNoCheck)
    (hreq : ∀ e ∈ cs, e.opts.any (·.requireOwner)) (hrun : TeamState.run c cs = .ok t)
    (hbox : (m, k, g) ∈ t.boxes) (hgen : t.keyGens.lookup k = some g) :
    ∃ i, t.roster.members.lookup m = some i ∧ k ≤ i.role := by
  have hguarded : t.Guarded := by
    refine run_invariant hrun (fun t hcreate => ?_) (fun e he t t' hedit ht => ?_)
    · exact guarded_create (hchecked c mem_cons_self) hcreate
    · exact guarded_edit (hchecked e (mem_cons_of_mem c he)) (hreq e he) hedit ht
  exact sees_iff.mp (hguarded.confined.sees m k g hbox hgen)

end Main

/-! ## A run with a removal -/

section Example

def alice : MemberID := ⟨⟨1, 1⟩, .ownerRole⟩

def bob : MemberID := ⟨⟨1, 2⟩, .ownerRole⟩

/-- Alice creates a team with Bob as an admin. -/
def founding : Call where
  changes := [⟨alice, ⟨.ownerRole, 1, 1, 0⟩⟩, ⟨bob, ⟨.adminRole, 1, 1, 0⟩⟩]
  doer := alice
  opts := none

/-- Alice removes Bob. -/
def dismissal : Call where
  changes := [⟨bob, ⟨.noneRole, 0, 2, 0⟩⟩]
  doer := alice
  opts := some { requireOwner := true }

theorem run_dismissal : ∃ t, TeamState.run founding [dismissal] = .ok t ∧
    t.keyGens.lookup .adminRole = some 2 ∧ (bob, .adminRole, 1) ∈ t.boxes ∧
    (alice, .adminRole, 2) ∈ t.boxes ∧
    t.roster.members.lookup alice = some ⟨.ownerRole, 1, 1, 0⟩ := by
  have hrun : (TeamState.run founding [dismissal]).toOption.map (fun t => decide (
      t.keyGens.lookup .adminRole = some 2 ∧ (bob, .adminRole, 1) ∈ t.boxes ∧
      (alice, .adminRole, 2) ∈ t.boxes ∧
      t.roster.members.lookup alice = some ⟨.ownerRole, 1, 1, 0⟩)) = some true := by
    decide +kernel
  obtain ⟨t, ht, hval⟩ := exists_of_map_toOption hrun
  exact ⟨t, ht, of_decide_eq_true hval⟩

theorem current_box_below_role_dismissal :
    ∃ t i, TeamState.run founding [dismissal] = .ok t ∧ (alice, .adminRole, 2) ∈ t.boxes ∧
      t.keyGens.lookup .adminRole = some 2 ∧
      t.roster.members.lookup alice = some i ∧ .adminRole ≤ i.role := by
  obtain ⟨t, hrun, hgen, -, hbox, -⟩ := run_dismissal
  obtain ⟨i, hi, hle⟩ := current_box_below_role (by decide) (by decide) hrun hbox hgen
  exact ⟨t, i, hrun, hbox, hgen, hi, hle⟩

theorem boxed_current_key_dismissal :
    ∃ t, TeamState.run founding [dismissal] = .ok t ∧
      t.roster.members.lookup alice = some ⟨.ownerRole, 1, 1, 0⟩ ∧
      t.keyGens.lookup .adminRole = some 2 ∧ (alice, .adminRole, 2) ∈ t.boxes := by
  obtain ⟨t, hrun, hgen, -, -, halice⟩ := run_dismissal
  exact ⟨t, hrun, halice, hgen, boxed_current_key hrun halice hgen (RoleKey.le_ownerRole _)⟩

end Example

/-! ## Members with a new key -/

section Rekey

variable {d : ChangeSet} {doer : MemberID} {rPre : Option RosterCore} {keysPre : Option KeyGens}
  {opts : Option GameplanOpts} {rPost : RosterCore} {sched : KeySchedule} {keysPost : KeyGens} {k : RoleKey}
  {g : Generation}

/-- A key goes up one generation if a change rotates it and someone is left to hold it. -/
theorem gameplan_rotates_iff (h : gameplan d doer rPre keysPre opts = .ok (rPost, sched, keysPost))
    (hgen : (keysPre.getD ∅).lookup k = some g) : keysPost.lookup k = some (g + 1) ↔
      (∃ chng ∈ d, Rotates (rPre.getD .newRosterCore) chng k) ∧
        (((rPre.getD .newRosterCore).apply d).holders k).Nonempty := by
  obtain ⟨-, -, hres⟩ := gameplan_eq_ok h
  obtain ⟨-, hplan⟩ := Prod.mk.inj hres
  generalize rPre.getD .newRosterCore = r, keysPre.getD ∅ = keys,
    (if rPre.isNone then forcedNewKeyGens else ∅) = forced at *
  let t : TeamState := ⟨r, keys, []⟩
  obtain rfl : keysPost = (t.after forced d).keyGens := congrArg Prod.snd hplan
  have hall : k ∈ keys.keys ∪ forced := mem_union_left _ (Map.mem_keys_iff.mpr ⟨g, hgen⟩)
  by_cases hincr : k ∈ (t.schedule forced d).incrs
  · obtain ⟨chng, hmem, -, hrot, hheld⟩ := mem_incrs.mp hincr
    exact iff_of_true (TeamState.lookup_after_of_incr hgen hincr) ⟨⟨chng, hmem, hrot⟩, hheld⟩
  have hsame := TeamState.lookup_after_of_not_incr hgen hincr
  refine iff_of_false (fun hnext => Nat.succ_ne_self g (mem_unique hnext hsame)) ?_
  rintro ⟨⟨chng, hmem, hrot⟩, hheld⟩
  exact hincr (mem_incrs.mpr ⟨chng, hmem, hall, hrot, hheld⟩)

/-- The change keeps its member, of whom the roster has `e`, and brings a newer key of it. -/
structure Rekeys (r : RosterCore) (chng : Change) (e : MemberInfo) : Prop where
  existing : r.members.lookup chng.member = some e
  stays : ¬ chng.rm
  newer : e.gen < chng.info.gen

/-- **Rotation with a member's key.** A newer key of a member rotates the keys that the member has
seen, unless the same change promotes the member or nobody is left to hold the key. A promotion
rotates nothing itself, so that another change of the set has to. -/
theorem rekey_rotates_iff (h : gameplan d doer rPre keysPre opts = .ok (rPost, sched, keysPost)) :
    (∀ chng ∈ d, ∀ e, Rekeys (rPre.getD .newRosterCore) chng e → ∀ k g, (keysPre.getD ∅).lookup k = some g →
      k ≤ e.role → keysPost.lookup k = some (g + 1)) ↔
    ∀ chng ∈ d, ∀ e, Rekeys (rPre.getD .newRosterCore) chng e → ∀ k ∈ (keysPre.getD ∅).keys, k ≤ e.role →
      (e.role < chng.info.role → ∃ chng ∈ d, Rotates (rPre.getD .newRosterCore) chng k) ∧
        (((rPre.getD .newRosterCore).apply d).holders k).Nonempty := by
  constructor
  · intro hall chng hmem e he k hk hle
    obtain ⟨g, hgen⟩ := Map.mem_keys_iff.mp hk
    obtain ⟨hrot, hheld⟩ := (gameplan_rotates_iff h hgen).mp (hall chng hmem e he k g hgen hle)
    exact ⟨fun _ => hrot, hheld⟩
  · intro hall chng hmem e he k g hgen hle
    obtain ⟨hpromoted, hheld⟩ := hall chng hmem e he k (Map.mem_keys_iff.mpr ⟨g, hgen⟩) hle
    refine (gameplan_rotates_iff h hgen).mpr ⟨?_, hheld⟩
    rcases lt_or_ge e.role chng.info.role with hup | hdown
    · exact hpromoted hup
    -- no promotion: the change rotates all that the member has seen
    have hcmp : chng.info.role < e.role ∨ e.role = chng.info.role ∧ e.gen < chng.info.gen :=
      hdown.lt_or_eq.imp id fun heq => ⟨heq.symm, he.newer⟩
    exact ⟨chng, hmem, e, he.existing, hcmp, hle, fun heq => absurd heq he.newer.ne⟩

/-- Alice as the owner and Bob as a member, each with a first key. -/
def paired : RosterCore :=
  newRosterCore.apply [⟨alice, ⟨.ownerRole, 1, 1, 0⟩⟩, ⟨bob, ⟨.memberRole, 1, 1, 0⟩⟩]

def pairedKeys : KeyGens := ((∅ : KeyGens).insert .ownerRole 1).insert .memberRole 1

/-- Bob gets a role and a second key. -/
def renewal (role : RoleKey) : ChangeSet := [⟨bob, ⟨role, 2, 2, 0⟩⟩]

theorem rekeys_renewal {role : RoleKey} (hrole : role ≠ .noneRole) :
    Rekeys paired ⟨bob, ⟨role, 2, 2, 0⟩⟩ ⟨.memberRole, 1, 1, 0⟩ := by
  have hbob : paired.members.lookup bob = some ⟨.memberRole, 1, 1, 0⟩ := by decide +kernel
  exact ⟨hbob, fun hrm => hrole (Change.rm_iff.mp hrm), Nat.lt_succ_self 1⟩

theorem rekey_rotates_iff_renewal : ∃ res,
    gameplan (renewal .memberRole) alice (some paired) (some pairedKeys) none = .ok res ∧
      res.2.2.lookup .memberRole = some 2 := by
  obtain ⟨res, hplan, -⟩ := exists_of_map_toOption (f := fun _ => ()) (b := ())
    (x := gameplan (renewal .memberRole) alice (some paired) (some pairedKeys) none) (by decide +kernel)
  refine ⟨res, hplan, (rekey_rotates_iff hplan).mpr (fun chng hmem e he k _ _ =>
    ⟨fun hup => ?_, ?_⟩) _ mem_cons_self _
    (rekeys_renewal (by decide)) _ 1 (by decide +kernel) le_rfl⟩
  · obtain rfl := List.mem_singleton.mp hmem
    obtain rfl := mem_unique he.existing ((rekeys_renewal (by decide)).existing)
    exact absurd hup (lt_irrefl _)
  · exact holders_nonempty (by decide +kernel) k

/-- Bob is promoted and brings a new key: whoever has the old one keeps the current member key. -/
theorem promotion_keeps_key : ∃ res,
    gameplan (renewal .adminRole) alice (some paired) (some pairedKeys) none = .ok res ∧
      Rekeys paired ⟨bob, ⟨.adminRole, 2, 2, 0⟩⟩ ⟨.memberRole, 1, 1, 0⟩ ∧
      pairedKeys.lookup .memberRole = some 1 ∧ res.2.2.lookup .memberRole = some 1 := by
  obtain ⟨res, hplan, hkeeps⟩ := exists_of_map_toOption (f := fun res => res.2.2.lookup .memberRole)
    (b := some 1)
    (x := gameplan (renewal .adminRole) alice (some paired) (some pairedKeys) none) (by decide +kernel)
  exact ⟨res, hplan, rekeys_renewal (by decide), by decide +kernel, hkeeps⟩

end Rekey

end Foks.Team
