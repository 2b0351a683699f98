import Foks.Client.TeamChain

/-!
# Keys of members that were removed

A roster has an entry for a member that was removed: the key of the map is there, and the pointer to
the keys is nil. Here is said exactly when opening a link of a team dereferences such a pointer, for
each roster that a chain of links leads to.
-/

namespace Foks.Client

open Lib Merkle LinkFormat List Except Option Prod
open Team (MemberID Change ChangeSet RosterCore KeyGens KeySchedule GameplanOpts MemberRoleSeqno TeamMemberKeys
  MemberKeysSet verifyKeyToIndex makeChange checkIndex addTeamMemberKeys makeChangesFrom makeChangeSet)

/-! ## Errors -/

section Errors

/-- An error that is returned. -/
def Returned (e : CoreError) : Prop := e ≠ nilPointer

theorem rosterError_ne (desc : String) : Returned (.teamRosterError desc) := nofun

theorem returned_then {c : Prop} [Decidable c] {desc : String} {α : Type} {x : Unit → Except CoreError α}
    (h : ErrorsIn Returned (x ())) : ErrorsIn Returned (refuse c (.teamRosterError desc) >>= x) :=
  .bind (.refuse (rosterError_ne desc)) fun _ _ => h

theorem errorsIn_checkNoDuplicates (found : Finset MemberID) (changes : ChangeSet) :
    ErrorsIn Returned (RosterCore.checkNoDuplicates found changes) := by
  induction changes generalizing found with
  | nil => exact .ok ()
  | cons chng changes ih => exact returned_then (ih _)

variable (r : RosterCore) (doer : MemberID)

theorem errorsIn_delegatedChangeAllowed (chng : Change) :
    ErrorsIn Returned (r.delegatedChangeAllowed doer chng) := by
  refine returned_then ?_
  split
  · split
    · exact .error (rosterError_ne _)
    · exact .refuse (rosterError_ne _)
  · exact returned_then (.refuse (rosterError_ne _))

theorem errorsIn_delegatedChangesAllowed (opts : Option GameplanOpts)
    (info : Team.MemberInfo) (doer : MemberID) (changes : ChangeSet) :
    ErrorsIn Returned (r.delegatedChangesAllowedLocked opts info doer changes) := by
  unfold RosterCore.delegatedChangesAllowedLocked
  split
  · exact .error (rosterError_ne _)
  refine returned_then (returned_then ?_)
  refine returned_then (.forM fun chng _ => ?_)
  exact errorsIn_delegatedChangeAllowed r doer chng

variable (changes : ChangeSet)

theorem errorsIn_doerInfo (create : Bool)
    (opts : Option GameplanOpts) : ErrorsIn Returned (r.doerInfo doer changes create opts) := by
  unfold RosterCore.doerInfo
  split
  · refine returned_then ?_
    split
    · exact .error (rosterError_ne _)
    · exact .ok _
  split
  · exact .error (rosterError_ne _)
  split
  · exact .bind (errorsIn_delegatedChangesAllowed r opts _ doer changes) fun _ _ => .ok _
  · exact .ok _

theorem errorsIn_checkChangesLocked (create : Bool) (opts : Option GameplanOpts) :
    ErrorsIn Returned (r.checkChangesLocked doer changes create opts) := by
  refine .bind (errorsIn_checkNoDuplicates ∅ changes) fun _ _ => ?_
  refine .bind (errorsIn_doerInfo r doer changes create opts) fun info _ => ?_
  refine .bind (.forM fun chng _ => ?_) fun _ _ => .bind (.forM fun chng _ => ?_) fun _ _ => ?_
  · exact returned_then (.refuse (rosterError_ne _))
  · exact .refuse (rosterError_ne _)
  · refine .forM fun chng _ => returned_then (returned_then ?_)
    refine returned_then (returned_then (.refuse (rosterError_ne _)))

/-- The plan for a change set does not look at the keys of members. -/
theorem errorsIn_gameplan (doer : MemberID) (rPre : Option RosterCore)
    (keysPre : Option KeyGens) (opts : Option GameplanOpts) :
    ErrorsIn Returned (Team.gameplan changes doer rPre keysPre opts) := by
  refine returned_then ?_
  split
  · refine .bind (errorsIn_checkChangesLocked _ doer changes _ opts) fun _ _ => ?_
    exact returned_then (.ok _)
  · exact returned_then (.ok _)

theorem errorsIn_importRole (r : Role) : ErrorsIn Returned (importRole r) := by
  intro e he
  unfold importRole validate at he
  split at he <;> split at he <;> cases he <;> rintro ⟨⟩

theorem errorsIn_verifyKeyToIndex (v : EntityID) : ErrorsIn Returned (verifyKeyToIndex v) :=
  .bind (.refuse nofun) fun _ _ => .bind (.refuse nofun) fun _ _ => .refuse nofun

end Errors

variable {H : Type}

/-! ## What a list of changes says about a member -/

section Standing

/-- What is known of a member after a change: it has keys, or it was removed. -/
def standingAfter (m : MemberID) (before : Option Bool) (x : HostID × MemberRoleSeqno H) : Option Bool :=
  match makeChange x.1 x.2 with
  | .ok (chng, keys) => if chng.member = m then some keys.isSome else before
  | .error _ => before

/-- What is known of a member after some changes: nothing, that it has keys, or that it was removed
last. -/
def standing (m : MemberID) (hist : List (HostID × MemberRoleSeqno H)) : Option Bool :=
  hist.foldl (standingAfter m) none

variable (mh : HostID) (known : MemberID → Option Bool) (x : MemberRoleSeqno H)

/-- A change that says what it must say, with a key that has a place in the index. -/
def Accepted : Prop :=
  ∃ chng keys, makeChange mh x = .ok (chng, keys) ∧ ∀ k ∈ keys, verifyKeyToIndex k.verifyKey = .ok ()

/-- A change with an ID that is too long, or one that removes a member that was removed. -/
def NilChange : Prop :=
  makeChange mh x = .error nilPointer ∨ ∃ chng, makeChange mh x = .ok (chng, none) ∧
    known chng.member = some false

variable (v : List (MemberRoleSeqno H))

/-- Changes of which one is such a change, after others that are accepted. -/
def NilFrom : Prop :=
  ∃ q x post, v = q ++ x :: post ∧ (∀ y ∈ q, Accepted mh y) ∧
    NilChange mh (fun m => (q.map (mk mh)).foldl (standingAfter m) (known m)) x

/-- Changes that lead to a nil pointer: nothing is known of the members before them. -/
def NilInChanges : Prop := NilFrom mh (fun _ => none) v

theorem nilFrom_nil : ¬ NilFrom mh known ([] : List (MemberRoleSeqno H)) := by
  rintro ⟨q, x, post, h, -⟩
  cases q <;> cases h

theorem nilFrom_cons {mh : HostID} {known : MemberID → Option Bool} {x : MemberRoleSeqno H}
    {v : List (MemberRoleSeqno H)} :
    NilFrom mh known (x :: v) ↔ NilChange mh known x ∨
      Accepted mh x ∧ NilFrom mh (fun m => standingAfter m (known m) (mh, x)) v := by
  constructor
  · rintro ⟨q, x', post, h, hacc, hnil⟩
    cases q with
    | nil =>
      obtain ⟨rfl, -⟩ := List.cons.inj h
      exact .inl hnil
    | cons y q =>
      obtain ⟨rfl, rfl⟩ := List.cons.inj h
      refine .inr ⟨hacc x mem_cons_self, q, x', post, rfl, ?_, hnil⟩
      exact fun y hy => hacc y (mem_cons_of_mem x hy)
  · rintro (hnil | ⟨hx, q, x', post, rfl, hacc, hnil⟩)
    · exact ⟨[], x, v, rfl, fun y hy => absurd hy not_mem_nil, hnil⟩
    refine ⟨x :: q, x', post, rfl, fun y hy => ?_, hnil⟩
    rcases mem_cons.mp hy with rfl | hy
    · exact hx
    · exact hacc y hy

end Standing

/-! ## The keys of the members in a change set -/

section Keys

/-- What a set of keys knows of a member. -/
def entry (a : MemberKeysSet H) (m : MemberID) : Option Bool := (a.lookup m).map Option.isSome

/-- All keys of the set have a place in the index. -/
def Indexed (a : MemberKeysSet H) : Prop :=
  ∀ m k, a.lookup m = some (some k) → verifyKeyToIndex k.verifyKey = .ok ()

theorem entry_insert (a : MemberKeysSet H) (m m' : MemberID) (d : Option (TeamMemberKeys H)) :
    entry (a.insert m d) m' = if m = m' then some d.isSome else entry a m' := by
  unfold entry
  rw [Map.lookup_insert_ite]
  split <;> rfl

/-- Keys are added unless the key has no place in the index, or the member was removed before. -/
theorem addTeamMemberKeys_cases (ha : Indexed a) (m : MemberID) (d : Option (TeamMemberKeys H)) :
    (∃ k e, d = some k ∧ verifyKeyToIndex k.verifyKey = .error e ∧ Returned e ∧
      addTeamMemberKeys a m d = .error e) ∨
      (d = none ∧ entry a m = some false ∧ addTeamMemberKeys a m d = .error nilPointer) ∨
      ((∀ k ∈ d, verifyKeyToIndex k.verifyKey = .ok ()) ∧ ¬ (d = none ∧ entry a m = some false) ∧
        addTeamMemberKeys a m d = .ok (a.insert m d) ∧ Indexed (a.insert m d)) := by
  have hinsert : (∀ k ∈ d, verifyKeyToIndex k.verifyKey = .ok ()) → Indexed (a.insert m d) := by
    intro hd m' k hk
    obtain ⟨rfl, rfl⟩ | ⟨-, hk⟩ := Map.lookup_insert_cases hk
    · exact hd k rfl
    · exact ha m' k hk
  cases d with
  | some k =>
    rcases hk : verifyKeyToIndex k.verifyKey with e | v
    · refine .inl ⟨k, e, rfl, hk, errorsIn_verifyKeyToIndex _ e hk, ?_⟩
      exact bind_eq_error.mpr (.inl hk)
    have hkeys : ∀ k' ∈ some k, verifyKeyToIndex k'.verifyKey = .ok () := by
      rintro k' ⟨⟩
      exact hk
    exact .inr (.inr ⟨hkeys, nofun, bind_eq_ok.mpr ⟨(), hk, rfl⟩, hinsert hkeys⟩)
  | none =>
    rcases hm : a.lookup m with - | (- | prev)
    · refine .inr (.inr ⟨nofun, ?_, bind_eq_ok.mpr ⟨(), ?_, rfl⟩, hinsert nofun⟩)
      · rw [entry, hm]
        nofun
      unfold checkIndex
      rw [hm]
      rfl
    · refine .inr (.inl ⟨rfl, by rw [entry, hm]; rfl, bind_eq_error.mpr (.inl ?_)⟩)
      unfold checkIndex
      rw [hm]
    -- the keys from before have a place in the index
    refine .inr (.inr ⟨nofun, ?_, bind_eq_ok.mpr ⟨(), ?_, rfl⟩, hinsert nofun⟩)
    · rw [entry, hm]
      nofun
    unfold checkIndex
    rw [hm]
    exact ha m prev hm

theorem indexed_empty : Indexed (∅ : MemberKeysSet H) := by
  intro m k hk
  rw [Finmap.lookup_empty] at hk
  cases hk

variable {a : MemberKeysSet H} {mh : HostID} {v : List (MemberRoleSeqno H)}

/-- The loop over the changes: the entries follow the changes, and the loop stops at a nil pointer as
the changes say. -/
theorem makeChangesFrom_cases (ha : Indexed a) (v : List (MemberRoleSeqno H)) :
    (∀ changes a', makeChangesFrom mh a v = .ok (changes, a') → (∀ y ∈ v, Accepted mh y) ∧
      ∀ m, entry a' m = (v.map (mk mh)).foldl (standingAfter m) (entry a m)) ∧
    (makeChangesFrom mh a v = .error nilPointer ↔ NilFrom mh (entry a) v) ∧
    ((∀ y ∈ v, Accepted mh y) → ¬ NilFrom mh (entry a) v → ∃ out, makeChangesFrom mh a v = .ok out) := by
  induction v generalizing a with
  | nil =>
    refine ⟨?_, ⟨nofun, fun h => absurd h (nilFrom_nil mh _)⟩, fun _ _ => ⟨_, rfl⟩⟩
    rintro changes a' ⟨⟩
    exact ⟨fun y hy => absurd hy not_mem_nil, fun _ => rfl⟩
  | cons x v ih =>
    rw [nilFrom_cons]
    unfold makeChangesFrom
    dsimp only [bind, Except.bind]
    cases hx : makeChange mh x with
    | error e =>
      have hnot : ¬ Accepted mh x := by
        rintro ⟨chng, keys, hok, -⟩
        rw [hx] at hok
        cases hok
      refine ⟨nofun, ⟨fun h => ?_, ?_⟩, fun hall => absurd (hall x mem_cons_self) hnot⟩
      · rw [error.inj h] at hx
        exact .inl (.inl hx)
      rintro ((hnil | ⟨chng, hok, -⟩) | ⟨hacc, -⟩)
      · rw [error.inj (hx.symm.trans hnil)]
      · rw [hx] at hok
        cases hok
      · exact absurd hacc hnot
    | ok out =>
      obtain ⟨chng, keys⟩ := out
      have hnil : NilChange mh (entry a) x ↔ keys = none ∧ entry a chng.member = some false := by
        constructor
        · rintro (hnil | ⟨chng', hok, hentry⟩)
          · rw [hx] at hnil
            cases hnil
          · obtain ⟨rfl, rfl⟩ := mk.inj (ok_unique hx hok)
            exact ⟨rfl, hentry⟩
        · rintro ⟨rfl, hentry⟩
          exact .inr ⟨chng, hx, hentry⟩
      have hacc : Accepted mh x ↔ ∀ k ∈ keys, verifyKeyToIndex k.verifyKey = .ok () := by
        constructor
        · rintro ⟨chng', keys', hok, hkeys⟩
          obtain ⟨rfl, rfl⟩ := mk.inj (ok_unique hx hok)
          exact hkeys
        · exact fun hkeys => ⟨chng, keys, hx, hkeys⟩
      dsimp only
      rcases addTeamMemberKeys_cases ha chng.member keys with
        ⟨k, e, rfl, hk, he, hadd⟩ | ⟨rfl, hentry, hadd⟩ | ⟨hkeys, hnot, hadd, hindexed⟩
      · -- the key has no place in the index
        have hnot : ¬ Accepted mh x := fun h => by
          rw [hacc.mp h k rfl] at hk
          cases hk
        rw [hadd]
        refine ⟨nofun, ⟨fun h => absurd (error.inj h) he, ?_⟩, fun hall => absurd (hall x mem_cons_self) hnot⟩
        rintro (h | ⟨h, -⟩)
        · exact nomatch (hnil.mp h).1
        · exact absurd h hnot
      · -- the member was removed before
        rw [hadd]
        have hx' : NilChange mh (entry a) x := hnil.mpr ⟨rfl, hentry⟩
        exact ⟨nofun, iff_of_true rfl (.inl hx'), fun _ h => absurd (.inl hx') h⟩
      rw [hadd]
      obtain ⟨hok, herror, hall⟩ := ih hindexed
      have hentries : entry (a.insert chng.member keys) = fun m => standingAfter m (entry a m) (mh, x) := by
        funext m
        rw [entry_insert, standingAfter, hx]
      rw [hentries] at hok herror hall
      have hx' : Accepted mh x := hacc.mpr hkeys
      have hfrom : NilChange mh (entry a) x ∨ Accepted mh x ∧
          NilFrom mh (fun m => standingAfter m (entry a m) (mh, x)) v ↔
          NilFrom mh (fun m => standingAfter m (entry a m) (mh, x)) v := by tauto
      rw [hfrom]
      dsimp only
      cases hrest : makeChangesFrom mh (a.insert chng.member keys) v with
      | error e =>
        rw [hrest] at herror hall
        refine ⟨nofun, herror, fun hacc' hno => ?_⟩
        obtain ⟨out, hout⟩ := hall (fun y hy => hacc' y (mem_cons_of_mem x hy)) hno
        cases hout
      | ok out =>
        rw [hrest] at herror
        refine ⟨?_, ⟨nofun, fun h => nomatch herror.mpr h⟩, fun _ _ => ⟨_, rfl⟩⟩
        rintro changes' a'' ⟨⟩
        obtain ⟨haccepted, hentry⟩ := hok _ _ hrest
        refine ⟨fun y hy => ?_, hentry⟩
        rcases mem_cons.mp hy with rfl | hy
        · exact hx'
        · exact haccepted y hy

theorem makeChangeSet_eq_nilPointer : makeChangeSet mh v = .error nilPointer ↔ NilInChanges mh v :=
  (makeChangesFrom_cases indexed_empty v).2.1

theorem makeChangeSet_isOk :
    (∃ out, makeChangeSet mh v = .ok out) ↔ (∀ y ∈ v, Accepted mh y) ∧ ¬ NilInChanges mh v := by
  constructor
  · rintro ⟨⟨changes, a⟩, hout⟩
    refine ⟨((makeChangesFrom_cases indexed_empty v).1 changes a hout).1, fun hnil => ?_⟩
    rw [makeChangeSet_eq_nilPointer.mpr hnil] at hout
    cases hout
  · rintro ⟨hacc, hnil⟩
    exact (makeChangesFrom_cases indexed_empty v).2.2 hacc hnil

theorem entry_of_makeChangeSet {changes : ChangeSet} (h : makeChangeSet mh v = .ok (changes, a))
    (m : MemberID) :
    entry a m = standing m (v.map (mk mh)) :=
  ((makeChangesFrom_cases indexed_empty v).1 changes a h).2 m

end Keys

/-! ## Rosters -/

section Rosters

/-- The changes in all links that lead to a roster, from no roster on. -/
inductive Reached : List (HostID × MemberRoleSeqno H) → Roster H → Prop
  | nil : Reached [] {}
  | gameplan {hist : List (HostID × MemberRoleSeqno H)} {r r' : Roster H} {sched : KeySchedule}
      (h : Reached hist r) (doerKO : KeyOwner) (host : HostID) (v : List (MemberRoleSeqno H))
      (verifyKey : Option EntityID) (opts : GameplanOpts)
      (hplan : r.gameplan doerKO host v verifyKey opts = .ok (r', sched)) :
      Reached (hist ++ v.map (mk host)) r'

theorem isSome_keepTrkc (existing v : Option (TeamMemberKeys H)) : (keepTrkc existing v).isSome = v.isSome := by
  unfold keepTrkc
  split
  · rfl
  · rfl

/-- The keys of a link are written over those from before, and it is still known of every member
whether it was removed. -/
theorem entry_cloneAndOverwriteWith (a : Option (MemberKeysSet H)) (b : MemberKeysSet H) (m : MemberID) :
    entry (cloneAndOverwriteWith a b) m = (entry b m).or (a.bind fun a => entry a m) := by
  cases a with
  | none => exact or_none.symm
  | some a =>
    unfold cloneAndOverwriteWith entry
    rw [Map.lookup_union, Map.lookup_ofFinset]
    cases hb : b.lookup m with
    | none =>
      have hm : m ∉ b.keys := by
        rw [Map.mem_keys_iff, hb]
        rintro ⟨v, ⟨⟩⟩
      rw [if_neg hm]
      rfl
    | some d =>
      have hm : m ∈ b.keys := Map.mem_keys_iff.mpr ⟨d, hb⟩
      rw [if_pos hm, getD_some]
      exact congrArg some (isSome_keepTrkc _ d)

theorem matchSigningKey_eq_nilPointer {mks : Option (MemberKeysSet H)} {m : MemberID} {vk : Option EntityID} :
    matchSigningKey mks m vk = .error nilPointer ↔ vk.isSome ∧ (mks.bind fun a => entry a m) = some false := by
  cases mks with
  | none => simp [matchSigningKey, pure, Except.pure]
  | some a =>
    cases vk with
    | none => simp [matchSigningKey, nilPointer]
    | some vk =>
      simp only [matchSigningKey, bind_some, isSome_some, true_and, entry]
      rcases a.lookup m with - | (- | k)
      · simp [nilPointer]
      · simp
      by_cases hk : vk.eq k.verifyKey = false
      · simp [refuse, hk, nilPointer]
      · simp [refuse, hk]

theorem standingAfter_or (m : MemberID) (known before : Option Bool) (x : HostID × MemberRoleSeqno H) :
    standingAfter m (known.or before) x = (standingAfter m known x).or before := by
  unfold standingAfter
  split
  · split
    · rfl
    · rfl
  · rfl

/-- What the later changes say, or else the earlier ones. -/
theorem standing_append (m : MemberID) (hist hist' : List (HostID × MemberRoleSeqno H)) :
    standing m (hist ++ hist') = (standing m hist').or (standing m hist) := by
  induction hist' using reverseRecOn with
  | nil => rw [append_nil]; rfl
  | append_singleton hist' x ih =>
    unfold standing at ih ⊢
    rw [← append_assoc, foldl_concat, ih, standingAfter_or, foldl_concat]

variable {hist : List (HostID × MemberRoleSeqno H)} {r : Roster H}

/-- An entry of a roster follows the changes that lead to it. -/
theorem Reached.entry_eq (h : Reached hist r) (m : MemberID) :
    (r.mks.bind fun a => entry a m) = standing m hist := by
  induction h with
  | nil => rfl
  | gameplan _ doerKO host v verifyKey opts hplan ih =>
    obtain ⟨changes, mks, -, -, -, hset, -, rfl⟩ := Roster.exists_of_gameplan hplan
    rw [standing_append, ← entry_of_makeChangeSet hset, ← ih]
    exact entry_cloneAndOverwriteWith _ mks m

/-- A signer with an ID that is too long, or one that was removed last; the key that signs is given. -/
def NilSigner (hist : List (HostID × MemberRoleSeqno H)) (doerKO : KeyOwner) (host : HostID)
    (verifyKey : Option EntityID) : Prop :=
  ∃ srcRole, importRole doerKO.srcRole = .ok srcRole ∧ (34 < doerKO.party.len ∨
      verifyKey.isSome ∧ ∃ fid, doerKO.party.fixed = .ok fid ∧
        standing ⟨⟨host, fid⟩, srcRole⟩ hist = some false)

/-- Changes and a signer that lead to a nil pointer, over a roster that the changes `hist` lead to. -/
def ReachesNil (hist : List (HostID × MemberRoleSeqno H)) (doerKO : KeyOwner) (host : HostID)
    (v : List (MemberRoleSeqno H)) (verifyKey : Option EntityID) : Prop :=
  NilInChanges host v ∨ (∀ y ∈ v, Accepted host y) ∧ ¬ NilInChanges host v ∧
    NilSigner hist doerKO host verifyKey

/-- The ID of the signer has no fixed form, or it has one. -/
theorem fixed_cases (e : EntityID) (host : HostID) :
    34 < e.len ∧ FQEntity.fixed ⟨e, host⟩ = .error nilPointer ∨
      ¬ 34 < e.len ∧ ∃ fid, e.fixed = .ok fid ∧ FQEntity.fixed ⟨e, host⟩ = .ok ⟨host, fid⟩ := by
  by_cases hlen : 34 < e.len
  · exact .inl ⟨hlen, by simp [FQEntity.fixed, EntityID.fixed, refuse, hlen, bind, Except.bind]⟩
  have hfid := EntityID.fixed_eq_ok.mpr ⟨not_lt.mp hlen, rfl⟩
  exact .inr ⟨hlen, _, hfid, FQEntity.fixed_eq_ok.mpr ⟨hfid, rfl⟩⟩

theorem gameplan_eq_nilPointer {doerKO : KeyOwner} {host : HostID} {v : List (MemberRoleSeqno H)}
    {verifyKey : Option EntityID} {opts : GameplanOpts} :
    r.gameplan doerKO host v verifyKey opts = .error nilPointer ↔ makeChangeSet host v = .error nilPointer ∨
      (∃ out, makeChangeSet host v = .ok out) ∧ ∃ srcRole, importRole doerKO.srcRole = .ok srcRole ∧
        (34 < doerKO.party.len ∨ ∃ fid, doerKO.party.fixed = .ok fid ∧
          matchSigningKey r.mks ⟨⟨host, fid⟩, srcRole⟩ verifyKey = .error nilPointer) := by
  constructor
  · intro h
    rcases bind_eq_error.mp h with hset | ⟨⟨changes, mks⟩, hset, h1⟩
    · exact .inl hset
    rcases bind_eq_error.mp h1 with hrole | ⟨srcRole, hrole, h2⟩
    · exact absurd rfl (errorsIn_importRole _ _ hrole)
    refine .inr ⟨⟨_, hset⟩, srcRole, hrole, ?_⟩
    rcases fixed_cases doerKO.party host with ⟨hlen, -⟩ | ⟨-, fid, hfid, hfixed⟩
    · exact .inl hlen
    rcases bind_eq_error.mp h2 with hdoer | ⟨doer, hdoer, h3⟩
    · rw [hfixed] at hdoer
      cases hdoer
    obtain rfl := ok_unique hdoer hfixed
    rcases bind_eq_error.mp h3 with hmatch | ⟨⟨⟩, -, h4⟩
    · exact .inr ⟨fid, hfid, hmatch⟩
    rcases bind_eq_error.mp h4 with hplan | ⟨out, -, h5⟩
    · exact absurd rfl (errorsIn_gameplan _ _ _ _ _ _ hplan)
    · cases h5
  · rintro (hset | ⟨⟨⟨changes, mks⟩, hset⟩, srcRole, hrole, hnil⟩)
    · exact bind_eq_error.mpr (.inl hset)
    refine bind_eq_error.mpr (.inr ⟨_, hset, bind_eq_error.mpr (.inr ⟨srcRole, hrole, ?_⟩)⟩)
    rcases fixed_cases doerKO.party host with ⟨-, hfixed⟩ | ⟨hlen, fid, hfid, hfixed⟩
    · exact bind_eq_error.mpr (.inl hfixed)
    obtain ⟨fid', hfid', hmatch⟩ := hnil.resolve_left hlen
    obtain rfl := ok_unique hfid hfid'
    exact bind_eq_error.mpr (.inr ⟨_, hfixed, bind_eq_error.mpr (.inl hmatch)⟩)

end Rosters

/-! ## A team of two -/

namespace TwoMembers

def host : HostID := 9

def user (n : ℕ) : EntityID := .ofNat 33 (256 ^ 32 + n)

/-- The key of a user that signs. -/
def puk (n : ℕ) : EntityID := .ofNat 33 (14 * 256 ^ 32 + n)

/-- User `n` gets a role, with keys unless the user is removed. -/
def change (n : ℕ) (role : Role) : MemberRoleSeqno ℕ :=
  ⟨⟨role, ⟨⟨user n, none⟩, .owner, if role = .none then .none else .team ⟨puk n, 3, 1, none, none⟩⟩⟩, 1, 0⟩

variable (r : Roster ℕ) (n : ℕ) (v : List (MemberRoleSeqno ℕ))

/-- A link that user `n` signs. -/
def plan : Except CoreError (Roster ℕ × KeySchedule) :=
  r.gameplan ⟨user n, .owner⟩ host v (some (puk n)) {}

def planned : Roster ℕ :=
  ((plan r n v).toOption.map fst).getD {}

/-- User 1 is the owner, and user 2 is a member. -/
def created : Roster ℕ := planned {} 1 [change 1 .owner, change 2 (.member 0)]

/-- User 2 was removed. -/
def dismissed : Roster ℕ := planned created 1 [change 2 .none]

theorem reached_planned {hist : List (HostID × MemberRoleSeqno ℕ)} {r : Roster ℕ}
    (h : Reached hist r) {n : ℕ} {v : List (MemberRoleSeqno ℕ)} (hok : (plan r n v).isOk = true) :
    Reached (hist ++ v.map (mk host)) (planned r n v) := by
  unfold planned
  cases hplan : plan r n v with
  | error e =>
    rw [hplan] at hok
    cases hok
  | ok out => exact h.gameplan _ _ _ _ _ hplan

theorem reached_created : Reached ([change 1 .owner, change 2 (.member 0)].map (mk host)) created :=
  reached_planned (n := 1) (v := [change 1 .owner, change 2 (.member 0)]) .nil (by decide +kernel)

/-- Whether a link leads to a nil pointer. -/
def stops {α : Type} : Except CoreError α → Bool
  | .error e => e = nilPointer
  | .ok _ => false

theorem eq_of_stops {α : Type} {x : Except CoreError α} (h : stops x = true) : x = .error nilPointer := by
  cases x with
  | error e => exact congrArg Except.error (of_decide_eq_true h)
  | ok a => cases h

end TwoMembers

end Foks.Client
