import Foks.Client.Rotation
import Foks.Client.TeamRetry
import Foks.Client.UserRetry

/-!
# Loads that are repeated

`BaseChainLoader.runMany`: a loader asks again after an error that may come from a race between the
chain and the tree. Here the outcome of a load after such errors is compared with that of a fresh
loader that is given the last reply only.
-/

namespace Foks.Client

open Lib Merkle LinkHash List Option Action
open Lib.Action (bind_eq_ok)

variable {L H X A : Type} [DecidableEq H] [MerkleHash H] [LinkHash L H] [LocationHash H]
  [LinkFormat L H] [KeyHash H]

/-! ## Users -/

section User

variable {sv : Services H} {host : HostID} {saved : Option (UserSigchainState H)} {arg : LoadUserArg}
  {r : UserAttempt L H} {u u' : UserLoader H} {failed : List (UserAttempt L H)} {s : UserSigchainState H}

variable (sv host saved)

/-- `UserLoader.Run`: each attempt resets the state itself. -/
def runUser (numRetries : ℕ)
    (failed : List (UserAttempt L H)) (last : UserAttempt L H) :
    Action (UserLoader H) CoreError (UserSigchainState H) :=
  retry isRace id (runOnceUser sv host saved) numRetries failed last

/-- Failed replies that leave nothing in the loader that matters for the last one: the request does
not get the UID of a name, and the loader gets no hashes, leaves or keys that matter. -/
def UserUnaffected (arg : LoadUserArg) (failed : List (UserAttempt L H)) (last : UserAttempt L H) : Prop :=
  (arg.uid ≠ 0 ∨ ∀ r ∈ failed, r.resolved = .ok 0) ∧ (userClient sv host saved arg).Clean failed last

/-- The loader after failed attempts: ready for another one, or with a request that is refused. -/
def UserWaits (arg : LoadUserArg) (failed : List (UserAttempt L H)) (u : UserLoader H) : Prop :=
  ((arg.uid ≠ 0 ∨ ∀ r ∈ failed, r.resolved = .ok 0) ∧
    ∃ left, (userClient sv host saved arg).LeftBy failed left ∧ UserReady host saved arg left u) ∨
  ¬ (arg.uid ≠ 0 ∨ ∀ r ∈ failed, r.resolved = .ok 0) ∧ u.arg.check ≠ .ok ()

variable {sv host saved}

/-- A request that is let through is for a UID or for a name, not both. -/
theorem LoadUserArg.check_eq_ok (h : arg.check = .ok ()) : arg.uid ≠ 0 ↔ arg.username = "" := by
  have h1 := of_bind_eq_ok h
  obtain ⟨⟨⟩, hboth, h2⟩ := bind_eq_ok.mp h1
  have hone := refuse_eq_ok.mp hboth
  have hsome := refuse_eq_ok.mp h2
  tauto

omit [DecidableEq H] [MerkleHash H] [LinkHash L H] [LocationHash H] [LinkFormat L H] in
theorem check_of_prepareUser [DecidableEq H]
    (h : prepareUser sv host saved r u = (.ok (), u')) : u.arg.check = .ok () := by
  have h1 := update_bind_eq_ok.mp h
  have h2 := read_bind_eq_ok.mp h1
  obtain ⟨⟨⟩, u3, hcheck, -⟩ := bind_eq_ok.mp h2
  exact (lift_eq_ok.mp hcheck).1

theorem UserWaits.raced (h : UserWaits sv host saved arg failed u) (hraced : RacedUser sv host saved r u u') :
    UserWaits sv host saved arg (failed ++ [r]) u' := by
  rcases h with ⟨huid, left, hleft, hready⟩ | ⟨-, hcheck⟩
  · obtain ⟨left', hleft', hready', hcheck, hrequest⟩ := hready.raced hleft hraced
    rw [UserWaits, forall_mem_append, forall_mem_singleton]
    by_cases hzero : arg.uid = 0
    · -- a load by name: the UID comes from the server
      have hnames : ∀ r ∈ failed, r.resolved = .ok 0 := huid.resolve_left (not_not.mpr hzero)
      have hresolved : r.resolved = .ok (uidOf arg r) := by
        rw [requestedUid, if_neg (not_not.mpr hzero)] at hrequest
        obtain ⟨name, -, hres⟩ := bind_eq_ok.mp hrequest
        exact hres
      by_cases huid' : uidOf arg r = 0
      · refine .inl ⟨.inr ⟨hnames, by rw [hresolved, huid']⟩, left', hleft', ?_⟩
        rw [huid', ← hzero] at hready'
        exact hready'
      refine .inr ⟨?_, fun hcheck' => ?_⟩
      · rintro (hne | ⟨-, hres⟩)
        · exact hne hzero
        · rw [hresolved] at hres
          exact huid' (Except.ok.inj hres)
      rw [hready'.arg] at hcheck'
      have hnoname := (LoadUserArg.check_eq_ok hcheck').mp huid'
      exact (LoadUserArg.check_eq_ok hcheck).mpr hnoname hzero
    refine .inl ⟨.inl hzero, left', hleft', ?_⟩
    have hsame : uidOf arg r = arg.uid := if_pos hzero
    rw [hsame] at hready'
    exact hready'
  · obtain ⟨u1, e, hprepare, -⟩ := hraced
    exact absurd (check_of_prepareUser hprepare) hcheck

theorem admitUser_of_runOnceUser {left : Leftover H} (h : UserReady host saved arg left u)
    (hrun : (runOnceUser sv host saved r u).1 = .ok s) :
    ∃ uid, admitUser sv host saved arg r = .ok uid := by
  obtain ⟨⟨⟩, u1, hprepare⟩ := exists_of_fst_bind hrun
  obtain ⟨uid, huser, -⟩ := (prepareUser_eq_ok h.player).mp hprepare
  rw [h.arg] at huser
  exact ⟨uid, huser⟩

/-- Of two outcomes one passes and the other cannot. -/
theorem eq_iff_of_refused {α : Type} {x y : Except CoreError α} {s : α} {P Q : Prop}
    (hok : x = .ok s ∨ y = .ok s) (hrefused : ∀ s', x ≠ .ok s') (hP : ¬ P) : (x = y ↔ P) ∧ (P → Q) := by
  refine ⟨iff_of_false (fun hxy => ?_) hP, fun h => absurd h hP⟩
  exact hrefused s (hxy.trans (hok.resolve_left (hrefused s)))

/-- A load that passes, after failed attempts or alone, has the outcome of a fresh loader if and only
if the failed replies leave nothing that matters. Each link then has one leaf. -/
theorem runUser_eq_iff {numRetries : ℕ} {last : UserAttempt L H}
    (hfailed : Repeated (RacedUser sv host saved) failed (newUserLoader arg) u)
    (hn : failed.length ≤ numRetries)
    (hok : (runUser sv host saved numRetries failed last (newUserLoader arg)).1 = .ok s ∨
      (runOnceUser sv host saved last (newUserLoader arg)).1 = .ok s) :
    ((runUser sv host saved numRetries failed last (newUserLoader arg)).1
        = (runOnceUser sv host saved last (newUserLoader arg)).1 ↔
      UserUnaffected sv host saved arg failed last) ∧
    (UserUnaffected sv host saved arg failed last →
      ∃ leaves, s.merkleLeaves = (saved.map (·.merkleLeaves)).getD [] ++ leaves ∧
        leaves.map MerkleLeaf.value = last.raw.links.map linkHash) := by
  have hrun : runUser sv host saved numRetries failed last (newUserLoader arg) = runOnceUser sv host
      saved last u := by
    refine retry_eq (fun r u1 u2 hraced => ?_) hfailed hn
    obtain ⟨e, hrace, honce⟩ := hraced.runOnceUser
    exact ⟨e, u2, honce, hrace, rfl⟩
  have hwaits : UserWaits sv host saved arg failed u := by
    have hnew : UserWaits (L := L) sv host saved arg [] (newUserLoader arg) :=
      .inl ⟨.inr (by simp), {}, .nil, .new⟩
    exact hfailed.invariant (I := UserWaits sv host saved arg) (fun used r u1 u2 h hraced =>
      h.raced hraced) hnew
  rw [hrun] at hok ⊢
  rcases hwaits with ⟨huid, left, hleft, hready⟩ | ⟨huid, hcheck⟩
  · obtain ⟨uid, huser⟩ : ∃ uid, admitUser sv host saved arg last = .ok uid :=
      hok.elim (admitUser_of_runOnceUser hready) (admitUser_of_runOnceUser .new)
    rw [runOnceUser_eq hready huser, runOnceUser_eq .new huser] at hok
    rw [runOnceUser_eq hready huser, runOnceUser_eq .new huser]
    have hiff := ChainClient.attempt_eq_iff hleft hok
    refine ⟨hiff.trans ⟨fun hclean => ⟨huid, hclean⟩, And.right⟩, fun hunaffected => ?_⟩
    exact ChainClient.leaves_of_clean hleft hok hunaffected.2
  -- the last attempt is refused
  have hrefused : ∀ s', (runOnceUser sv host saved last u).1 ≠ .ok s' := by
    intro s' hs'
    obtain ⟨⟨⟩, u1, hprepare⟩ := exists_of_fst_bind hs'
    exact hcheck (check_of_prepareUser hprepare)
  exact eq_iff_of_refused hok hrefused fun hunaffected => huid hunaffected.1

end User

/-! ## Teams -/

section Team

variable {sv : TeamServices L H X A} {saved : Option (TeamChainState H X)} {arg : LoadTeamArg}
  {r : TeamAttempt L H A}
  {l l' : TeamLoader H X} {failed : List (TeamAttempt L H A)} {s : TeamChainState H X}

variable (sv saved)

/-- `TeamLoader.Run`, while no link fails to open. -/
def runTeam (numRetries : ℕ)
    (failed : List (TeamAttempt L H A)) (last : TeamAttempt L H A) :
    Action (TeamLoader H X) CoreError (TeamChainState H X) :=
  retry isRace TeamLoader.resetState (runOnceTeam sv saved) numRetries failed last

/-- The loader of teams as a client, with the state that it starts from. -/
abbrev teamClientOf (arg : LoadTeamArg) :
    ChainClient (TeamAttempt L H A) L H (OpenTeamLinkRes H) (TeamChainState H X) :=
  teamClient sv (teamStart sv arg.host saved) arg

variable {sv saved}

/-- The request stays as it is during a load: it gets no team from a view token. -/
def KeepsRequest (arg : LoadTeamArg) (failed : List (TeamAttempt L H A)) : Prop :=
  arg.team ≠ none ∨ arg.mints = false ∨ failed = []

variable (sv saved arg failed)

/-- Failed replies that leave nothing in the loader that matters for the last one. A fresh loader
needs a view token of its own. -/
def TeamUnaffected (last : TeamAttempt L H A) : Prop :=
  KeepsRequest arg failed ∧ TokenFor arg false last ∧ (teamClientOf sv saved arg).Clean failed last

/-- The loader after failed attempts: ready for another one, or with a request that is refused. -/
def TeamWaits (l : TeamLoader H X) : Prop :=
  (KeepsRequest arg failed ∧ ∃ left, (teamClientOf sv saved arg).LeftBy failed left ∧
    TeamReady (teamStart sv arg.host saved) arg left l) ∨
  ¬ KeepsRequest arg failed ∧ l.arg.check ≠ .ok ()

variable {sv saved arg failed}

/-- A request that is let through names its team in one way. -/
theorem LoadTeamArg.check_of_team (h : arg.check = .ok ()) (hteam : arg.team = none)
    (tid : TeamID) : LoadTeamArg.check { arg with team := some tid } ≠ .ok () := by
  intro h'
  obtain ⟨⟨⟩, hzero, -⟩ := bind_eq_ok.mp h
  have h1' := of_bind_eq_ok h'
  obtain ⟨⟨⟩, hone, -⟩ := bind_eq_ok.mp h1'
  have hzero' := refuse_eq_ok.mp hzero
  have hone' := of_refuse hone
  simp only [hteam, isSome_none, isSome_some, Bool.false_eq_true, if_false, if_true] at hzero' hone'
  omega

omit [MerkleHash H] [LinkHash L H] [LocationHash H] [LinkFormat L H] in
theorem check_of_prepareTeam (h : prepareTeam sv saved r l = (.ok (), l')) : l.arg.check = .ok () := by
  obtain ⟨⟨⟩, l1, harg, -⟩ := bind_eq_ok.mp h
  unfold checkTeamArg at harg
  simp only [Action.bind_apply, Action.read_apply, Action.lift_apply] at harg
  cases hcheck : l.arg.check with
  | ok v => rfl
  | error e =>
    rw [hcheck] at harg
    cases harg

theorem TeamWaits.raced (h : TeamWaits sv saved arg failed l)
    (hraced : RacedTeam sv saved r l l') : TeamWaits sv saved arg (failed ++ [r]) l' := by
  rcases h with ⟨-, left, hleft, hready⟩ | ⟨-, hcheck⟩
  · obtain ⟨left', hleft', hready', hcheck, htoken⟩ := hready.raced hleft hraced
    by_cases hkeeps : arg.team ≠ none ∨ arg.mints = false
    · -- the team is known, or it is not asked for
      have hsame : teamOf arg r = arg.team := by
        rcases hkeeps with hteam | hmints
        · exact or_of_isSome (isSome_iff_ne_none.mpr hteam)
        · rw [teamOf, hmints, if_neg Bool.false_ne_true, or_none]
      rw [hsame] at hready'
      exact .inl ⟨hkeeps.imp_right .inl, left', hleft', hready'⟩
    obtain ⟨hteam, hmints⟩ := not_or.mp hkeeps
    have hnone : arg.team = none := not_not.mp hteam
    have hasked : arg.mints = true := by simpa using hmints
    have hsome : (teamOf arg r).isSome :=
      htoken.isSome_teamOf hready.voTok (by rw [hasked, Bool.or_true])
    obtain ⟨tid, htid⟩ := isSome_iff_exists.mp hsome
    refine .inr ⟨?_, ?_⟩
    · rintro (hteam' | hmints' | hnil)
      · exact hteam hteam'
      · exact hmints hmints'
      · cases failed <;> cases hnil
    · rw [hready'.arg, htid]
      exact LoadTeamArg.check_of_team hcheck hnone tid
  · obtain ⟨l1, l2, e, hprepare, -⟩ := hraced
    exact absurd (check_of_prepareTeam hprepare) hcheck

theorem admitsTeam_of_runOnceTeam {left : Leftover H}
    (h : TeamReady (teamStart sv arg.host saved) arg left l) (hrun : (runOnceTeam sv saved r l).1 = .ok s) :
    AdmitsTeam sv saved arg l.voTok r := by
  obtain ⟨⟨⟩, l1, hprepare⟩ := exists_of_fst_bind hrun
  exact ((prepareTeam_eq_ok h).mp hprepare).1

omit [MerkleHash H] [LinkHash L H] [LocationHash H] [LinkFormat L H] [KeyHash H] in
theorem AdmitsTeam.of_token {voTok voTok' : Bool} (h : AdmitsTeam sv saved arg voTok r)
    (htoken : TokenFor arg false r) :
    AdmitsTeam sv saved arg voTok' r := by
  refine ⟨h.check, h.name, h.state, fun hmints => .inr ?_⟩
  exact (htoken hmints).resolve_left (by simp)

/-- A load that passes, after failed attempts or alone, has the outcome of a fresh loader if and only
if the failed replies leave nothing that matters. Each link then has one leaf. -/
theorem runTeam_eq_iff {numRetries : ℕ} {last : TeamAttempt L H A}
    (hfailed : Repeated (RacedTeam sv saved) failed (newTeamLoader arg) l)
    (hn : failed.length ≤ numRetries)
    (hok : (runTeam sv saved numRetries failed last (newTeamLoader arg)).1 = .ok s ∨
      (runOnceTeam sv saved last (newTeamLoader arg)).1 = .ok s) :
    ((runTeam sv saved numRetries failed last (newTeamLoader arg)).1
        = (runOnceTeam sv saved last (newTeamLoader arg)).1 ↔
      TeamUnaffected sv saved arg failed last) ∧
    (TeamUnaffected sv saved arg failed last → ∃ leaves, s.merkleLeaves
          = ((teamStart sv arg.host saved).map (·.1.merkleLeaves)).getD [] ++ leaves ∧
        leaves.map MerkleLeaf.value = last.raw.links.map linkHash) := by
  have hrun : runTeam sv saved numRetries failed last (newTeamLoader arg) = runOnceTeam sv saved last l :=
    retry_eq (fun r l1 l2 hraced => hraced.runOnceTeam) hfailed hn
  have hwaits : TeamWaits sv saved arg failed l := by
    have hnew : TeamWaits sv saved arg [] (newTeamLoader arg) :=
      .inl ⟨.inr (.inr rfl), {}, .nil, .new⟩
    exact hfailed.invariant (I := TeamWaits sv saved arg) (fun used r l1 l2 h hraced => h.raced hraced) hnew
  rw [hrun] at hok ⊢
  rcases hwaits with ⟨hrequest, left, hleft, hready⟩ | ⟨hrequest, hcheck⟩
  · by_cases htoken : TokenFor arg false last
    · have hadmits : AdmitsTeam sv saved arg l.voTok last :=
        hok.elim (admitsTeam_of_runOnceTeam hready) fun hnew =>
          (admitsTeam_of_runOnceTeam .new hnew).of_token htoken
      rw [runOnceTeam_eq hready hadmits, runOnceTeam_eq .new (hadmits.of_token htoken)] at hok
      rw [runOnceTeam_eq hready hadmits, runOnceTeam_eq .new (hadmits.of_token htoken)]
      have hiff := ChainClient.attempt_eq_iff hleft hok
      refine ⟨hiff.trans ⟨fun hclean => ⟨hrequest, htoken, hclean⟩, fun h => h.2.2⟩, fun hunaffected => ?_⟩
      exact ChainClient.leaves_of_clean hleft hok hunaffected.2.2
    -- a fresh loader gets no token
    have hrefused : ∀ s', (runOnceTeam sv saved last (newTeamLoader arg)).1 ≠ .ok s' :=
      fun s' hs' => htoken (admitsTeam_of_runOnceTeam .new hs').token
    rw [eq_comm]
    exact eq_iff_of_refused hok.symm hrefused fun hunaffected => htoken hunaffected.2.1
  -- the last attempt is refused
  have hrefused : ∀ s', (runOnceTeam sv saved last l).1 ≠ .ok s' := by
    intro s' hs'
    obtain ⟨⟨⟩, l1, hprepare⟩ := exists_of_fst_bind hs'
    exact hcheck (check_of_prepareTeam hprepare)
  exact eq_iff_of_refused hok hrefused fun hunaffected => hrequest hunaffected.1

end Team

/-! ## Both loaders -/

/-- A load that passes, after attempts that fail with a race or alone, has the outcome of a fresh
loader that is given the last reply only, if and only if the failed replies leave nothing that
matters for it: no UID or team in the request, no other hashes before those of the last links, no
leaves, and no other keys. The state that is saved then has one leaf for each link. -/
theorem retried_load_eq_fresh_iff (numRetries : ℕ) :
    (∀ (sv : Services H) (host : HostID) (saved : Option (UserSigchainState H)) (arg : LoadUserArg)
        (failed : List (UserAttempt L H)) (last : UserAttempt L H) (u : UserLoader H)
        (s : UserSigchainState H),
      Repeated (RacedUser sv host saved) failed (newUserLoader arg) u → failed.length ≤ numRetries →
      ((runUser sv host saved numRetries failed last (newUserLoader arg)).1 = .ok s ∨
        (runOnceUser sv host saved last (newUserLoader arg)).1 = .ok s) →
      ((runUser sv host saved numRetries failed last (newUserLoader arg)).1
          = (runOnceUser sv host saved last (newUserLoader arg)).1 ↔
        UserUnaffected sv host saved arg failed last) ∧
      (UserUnaffected sv host saved arg failed last →
        ∃ leaves, s.merkleLeaves = (saved.map (·.merkleLeaves)).getD [] ++ leaves ∧
          leaves.map MerkleLeaf.value = last.raw.links.map linkHash)) ∧
    ∀ (sv : TeamServices L H X A) (saved : Option (TeamChainState H X)) (arg : LoadTeamArg)
        (failed : List (TeamAttempt L H A)) (last : TeamAttempt L H A) (l : TeamLoader H X)
        (s : TeamChainState H X),
      Repeated (RacedTeam sv saved) failed (newTeamLoader arg) l → failed.length ≤ numRetries →
      ((runTeam sv saved numRetries failed last (newTeamLoader arg)).1 = .ok s ∨
        (runOnceTeam sv saved last (newTeamLoader arg)).1 = .ok s) →
      ((runTeam sv saved numRetries failed last (newTeamLoader arg)).1
          = (runOnceTeam sv saved last (newTeamLoader arg)).1 ↔
        TeamUnaffected sv saved arg failed last) ∧
      (TeamUnaffected sv saved arg failed last →
        ∃ leaves, s.merkleLeaves
            = ((teamStart sv arg.host saved).map (·.1.merkleLeaves)).getD [] ++ leaves ∧
          leaves.map MerkleLeaf.value = last.raw.links.map linkHash) :=
  ⟨fun _ _ _ _ _ _ _ _ hfailed hn hok => runUser_eq_iff hfailed hn hok,
    fun _ _ _ _ _ _ _ hfailed hn hok => runTeam_eq_iff hfailed hn hok⟩

namespace Sample

/-- The reply with the links 1, 2 and 4, whose path `i` does not verify. -/
def racyReply (i : ℕ) : UserAttempt ℕ SymHash :=
  { reply 4 with
    raw := { (reply 4).raw with
      merkle := ⟨.v1 (root 4), (paths 4).set i ⟨⟨[], [], short_nil⟩, .toLeaf ⟨.atom 4, none⟩⟩⟩ } }

/-- Whether a result is an error that comes from a race. -/
def isRaceError {α : Type} : Except CoreError α → Bool
  | .error e => isRace e
  | .ok _ => false

theorem exists_of_isRaceError {α : Type} {x : Except CoreError α} (h : isRaceError x = true) :
    ∃ e, x = .error (.chainLoaderError true e) := by
  unfold isRaceError at h
  split at h
  · unfold isRace at h
    split at h
    · next race e =>
      obtain rfl : race = true := h
      exact ⟨e, rfl⟩
    · cases h
  · cases h

/-- The loader after such a reply. -/
def raced (i : ℕ) : UserLoader SymHash :=
  (checkRes host (racyReply i) (prepareUser services host none (racyReply i) (newUserLoader arg)).2).2

theorem racedUser_racyReply {i : ℕ}
    (hprepare : (prepareUser services host none (racyReply i) (newUserLoader arg)).1 = .ok ())
    (hrace : isRaceError (checkRes host (racyReply i)
      (prepareUser services host none (racyReply i) (newUserLoader arg)).2).1 = true) :
    RacedUser services host none (racyReply i) (newUserLoader arg) (raced i) := by
  obtain ⟨e, he⟩ := exists_of_isRaceError hrace
  exact ⟨_, e, Prod.ext hprepare rfl, Prod.ext he rfl⟩

end Sample

open Sample in
/-- The third path of the first reply does not verify, and the two leaves before it are saved with the
three leaves of the second reply. -/
theorem not_retried_load_eq_fresh :
    ∃ s s', Repeated (RacedUser services host none) [racyReply 2] (newUserLoader arg) (raced 2) ∧
      (runOnceUser services host none (reply 4) (newUserLoader arg)).1 = .ok s ∧
      (runUser services host none 1 [racyReply 2] (reply 4) (newUserLoader arg)).1 = .ok s' ∧
      (reply 4).raw.links.length = 3 ∧ s.merkleLeaves.length = 3 ∧ s'.merkleLeaves.length = 5 := by
  have hfresh : (runOnceUser services host none (reply 4) (newUserLoader arg)).1.toOption.map
      (·.merkleLeaves.length) = some 3 := by decide +kernel
  have hrun : (runUser services host none 1 [racyReply 2] (reply 4) (newUserLoader arg)).1.toOption.map
      (·.merkleLeaves.length) = some 5 := by decide +kernel
  obtain ⟨s, hs, hlen⟩ := exists_of_map_toOption hfresh
  obtain ⟨s', hs', hlen'⟩ := exists_of_map_toOption hrun
  refine ⟨s, s', .cons ?_ (.nil _), hs, hs', rfl, hlen, hlen'⟩
  exact racedUser_racyReply (by decide +kernel) (by decide +kernel)

namespace Sample

/-- A team that was saved with four links. -/
def savedTeam : TeamChainState SymHash Unit where
  tail := ⟨⟨4, some (.atom 3), ⟨4, .zero⟩, 0⟩, .atom 7⟩
  lastHash := .atom 4
  name := ⟨⟨"sample", "sample"⟩, 1⟩
  merkleLeaves := [1, 2, 3, 4].map fun n => ⟨key n, .atom n⟩
  ptks := []
  members := []
  hepks := ∅
  tir := ⟨⟨false, [], 0⟩, ⟨true, [], 0⟩⟩
  sctlsc := .atom 22
  memberLoadFloor := none
  rosterDelegationFloor := none
  rosterDelegationFloorTracked := true
  boxed := ()

def teamServices : TeamServices ℕ SymHash Unit Unit where
  normalizeName := .ok
  checkNameLoad _ _ _ _ _ _ _ _ := .ok 1
  readParcels _ := .ok ()
  openBoxes _ _ _ _ _ _ := .ok ()

def team : TeamID := 3 * 256 ^ 32 + 5

def teamArg : LoadTeamArg := ⟨some team, host, "", none, true, false, false, host⟩

/-- A reply without links: the next link of the team is missing, if the path says so. -/
def teamReply (path : MerklePathCompressedPair SymHash) : TeamAttempt ℕ SymHash Unit where
  token := .ok team
  reuses := true
  session := .ok ()
  raw := {
    links := []
    locations := [7]
    teamnames := []
    merkle := ⟨.v1 (root 4), [path]⟩
    teamnameUtf8 := "sample"
    numTeamnameLinks := 0
    hepks := []
    remoteViewTokens := []
    boxes := () }

def goodTeamReply : TeamAttempt ℕ SymHash Unit :=
  teamReply ⟨⟨[(0, left 4)], [], short_nil⟩, .toLeaf ⟨.atom 2, some (key 2)⟩⟩

def racyTeamReply : TeamAttempt ℕ SymHash Unit :=
  teamReply ⟨⟨[], [], short_nil⟩, .toLeaf ⟨.atom 2, some (key 2)⟩⟩

/-- The loader that has the reply, and the loader after its checks. -/
def preparedForRace : TeamLoader SymHash Unit :=
  (prepareTeam teamServices (some savedTeam) racyTeamReply (newTeamLoader teamArg)).2

def racedTeam : TeamLoader SymHash Unit := (checkTeamRes racyTeamReply preparedForRace).2.resetState

end Sample

open Sample in
/-- The first path of a reply does not verify, for a user that is new and for a team that is saved. -/
theorem retried_load_eq_fresh_iff_sample :
    (runUser services host none 1 [racyReply 0] (reply 4) (newUserLoader arg)).1
        = (runOnceUser services host none (reply 4) (newUserLoader arg)).1 ∧
      (runTeam teamServices (some savedTeam) 1 [racyTeamReply] goodTeamReply (newTeamLoader teamArg)).1
        = (runOnceTeam teamServices (some savedTeam) goodTeamReply (newTeamLoader teamArg)).1 := by
  have huser : (runOnceUser services host none (reply 4) (newUserLoader arg)).1.toOption.map
      (·.merkleLeaves.length) = some 3 := by decide +kernel
  obtain ⟨s, hs, -⟩ := exists_of_map_toOption huser
  have hteam : (runOnceTeam teamServices (some savedTeam) goodTeamReply
      (newTeamLoader teamArg)).1.toOption.map (·.merkleLeaves.length) = some 4 := by decide +kernel
  obtain ⟨t, ht, -⟩ := exists_of_map_toOption hteam
  have hraced : RacedTeam teamServices (some savedTeam) racyTeamReply (newTeamLoader teamArg) racedTeam := by
    have hrace : isRaceError (checkTeamRes racyTeamReply preparedForRace).1 = true := by
      decide +kernel
    obtain ⟨e, he⟩ := exists_of_isRaceError hrace
    exact ⟨_, _, e, Prod.ext (by decide +kernel) rfl, Prod.ext he rfl, rfl⟩
  constructor
  · refine ((retried_load_eq_fresh_iff (X := Unit) (A := Unit) 1).1 services host none arg
      [racyReply 0] (reply 4) (raced 0) s (.cons ?_ (.nil _)) (by decide) (.inr hs)).1.mpr ?_
    · exact racedUser_racyReply (by decide +kernel) (by decide +kernel)
    refine ⟨.inl (by decide), .inr ⟨by decide +kernel, ?_, ?_⟩⟩
    · intro r hr
      obtain rfl := mem_singleton.mp hr
      exact .inr (by decide +kernel)
    intro _ r hr fp hfp
    obtain rfl := mem_singleton.mp hr
    exact hfp
  · refine ((retried_load_eq_fresh_iff 1).2 teamServices (some savedTeam) teamArg [racyTeamReply]
      goodTeamReply racedTeam t (.cons hraced (.nil _)) (by decide) (.inr ht)).1.mpr ?_
    refine ⟨.inl (by decide), fun _ => .inr ⟨team, rfl, ?_⟩, .inl rfl⟩
    intro tid htid
    exact (some.inj htid).symm

end Foks.Client
