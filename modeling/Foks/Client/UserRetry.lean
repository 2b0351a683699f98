import Foks.Client.Attempt
import Foks.Client.UserLoader

/-!
# Attempts of the loader of users

The loader of users as a `ChainClient`. Between two attempts it resets the fields of the player that
the saved state fills again; the hashes and leaves of the links, and the keys of a user that was not
saved yet, stay. The UID that a name was resolved to stays as well, and a load by UID and by name is
refused.
-/

namespace Foks.Client

open Lib Merkle LinkHash LocationHash LinkFormat List UserPlayer
open Lib.Action (bind_apply bind_eq_error bind_eq_ok lift_apply lift_bind_eq_ok read_apply
  update_apply update_bind_eq_ok)

variable {L H : Type} [DecidableEq H] {host : HostID} {uid : UID} {u : UserLoader H} {sv : Services H}

/-! ## The player -/

section Player

/-- The fields of the player that are not reset, with those of another player for the rest. -/
def UserPlayer.carry (c p : UserPlayer H) : UserPlayer H :=
  { p with stalePUKs := c.stalePUKs, uncs := c.uncs, dnIdx := c.dnIdx, sctlsc := c.sctlsc }

/-- `resetState` on the player. -/
def UserPlayer.reset (p : UserPlayer H) : UserPlayer H := p.carry {}

section

omit [DecidableEq H]

theorem putDevice_carry (mapKey : Team.FQEntityFixed) (ps : PublicSuite) (di : DeviceInfo H)
    (c p : UserPlayer H) :
    putDevice mapKey ps di (c.carry p) = c.carry (putDevice mapKey ps di p) := by
  unfold putDevice carry
  dsimp only
  cases p.devInfo.lookup mapKey <;> rfl

/-- A PUK is not stale any more. -/
theorem addPuk_carry {puk : SharedPublicSuite H} (h : addPuk puk p = (.ok (), p')) :
    ∃ rk, ∀ c : UserPlayer H, addPuk puk (c.carry p)
      = (.ok (), carry { c with stalePUKs := c.stalePUKs.erase rk } p') := by
  obtain ⟨rk, hrk, hnew, rfl⟩ := addPuk_eq_ok.mp h
  exact ⟨rk, fun c => addPuk_eq_ok.mpr ⟨rk, hrk, hnew, rfl⟩⟩

theorem readStaleKeys_carry {rs : List Role} (h : readStaleKeys rs p = (.ok (), p')) :
    ∃ I : Finset RoleKey, ∀ c : UserPlayer H, readStaleKeys rs (c.carry p)
      = (.ok (), carry { c with stalePUKs := c.stalePUKs ∪ I } p') := by
  induction rs generalizing p with
  | nil =>
    cases h
    exact ⟨∅, fun c => by rw [Finset.union_empty]; rfl⟩
  | cons r rs ih =>
    obtain ⟨rk, hrk, h1⟩ := lift_bind_eq_ok.mp h
    have h2 := update_bind_eq_ok.mp h1
    obtain ⟨I, hrest⟩ := ih h2
    refine ⟨insert rk I, fun c => lift_bind_eq_ok.mpr ⟨rk, hrk, ?_⟩⟩
    refine bind_eq_ok.mpr ⟨(), _, rfl, ?_⟩
    have hnext := hrest { c with stalePUKs := insert rk c.stalePUKs }
    rw [Finset.union_insert, ← Finset.insert_union]
    exact hnext

end

variable {p p' : UserPlayer H} {hepks : HEPKSet H} {st : UserSigchainState H}

/-- The devices are read from the saved state alone. -/
theorem readKeys_carry {ds : List (DeviceInfo H)} (h : readKeys host hepks ds p = (.ok (), p'))
    (c : UserPlayer H) :
    readKeys host hepks ds (c.carry p) = (.ok (), c.carry p') := by
  induction ds generalizing p with
  | nil =>
    cases h
    rfl
  | cons d ds ih =>
    obtain ⟨ps, hps, h1⟩ := lift_bind_eq_ok.mp h
    obtain ⟨⟨⟩, p1, hadd, h2⟩ := bind_eq_ok.mp h1
    obtain ⟨fid, hfid, hput⟩ := addDeviceKey_eq_ok.mp hadd
    refine lift_bind_eq_ok.mpr ⟨ps, hps, bind_eq_ok.mpr ⟨(), c.carry p1, ?_, ih h2⟩⟩
    exact addDeviceKey_eq_ok.mpr ⟨fid, hfid, by rw [putDevice_carry, ← hput]⟩

theorem readPuks_carry {ks : List (SharedKey H)} (h : readPuks hepks ks p = (.ok (), p')) :
    ∃ R : Finset RoleKey, ∀ c : UserPlayer H, readPuks hepks ks (c.carry p)
      = (.ok (), carry { c with stalePUKs := c.stalePUKs \ R } p') := by
  induction ks generalizing p with
  | nil =>
    cases h
    exact ⟨∅, fun c => by rw [Finset.sdiff_empty]; rfl⟩
  | cons k ks ih =>
    unfold readPuks at h ⊢
    rcases hhepk : hepks.lookup k.hepkFp with _ | hepk
    · rw [hhepk] at h
      cases h
    rw [hhepk] at h
    obtain ⟨⟨⟩, p1, hadd, h1⟩ := bind_eq_ok.mp h
    obtain ⟨rk, hcarry⟩ := addPuk_carry hadd
    obtain ⟨R, hrest⟩ := ih h1
    refine ⟨insert rk R, fun c => bind_eq_ok.mpr ⟨(), _, hcarry c, ?_⟩⟩
    rw [hrest, Finset.sdiff_insert, ← Finset.erase_sdiff_comm]

/-- What the saved state does to the fields that are not reset: some roles are not stale any more, and
others are. -/
theorem readExisting_carry (h : readExisting host st {} = (.ok (), p)) :
    ∃ (R I : Finset RoleKey) (p' : UserPlayer H), ∀ c : UserPlayer H,
      readExisting host st (c.carry {}) = (.ok (), carry
        { c with stalePUKs := c.stalePUKs \ R ∪ I, sctlsc := some st.sctlsc } p') := by
  obtain ⟨⟨⟩, p1, hkeys, h1⟩ := bind_eq_ok.mp h
  obtain ⟨⟨⟩, p2, hpuks, h2⟩ := bind_eq_ok.mp h1
  obtain ⟨⟨⟩, p3, hstale, h3⟩ := bind_eq_ok.mp h2
  obtain ⟨R, hpuks'⟩ := readPuks_carry hpuks
  obtain ⟨I, hstale'⟩ := readStaleKeys_carry hstale
  refine ⟨R, I, p3, fun c => ?_⟩
  refine bind_eq_ok.mpr ⟨(), _, readKeys_carry hkeys c, ?_⟩
  refine bind_eq_ok.mpr ⟨(), _, hpuks' c, ?_⟩
  exact bind_eq_ok.mpr ⟨(), _, hstale' _, rfl⟩

/-- A player that the saved state has filled is filled the same way after a reset. -/
theorem readExisting_again (h : readExisting host st {} = (.ok (), p)) :
    readExisting host st p.reset = (.ok (), p) := by
  obtain ⟨R, I, p', hread⟩ := readExisting_carry h
  obtain rfl : p = carry { stalePUKs := ∅ \ R ∪ I, sctlsc := some st.sctlsc } p' :=
    state_unique h (hread {})
  rw [reset, hread]
  -- the second reading clears and marks the same roles
  have hroles : (∅ \ R ∪ I) \ R ∪ I = ∅ \ R ∪ I := by
    rw [Finset.empty_sdiff, Finset.empty_union, Finset.union_eq_right.mpr Finset.sdiff_subset]
  simp only [carry, hroles]

end Player

/-! ## The checks -/

section Checks

variable [MerkleHash H] [LinkFormat L H]

/-- The links that `openLinks` opens, from link `n` on. -/
def openedLinks (hepks : HEPKSet H) (uid : UID) (host : HostID) :
    ℕ → List L → Except CoreError (List (OpenDeviceChangeRes H))
  | _, [] => return []
  | n, link :: links => do
    let odc ← (openDeviceChange link hepks (some uid) host).mapError fun err =>
      .chainLoaderError false (.clOpenLinkError n err)
    let odcs ← openedLinks hepks uid host (n + 1) links
    return odc :: odcs

variable {links : List L} {odcs : List (OpenDeviceChangeRes H)} {n : ℕ}

theorem openLinks_of_ok (h : openedLinks u.hepks uid host n links = .ok odcs) :
    openLinks uid host n links u = (.ok (), { u with odcs := u.odcs ++ odcs }) := by
  induction links generalizing n u odcs with
  | nil =>
    cases h
    rw [append_nil]
    rfl
  | cons link links ih =>
    obtain ⟨odc, hodc, h1⟩ := bind_eq_ok.mp h
    obtain ⟨rest, hrest, h2⟩ := bind_eq_ok.mp h1
    cases h2
    refine lift_bind_eq_ok.mpr ⟨odc, hodc, ?_⟩
    have hnext := ih (u := { u with odcs := u.odcs ++ [odc] }) hrest
    rw [append_assoc] at hnext
    exact hnext

/-- A link that cannot be opened is not a race. -/
theorem openLinks_of_error {e : CoreError} (h : openedLinks u.hepks uid host n links = .error e) :
    isRace e = false ∧ ∃ u', openLinks uid host n links u = (.error e, u') := by
  induction links generalizing n u with
  | nil => cases h
  | cons link links ih =>
    rcases bind_eq_error.mp h with hodc | ⟨odc, hodc, h1⟩
    · obtain ⟨err, -, rfl⟩ := mapError_eq_error.mp hodc
      refine ⟨rfl, u, bind_eq_error.mpr (.inr ⟨u.hepks, u, rfl, ?_⟩)⟩
      exact bind_eq_error.mpr (.inl (Prod.ext hodc rfl))
    rcases bind_eq_error.mp h1 with hrest | ⟨rest, -, h2⟩
    · obtain ⟨hrace, u', hnext⟩ := ih (u := { u with odcs := u.odcs ++ [odc] }) hrest
      refine ⟨hrace, u', bind_eq_error.mpr (.inr ⟨u.hepks, u, rfl, ?_⟩)⟩
      refine bind_eq_error.mpr (.inr ⟨odc, u, Action.lift_eq_ok.mpr ⟨hodc, rfl⟩, ?_⟩)
      exact bind_eq_error.mpr (.inr ⟨(), _, rfl, hnext⟩)
    · cases h2

theorem linkChainer_of_openedLinks {hepks : HEPKSet H} (h : openedLinks hepks uid host n links = .ok odcs) :
    (odcs.map (·.gc.chainer)).map some = links.map linkChainer := by
  induction links generalizing n odcs with
  | nil =>
    cases h
    rfl
  | cons link links ih =>
    obtain ⟨odc, hodc, h1⟩ := bind_eq_ok.mp h
    obtain ⟨rest, hrest, h2⟩ := bind_eq_ok.mp h1
    cases h2
    have hgc := (openDeviceChange_eq_ok (mapError_eq_ok.mp hodc)).1
    have hlink : linkChainer (H := H) link = some odc.gc.chainer := by
      rw [linkChainer, hgc]
      rfl
    rw [map_cons, map_cons, map_cons, ih hrest, hlink]

variable [LinkHash L H] [LocationHash H]

/-- The part of a reply that is checked against the tree. -/
def userReply (raw : UserChain L H) : ChainReply L H :=
  ⟨raw.links, raw.locations, raw.merkle, raw.numUsernameLinks⟩

/-- The chain of a user. -/
def userChainArg (uid : UID) (raw : UserChain L H) : ChainArg H :=
  ⟨uid.entityID, .user, none, raw.merkle.root, "uid", none⟩

omit [DecidableEq H] [MerkleHash H] [LinkFormat L H] [LinkHash L H] [LocationHash H] in
theorem chainerAtIndex_eq (odcs : List (OpenDeviceChangeRes H)) :
    chainerAtIndex odcs = fun n => (odcs.map (·.gc.chainer))[n]? := by
  funext n
  rw [chainerAtIndex, getElem?_map]

/-- After the links are opened, the two checks of `checkRes` are those of `checkReply`. -/
theorem checkRes_of_opened {r : UserAttempt L H} (hodcs : u.odcs = []) (hsession : r.session = .ok ())
    (h : openedLinks u.hepks u.arg.uid host 0 r.raw.links = .ok odcs) :
    checkRes host r u = (do
      UserLoader.checking (checkReply "uid" (userChainArg u.arg.uid r.raw)
        (u.existing.map (·.chainState)) (userReply r.raw) (odcs.map (·.gc.chainer)))
      .update fun u => { u with
        allMerkleLeaves := (u.existing.map (·.merkleLeaves)).getD [] ++ u.base.merkleLeaves } :
      Action (UserLoader H) CoreError Unit) { u with odcs } := by
  unfold checkRes
  rw [bind_apply, lift_apply, hsession]
  dsimp only [Except.mapError]
  rw [bind_apply, read_apply]
  dsimp only
  rw [bind_apply, openLinks_of_ok h, hodcs, nil_append]
  -- the second check reads the same links and the same saved state as the first one
  simp only [checkUIDChain, checkMerkleUIDPaths, UserLoader.checking, checkReply, bind_apply,
    read_apply, Action.within, chainerAtIndex_eq, userReply, id]
  rcases checkChain _ _ _ _ _ _ u.base with ⟨e | ⟨⟩, b⟩
  · rfl
  · rfl

end Checks

/-! ## After the checks -/

section Finish

variable [MerkleHash H]

/-- A load by name ends with a user of that name. -/
def checkLoadedName (sv : Services H) (raw : UserChain L H) (username : String)
    (existingName : Option NameAndSeqnoBundle) : Except CoreError Unit :=
  if username = "" then .ok ()
  else
    sv.normalizeName username >>= fun nun =>
      match raw.usernames.getLast?, existingName with
      | some un, _ => refuse (nun ≠ un.name) (.nameError "username mismatch")
      | none, some un => refuse (nun ≠ un.b.name) (.nameError "username mismatch")
      | none, none => .error (.internalError "no existing name and no username links")

/-- What `checkUsername` finds: the number of the name. -/
def nameSeqno (sv : Services H) (host : HostID) (raw : UserChain L H) (arg : LoadUserArg)
    (uncs : List H) (existingName : Option NameAndSeqnoBundle) : Except CoreError Seqno := do
  let nseq ← sv.checkNameLoad arg.uid.entityID host uncs raw.usernames existingName raw.usernameUtf8
    raw.numUsernameLinks raw.merkle
  checkLoadedName sv raw arg.username existingName
  return nseq

omit [DecidableEq H] [MerkleHash H] in
theorem checkUsername_eq (raw : UserChain L H) (u : UserLoader H) : checkUsername sv host raw u =
      match nameSeqno sv host raw u.arg u.player.uncs (u.existing.map (·.username)) with
      | .ok nseq => (.ok (), { u with unseq := nseq })
      | .error e => (.error e, u) := by
  by_cases hname : u.arg.username = ""
  · simp only [checkUsername, nameSeqno, checkLoadedName, hname, ne_eq, not_true_eq_false, if_true,
      if_false, bind_apply, read_apply, lift_apply, update_apply, id]
    cases sv.checkNameLoad u.arg.uid.entityID host u.player.uncs raw.usernames (u.existing.map (·.username))
      raw.usernameUtf8 raw.numUsernameLinks raw.merkle with
    | error e | ok nseq => rfl
  simp only [checkUsername, nameSeqno, checkLoadedName, hname, ne_eq, not_false_eq_true, if_true,
    if_false, bind_apply, read_apply, lift_apply, id]
  cases sv.checkNameLoad u.arg.uid.entityID host u.player.uncs raw.usernames (u.existing.map (·.username))
    raw.usernameUtf8 raw.numUsernameLinks raw.merkle with
  | error e => rfl
  | ok nseq =>
    cases sv.normalizeName u.arg.username with
    | error e => rfl
    | ok nun =>
      cases raw.usernames.getLast? with
      | some un =>
        by_cases hun : nun = un.name
        · simp [hun, Action.refuse, refuse, bind, Except.bind, pure, Except.pure]
        · simp [hun, Action.refuse, refuse, bind, Except.bind]
      | none =>
        cases hex : u.existing with
        | none => rfl
        | some st =>
          by_cases hun : nun = st.username.b.name
          · simp [hex, hun, Action.refuse, refuse, bind, Except.bind, pure, Except.pure]
          · simp [hun, Action.refuse, refuse, bind, Except.bind]

/-- `finishUser` reads the object only to save the hash of the last link. -/
theorem finishUser_eq (r : UserAttempt L H) (u : UserLoader H) : (finishUser sv host r u).1 =
      match playLinks sv (u.playArg host r.raw) u.odcs u.player with
      | (.error e, _) => .error e
      | (.ok (), p) =>
        nameSeqno sv host r.raw u.arg p.uncs (u.existing.map (·.username)) >>= fun nseq =>
          match u.base.fatalError with
          | some err => .error err
          | none => saveUserState sv r.raw { u with player := p, unseq := nseq } := by
  simp only [finishUser, bind_apply, read_apply, UserLoader.playing, Action.within, id]
  rcases playLinks sv (u.playArg host r.raw) u.odcs u.player with ⟨e | ⟨⟩, p⟩
  · rfl
  simp only [checkUsername_eq]
  cases nameSeqno sv host r.raw u.arg p.uncs (u.existing.map (·.username)) with
  | error e => rfl
  | ok nseq =>
    dsimp only
    cases u.base.fatalError with
    | none | some err => rfl

/-- Of the checks, the rest of an attempt reads the hash of the last link. -/
theorem finishUser_of_base (r : UserAttempt L H) (u : UserLoader H) (n : Seqno) {b : BaseChainLoader H}
    (hfatal : b.fatalError = none) :
    (finishUser sv host r { u with base := b, unseq := n }).1
      = (finishUser sv host r { u with base := { lastHash := b.lastHash }, unseq := 0 }).1 := by
  rw [finishUser_eq, finishUser_eq]
  simp only [hfatal]
  rfl

variable {raw : UserChain L H} {s : UserSigchainState H}

section

omit [DecidableEq H]

/-- With no links, the saved state stays, except for the name. -/
theorem saveUserState_of_nil (hlinks : raw.links = []) (u : UserLoader H) : saveUserState sv raw u =
      match u.existing with
      | none => .error (.internalError "no links in sigchain")
      | some st => newNameBundle sv raw.usernameUtf8 >>= fun b =>
          .ok { st with username := ⟨b, st.username.s⟩ } := by
  unfold saveUserState
  cases hex : u.existing with
  | none => simp [refuse, hlinks, bind, Except.bind]
  | some st => simp [refuse, hlinks, bind, Except.bind, pure, Except.pure]

theorem saveUserState_eq_ok (hlinks : raw.links ≠ []) (h : saveUserState sv raw u = .ok s) :
    s.merkleLeaves = u.allMerkleLeaves ∧ s.hepks = u.hepks := by
  have h1 := of_bind_eq_ok h
  obtain ⟨b, -, h2⟩ := bind_eq_ok.mp h1
  split at h2
  · next hnil _ => exact absurd hnil hlinks
  split at h2
  · obtain ⟨devices, -, h3⟩ := bind_eq_ok.mp h2
    cases h3
    exact ⟨rfl, rfl⟩
  · cases h2

end

/-- The parts of `finishUser` when it succeeds. -/
theorem finishUser_eq_ok {r : UserAttempt L H} (h : (finishUser sv host r u).1 = .ok s) :
    ∃ p nseq, saveUserState sv r.raw { u with player := p, unseq := nseq } = .ok s := by
  rw [finishUser_eq] at h
  split at h
  · cases h
  · next p _ =>
    obtain ⟨nseq, -, h1⟩ := bind_eq_ok.mp h
    split at h1
    · cases h1
    · exact ⟨p, nseq, h1⟩

end Finish

/-! ## The loader as a client -/

section Client

variable [MerkleHash H] [LinkHash L H] [LocationHash H] [LinkFormat L H] [KeyHash H]

/-- The player that a saved state fills. -/
def savedPlayer (host : HostID) (saved : Option (UserSigchainState H)) : UserPlayer H :=
  match saved with
  | none => {}
  | some st => (readExisting host st {}).2

/-- The user of an attempt. -/
def uidOf (arg : LoadUserArg) (r : UserAttempt L H) : UID :=
  if arg.uid ≠ 0 then arg.uid else r.resolved.toOption.getD 0

/-- A loader after the checks of a reply, as far as the rest of an attempt reads it. -/
def checkedUser (host : HostID) (saved : Option (UserSigchainState H)) (arg : LoadUserArg)
    (hepks : HEPKSet H) (odcs : List (OpenDeviceChangeRes H)) (leaves : List (MerkleLeaf H))
    (lastHash : Option H) (r : UserAttempt L H) : UserLoader H where
  base := { lastHash }
  arg := { arg with uid := uidOf arg r }
  existing := saved
  odcs := odcs
  hepks := hepks
  allMerkleLeaves := leaves
  player := savedPlayer host saved

/-- The loader of users. It never drops the hashes of links. -/
def userClient (sv : Services H) (host : HostID) (saved : Option (UserSigchainState H)) (arg : LoadUserArg) :
    ChainClient (UserAttempt L H) L H (OpenDeviceChangeRes H) (UserSigchainState H) where
  which := "uid"
  arg r := userChainArg (uidOf arg r) r.raw
  existing := saved.map (·.chainState)
  savedLeaves := (saved.map (·.merkleLeaves)).getD []
  savedKeys := saved.map (·.hepks)
  keepsHashes := true
  reply r := userReply r.raw
  replyKeys r := importHEPKSet r.raw.hepks
  chainerOf := linkChainer
  openLinks keys r := do
    r.session.mapError (.chainLoaderError false)
    openedLinks keys (uidOf arg r) host 0 r.raw.links
  chainer odc := odc.gc.chainer
  finish keys odcs leaves last r :=
    (finishUser sv host r (checkedUser host saved arg keys odcs leaves last r)).1
  keeps r := r.raw.links.isEmpty
  leavesOf s := s.merkleLeaves
  keysOf s := s.hepks
  testing_eq _ := rfl
  chainers_eq h := by
    have hopen := of_bind_eq_ok h
    exact linkChainer_of_openedLinks hopen
  links_of_keeps h := isEmpty_iff.mp h
  savedKeys_of_keeps h hfinish := by
    obtain ⟨p, nseq, hsave⟩ := finishUser_eq_ok hfinish
    rw [saveUserState_of_nil (isEmpty_iff.mp h)] at hsave
    cases saved with
    | none => cases hsave
    | some st =>
      obtain ⟨b, -, hst⟩ := bind_eq_ok.mp hsave
      cases hst
      exact ⟨nofun, rfl⟩
  finish_of_keeps h keys leaves leaves' last := by
    simp only [finishUser_eq]
    rfl
  finish_saves h hfinish := by
    obtain ⟨p, nseq, hsave⟩ := finishUser_eq_ok hfinish
    refine saveUserState_eq_ok (fun hnil => ?_) hsave
    rw [hnil] at h
    cases h

end Client

/-! ## The loader between attempts -/

section Ready

variable {saved : Option (UserSigchainState H)} {arg : LoadUserArg} {r : UserAttempt L H} {u' : UserLoader H}
  {left : Leftover H}

/-- After a reset, the saved state fills the player as it fills a new one. -/
def Refills (host : HostID) (saved : Option (UserSigchainState H)) (p : UserPlayer H) : Prop :=
  match saved with
  | none => p.reset = {}
  | some st => readExisting host st p.reset = readExisting host st {}

/-- What `resolveUID` finds. -/
def requestedUid (sv : Services H) (arg : LoadUserArg) (r : UserAttempt L H) : Except CoreError UID :=
  if arg.uid ≠ 0 then .ok arg.uid else sv.normalizeName arg.username >>= fun _ => r.resolved

/-- Whether the saved state can be read. -/
def readable (host : HostID) (saved : Option (UserSigchainState H)) : Except CoreError Unit :=
  match saved with
  | none => .ok ()
  | some st => (readExisting host st {}).1

/-- The part of `prepareUser` that may fail: the UID of the request. -/
def admitUser (sv : Services H) (host : HostID) (saved : Option (UserSigchainState H))
    (arg : LoadUserArg) (r : UserAttempt L H) : Except CoreError UID := do
  arg.check
  let uid ← requestedUid sv arg r
  readable host saved
  return uid

/-- The loader when the reply comes. -/
def preparedUser [KeyHash H] (host : HostID) (saved : Option (UserSigchainState H)) (uid : UID)
    (r : UserAttempt L H) (u : UserLoader H) : UserLoader H :=
  { u with
    arg := { u.arg with uid }
    existing := saved
    odcs := []
    hepks := mergeHEPKs ((saved.map (·.hepks)).getD u.hepks) (importHEPKSet r.raw.hepks)
    player := savedPlayer host saved }

section

omit [DecidableEq H]

theorem uidOf_of_requestedUid (h : requestedUid sv arg r = .ok uid) : uidOf arg r = uid := by
  unfold requestedUid at h
  unfold uidOf
  split at h
  · next hne =>
    rw [if_pos hne]
    exact Except.ok.inj h
  · next hzero =>
    obtain ⟨name, -, hres⟩ := bind_eq_ok.mp h
    rw [if_neg hzero, hres]
    rfl

theorem resolveUID_apply (r : UserAttempt L H) (u : UserLoader H) : resolveUID sv r u =
      match requestedUid sv u.arg r with
      | .ok uid => (.ok (), { u with arg := { u.arg with uid } })
      | .error e => (.error e, u) := by
  by_cases huid : u.arg.uid = 0
  · simp only [resolveUID, requestedUid, huid, ne_eq, not_true_eq_false, if_false, bind_apply,
      read_apply, lift_apply, update_apply]
    cases sv.normalizeName u.arg.username with
    | error e => rfl
    | ok name =>
      cases r.resolved with
      | error e | ok uid => rfl
  · simp [resolveUID, requestedUid, huid, bind_apply]

end

theorem uidOf_of_admitUser (h : admitUser sv host saved arg r = .ok uid) : uidOf arg r = uid := by
  have h1 := of_bind_eq_ok h
  obtain ⟨uid', huid, h2⟩ := bind_eq_ok.mp h1
  have h3 := of_bind_eq_ok h2
  cases h3
  exact uidOf_of_requestedUid huid

theorem loadExistingUser_eq_ok {p : UserPlayer H} (hplayer : Refills host saved p)
    (hu : u.player = p.reset) (hnone : u.existing = none) :
    loadExistingUser host saved u = (.ok (), u') ↔ readable host saved = .ok () ∧ u' = { u with
        existing := saved
        hepks := (saved.map (·.hepks)).getD u.hepks
        player := savedPlayer host saved } := by
  obtain ⟨base, arg, existing, odcs, hepks, leaves, unseq, player⟩ := u
  obtain rfl : existing = none := hnone
  obtain rfl : player = p.reset := hu
  cases saved with
  | none =>
    have hnew : p.reset = {} := hplayer
    simp [loadExistingUser, readable, savedPlayer, hnew, eq_comm]
  | some st =>
    have hread : readExisting host st p.reset = readExisting host st {} := hplayer
    simp only [loadExistingUser, UserLoader.playing, bind_apply,
      update_apply, Action.within, hread, Prod.mk.injEq]
    exact and_congr_right fun _ => eq_comm

variable [KeyHash H]

theorem prepareUser_eq_ok (hplayer : Refills host saved u.player) :
    prepareUser sv host saved r u = (.ok (), u') ↔
      ∃ uid, admitUser sv host saved u.arg r = .ok uid ∧ u' = preparedUser host saved uid r u := by
  constructor
  · intro h
    have h1 := update_bind_eq_ok.mp h
    have h2 := Action.read_bind_eq_ok.mp h1
    obtain ⟨⟨⟩, hcheck, h3⟩ := lift_bind_eq_ok.mp h2
    obtain ⟨⟨⟩, u4, hresolve, h4⟩ := bind_eq_ok.mp h3
    rw [resolveUID_apply] at hresolve
    split at hresolve
    · next uid huid =>
      cases hresolve
      obtain ⟨⟨⟩, u5, hload, h5⟩ := bind_eq_ok.mp h4
      obtain ⟨hreadable, rfl⟩ := (loadExistingUser_eq_ok hplayer rfl rfl).mp hload
      cases h5
      refine ⟨uid, ?_, rfl⟩
      refine bind_eq_ok.mpr ⟨(), hcheck, bind_eq_ok.mpr ⟨uid, huid, ?_⟩⟩
      exact bind_eq_ok.mpr ⟨(), hreadable, rfl⟩
    · cases hresolve
  · rintro ⟨uid, huser, rfl⟩
    obtain ⟨⟨⟩, hcheck, huser1⟩ := bind_eq_ok.mp huser
    obtain ⟨uid', huid, huser2⟩ := bind_eq_ok.mp huser1
    obtain ⟨⟨⟩, hreadable, huser3⟩ := bind_eq_ok.mp huser2
    cases huser3
    refine bind_eq_ok.mpr ⟨(), _, rfl, ?_⟩
    refine lift_bind_eq_ok.mpr ⟨(), hcheck, ?_⟩
    have hresolve :
        resolveUID sv r u.resetState = (.ok (),
            { u.resetState with arg := { u.arg with uid } }) := by
      rw [resolveUID_apply]
      change (match requestedUid sv u.arg r with | .ok _ => _ | .error _ => _) = _
      rw [huid]
      rfl
    refine bind_eq_ok.mpr ⟨(), _, hresolve, ?_⟩
    exact bind_eq_ok.mpr ⟨(), _, (loadExistingUser_eq_ok hplayer rfl rfl).mpr ⟨hreadable, rfl⟩, rfl⟩

/-- The loader before an attempt, with what is left of earlier ones. -/
structure UserReady (host : HostID) (saved : Option (UserSigchainState H)) (arg : LoadUserArg)
    (left : Leftover H) (u : UserLoader H) : Prop where
  hashes : u.base.linkHashes = left.hashes
  leaves : u.base.merkleLeaves = left.leaves
  fatalError : u.base.fatalError = none
  arg : u.arg = arg
  hepks : saved = none → u.hepks = left.hepks
  player : Refills host saved u.player

omit [KeyHash H] in
theorem UserReady.new : UserReady host saved arg {} (newUserLoader arg) := by
  refine ⟨rfl, rfl, rfl, rfl, fun _ => rfl, ?_⟩
  cases saved with
  | none | some st => rfl

omit [KeyHash H] in
/-- A player that was filled is filled again. -/
theorem refills_savedPlayer (h : readable host saved = .ok ()) :
    Refills host saved (savedPlayer host saved) := by
  cases saved with
  | none => rfl
  | some st =>
    have hread : readExisting host st {} = (.ok (), (readExisting host st {}).2) := Prod.ext h rfl
    exact (readExisting_again hread).trans hread.symm

variable [MerkleHash H] [LinkHash L H] [LocationHash H] [LinkFormat L H]

omit [LinkHash L H] [LocationHash H] in
theorem keys_of_ready (sv : Services H) (h : UserReady host saved arg left u) (uid : UID)
    (r : UserAttempt L H) :
    (preparedUser host saved uid r u).hepks = (userClient sv host saved arg).keys left r := by
  cases saved with
  | none => exact congrArg (mergeHEPKs · _) (h.hepks rfl)
  | some st => rfl

section UserReady

variable (h : UserReady host saved arg left u) (huser : admitUser sv host saved arg r = .ok uid)

include h huser

/-- The checks of a prepared loader are those of the client. Only those of the links and paths may
fail with a race. -/
theorem checkRes_cases :
    (∃ e u', isRace e = false ∧ checkRes host r (preparedUser host saved uid r u) = (.error e, u') ∧
        (userClient sv host saved arg).attempt left r = .error e) ∨
      ∃ odcs, (userClient sv host saved arg).openLinks ((userClient sv host saved arg).keys left r)
        r = .ok odcs ∧
        ∀ res b, checkReply "uid" (userChainArg (uidOf arg r) r.raw) (saved.map (·.chainState))
            (userReply r.raw) (odcs.map (·.gc.chainer)) u.base = (res, b) →
          checkRes host r (preparedUser host saved uid r u) =
            match res with
            | .error e => (.error e, { preparedUser host saved uid r u with odcs, base := b })
            | .ok () => (.ok (), { preparedUser host saved uid r u with
                odcs
                base := b
                allMerkleLeaves := (saved.map (·.merkleLeaves)).getD [] ++ b.merkleLeaves }) := by
  have huid' : uidOf arg r = uid := uidOf_of_admitUser huser
  have hkeys := keys_of_ready sv h uid r
  cases hsession : r.session with
  | error e =>
    refine .inl ⟨.chainLoaderError false e, preparedUser host saved uid r u, rfl, ?_, ?_⟩
    · rw [checkRes, hsession]
      rfl
    unfold ChainClient.attempt userClient
    dsimp only
    rw [hsession]
    rfl
  | ok v =>
    cases hopen : openedLinks (preparedUser host saved uid r u).hepks uid host 0 r.raw.links with
    | error e =>
      obtain ⟨hrace, u', hlinks⟩ := openLinks_of_error hopen
      refine .inl ⟨e, u', hrace, ?_, ?_⟩
      · rw [checkRes, bind_apply, hsession]
        exact bind_eq_error.mpr (.inr ⟨_, _, rfl, bind_eq_error.mpr (.inl hlinks)⟩)
      refine bind_eq_error.mpr (.inl ?_)
      rw [← hkeys]
      refine bind_eq_error.mpr (.inr ⟨(), by rw [hsession]; rfl, ?_⟩)
      rw [huid']
      exact hopen
    | ok odcs =>
      refine .inr ⟨odcs, ?_, ?_⟩
      · rw [← hkeys]
        refine bind_eq_ok.mpr ⟨(), by rw [hsession]; rfl, ?_⟩
        rw [huid']
        exact hopen
      intro res b hcheck
      rw [huid'] at hcheck
      rw [checkRes_of_opened rfl hsession hopen]
      simp only [preparedUser, UserLoader.checking, bind_apply, Action.within, hcheck]
      cases res with
      | error e | ok v => rfl

/-- An attempt of the loader is an attempt of the client over what is left. -/
theorem runOnceUser_eq :
    (runOnceUser sv host saved r u).1 = (userClient sv host saved arg).attempt left r := by
  have hprepare := (prepareUser_eq_ok h.player).mpr ⟨uid, h.arg.symm ▸ huser, rfl⟩
  rw [runOnceUser, bind_apply, hprepare]
  dsimp only
  rw [bind_apply]
  rcases checkRes_cases h huser with ⟨e, u', -, hcheck, hattempt⟩ | ⟨odcs, hopen, hcheck⟩
  · rw [hcheck, hattempt]
  have hch := (userClient sv host saved arg).chainers_eq hopen
  have hused := checkReply_of_used ((userClient sv host saved arg).testing_eq r) hch "uid"
    (saved.map (·.chainState)) h.fatalError
  rw [h.hashes, h.leaves] at hused
  rcases hused with ⟨e, b1, b2, hloader, hclient⟩ | ⟨b, hfatal, hloader, hclient⟩
  · rw [hcheck _ _ hloader]
    exact (ChainClient.attempt_of_refused hopen hclient).symm
  rw [hcheck _ _ hloader]
  refine Eq.trans ?_ (ChainClient.attempt_of_checked hopen hclient).symm
  rw [← keys_of_ready sv h uid r, userClient]
  dsimp only
  refine (finishUser_of_base r { preparedUser host saved uid r u with
    odcs, allMerkleLeaves := (saved.map (·.merkleLeaves)).getD [] ++ b.merkleLeaves }
    u.unseq hfatal).trans ?_
  rw [checkedUser, uidOf_of_admitUser huser, ← h.arg]
  rfl

end UserReady

/-- An attempt whose checks fail with a race. -/
def RacedUser (sv : Services H) (host : HostID) (saved : Option (UserSigchainState H))
    (r : UserAttempt L H) (u u' : UserLoader H) : Prop :=
  ∃ u₁ e, prepareUser sv host saved r u = (.ok (), u₁) ∧
    checkRes host r u₁ = (.error (.chainLoaderError true e), u')

theorem RacedUser.runOnceUser (h : RacedUser sv host saved r u u') :
    ∃ e, isRace e ∧ runOnceUser sv host saved r u = (.error e, u') := by
  obtain ⟨u1, e, hprepare, hcheck⟩ := h
  refine ⟨.chainLoaderError true e, rfl, bind_eq_error.mpr (.inr ⟨(), u1, hprepare, ?_⟩)⟩
  exact bind_eq_error.mpr (.inl hcheck)

/-- What is left after a race. The request now has the UID of the user. -/
theorem UserReady.raced {failed : List (UserAttempt L H)}
    (h : UserReady host saved arg left u) (hleft : (userClient sv host saved arg).LeftBy failed left)
    (hraced : RacedUser sv host saved r u u') :
    ∃ left', (userClient sv host saved arg).LeftBy (failed ++ [r]) left' ∧
      UserReady host saved { arg with uid := uidOf arg r } left' u' ∧ arg.check = .ok () ∧
      requestedUid sv arg r = .ok (uidOf arg r) := by
  obtain ⟨u1, e, hprepare, hcheck⟩ := hraced
  obtain ⟨uid, huser, rfl⟩ := (prepareUser_eq_ok h.player).mp hprepare
  rw [h.arg] at huser
  rcases checkRes_cases h huser with ⟨e', u2, hrace, hcheck', -⟩ | ⟨odcs, hopen, hcheck'⟩
  · obtain ⟨herror, -⟩ := Prod.mk.inj (hcheck.symm.trans hcheck')
    cases herror
    cases hrace
  have hch := (userClient sv host saved arg).chainers_eq hopen
  rcases hreply : checkReply "uid" (userChainArg (uidOf arg r) r.raw) (saved.map (·.chainState))
    (userReply r.raw) (odcs.map (·.gc.chainer)) u.base with ⟨e' | ⟨⟩, b⟩
  · obtain ⟨herror, rfl⟩ := Prod.mk.inj (hcheck.symm.trans (hcheck' _ _ hreply))
    cases herror
    obtain ⟨hhashes, hfatal, leaves, hleaves, hstops⟩ :=
      checkReply_race ((userClient sv host saved arg).testing_eq r) hch hreply rfl
    obtain ⟨⟨⟩, hargs, huser1⟩ := bind_eq_ok.mp huser
    obtain ⟨uid', huid, huser2⟩ := bind_eq_ok.mp huser1
    obtain ⟨⟨⟩, hreadable, -⟩ := bind_eq_ok.mp huser2
    refine ⟨⟨b.linkHashes, b.merkleLeaves, (preparedUser host saved uid r u).hepks⟩, ?_, ?_, hargs,
      by rw [uidOf_of_requestedUid huid, huid]⟩
    · refine hleft.concat (hhashes.trans (congrArg (· ++ _) h.hashes))
        (hleaves.trans (congrArg (· ++ _) h.leaves)) hstops fun hnone => ?_
      obtain rfl : saved = none := Option.map_eq_none_iff.mp hnone
      exact congrArg (mergeHEPKs · _) (h.hepks rfl)
    refine ⟨rfl, rfl, hfatal.trans h.fatalError, ?_, fun _ => rfl, refills_savedPlayer hreadable⟩
    rw [uidOf_of_admitUser huser, ← h.arg]
    rfl
  · cases (hcheck.symm.trans (hcheck' _ _ hreply))

end Ready

end Foks.Client
