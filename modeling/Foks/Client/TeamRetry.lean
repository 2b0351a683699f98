import Foks.Client.Attempt
import Foks.Client.TeamLoader

/-!
# Attempts of the loader of teams

The loader of teams as a `ChainClient`. Between two attempts it drops the links that it opened, their
hashes, and the saved state, which it reads again; the leaves of the links, and the keys of a team
that was not saved yet, stay. The team that a view token was made for stays as well, and a load by ID
and by name is refused.
-/

namespace Foks.Client

open Lib Merkle LinkHash LocationHash LinkFormat List TeamLoader
open Lib.Action (bind_apply lift_apply lift_eq_ok read_apply update_apply)

variable {L H X A : Type} {sv : TeamServices L H X A}

/-! ## The links -/

section Links

variable [DecidableEq H] [MerkleHash H] [LinkFormat L H] {tid : TeamID} {host : HostID}

/-- The links that `openTeamLinks` opens, from link `n` on. -/
def openedTeamLinks (hepks : HEPKSet H) (tid : TeamID) (host : HostID) :
    ℕ → Roster H → Option Role → List L → Except CoreError (List (OpenTeamLinkRes H))
  | _, _, _, [] => return []
  | n, roster, floor, link :: links => do
    let otlr ← (openTeamLink link hepks (some tid) host roster floor).mapError fun err =>
      .chainLoaderError false (.clOpenLinkError n err)
    let otlrs ← openedTeamLinks hepks tid host (n + 1) otlr.rosterPost
      (otlr.rosterDelegationFloor.or floor) links
    return otlr :: otlrs

/-- The roster after the links. -/
def rosterAfter (roster : Roster H) (otlrs : List (OpenTeamLinkRes H)) : Roster H :=
  (otlrs.getLast?.map (·.rosterPost)).getD roster

omit [DecidableEq H] [MerkleHash H] in
theorem rosterAfter_cons (roster : Roster H) (otlr : OpenTeamLinkRes H) (otlrs : List (OpenTeamLinkRes H)) :
    rosterAfter roster (otlr :: otlrs) = rosterAfter otlr.rosterPost otlrs := by
  unfold rosterAfter
  rw [getLast?_cons]
  cases otlrs.getLast? with
  | none | some last => rfl

variable {roster : Roster H} {floor : Option Role} {links : List L} {l : TeamLoader H X}
  {otlrs : List (OpenTeamLinkRes H)} {n : ℕ}

theorem openedTeamLinks_cons {hepks : HEPKSet H} {link : L} :
    openedTeamLinks hepks tid host n roster floor (link :: links) = .ok otlrs ↔
      ∃ otlr, openTeamLink link hepks (some tid) host roster floor = .ok otlr ∧
        ∃ rest, openedTeamLinks hepks tid host (n + 1) otlr.rosterPost
          (otlr.rosterDelegationFloor.or floor) links
          = .ok rest ∧ otlr :: rest = otlrs := by
  simp only [openedTeamLinks, bind_eq_ok, mapError_eq_ok, pure, Except.pure, Except.ok.injEq]

theorem openTeamLinks_of_ok (h : openedTeamLinks l.hepks l.arg.teamID host n roster floor links = .ok otlrs) :
    openTeamLinks host n roster floor links l
      = (.ok (), { l with otlrs := l.otlrs ++ otlrs, rosterPost := rosterAfter roster otlrs }) := by
  induction links generalizing n roster floor l otlrs with
  | nil =>
    cases h
    rw [append_nil]
    rfl
  | cons link links ih =>
    obtain ⟨otlr, hotlr, rest, hrest, rfl⟩ := openedTeamLinks_cons.mp h
    refine Action.lift_bind_eq_ok.mpr ⟨otlr, mapError_eq_ok.mpr hotlr, ?_⟩
    have hnext := ih (l := { l with otlrs := l.otlrs ++ [otlr] }) hrest
    rw [append_assoc, ← rosterAfter_cons roster] at hnext
    exact hnext

/-- A link that cannot be opened is not a race. -/
theorem openTeamLinks_of_error {e : CoreError}
    (h : openedTeamLinks l.hepks l.arg.teamID host n roster floor links = .error e) :
    isRace e = false ∧ ∃ l', openTeamLinks host n roster floor links l = (.error e, l') := by
  induction links generalizing n roster floor l with
  | nil => cases h
  | cons link links ih =>
    rcases bind_eq_error.mp h with hotlr | ⟨otlr, hotlr, h1⟩
    · obtain ⟨err, -, rfl⟩ := mapError_eq_error.mp hotlr
      refine ⟨rfl, l, Action.bind_eq_error.mpr (.inr ⟨l, l, rfl, ?_⟩)⟩
      exact Action.bind_eq_error.mpr (.inl (Prod.ext hotlr rfl))
    rcases bind_eq_error.mp h1 with hrest | ⟨rest, -, h2⟩
    · obtain ⟨hrace, l', hnext⟩ := ih (l := { l with otlrs := l.otlrs ++ [otlr] }) hrest
      refine ⟨hrace, l', Action.bind_eq_error.mpr (.inr ⟨l, l, rfl, ?_⟩)⟩
      refine Action.bind_eq_error.mpr (.inr ⟨otlr, l, lift_eq_ok.mpr ⟨hotlr, rfl⟩, ?_⟩)
      exact Action.bind_eq_error.mpr (.inr ⟨(), _, rfl, hnext⟩)
    · cases h2

theorem linkChainer_of_openedTeamLinks {hepks : HEPKSet H}
    (h : openedTeamLinks hepks tid host n roster floor links = .ok otlrs) :
    (otlrs.map (·.gc.chainer)).map some = links.map linkChainer := by
  induction links generalizing n roster floor otlrs with
  | nil =>
    cases h
    rfl
  | cons link links ih =>
    obtain ⟨otlr, hotlr, rest, hrest, rfl⟩ := openedTeamLinks_cons.mp h
    have hgc := (openTeamLink_eq_ok hotlr).1
    have hlink : linkChainer (H := H) link = some otlr.gc.chainer := by
      rw [linkChainer, hgc]
      rfl
    rw [map_cons, map_cons, map_cons, ih hrest, hlink]

variable [LinkHash L H] [LocationHash H]

/-- The part of a reply that is checked against the tree. -/
def teamReply (raw : TeamChain L H A) : ChainReply L H :=
  ⟨raw.links, raw.locations, raw.merkle, raw.numTeamnameLinks⟩

/-- The chain of a team. -/
def teamChainArg (tid : TeamID) (raw : TeamChain L H A) : ChainArg H :=
  ⟨tid.entityID, .team, none, raw.merkle.root, "team", none⟩

omit [DecidableEq H] [MerkleHash H] [LinkFormat L H] [LinkHash L H] [LocationHash H] in
theorem teamChainerAtIndex_eq (otlrs : List (OpenTeamLinkRes H)) :
    teamChainerAtIndex otlrs = fun n => (otlrs.map (·.gc.chainer))[n]? := by
  funext n
  rw [teamChainerAtIndex, getElem?_map]

/-- After the links are opened, the two checks of `checkTeamRes` are those of `checkReply`. -/
theorem checkTeamRes_of_opened {r : TeamAttempt L H A} (hotlrs : l.otlrs = []) (hsession : r.session = .ok ())
    (h : openedTeamLinks l.hepks l.arg.teamID l.arg.host 0 l.rosterPre
      l.player.rosterDelegationFloor r.raw.links = .ok otlrs) :
    checkTeamRes r l = (do
      checking (checkReply "team_id" (teamChainArg l.arg.teamID r.raw)
        (l.existing.map (·.chainState)) (teamReply r.raw) (otlrs.map (·.gc.chainer)))
      .update fun l => { l with
        allMerkleLeaves := (l.existing.map (·.merkleLeaves)).getD [] ++ l.base.merkleLeaves } :
      Action (TeamLoader H X) CoreError Unit)
        { l with otlrs, rosterPost := rosterAfter l.rosterPre otlrs } := by
  unfold checkTeamRes
  rw [bind_apply, lift_apply, hsession]
  dsimp only [Except.mapError]
  rw [bind_apply, read_apply]
  dsimp only [id]
  rw [bind_apply, openTeamLinks_of_ok h, hotlrs, nil_append]
  -- the second check reads the same links and the same saved state as the first one
  simp only [checkTeamChain, checkMerkleTeamIDPaths, checking, checkReply,
    bind_apply, read_apply, Action.within, teamChainerAtIndex_eq, teamReply, id]
  rcases checkChain _ _ _ _ _ _ l.base with ⟨e | ⟨⟩, b⟩
  · rfl
  · rfl

end Links

/-! ## After the checks -/

section Finish

variable {raw : TeamChain L H A} {l : TeamLoader H X} {s : TeamChainState H X} {boxed : X}

variable (sv raw)

/-- A load by name ends with a team of that name. -/
def checkLoadedTeamname (name ntn : String) :
    Except CoreError Unit :=
  if name = "" then .ok ()
  else sv.normalizeName raw.teamnameUtf8 >>= fun n =>
    refuse (n ≠ ntn) (.chainLoaderError false (.nameError "teamname mismatch"))

/-- What `checkTeamname` finds: the number of the name. -/
def teamnameSeqno (tncs : List H)
    (l : TeamLoader H X) : Except CoreError Seqno :=
  if l.arg.teamID.isAdHocTeam then .ok l.tnseq
  else do
    let nseq ← sv.checkNameLoad l.arg.teamID.entityID l.arg.host tncs raw.teamnames (l.existing.map (·.name))
      raw.teamnameUtf8 raw.numTeamnameLinks raw.merkle
    checkLoadedTeamname sv raw l.arg.name l.ntn
    return nseq

variable {sv raw}

theorem checkTeamname_eq (raw : TeamChain L H A) (l : TeamLoader H X) : checkTeamname sv raw l =
      match teamnameSeqno sv raw l.player.tncs l with
      | .ok nseq => (.ok (), { l with tnseq := nseq })
      | .error e => (.error e, l) := by
  by_cases hadHoc : l.arg.teamID.isAdHocTeam
  · simp [checkTeamname, teamnameSeqno, hadHoc, bind_apply]
  by_cases hname : l.arg.name = ""
  · simp only [checkTeamname, teamnameSeqno, hadHoc, hname, bind_apply,
      read_apply, id]
    cases sv.checkNameLoad l.arg.teamID.entityID l.arg.host l.player.tncs raw.teamnames
      (l.existing.map (·.name)) raw.teamnameUtf8 raw.numTeamnameLinks raw.merkle with
    | error e | ok nseq => rfl
  simp only [checkTeamname, teamnameSeqno, checkLoadedTeamname, hadHoc, hname, ne_eq, bind_apply,
    read_apply, id]
  cases sv.checkNameLoad l.arg.teamID.entityID l.arg.host l.player.tncs raw.teamnames
    (l.existing.map (·.name)) raw.teamnameUtf8 raw.numTeamnameLinks raw.merkle with
  | error e => rfl
  | ok nseq =>
    cases sv.normalizeName raw.teamnameUtf8 with
    | error e => rfl
    | ok ntn =>
      by_cases hntn : ntn = l.ntn
      · simp [hntn, Action.refuse, refuse, bind, Except.bind, pure, Except.pure]
      · simp [hntn, Action.refuse, refuse, bind, Except.bind]

/-- `finishTeam` reads the object only to save the hash of the last link. -/
theorem finishTeam_eq (r : TeamAttempt L H A) (l : TeamLoader H X) : (finishTeam sv r l).1 =
      match playTeamLinks l.playArg l.otlrs l.player with
      | (.error e, _) => .error e
      | (.ok (), p) =>
        teamnameSeqno sv r.raw p.tncs l >>= fun nseq =>
          sv.openBoxes l.arg p.ptks l.hepks l.rosterPost (l.existing.map (·.boxed)) r.raw >>= fun boxed =>
              match l.base.fatalError with
              | some err => .error err
              | none => saveTeamState sv r.raw boxed { l with player := p, tnseq := nseq } := by
  simp only [finishTeam, bind_apply, read_apply, playing, Action.within, id]
  rcases playTeamLinks l.playArg l.otlrs l.player with ⟨e | ⟨⟩, p⟩
  · rfl
  simp only [checkTeamname_eq]
  have hseqno : teamnameSeqno sv r.raw p.tncs { l with player := p } = teamnameSeqno sv r.raw p.tncs l := rfl
  rw [hseqno]
  cases teamnameSeqno sv r.raw p.tncs l with
  | error e => rfl
  | ok nseq =>
    dsimp only
    cases sv.openBoxes l.arg p.ptks l.hepks l.rosterPost (l.existing.map (·.boxed)) r.raw with
    | error e => rfl
    | ok boxed =>
      cases l.base.fatalError with
      | none | some err => rfl

/-- Of the checks, the rest of an attempt reads the hash of the last link. -/
theorem finishTeam_of_base (r : TeamAttempt L H A) (l : TeamLoader H X) (roster : Roster H)
    (voTok : Bool) {b : BaseChainLoader H} (hfatal : b.fatalError = none) :
    (finishTeam sv r { l with base := b, rosterPre := roster, voTok }).1 = (finishTeam sv r { l with
          base := { lastHash := b.lastHash }, rosterPre := {}, voTok := false }).1 := by
  rw [finishTeam_eq, finishTeam_eq]
  simp only [hfatal]
  rfl

/-- With no links and no tokens of remote members, the saved state stays, except for the name. -/
theorem saveTeamState_of_nil (hlinks : raw.links = []) (htokens : raw.remoteViewTokens = []) (boxed : X)
    (l : TeamLoader H X) :
    saveTeamState sv raw boxed l =
      match l.existing with
      | none => .error (.internalError "no links in team sigchain")
      | some st => teamNameBundle sv l.arg.teamID raw.teamnameUtf8 >>= fun b =>
          .ok { st with name := ⟨b, st.name.s⟩ } := by
  unfold saveTeamState
  cases hex : l.existing with
  | none => simp [refuse, hlinks, bind, Except.bind]
  | some st => simp [refuse, hlinks, htokens, bind, Except.bind, pure, Except.pure]

theorem newTeamState_eq_ok {b : NameBundle} (h : newTeamState b boxed l = .ok s) :
    s.merkleLeaves = l.allMerkleLeaves ∧ s.hepks = l.hepks := by
  unfold newTeamState at h
  split at h
  · cases h
  · obtain ⟨members, -, h1⟩ := bind_eq_ok.mp h
    split at h1
    · cases h1
    · cases h1
      exact ⟨rfl, rfl⟩
  · cases h

theorem saveTeamState_eq_ok (hnew : ¬ (raw.links = [] ∧ raw.remoteViewTokens = []))
    (h : saveTeamState sv raw boxed l = .ok s) :
    s.merkleLeaves = l.allMerkleLeaves ∧ s.hepks = l.hepks := by
  have h1 := of_bind_eq_ok h
  obtain ⟨b, -, h2⟩ := bind_eq_ok.mp h1
  split at h2
  · next hlinks htokens _ => exact absurd ⟨hlinks, htokens⟩ hnew
  · exact newTeamState_eq_ok h2

/-- The parts of `finishTeam` when it succeeds. -/
theorem finishTeam_eq_ok {r : TeamAttempt L H A} (h : (finishTeam sv r l).1 = .ok s) :
    ∃ p nseq boxed, saveTeamState sv r.raw boxed { l with player := p, tnseq := nseq } = .ok s := by
  rw [finishTeam_eq] at h
  split at h
  · cases h
  · next p _ =>
    obtain ⟨nseq, -, h1⟩ := bind_eq_ok.mp h
    obtain ⟨boxed, -, h2⟩ := bind_eq_ok.mp h1
    split at h2
    · cases h2
    · exact ⟨p, nseq, boxed, h2⟩

end Finish

/-! ## The loader as a client -/

section Client

variable [DecidableEq H] [MerkleHash H] [LinkHash L H] [LocationHash H] [LinkFormat L H] [KeyHash H]

/-- What a load starts from: a saved state with its keys and its roster. -/
abbrev TeamStart (H X : Type) := Option (TeamChainState H X × TeamKeyRing H × Roster H)

/-- The start of a load, if the saved state can be read. -/
def teamStart (sv : TeamServices L H X A) (host : HostID) (saved : Option (TeamChainState H X)) :
    TeamStart H X :=
  (readTeamState sv host saved).toOption.join

/-- The roster before the links of a reply. -/
def startRoster (start : TeamStart H X) : Roster H := (start.map (·.2.2)).getD {}

/-- The player before the links of a reply. -/
def startPlayer (start : TeamStart H X) : TeamPlayer H :=
  match start with
  | none => {}
  | some (st, ptks, _) => {
      ptks
      sctlsc := some st.sctlsc
      memberLoadFloor := st.memberLoadFloor
      rosterDelegationFloor := st.rosterDelegationFloor }

/-- The team of an attempt, if it is known. -/
def teamOf (arg : LoadTeamArg) (r : TeamAttempt L H A) : Option TeamID :=
  arg.team.or (if arg.mints then r.token.toOption else none)

/-- The normal form of the name of a request. -/
def requestedName (sv : TeamServices L H X A) (arg : LoadTeamArg) : Except CoreError String :=
  if arg.name = "" then .ok "" else sv.normalizeName arg.name

/-- A loader after the checks of a reply, as far as the rest of an attempt reads it. -/
def checkedTeam (sv : TeamServices L H X A) (start : TeamStart H X) (arg : LoadTeamArg)
    (hepks : HEPKSet H) (otlrs : List (OpenTeamLinkRes H)) (leaves : List (MerkleLeaf H))
    (lastHash : Option H) (r : TeamAttempt L H A) : TeamLoader H X where
  base := { lastHash }
  arg := { arg with team := teamOf arg r }
  ntn := (requestedName sv arg).toOption.getD ""
  existing := start.map (·.1)
  rosterPost := rosterAfter (startRoster start) otlrs
  otlrs := otlrs
  hepks := hepks
  allMerkleLeaves := leaves
  player := startPlayer start

/-- The loader of teams. The hashes of links are dropped before another attempt. -/
def teamClient (sv : TeamServices L H X A) (start : TeamStart H X) (arg : LoadTeamArg) :
    ChainClient (TeamAttempt L H A) L H (OpenTeamLinkRes H) (TeamChainState H X) where
  which := "team_id"
  arg r := teamChainArg ((teamOf arg r).getD 0) r.raw
  existing := start.map (·.1.chainState)
  savedLeaves := (start.map (·.1.merkleLeaves)).getD []
  savedKeys := start.map (·.1.hepks)
  keepsHashes := false
  reply r := teamReply r.raw
  replyKeys r := importHEPKSet r.raw.hepks
  chainerOf := linkChainer
  openLinks keys r := do
    r.session.mapError (.chainLoaderError false)
    openedTeamLinks keys ((teamOf arg r).getD 0) arg.host 0 (startRoster start)
      (startPlayer start).rosterDelegationFloor r.raw.links
  chainer otlr := otlr.gc.chainer
  finish keys otlrs leaves last r :=
    (finishTeam sv r (checkedTeam sv start arg keys otlrs leaves last r)).1
  keeps r := r.raw.links.isEmpty && r.raw.remoteViewTokens.isEmpty
  leavesOf s := s.merkleLeaves
  keysOf s := s.hepks
  testing_eq _ := rfl
  chainers_eq h := by
    have hopen := of_bind_eq_ok h
    exact linkChainer_of_openedTeamLinks hopen
  links_of_keeps h := isEmpty_iff.mp (Bool.and_eq_true_iff.mp h).1
  savedKeys_of_keeps h hfinish := by
    obtain ⟨hlinks, htokens⟩ := Bool.and_eq_true_iff.mp h
    obtain ⟨p, nseq, boxed, hsave⟩ := finishTeam_eq_ok hfinish
    rw [saveTeamState_of_nil (isEmpty_iff.mp hlinks) (isEmpty_iff.mp htokens)] at hsave
    cases start with
    | none => cases hsave
    | some start =>
      obtain ⟨b, -, hst⟩ := bind_eq_ok.mp hsave
      cases hst
      exact ⟨nofun, rfl⟩
  finish_of_keeps h keys leaves leaves' last := by
    obtain ⟨hlinks, htokens⟩ := Bool.and_eq_true_iff.mp h
    simp only [finishTeam_eq, saveTeamState_of_nil (isEmpty_iff.mp hlinks) (isEmpty_iff.mp htokens)]
    rfl
  finish_saves h hfinish := by
    obtain ⟨p, nseq, boxed, hsave⟩ := finishTeam_eq_ok hfinish
    refine saveTeamState_eq_ok (fun hnil => ?_) hsave
    rw [hnil.1, hnil.2] at h
    cases h

end Client

/-! ## The loader between attempts -/

section Ready

variable {start : TeamStart H X} {arg : LoadTeamArg} {l l' : TeamLoader H X}
  {saved : Option (TeamChainState H X)}
  {r : TeamAttempt L H A} {left : Leftover H}

theorem checkTeamArg_eq_ok (hntn : l.arg.name = "" → l.ntn = "") : checkTeamArg sv l = (.ok (), l') ↔
      l.arg.check = .ok () ∧ ∃ ntn, requestedName sv l.arg = .ok ntn ∧ l' = { l with ntn } := by
  by_cases hname : l.arg.name = ""
  · have hload : checkTeamArg sv l = (l.arg.check, l) := by
      simp only [checkTeamArg, hname, bind_apply, read_apply]
      cases l.arg.check with
      | error e | ok v => rfl
    rw [hload, Prod.mk.injEq, requestedName, if_pos hname, eq_comm (a := l)]
    refine and_congr_right fun _ => ⟨fun hl => ⟨"", rfl, ?_⟩, ?_⟩
    · rw [hl, ← hntn hname]
    · rintro ⟨ntn, ⟨⟩, rfl⟩
      rw [← hntn hname]
  simp only [checkTeamArg, requestedName, hname, ne_eq, not_false_eq_true, if_true,
    bind_apply, read_apply]
  cases l.arg.check with
  | error e => simp
  | ok v =>
    cases sv.normalizeName l.arg.name with
    | error e => simp
    | ok ntn => simp [eq_comm]

/-- The loader with the state that it starts from. -/
def TeamLoader.resume (start : TeamStart H X) (l : TeamLoader H X) : TeamLoader H X :=
  match start with
  | none => l
  | some (st, ptks, roster) => { l with
      existing := some st
      rosterPre := roster
      hepks := st.hepks
      player := { l.player with
        ptks
        sctlsc := some st.sctlsc
        memberLoadFloor := st.memberLoadFloor
        rosterDelegationFloor := st.rosterDelegationFloor } }

theorem loadExistingTeam_eq_ok [DecidableEq H] : loadExistingTeam sv saved l = (.ok (), l') ↔
      ∃ start, readTeamState sv l.arg.host saved = .ok start ∧ l' = l.resume start := by
  simp only [loadExistingTeam, bind_apply, read_apply]
  cases readTeamState sv l.arg.host saved with
  | error e => simp
  | ok start =>
    rcases start with - | ⟨st, ptks, roster⟩
    · simp [resume, eq_comm]
    · simp [resume, eq_comm]

/-- A view token comes with the team of the request. -/
def TokenFor (arg : LoadTeamArg) (voTok : Bool) (r : TeamAttempt L H A) : Prop :=
  arg.mints → voTok && r.reuses ∨ ∃ tid, r.token = .ok tid ∧ ∀ t ∈ arg.team, t = tid

theorem getViewToken_of_keeps (h : (!l.arg.mints || l.voTok && r.reuses) = true) :
    getViewToken r l = (.ok (), l) := by
  simp only [getViewToken, bind_apply, read_apply, id]
  rw [if_pos h]
  rfl

theorem getViewToken_of_makes (h : ¬ (!l.arg.mints || l.voTok && r.reuses) = true) :
    getViewToken r l = (.ok (), l') ↔ ∃ tid, r.token = .ok tid ∧ (∀ t ∈ l.arg.team, t = tid) ∧
        l' = { l with arg := { l.arg with team := some tid }, voTok := true } := by
  have hany : ∀ tid, ¬ (l.arg.team.any (· ≠ tid) = true) ↔ ∀ t ∈ l.arg.team, t = tid := by
    cases l.arg.team with
    | none | some t => simp
  simp only [getViewToken, bind_apply, read_apply, id]
  rw [if_neg h, Action.bind_eq_ok]
  constructor
  · rintro ⟨tid, l1, hlift, h1⟩
    obtain ⟨htoken, rfl⟩ := lift_eq_ok.mp hlift
    obtain ⟨hteam, h2⟩ := Action.refuse_bind_eq_ok.mp h1
    exact ⟨tid, htoken, (hany tid).mp hteam, (Prod.mk.inj h2).2.symm⟩
  · rintro ⟨tid, htoken, hteam, rfl⟩
    refine ⟨tid, l, lift_eq_ok.mpr ⟨htoken, rfl⟩, Action.bind_eq_ok.mpr ⟨(), l, ?_, rfl⟩⟩
    exact Action.refuse_of_not ((hany tid).mpr hteam)

theorem getViewToken_eq_ok (hvoTok : l.voTok → l.arg.team.isSome) :
    getViewToken r l = (.ok (), l') ↔ TokenFor l.arg l.voTok r ∧ l' = { l with
        arg := { l.arg with team := teamOf l.arg r }, voTok := l.voTok || l.arg.mints } := by
  by_cases hkeeps : (!l.arg.mints || l.voTok && r.reuses) = true
  · -- no token is needed, or the one from before is taken, and then the team is known
    have hteam : teamOf l.arg r = l.arg.team := by
      rcases Bool.or_eq_true_iff.mp hkeeps with hmints | hreuses
      · rw [teamOf, if_neg (by simpa using hmints), Option.or_none]
      · exact Option.or_of_isSome (hvoTok (Bool.and_eq_true_iff.mp hreuses).1)
    have hvo : (l.voTok || l.arg.mints) = l.voTok := by
      rcases Bool.or_eq_true_iff.mp hkeeps with hmints | hreuses
      · rw [Bool.not_eq_true' _ |>.mp hmints, Bool.or_false]
      · rw [(Bool.and_eq_true_iff.mp hreuses).1, Bool.true_or]
    have htoken : TokenFor l.arg l.voTok r := by
      intro hmints
      rcases Bool.or_eq_true_iff.mp hkeeps with hnot | hreuses
      · rw [hmints] at hnot
        cases hnot
      · exact .inl hreuses
    rw [getViewToken_of_keeps hkeeps, Prod.mk.injEq, hteam, hvo, eq_comm (a := l)]
    exact ⟨fun h => ⟨htoken, h.2⟩, fun h => ⟨rfl, h.2⟩⟩
  obtain ⟨hmints, hreuses⟩ : l.arg.mints = true ∧ ¬ (l.voTok && r.reuses) = true := by
    rw [Bool.or_eq_true_iff, not_or] at hkeeps
    exact ⟨by simpa using hkeeps.1, hkeeps.2⟩
  rw [getViewToken_of_makes hkeeps, hmints, Bool.or_true]
  have hteam : ∀ tid, r.token = .ok tid → (∀ t ∈ l.arg.team, t = tid) → teamOf l.arg r = some tid := by
    intro tid htoken hsame
    rw [teamOf, if_pos hmints, htoken]
    cases hknown : l.arg.team with
    | none => rfl
    | some t => exact congrArg some (hsame t hknown)
  constructor
  · rintro ⟨tid, htoken, hsame, rfl⟩
    exact ⟨fun _ => .inr ⟨tid, htoken, hsame⟩, by rw [hteam tid htoken hsame]⟩
  · rintro ⟨htokenFor, rfl⟩
    obtain ⟨tid, htoken, hsame⟩ := (htokenFor hmints).resolve_left hreuses
    exact ⟨tid, htoken, hsame, by rw [hteam tid htoken hsame]⟩

/-- A request that `prepareTeam` lets through. -/
structure AdmitsTeam [DecidableEq H] (sv : TeamServices L H X A) (saved : Option (TeamChainState H X))
    (arg : LoadTeamArg) (voTok : Bool) (r : TeamAttempt L H A) : Prop where
  check : arg.check = .ok ()
  name : ∃ ntn, requestedName sv arg = .ok ntn
  state : ∃ start, readTeamState sv arg.host saved = .ok start
  token : TokenFor arg voTok r

/-- The loader before an attempt, with what is left of earlier ones. -/
structure TeamReady (start : TeamStart H X) (arg : LoadTeamArg) (left : Leftover H)
    (l : TeamLoader H X) : Prop where
  hashes : l.base.linkHashes = left.hashes
  leaves : l.base.merkleLeaves = left.leaves
  fatalError : l.base.fatalError = none
  ntn : arg.name = "" → l.ntn = ""
  voTok : l.voTok → arg.team.isSome
  existing : l.existing = none
  otlrs : l.otlrs = []
  tnseq : l.tnseq = 0
  tncs : l.player.tncs = []
  indexRange : l.player.indexRange = none
  unsaved : start = none → l.hepks = left.hepks ∧ l.rosterPre = {} ∧ l.player = {}
  arg : l.arg = arg

theorem TeamReady.new : TeamReady start arg {} (newTeamLoader arg) where
  hashes := rfl
  leaves := rfl
  fatalError := rfl
  ntn _ := rfl
  voTok := nofun
  existing := rfl
  otlrs := rfl
  tnseq := rfl
  tncs := rfl
  indexRange := rfl
  unsaved _ := ⟨rfl, rfl, rfl⟩
  arg := rfl

/-- The loader when the reply comes. -/
def preparedTeam [DecidableEq H] [KeyHash H] (sv : TeamServices L H X A) (start : TeamStart H X)
    (arg : LoadTeamArg) (left : Leftover H) (r : TeamAttempt L H A) (l : TeamLoader H X) : TeamLoader H X :=
  { l with
    arg := { arg with team := teamOf arg r }
    ntn := (requestedName sv arg).toOption.getD ""
    voTok := l.voTok || arg.mints
    existing := start.map (·.1)
    rosterPre := startRoster start
    hepks := mergeHEPKs ((start.map (·.1.hepks)).getD left.hepks) (importHEPKSet r.raw.hepks)
    player := startPlayer start }

theorem TeamLoader.resume_ntn (l : TeamLoader H X) (ntn : String) :
    resume start { l with ntn } = { l.resume start with ntn } := by
  cases start with
  | none | some start => rfl

theorem TeamReady.resume_eq (h : TeamReady start arg left l) : l.resume start = { l with
      existing := start.map (·.1)
      rosterPre := startRoster start
      hepks := (start.map (·.1.hepks)).getD left.hepks
      player := startPlayer start } := by
  obtain ⟨base, arg', ntn, voTok, existing, rosterPre, rosterPost, otlrs, hepks, leaves, tnseq, player⟩ := l
  obtain rfl : existing = none := h.existing
  rcases start with - | ⟨st, ptks, roster⟩
  · obtain ⟨hhepks, hroster, hplayer⟩ := h.unsaved rfl
    dsimp only at hhepks hroster hplayer
    rw [hhepks, hroster, hplayer]
    rfl
  -- what the saved state does not set was never set
  obtain ⟨ptks', sctlsc, loadFloor, delegationFloor, tncs, indexRange⟩ := player
  obtain rfl : tncs = [] := h.tncs
  obtain rfl : indexRange = none := h.indexRange
  rfl

variable [DecidableEq H] [KeyHash H]

theorem prepareTeam_eq_ok (h : TeamReady (teamStart sv arg.host saved) arg left l) :
    prepareTeam sv saved r l = (.ok (), l') ↔ AdmitsTeam sv saved arg l.voTok r ∧
      l' = preparedTeam sv (teamStart sv arg.host saved) arg left r l := by
  obtain rfl := h.arg
  have hstart : ∀ start, readTeamState sv l.arg.host saved = .ok start →
      teamStart sv l.arg.host saved = start := by
    intro start hread
    rw [teamStart, hread]
    rfl
  constructor
  · intro hprepare
    obtain ⟨⟨⟩, l1, hcheck, h1⟩ := Action.bind_eq_ok.mp hprepare
    obtain ⟨harg, ntn, hntn, rfl⟩ := (checkTeamArg_eq_ok h.ntn).mp hcheck
    obtain ⟨⟨⟩, l2, hload, h2⟩ := Action.bind_eq_ok.mp h1
    obtain ⟨start, hread, rfl⟩ := loadExistingTeam_eq_ok.mp hload
    obtain rfl := hstart start hread
    rw [resume_ntn, h.resume_eq] at h2
    obtain ⟨⟨⟩, l3, hview, h3⟩ := Action.bind_eq_ok.mp h2
    obtain ⟨htoken, rfl⟩ := (getViewToken_eq_ok (by exact h.voTok)).mp hview
    cases h3
    refine ⟨⟨harg, ⟨ntn, hntn⟩, ⟨_, hread⟩, htoken⟩, ?_⟩
    rw [preparedTeam, hntn]
    rfl
  · rintro ⟨⟨harg, ⟨ntn, hntn⟩, ⟨start, hread⟩, htoken⟩, rfl⟩
    obtain rfl := hstart start hread
    refine Action.bind_eq_ok.mpr ⟨(), _, (checkTeamArg_eq_ok h.ntn).mpr ⟨harg, ntn, hntn, rfl⟩, ?_⟩
    refine Action.bind_eq_ok.mpr ⟨(), _, loadExistingTeam_eq_ok.mpr ⟨_, hread, rfl⟩, ?_⟩
    rw [resume_ntn, h.resume_eq]
    refine Action.bind_eq_ok.mpr ⟨(), _, (getViewToken_eq_ok (by exact h.voTok)).mpr ⟨htoken, rfl⟩, ?_⟩
    rw [preparedTeam, hntn]
    rfl

variable [MerkleHash H] [LinkHash L H] [LocationHash H] [LinkFormat L H]

/-- The checks of a prepared loader are those of the client. Only those of the links and paths may
fail with a race. -/
theorem checkTeamRes_cases (sv : TeamServices L H X A) (h : TeamReady start arg left l)
    (r : TeamAttempt L H A) :
    (∃ e l', isRace e = false ∧ checkTeamRes r (preparedTeam sv start arg left r l) = (.error e, l') ∧
        (teamClient sv start arg).attempt left r = .error e) ∨
      ∃ otlrs, (teamClient sv start arg).openLinks ((teamClient sv start arg).keys left r) r = .ok otlrs ∧
        ∀ res b, checkReply "team_id" (teamChainArg ((teamOf arg r).getD 0) r.raw)
            (start.map (·.1.chainState)) (teamReply r.raw) (otlrs.map (·.gc.chainer)) l.base = (res, b) →
          checkTeamRes r (preparedTeam sv start arg left r l) =
            match res with
            | .error e => (.error e, { preparedTeam sv start arg left r l with
                otlrs
                rosterPost := rosterAfter (startRoster start) otlrs
                base := b })
            | .ok () => (.ok (), { preparedTeam sv start arg left r l with
                otlrs
                rosterPost := rosterAfter (startRoster start) otlrs
                base := b
                allMerkleLeaves := (start.map (·.1.merkleLeaves)).getD [] ++ b.merkleLeaves }) := by
  cases hsession : r.session with
  | error e =>
    refine .inl ⟨.chainLoaderError false e, preparedTeam sv start arg left r l, rfl, ?_, ?_⟩
    · rw [checkTeamRes, hsession]
      rfl
    unfold ChainClient.attempt teamClient
    dsimp only
    rw [hsession]
    rfl
  | ok v =>
    cases hopen : openedTeamLinks (preparedTeam sv start arg left r l).hepks ((teamOf arg r).getD 0)
      arg.host 0 (startRoster start) (startPlayer start).rosterDelegationFloor r.raw.links with
    | error e =>
      obtain ⟨hrace, l', hlinks⟩ :=
        openTeamLinks_of_error (l := preparedTeam sv start arg left r l) hopen
      refine .inl ⟨e, l', hrace, ?_, ?_⟩
      · rw [checkTeamRes, bind_apply, hsession]
        exact Action.bind_eq_error.mpr (.inr ⟨_, _, rfl, Action.bind_eq_error.mpr (.inl hlinks)⟩)
      · exact bind_eq_error.mpr (.inl (bind_eq_error.mpr (.inr ⟨(), by rw [hsession]; rfl, hopen⟩)))
    | ok otlrs =>
      refine .inr ⟨otlrs, bind_eq_ok.mpr ⟨(), by rw [hsession]; rfl, hopen⟩, ?_⟩
      intro res b hcheck
      rw [checkTeamRes_of_opened (l := preparedTeam sv start arg left r l) h.otlrs hsession hopen]
      have hcheck' : checkReply "team_id" (teamChainArg (preparedTeam sv start arg left r l).arg.teamID r.raw)
          ((preparedTeam sv start arg left r l).existing.map (·.chainState)) (teamReply r.raw)
          (otlrs.map (·.gc.chainer)) (preparedTeam sv start arg left r l).base = (res, b) := by
        rw [preparedTeam, Option.map_map]
        exact hcheck
      have hleaves : (preparedTeam sv start arg left r l).existing.map (·.merkleLeaves)
          = start.map (·.1.merkleLeaves) := Option.map_map ..
      simp only [checking, bind_apply, Action.within, hcheck', ← hleaves]
      cases res with
      | error e | ok v => rfl

/-- An attempt of the loader is an attempt of the client over what is left. -/
theorem runOnceTeam_eq (h : TeamReady (teamStart sv arg.host saved) arg left l)
    (hteam : AdmitsTeam sv saved arg l.voTok r) :
    (runOnceTeam sv saved r l).1 = (teamClient sv (teamStart sv arg.host saved) arg).attempt left r := by
  have hprepare := (prepareTeam_eq_ok h).mpr ⟨hteam, rfl⟩
  rw [runOnceTeam, bind_apply, hprepare]
  dsimp only
  rw [bind_apply]
  generalize teamStart sv arg.host saved = start at h
  rcases checkTeamRes_cases sv h r with ⟨e, l', -, hcheck, hattempt⟩ | ⟨otlrs, hopen, hcheck⟩
  · rw [hcheck, hattempt]
  have hch := (teamClient sv start arg).chainers_eq hopen
  have hused := checkReply_of_used ((teamClient sv start arg).testing_eq r) hch "team_id"
    (start.map (·.1.chainState)) h.fatalError
  rw [h.hashes, h.leaves] at hused
  rcases hused with ⟨e, b1, b2, hloader, hclient⟩ | ⟨b, hfatal, hloader, hclient⟩
  · rw [hcheck _ _ hloader]
    exact (ChainClient.attempt_of_refused hopen hclient).symm
  rw [hcheck _ _ hloader]
  refine Eq.trans ?_ (ChainClient.attempt_of_checked hopen hclient).symm
  refine (finishTeam_of_base r { preparedTeam sv start arg left r l with
    otlrs
    rosterPost := rosterAfter (startRoster start) otlrs
    allMerkleLeaves := (start.map (·.1.merkleLeaves)).getD [] ++ b.merkleLeaves }
    (startRoster start) (l.voTok || arg.mints) hfatal).trans ?_
  rw [teamClient]
  rw [preparedTeam, h.tnseq]
  rfl

/-- An attempt whose checks fail with a race, and the reset after it. -/
def RacedTeam (sv : TeamServices L H X A) (saved : Option (TeamChainState H X))
    (r : TeamAttempt L H A) (l l' : TeamLoader H X) : Prop :=
  ∃ l₁ l₂ e, prepareTeam sv saved r l = (.ok (), l₁) ∧
    checkTeamRes r l₁ = (.error (.chainLoaderError true e), l₂) ∧ l' = l₂.resetState

theorem RacedTeam.runOnceTeam (h : RacedTeam sv saved r l l') :
    ∃ e t, runOnceTeam sv saved r l = (.error e, t) ∧ isRace e ∧ l' = t.resetState := by
  obtain ⟨l1, l2, e, hprepare, hcheck, rfl⟩ := h
  refine ⟨.chainLoaderError true e, l2, ?_, rfl, rfl⟩
  refine Action.bind_eq_error.mpr (.inr ⟨(), l1, hprepare, ?_⟩)
  exact Action.bind_eq_error.mpr (.inl hcheck)

omit [DecidableEq H] [KeyHash H] [MerkleHash H] [LinkHash L H] [LocationHash H] [LinkFormat L H] in
theorem TokenFor.isSome_teamOf {voTok : Bool} (h : TokenFor arg voTok r) (hvoTok : voTok → arg.team.isSome)
    (hhas : voTok || arg.mints) : (teamOf arg r).isSome := by
  cases hteam : arg.team with
  | some t =>
    rw [teamOf, hteam]
    rfl
  | none =>
    -- no token came before, since the team is not known
    have hvo : voTok = false := by
      rw [hteam] at hvoTok
      simpa using hvoTok
    rw [hvo, Bool.false_or] at hhas
    obtain ⟨tid, htoken, -⟩ := (h hhas).resolve_left (by simp [hvo])
    rw [teamOf, hteam, if_pos hhas, htoken]
    rfl

/-- What is left after a race. The request now has the team that came with the token. -/
theorem TeamReady.raced {failed : List (TeamAttempt L H A)}
    (h : TeamReady (teamStart sv arg.host saved) arg left l)
    (hleft : (teamClient sv (teamStart sv arg.host saved) arg).LeftBy failed left)
    (hraced : RacedTeam sv saved r l l') :
    ∃ left', (teamClient sv (teamStart sv arg.host saved) arg).LeftBy (failed ++ [r]) left' ∧
      TeamReady (teamStart sv arg.host saved) { arg with team := teamOf arg r } left' l' ∧
      arg.check = .ok () ∧ TokenFor arg l.voTok r := by
  obtain ⟨l1, l2, e, hprepare, hcheck, rfl⟩ := hraced
  obtain ⟨hteam, rfl⟩ := (prepareTeam_eq_ok h).mp hprepare
  have harg := hteam.check
  have htoken := hteam.token
  generalize teamStart sv arg.host saved = start at *
  rcases checkTeamRes_cases sv h r with ⟨e', l3, hrace, hcheck', -⟩ | ⟨otlrs, hopen, hcheck'⟩
  · obtain ⟨herror, -⟩ := Prod.mk.inj (hcheck.symm.trans hcheck')
    cases herror
    cases hrace
  have hch := (teamClient sv start arg).chainers_eq hopen
  rcases hreply : checkReply "team_id" (teamChainArg ((teamOf arg r).getD 0) r.raw)
    (start.map (·.1.chainState)) (teamReply r.raw) (otlrs.map (·.gc.chainer)) l.base with
    ⟨e' | ⟨⟩, b⟩
  · obtain ⟨herror, rfl⟩ := Prod.mk.inj (hcheck.symm.trans (hcheck' _ _ hreply))
    cases herror
    obtain ⟨-, hfatal, leaves, hleaves, hstops⟩ :=
      checkReply_race ((teamClient sv start arg).testing_eq r) hch hreply rfl
    have hnil : left.hashes = [] := by
      rw [hleft.hashes, flatMap_eq_nil_iff]
      exact fun _ _ => rfl
    refine ⟨⟨[], b.merkleLeaves, (preparedTeam sv start arg left r l).hepks⟩, ?_, ?_, harg, htoken⟩
    · refine hleft.concat (by rw [hnil]; rfl) (hleaves.trans (congrArg (· ++ _) h.leaves))
        hstops fun hnone => ?_
      obtain rfl : start = none := Option.map_eq_none_iff.mp hnone
      rfl
    refine ⟨rfl, rfl, hfatal.trans h.fatalError, fun hname => ?_, ?_, rfl, rfl, h.tnseq, rfl, ?_, ?_, rfl⟩
    · change (requestedName sv arg).toOption.getD "" = ""
      rw [requestedName, if_pos hname]
      rfl
    · exact fun hvo => htoken.isSome_teamOf h.voTok hvo
    · rcases start with - | ⟨st, ptks, roster⟩
      · rfl
      · rfl
    · rintro rfl
      exact ⟨rfl, rfl, rfl⟩
  · cases hcheck.symm.trans (hcheck' _ _ hreply)

end Ready

end Foks.Client
