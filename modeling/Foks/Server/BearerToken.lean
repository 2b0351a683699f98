import Foks.Core.Role
import Foks.Lib.Run
import Foks.Lib.Table

/-!
# Team bearer tokens

A team bearer token lets its holder act in a team with one role
(`server/shared/team_bearer_token.go`). It is made in two calls: `MakeInertTeamBearerToken`
writes an inert row with the role and the generation that the caller asks for, and
`ActivateTeamBearerToken` activates the row for a request that is signed with a key of the team.
`LoadBearerToken` reads the role back from the row of an active token.

Blobs, signatures and keys are abstract: `decode` is the codec and `verify` the signature check.
-/

namespace Foks.Server

open Lib List Except

abbrev TeamBearerToken := ℕ

structure FQUser where
  uid : UID
  hostID : HostID
  deriving DecidableEq

/-- What a call knows about its host, its user and the time. -/
structure MetaContext extends HostContext where
  uid : UID
  now : Time
  -- the setting `TeamBearerTokenLifespan`
  lifespan : ℤ
  deriving DecidableEq

/-! ## The tables -/

inductive BearerTokenState where
  | inert
  | active
  | expired
  | revoked
  deriving DecidableEq

/-- A row of `team_bearer_tokens`. -/
structure BearerTokenRow where
  shortHostID : ShortHostID
  teamID : TeamID
  token : TeamBearerToken
  state : BearerTokenState
  role : RoleKey
  gen : Generation
  holderUID : UID
  -- none is `LocalHost`
  holderHostID : Option HostID
  ctime : Time
  deriving DecidableEq

def BearerTokenRow.key (row : BearerTokenRow) : ShortHostID × TeamID × TeamBearerToken :=
  (row.shortHostID, row.teamID, row.token)

/-- A row of `shared_keys`, joined with its `hepks` row. -/
structure SharedKeyRow (K : Type) where
  shortHostID : ShortHostID
  entityID : TeamID
  role : RoleKey
  gen : Generation
  verifyKey : K
  deriving DecidableEq

def SharedKeyRow.key {K : Type} (row : SharedKeyRow K) : ShortHostID × TeamID × RoleKey × Generation :=
  (row.shortHostID, row.entityID, row.role, row.gen)

structure TokenDB (K : Type) where
  teams : List (ShortHostID × TeamID)
  sharedKeys : List (SharedKeyRow K)
  tokens : List BearerTokenRow

/-! ## The calls -/

structure TeamBearerTokenChallengePayload where
  user : FQUser
  team : TeamID
  role : Role
  gen : Generation
  tok : TeamBearerToken
  tm : Time
  deriving DecidableEq

structure MakeInertTeamBearerTokenArg where
  team : TeamID
  role : Role
  gen : Generation

structure ActivateTeamBearerTokenArg (B S : Type) where
  bl : B
  sig : S
  deriving DecidableEq

/-- `Time.IsNowish`: at most four hours from now. -/
def isNowish (now t : Time) : Bool :=
  let delta := 4 * 60 * 60 * 1000
  !((now < t && delta < t - now) || (t < now && delta < now - t))

def assertTokenNotExpired (m : MetaContext) (ctime : Time) (testTimeTravel : ℤ) : Except CoreError Unit := do
  refuse (testTimeTravel < 0) (.internalError "negative time travel is dangerous and not allowed")
  let now : ℤ := if 0 < testTimeTravel then m.now + testTimeTravel else m.now
  refuse (m.lifespan < now - ctime) (.teamBearerTokenStaleError "age")

/-- `Role.AssertBelowAdmin`, on an imported role. -/
def assertBelowAdmin (role : RoleKey) (e : CoreError) : Except CoreError Unit :=
  refuse role.typ.isAdminOrAbove e

section Calls

variable {K B S : Type}

/-- The row that `ORDER BY gen DESC LIMIT 1` selects for a team and a role. -/
def latestKey (db : TokenDB K) (shortHostID : ShortHostID) (teamid : TeamID) (rk : RoleKey) :
    Option (SharedKeyRow K) :=
  (db.sharedKeys.filter fun row =>
    row.shortHostID = shortHostID ∧ row.entityID = teamid ∧ row.role = rk).argmax SharedKeyRow.gen

variable (m : MetaContext)

def loadLatestPTKForRole (db : TokenDB K) (teamid : TeamID) (role : Role) :
    Except CoreError (SharedKeyRow K) := do
  let rk ← importRole role
  match latestKey db m.shortHostID teamid rk with
  | none => throw (.keyNotFoundError "PTK")
  | some row => return row

/-- A logged-in caller of `LoadBearerToken` is the holder; nobody else is known by name. -/
def checkHolder (row : BearerTokenRow) : Except CoreError Unit :=
  if m.uid = 0 then
    assertBelowAdmin row.role (.permissionError "no admin tokens allowed for remote users")
  else
    refuse (m.uid ≠ row.holderUID) .wrongUserError

def loadBearerToken (db : TokenDB K) (tok : TeamBearerToken)
    (testTimeTravel : ℤ) : Except CoreError (TeamID × Role) := do
  match db.tokens.find? fun row =>
      row.shortHostID = m.shortHostID ∧ row.token = tok ∧ row.state = .active with
  | none => throw (.teamBearerTokenStaleError "state")
  | some row =>
    assertTokenNotExpired m row.ctime testTimeTravel
    checkHolder m row
    let sps ← loadLatestPTKForRole m db row.teamID row.role.exportRole
    refuse (sps.gen ≠ row.gen) (.teamBearerTokenStaleError "gen")
    return (row.teamID, row.role.exportRole)

def insertInertTeamBearerToken (db : TokenDB K) (tok : TeamBearerToken)
    (arg : MakeInertTeamBearerTokenArg) (fqu : Option FQUser) : Except CoreError (TokenDB K) := do
  let rk ← importRole arg.role
  refuse (rk.typ.isAdminOrAbove ≠ fqu.isNone)
    (.permissionError "admin bearer tokens only can work for logged in users")
  refuse ((m.shortHostID, arg.team) ∉ db.teams) .teamNotFoundError
  -- the generation is what the caller says: it is not checked against the team
  let tokens ← insertRow BearerTokenRow.key (.insertError "team_bearer_tokens")
    { shortHostID := m.shortHostID
      teamID := arg.team
      token := tok
      state := .inert
      role := rk
      gen := arg.gen
      holderUID := (fqu.map FQUser.uid).getD m.uid
      holderHostID := fqu.map FQUser.hostID
      ctime := m.now } db.tokens
  return { db with tokens }

/-- The `WHERE` of the update in `ActivateTeamBearerToken`. -/
def activates (obj : TeamBearerTokenChallengePayload) (row : BearerTokenRow) : Bool :=
  row.shortHostID = m.shortHostID ∧ row.teamID = obj.team ∧ row.token = obj.tok ∧
    row.state = .inert ∧ row.holderUID = obj.user.uid ∧
    row.holderHostID = if m.hostID = obj.user.hostID then none else some obj.user.hostID

/-- The user of an activation: a logged-in user for itself, or a guest for a remote user. -/
def checkActivator (obj : TeamBearerTokenChallengePayload) (guest : Bool) :
    Except CoreError Unit := do
  if m.hostID = obj.user.hostID then
    refuse guest (.permissionError "cannot be a guest for a local token")
    refuse (m.uid ≠ obj.user.uid) (.permissionError "wrong UID")
  else
    refuse (!guest) (.permissionError "cannot use a remote token for a local user")
    assertBelowAdmin (← importRole obj.role) (.permissionError "no admin tokens allowed for remote users")

variable (decode : B → Except CoreError TeamBearerTokenChallengePayload)
  (verify : K → S → B → Except CoreError Unit)

def activateTeamBearerToken (m : MetaContext) (db : TokenDB K)
    (arg : ActivateTeamBearerTokenArg B S) (guest : Bool) : Except CoreError (TokenDB K) := do
  let obj ← decode arg.bl
  let sps ← loadLatestPTKForRole m db obj.team obj.role
  refuse (sps.gen ≠ obj.gen) (.teamBearerTokenStaleError "gen")
  refuse (!isNowish m.now obj.tm) (.teamBearerTokenStaleError "time")
  checkActivator m obj guest
  verify sps.verifyKey arg.sig arg.bl
  refuse (db.tokens.countP (activates m obj) ≠ 1) (.updateError "team_bearer_tokens")
  return { db with
    tokens := updateRows (activates m obj) (fun row => { row with state := .active }) db.tokens }

end Calls

/-! ## Runs -/

/-- The requests of a run: any call with any arguments, and what teams do to their keys. -/
inductive Event (K B S : Type) where
  | newTeam (shortHostID : ShortHostID) (team : TeamID)
  | newKey (row : SharedKeyRow K)
  | makeInert (m : MetaContext) (tok : TeamBearerToken) (arg : MakeInertTeamBearerTokenArg)
    (fqu : Option FQUser)
  | activate (m : MetaContext) (arg : ActivateTeamBearerTokenArg B S) (guest : Bool)

/-- The database, with the requests that have activated a token. -/
structure World (K B S : Type) where
  db : TokenDB K
  activations : List (MetaContext × ActivateTeamBearerTokenArg B S)

namespace World

variable {K B S : Type}

def empty : World K B S := ⟨⟨[], [], []⟩, []⟩

variable (decode : B → Except CoreError TeamBearerTokenChallengePayload)
  (verify : K → S → B → Except CoreError Unit)
  {db : TokenDB K} {key : SharedKeyRow K} {team : TeamID} {role : Role} {arg : ActivateTeamBearerTokenArg B S}

def handle (w : World K B S) : Event K B S → Except CoreError (World K B S)
  | .newTeam shortHostID team =>
    return { w with db := { w.db with teams := w.db.teams ++ [(shortHostID, team)] } }
  | .newKey row => do
    let sharedKeys ← insertRow SharedKeyRow.key (.insertError "shared_keys") row w.db.sharedKeys
    return { w with db := { w.db with sharedKeys } }
  | .makeInert m tok arg fqu => do
    let db ← insertInertTeamBearerToken m w.db tok arg fqu
    return { w with db }
  | .activate m arg guest => do
    let db ← activateTeamBearerToken decode verify m w.db arg guest
    return { db, activations := w.activations ++ [(m, arg)] }

/-- A request to activate a token, signed with the key `key`, names the team, the role, the
generation and the holder of the row of that token. -/
structure Proves (m : MetaContext) (arg : ActivateTeamBearerTokenArg B S) (key : SharedKeyRow K)
    (row : BearerTokenRow) : Prop where
  shortHostID : m.shortHostID = row.shortHostID
  signed : verify key.verifyKey arg.sig arg.bl = .ok ()
  isKey : key.key = (row.shortHostID, row.teamID, row.role, row.gen)
  names : ∃ obj, decode arg.bl = .ok obj ∧ obj.tok = row.token ∧ obj.team = row.teamID ∧
    obj.role = row.role.exportRole ∧ obj.gen = row.gen ∧ obj.user.uid = row.holderUID ∧
    row.holderHostID = if m.hostID = obj.user.hostID then none else some obj.user.hostID

/-- Whoever loads a token gets a team and a role for which the token was activated, with a
request that is signed with the current key of just that role and names the holder of the token;
a caller who is logged in is that holder. -/
def TokensProven (w : World K B S) : Prop :=
  ∀ m tok testTimeTravel team role, loadBearerToken m w.db tok testTimeTravel = .ok (team, role) →
    ∃ m' arg key row, (m', arg) ∈ w.activations ∧ row ∈ w.db.tokens ∧
      row.token = tok ∧ row.teamID = team ∧ row.role.exportRole = role ∧
      loadLatestPTKForRole m w.db team role = .ok key ∧
      Proves decode verify m' arg key row ∧ (m.uid ≠ 0 → m.uid = row.holderUID)

/-- The condition that `ActivateTeamBearerToken` does not check: a request that is about to
activate a row names the row's role and generation. -/
def NamesRow (w : World K B S) : Event K B S → Prop
  | .activate m arg _ => ∀ obj, decode arg.bl = .ok obj → ∀ row ∈ w.db.tokens,
      activates m obj row → importRole obj.role = .ok row.role ∧ obj.gen = row.gen
  | _ => True

/-! ## What the calls do -/

variable {decode verify} {w w' : World K B S} {m : MetaContext}

theorem mem_of_loadLatestPTKForRole (h : loadLatestPTKForRole m db team role = .ok key) :
    ∃ rk, importRole role = .ok rk ∧ key ∈ db.sharedKeys ∧ key.key = (m.shortHostID, team, rk, key.gen) := by
  obtain ⟨rk, hrk, hkey⟩ := bind_eq_ok.mp h
  refine ⟨rk, hrk, ?_⟩
  rcases hlatest : latestKey db m.shortHostID team rk with _ | row
  · simp [hlatest] at hkey
  rw [hlatest] at hkey
  cases hkey
  have hmem := argmax_mem (Option.mem_def.mpr hlatest)
  obtain ⟨hrow, hshort, hteam, hrole⟩ := by simpa using hmem
  refine ⟨hrow, ?_⟩
  rw [SharedKeyRow.key, hshort, hteam, hrole]

theorem loadBearerToken_eq_ok {tok : TeamBearerToken} {testTimeTravel : ℤ}
    (h : loadBearerToken m db tok testTimeTravel = .ok (team, role)) :
    ∃ row key, row ∈ db.tokens ∧ row.shortHostID = m.shortHostID ∧ row.token = tok ∧
      row.state = .active ∧ row.teamID = team ∧ row.role.exportRole = role ∧
      (m.uid ≠ 0 → m.uid = row.holderUID) ∧
      loadLatestPTKForRole m db team role = .ok key ∧ key.gen = row.gen := by
  unfold loadBearerToken at h
  split at h
  · cases h
  · next row hfind =>
    simp only [bind_eq_ok, refuse_eq_ok, not_not] at h
    obtain ⟨⟨⟩, -, ⟨⟩, hholder, key, hkey, ⟨⟩, hgen, hres⟩ := h
    cases hres
    obtain ⟨hshort, htok, hactive⟩ := by simpa using find?_some hfind
    refine ⟨row, key, mem_of_find?_eq_some hfind, hshort, htok, hactive, rfl, rfl, ?_, hkey, hgen⟩
    intro huid
    simpa [checkHolder, huid] using hholder

theorem activateTeamBearerToken_eq_ok {db' : TokenDB K}
    {guest : Bool} (h : activateTeamBearerToken decode verify m db arg guest = .ok db') :
    ∃ obj key, decode arg.bl = .ok obj ∧ loadLatestPTKForRole m db obj.team obj.role = .ok key ∧
      key.gen = obj.gen ∧
      verify key.verifyKey arg.sig arg.bl = .ok () ∧
      db' = { db with
        tokens := updateRows (activates m obj) (fun row => { row with state := .active }) db.tokens } := by
  simp only [activateTeamBearerToken, bind_eq_ok, refuse_eq_ok, not_not] at h
  obtain ⟨obj, hobj, key, hkey, ⟨⟩, hgen, ⟨⟩, -, ⟨⟩, -, ⟨⟩, hverify, ⟨⟩, -, hres⟩ := h
  exact ⟨obj, key, hobj, hkey, hgen, hverify, (ok.inj hres).symm⟩

/-! ## The invariant -/

/-- Keys are never replaced, and every active token has been activated by a request that proves
its row. -/
structure Sound (decode : B → Except CoreError TeamBearerTokenChallengePayload)
    (verify : K → S → B → Except CoreError Unit) (w : World K B S) : Prop where
  keys : Unique SharedKeyRow.key w.db.sharedKeys
  proven : ∀ row ∈ w.db.tokens, row.state = .active → ∃ m arg key,
    (m, arg) ∈ w.activations ∧ key ∈ w.db.sharedKeys ∧ Proves decode verify m arg key row

/-- The row that a request activates is the one it proves, when it names the row's role and
generation. -/
theorem proves_of_activates {obj : TeamBearerTokenChallengePayload} {row : BearerTokenRow}
    (hobj : decode arg.bl = .ok obj) (hkey : loadLatestPTKForRole m db obj.team obj.role = .ok key)
    (hgen : key.gen = obj.gen) (hverify : verify key.verifyKey arg.sig arg.bl = .ok ())
    (hrow : activates m obj row) (hrole : importRole obj.role = .ok row.role)
    (hrowgen : obj.gen = row.gen) :
    Proves decode verify m arg key { row with state := .active } := by
  obtain ⟨rk, hrk, -, hpk⟩ := mem_of_loadLatestPTKForRole hkey
  cases ok_unique hrk hrole
  obtain ⟨hshort, hteam, htok, -, huid, hhost⟩ := by simpa [activates] using hrow
  refine ⟨hshort.symm, hverify, ?_, obj, hobj, htok.symm, hteam.symm, ?_, hrowgen, huid.symm, ?_⟩
  · rw [hpk, hshort, hteam, hgen, hrowgen]
  · exact (exportRole_of_importRole hrole).symm
  · exact hhost

theorem sound_handle {e : Event K B S} (hcond : NamesRow decode w e) (hw : Sound decode verify w)
    (h : handle decode verify w e = .ok w') : Sound decode verify w' := by
  cases e with
  | newTeam shortHostID team =>
    cases h
    exact ⟨hw.keys, hw.proven⟩
  | newKey row =>
    obtain ⟨sharedKeys, hins, hres⟩ := bind_eq_ok.mp h
    cases hres
    refine ⟨hw.keys.insertRow hins, fun row hrow hactive => ?_⟩
    obtain ⟨m, arg, key, hact, hkey, hproves⟩ := hw.proven row hrow hactive
    obtain ⟨-, rfl⟩ := insertRow_eq_ok.mp hins
    exact ⟨m, arg, key, hact, mem_append_left _ hkey, hproves⟩
  | makeInert m tok arg fqu =>
    obtain ⟨db, hdb, hres⟩ := bind_eq_ok.mp h
    cases hres
    simp only [insertInertTeamBearerToken, bind_eq_ok] at hdb
    obtain ⟨rk, -, ⟨⟩, -, ⟨⟩, -, tokens, hins, hres⟩ := hdb
    cases hres
    obtain ⟨-, rfl⟩ := insertRow_eq_ok.mp hins
    refine ⟨hw.keys, fun row hrow hactive => ?_⟩
    rcases mem_append.mp hrow with hold | hnew
    · exact hw.proven row hold hactive
    -- the new row is inert
    cases mem_singleton.mp hnew
    cases hactive
  | activate m arg guest =>
    obtain ⟨db, hdb, hres⟩ := bind_eq_ok.mp h
    cases hres
    obtain ⟨obj, key, hobj, hkey, hgen, hverify, rfl⟩ := activateTeamBearerToken_eq_ok hdb
    refine ⟨hw.keys, fun row hrow hactive => ?_⟩
    obtain ⟨old, hold, rfl⟩ := mem_updateRows.mp hrow
    by_cases hhit : activates m obj old
    · obtain ⟨hrole, hrowgen⟩ := hcond obj hobj old hold hhit
      obtain ⟨-, -, hmem, -⟩ := mem_of_loadLatestPTKForRole hkey
      rw [if_pos hhit]
      exact ⟨m, arg, key, mem_append_right _ (mem_singleton_self _), hmem,
        proves_of_activates hobj hkey hgen hverify hhit hrole hrowgen⟩
    rw [if_neg hhit] at hactive ⊢
    obtain ⟨m', arg', key', hact, hkey', hproves⟩ := hw.proven old hold hactive
    exact ⟨m', arg', key', mem_append_left _ hact, hkey', hproves⟩

theorem Sound.tokensProven (hw : Sound decode verify w) : TokensProven decode verify w := by
  intro m tok testTimeTravel team role hload
  obtain ⟨row, key, hrow, hshort, htok, hactive, rfl, rfl, hholder, hkey, hgen⟩ :=
    loadBearerToken_eq_ok hload
  obtain ⟨m', arg, key', hact, hmem', hproves⟩ := hw.proven row hrow hactive
  obtain ⟨rk, hrk, hmem, hpk⟩ := mem_of_loadLatestPTKForRole hkey
  -- the key that was current at the activation is the one that is current now
  have hkeys : key' = key := by
    refine hw.keys.eq_of_key hmem' hmem ?_
    rw [importRole_exportRole] at hrk
    cases hrk
    rw [hproves.isKey, hpk, hshort, hgen]
  subst hkeys
  exact ⟨m', arg, key', row, hact, hrow, htok, rfl, rfl, hkey, hproves, hholder⟩

end World

section Main

variable {K B S : Type} {decode : B → Except CoreError TeamBearerTokenChallengePayload}
  {verify : K → S → B → Except CoreError Unit}

/-- **Tokens carry proven roles**, in every run whose activation requests name the role and the
generation of the row that they activate. -/
theorem tokensProven_of_namesRow {events : List (Event K B S)}
    (hrun : Along (World.handle decode verify) (World.NamesRow decode) .empty events) :
    World.TokensProven decode verify (serve (World.handle decode verify) .empty events) := by
  have hsound : World.Sound decode verify (serve (World.handle decode verify) .empty events) := by
    refine serve_invariant (fun w e w' hcond hw h => World.sound_handle hcond hw h) hrun ?_
    exact ⟨nodup_nil, fun row hrow => absurd hrow not_mem_nil⟩
  exact hsound.tokensProven

end Main

/-! ## A run with two keys -/

section Example

/-- Signatures that name the key and the text they were made with. -/
def verifySymbolic (k : ℕ) (sig : ℕ × TeamBearerTokenChallengePayload)
    (bl : TeamBearerTokenChallengePayload) : Except CoreError Unit :=
  refuse (sig ≠ (k, bl)) (.verifyError "signature verification failed")

/-- The call of a user of the only host. -/
def mallory : MetaContext := ⟨⟨1, 1⟩, 7, 0, 1000⟩

/-- A request for a role of team 100. -/
def challenge (role : Role) : TeamBearerTokenChallengePayload := ⟨⟨7, 1⟩, 100, role, 1, 5, 0⟩

/-- Team 100 has key 10 for members and key 11 for admins. The user makes an inert admin token
and activates it with a request for `role` that is signed with `key`. -/
def escalation (role : Role) (key : ℕ) :
    List (Event ℕ TeamBearerTokenChallengePayload (ℕ × TeamBearerTokenChallengePayload)) :=
  [.newTeam 1 100, .newKey ⟨1, 100, .memberRole, 1, 10⟩, .newKey ⟨1, 100, .adminRole, 1, 11⟩,
    .makeInert mallory 5 ⟨100, .admin, 1⟩ none,
    .activate mallory ⟨challenge role, (key, challenge role)⟩ false]

/-- A plain member who knows the members' key only acts as an admin. -/
theorem not_tokensProven :
    let w := serve (World.handle .ok verifySymbolic) .empty (escalation (.member 0) 10)
    loadBearerToken mallory w.db 5 0 = .ok (100, .admin) ∧
      (∀ a ∈ w.activations, verifySymbolic 11 a.2.sig a.2.bl ≠ .ok ()) ∧
      ¬ World.TokensProven .ok verifySymbolic w := by
  intro w
  have hload : loadBearerToken mallory w.db 5 0 = .ok (100, .admin) := by decide +kernel
  have hacts : w.activations = [(mallory, ⟨challenge (.member 0), (10, challenge (.member 0))⟩)] := by
    decide +kernel
  refine ⟨hload, ?_, fun hproven => ?_⟩
  · rw [hacts]
    decide
  obtain ⟨m', arg, key, row, hact, -, -, -, hrole, -, hproves, -⟩ := hproven _ _ _ _ _ hload
  obtain ⟨obj, hobj, -, -, hobjrole, -⟩ := hproves.names
  rw [hacts, mem_singleton] at hact
  cases hact
  cases hobj
  rw [hrole] at hobjrole
  cases hobjrole

theorem tokensProven_of_namesRow_escalation :
    let w := serve (World.handle .ok verifySymbolic) .empty (escalation .admin 11)
    loadBearerToken mallory w.db 5 0 = .ok (100, .admin) ∧
      World.TokensProven .ok verifySymbolic w := by
  refine ⟨by decide +kernel, tokensProven_of_namesRow ?_⟩
  refine ⟨trivial, trivial, trivial, trivial, ?_, trivial⟩
  intro obj hobj
  cases hobj
  decide +kernel

end Example

end Foks.Server
