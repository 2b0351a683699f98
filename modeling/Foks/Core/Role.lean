import Foks.Core.Rational
import Mathlib.Data.Prod.Lex

/-!
# Identifiers, errors and roles

The identifiers that the protocol only compares are natural numbers: an identifier of fixed
length is its bytes read as one big-endian number, so the order of the numbers is the order of
the bytes. Generations and sequence numbers are counters that start at one.

A role key is a role type with a visibility level. Every role key of the program comes out of
`importRole` or is one of the named constants, and both validate it, so the model carries the
validity as a field.
-/

namespace Foks

/-- `proto.HostID`: 33 bytes. -/
abbrev HostID := ℕ

/-- `proto.EntityID`: the number of bytes, and the bytes read as one number. -/
@[ext] structure EntityID where
  len : ℕ
  num : ℕ
  lt : num < 256 ^ len
  deriving DecidableEq, Repr

structure FQEntity where
  entity : EntityID
  host : HostID
  deriving DecidableEq, Repr

/-- `proto.FixedEntityID`: 34 bytes. -/
abbrev FixedEntityID := ℕ

abbrev ShortHostID := ℕ

/-- `proto.UID`; zero is nobody, the user of a connection without a login. -/
abbrev UID := ℕ

/-- `proto.TeamID`: 33 bytes, of which the first is the entity type. -/
abbrev TeamID := ℕ

/-- `TeamID.IsAdHocTeam`: the entity type is `EntityType_AdHocTeam`. -/
def TeamID.isAdHocTeam (t : TeamID) : Bool := t / 256 ^ 32 == 20

/-- The host that serves a call. -/
structure HostContext where
  shortHostID : ShortHostID
  hostID : HostID
  deriving DecidableEq

/-- `proto.Generation`: the generation of a key; valid ones start at one. -/
abbrev Generation := ℕ

/-- `proto.Seqno`: the position of a link in its chain; valid ones start at one. -/
abbrev Seqno := ℕ

/-- `proto.Time`: milliseconds. -/
abbrev Time := ℕ

def firstGeneration : Generation := 1

def Generation.isVoid (g : Generation) : Bool := g == 0

def Generation.isValid (g : Generation) : Bool := firstGeneration ≤ g

/-- `proto.Role`: a role on the wire; only the member variant has a visibility level. -/
inductive Role where
  | none
  | member (viz : ℤ)
  | admin
  | owner
  deriving DecidableEq, Repr

inductive KVNodeType where
  | none
  | dir
  | file
  | smallFile
  | symlink
  deriving DecidableEq, Repr

inductive KVOp where
  | none
  | read
  | write
  deriving DecidableEq, Repr

/-- The errors of package `core`, by their type and their text; `errors.New`; and the errors of the
database driver that reach its callers: `pgx.ErrNoRows`, the violation of a constraint and a value
that its column cannot hold. -/
inductive CoreError where
  | teamRosterError (msg : String)
  | teamError (msg : String)
  | linkError (msg : String)
  | validationError (msg : String)
  | verifyError (msg : String)
  | permissionError (msg : String)
  | internalError (msg : String)
  | insertError (msg : String)
  | updateError (msg : String)
  | keyNotFoundError (which : String)
  | teamBearerTokenStaleError (which : String)
  | wrongUserError
  | teamNotFoundError
  | teamNoSrcRoleError
  | bitPrefixMatchError (pos : ℕ)
  | merkleNoRootError
  | merkleLeafNotFoundError
  | merkleLeafExistsError
  | merkleTreeError (msg : String)
  | merkleInitError (msg : String)
  | merkleVerifyError (msg : String)
  | merkleBackPointerVerifyError (msg : String) (epno : ℕ)
  | merkleRollbackError (known saw : ℕ)
  | versionNotSupportedError (msg : String)
  | commitmentError (msg : String)
  | revokeError (msg : String)
  | errorsNew (msg : String)
  | chainLoaderError (race : Bool) (err : CoreError)
  | clBadSeqnoError (which : String) (expected actual : Seqno)
  | clBadPrevError (seqno : Seqno)
  | clBadCountError (which : String) (expected actual : ℕ)
  | clBadTreeLocationError (seqno : Seqno) (err : CoreError)
  | clBadMerklePathError (which : String) (seqno : Seqno) (err : CoreError)
  | clBadMerkleLeafValueError (which : String) (seqno : Seqno)
  | clOpenLinkError (n : ℕ) (err : CoreError)
  | clProvisionError (seqno : Seqno) (err : CoreError)
  | clInvalidSignerError (seqno : Seqno) (fqe : FQEntity)
  | clInvalidSeqnoError
  | clBadKeySequenceError (which : String) (gen : Generation) (role : Role)
  | clIndexRangeError (seqno : Seqno) (msg : String)
  | ulEldestError (err : CoreError)
  | ulRevokeError (seqno : Seqno) (err : CoreError)
  | ulOpenCommitmentError (which : String) (idx : ℕ) (err : CoreError)
  | publicKeyError (msg : String)
  | keyImportError (msg : String)
  | entityError (msg : String)
  | dataError (msg : String)
  | nameError (msg : String)
  | hostMismatchError (which : String := "")
  | hostchainError (msg : String)
  | badServerDataError (msg : String)
  | badArgsError (msg : String)
  | notFoundError (what : String)
  | duplicateError (what : String)
  | badRangeError
  | teamRaceError (msg : String)
  | teamCycleError (joiner joinee : RationalRange)
  | kvRaceError (msg : String)
  | kvPermssionError (op : KVOp) (resource : KVNodeType)
  | kvPathError (msg : String)
  | kvAbsPathError (path : List Char)
  | kvMkdirError (msg : String)
  | kvExistsError
  | kvTypeError (msg : String)
  | kvNeedFileError
  | kvNeedDirError
  | kvStaleCacheError
  | kvPathTooDeepError
  | kvNoentError (path : List Char)
  | kvUploadInProgressError
  | uploadError (msg : String)
  | tooBigError (actual limit : ℕ) (desc : String)
  | decryptionError
  | kvOutboxFullError
  | kvLockAlreadyHeldError
  | kvLockTimeoutError
  | rowNotFoundError
  | rtChannelArchivedError
  | rtRaceError (which : String)
  | rtMsgReplayMismatchError
  | noRows
  | uniqueViolation (constraint : String)
  | foreignKeyViolation (table : String)
  | numericValueOutOfRange
  deriving DecidableEq, Repr

/-- A nil pointer that is dereferenced: the program stops. -/
def nilPointer : CoreError := .internalError "nil pointer"

/-- An index or a slice that is out of range: the program stops. -/
def outOfRange : CoreError := .internalError "index out of range"

inductive RoleType where
  | none
  | member
  | admin
  | owner
  deriving DecidableEq, Repr

namespace RoleType

/-- The number of a role type on the wire. -/
def toNat : RoleType → ℕ
  | none => 0
  | member => 1
  | admin => 2
  | owner => 3

theorem toNat_injective : Function.Injective toNat := by
  intro a b h
  cases a <;> cases b <;> first | rfl | simp [toNat] at h

instance : LinearOrder RoleType := LinearOrder.lift' toNat toNat_injective

theorem lt_iff {a b : RoleType} : a < b ↔ a.toNat < b.toNat := Iff.rfl

def isAdminOrAbove (t : RoleType) : Bool := admin ≤ t

end RoleType

/-- What `RoleKey.validate` accepts: a level of 16 bits for members, level zero for all
others. -/
def ValidRole : RoleType → ℤ → Prop
  | .member, lev => -32768 ≤ lev ∧ lev < 32768
  | _, lev => lev = 0

instance (t : RoleType) (lev : ℤ) : Decidable (ValidRole t lev) := by
  cases t <;> unfold ValidRole <;> infer_instance

structure RoleKey where
  typ : RoleType
  lev : ℤ
  -- what `RoleKey.validate` accepts
  valid : ValidRole typ lev
  deriving DecidableEq

namespace RoleKey

def ownerRole : RoleKey := ⟨.owner, 0, rfl⟩

def adminRole : RoleKey := ⟨.admin, 0, rfl⟩

def memberRole : RoleKey := ⟨.member, 0, by decide⟩

/-- `core.KVMinRole`, at `proto.VizLevelKvMin`. -/
def kvMinRole : RoleKey := ⟨.member, -0x4000, by decide⟩

/-- The role key of removed members, `RoleType_NONE`. -/
def noneRole : RoleKey := ⟨.none, 0, rfl⟩

variable {r r2 : RoleKey}

@[ext] theorem ext (ht : r.typ = r2.typ) (hl : r.lev = r2.lev) : r = r2 := by
  cases r
  cases r2
  simp_all

/-- Role keys compare by type, then by level. -/
def toPair (r : RoleKey) : RoleType ×ₗ ℤ := toLex (r.typ, r.lev)

theorem toPair_injective : Function.Injective toPair := by
  intro a b h
  have h' : (a.typ, a.lev) = (b.typ, b.lev) := toLex.injective h
  exact RoleKey.ext (congrArg Prod.fst h') (congrArg Prod.snd h')

instance : LinearOrder RoleKey := LinearOrder.lift' toPair toPair_injective

theorem le_iff : r ≤ r2 ↔ r.typ < r2.typ ∨ r.typ = r2.typ ∧ r.lev ≤ r2.lev :=
  Prod.Lex.toLex_le_toLex

theorem lt_iff : r < r2 ↔ r.typ < r2.typ ∨ r.typ = r2.typ ∧ r.lev < r2.lev :=
  Prod.Lex.toLex_lt_toLex

def lessThan (r r2 : RoleKey) : Bool :=
  if r.typ < r2.typ then true
  else if r2.typ < r.typ then false
  else r.lev < r2.lev

def lessThanOrEqual (r r2 : RoleKey) : Bool :=
  if r.typ < r2.typ then true
  else if r2.typ < r.typ then false
  else r.lev ≤ r2.lev

def cmp (r r2 : RoleKey) : ℤ :=
  if r.typ < r2.typ then -1
  else if r2.typ < r.typ then 1
  else if r.lev < r2.lev then -1
  else if r2.lev < r.lev then 1
  else 0

@[simp] theorem lessThan_iff : r.lessThan r2 = true ↔ r < r2 := by
  rw [lt_iff, lessThan]
  rcases lt_trichotomy r.typ r2.typ with h | h | h
  · simp [h]
  · simp [h]
  · simp [h, h.ne']

@[simp] theorem lessThanOrEqual_iff : r.lessThanOrEqual r2 = true ↔ r ≤ r2 := by
  rw [le_iff, lessThanOrEqual]
  rcases lt_trichotomy r.typ r2.typ with h | h | h
  · simp [h]
  · simp [h]
  · simp [h, h.ne']

theorem cmp_eq (r r2 : RoleKey) : r.cmp r2 = if r < r2 then -1 else if r2 < r then 1 else 0 := by
  simp only [lt_iff, cmp]
  rcases lt_trichotomy r.typ r2.typ with h | h | h
  · simp [h]
  · simp [h]
  · simp [h, h.ne']

@[simp] theorem cmp_pos_iff : 0 < r.cmp r2 ↔ r2 < r := by
  rw [cmp_eq]
  rcases lt_trichotomy r r2 with h | rfl | h
  · simp [h, h.not_gt]
  · simp
  · simp [h, h.not_gt]

@[simp] theorem cmp_neg_iff : r.cmp r2 < 0 ↔ r < r2 := by
  rw [cmp_eq]
  rcases lt_trichotomy r r2 with h | rfl | h
  · simp [h]
  · simp
  · simp [h, h.not_gt]

@[simp] theorem cmp_eq_zero_iff : r.cmp r2 = 0 ↔ r = r2 := by
  rw [cmp_eq]
  rcases lt_trichotomy r r2 with h | rfl | h
  · simp [h, h.ne]
  · simp
  · simp [h, h.not_gt, h.ne']

/-- There is one owner role, and it is the top role. -/
theorem le_ownerRole (r : RoleKey) : r ≤ ownerRole := by
  obtain ⟨typ, lev, valid⟩ := r
  rw [le_iff]
  cases typ
  case owner => exact Or.inr ⟨rfl, le_of_eq valid⟩
  all_goals exact Or.inl (by simp [RoleType.lt_iff, RoleType.toNat, ownerRole])

theorem eq_ownerRole_of_typ (h : r.typ = .owner) : r = ownerRole := by
  obtain ⟨typ, lev, valid⟩ := r
  cases h
  exact RoleKey.ext rfl valid

/-- There is one role key of type `NONE`, and it is the bottom role. -/
theorem noneRole_le (r : RoleKey) : noneRole ≤ r := by
  obtain ⟨typ, lev, valid⟩ := r
  rw [le_iff]
  cases typ
  case none => exact Or.inr ⟨rfl, le_of_eq (Eq.symm valid)⟩
  all_goals exact Or.inl (by simp [RoleType.lt_iff, RoleType.toNat, noneRole])

theorem eq_noneRole_of_typ (h : r.typ = .none) : r = noneRole := by
  obtain ⟨typ, lev, valid⟩ := r
  cases h
  exact RoleKey.ext rfl valid

theorem typ_eq_none_iff : r.typ = .none ↔ r = noneRole :=
  ⟨eq_noneRole_of_typ, fun h => h ▸ rfl⟩

def isNone (r : RoleKey) : Bool := r.typ == .none

/-- `RoleKey.Export`. -/
def exportRole (r : RoleKey) : Role :=
  match r.typ with
  | .none => .none
  | .member => .member r.lev
  | .admin => .admin
  | .owner => .owner

end RoleKey

/-- `RoleKey.validate`, on the parts of a role key. -/
def validate (t : RoleType) (lev : ℤ) : Except CoreError RoleKey :=
  if h : ValidRole t lev then .ok ⟨t, lev, h⟩
  else .error (.validationError "invalid viz level")

/-- `Role.GetT` -/
def Role.typ : Role → RoleType
  | .none => .none
  | .member _ => .member
  | .admin => .admin
  | .owner => .owner

theorem Role.typ_eq_owner {r : Role} : r.typ = .owner ↔ r = .owner := by
  cases r <;> simp [Role.typ]

/-- `Role.Cmp`. The second comparison of levels repeats the first one: a member role compares as
equal to a member role of a lower level. -/
def Role.cmp : Role → Role → ℤ
  | .member l1, .member l2 => if l1 < l2 then -1 else if l2 > l1 then 1 else 0
  | r, r2 => if r.typ = r2.typ then 0 else if r.typ < r2.typ then -1 else 1

def Role.lessThan (r r2 : Role) : Bool := r.cmp r2 < 0

def Role.greaterThan (r r2 : Role) : Bool := 0 < r.cmp r2

/-! ### The order of roles on the wire -/

namespace Role

/-- The visibility level of a member, zero for all others. -/
def level : Role → ℤ
  | .member viz => viz
  | _ => 0

def rank (r : Role) : RoleType ×ₗ ℤ := toLex (r.typ, r.level)

theorem rank_injective : Function.Injective rank := by
  intro a b h
  have h' : (a.typ, a.level) = (b.typ, b.level) := toLex.injective h
  cases a <;> cases b <;> simp_all [typ, level]

instance : LinearOrder Role := LinearOrder.lift' rank rank_injective

theorem le_iff {a b : Role} : a ≤ b ↔ a.typ < b.typ ∨ a.typ = b.typ ∧ a.level ≤ b.level :=
  Prod.Lex.toLex_le_toLex

/-- The owner role is the top role. -/
theorem le_owner (r : Role) : r ≤ .owner := by
  rw [le_iff]
  cases r <;> simp [typ, RoleType.lt_iff, RoleType.toNat]

def isAtOrAbove (r r2 : Role) : Bool :=
  if r.typ < r2.typ then false
  else if r2.typ < r.typ then true
  else match r, r2 with
    | .member l, .member l2 => l2 ≤ l
    | _, _ => true

@[simp] theorem isAtOrAbove_iff {r r2 : Role} : r.isAtOrAbove r2 = true ↔ r2 ≤ r := by
  rw [le_iff]
  cases r <;> cases r2 <;> simp [isAtOrAbove, typ, level, RoleType.lt_iff, RoleType.toNat]

end Role

def importRole : Role → Except CoreError RoleKey
  | .none => validate .none 0
  | .member viz => validate .member viz
  | .admin => validate .admin 0
  | .owner => validate .owner 0

theorem validate_eq (r : RoleKey) : validate r.typ r.lev = .ok r := by
  rw [validate, dif_pos r.valid]

@[simp] theorem importRole_exportRole (r : RoleKey) : importRole r.exportRole = .ok r := by
  obtain ⟨typ, lev, valid⟩ := r
  cases typ
  case member => exact validate_eq ⟨.member, lev, valid⟩
  all_goals
    cases (show lev = 0 from valid)
    rfl

/-- An imported role exports to itself. -/
theorem exportRole_of_importRole {role : Role} {rk : RoleKey} (h : importRole role = .ok rk) :
    rk.exportRole = role := by
  have hval : ∀ t lev, validate t lev = .ok rk → rk.typ = t ∧ rk.lev = lev := by
    intro t lev hv
    unfold validate at hv
    split at hv
    · cases hv
      exact ⟨rfl, rfl⟩
    · cases hv
  cases role <;> obtain ⟨htyp, hlev⟩ := hval _ _ h <;> simp [RoleKey.exportRole, htyp, hlev]

theorem RoleKey.exportRole_injective : Function.Injective RoleKey.exportRole := by
  intro a b h
  have := congrArg importRole h
  simpa using this

/-- On exported role keys `Role.LessThan` is the order of role keys: the levels that `Role.Cmp` does
not tell apart are in the wrong order. -/
theorem Role.lessThan_exportRole {a b : RoleKey} : a.exportRole.lessThan b.exportRole = true ↔ a < b := by
  obtain ⟨t, l, hl⟩ := a
  obtain ⟨t2, l2, hl2⟩ := b
  rw [RoleKey.lt_iff]
  cases t <;> cases t2 <;> simp only [ValidRole] at hl hl2
  case member.member =>
    simp only [RoleKey.exportRole, lessThan, Role.cmp]
    split_ifs with hlt <;> simp [hlt]
  all_goals simp [RoleKey.exportRole, lessThan, Role.cmp, Role.typ, RoleType.lt_iff, RoleType.toNat, hl, hl2]

end Foks
