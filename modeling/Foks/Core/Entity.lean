import Foks.Core.Role
import Foks.Lib.Except

/-!
# Entities

`proto/lib/extras.go`: the ID of an entity is a string of bytes, and the first byte is its type. In
the keys of maps an ID has a fixed length of 34 bytes. A shorter ID gets zeros at its end there, so
that IDs that differ only in such zeros have one fixed form.

## Main definitions

* `EntityType`: the types of entities
* `EntityID.fixed`, `EntityID.unfix`: the fixed form of an ID, and the ID that is read from it
-/

namespace Foks

open Lib

inductive EntityType where
  | user
  | host
  | namedTeam
  | device
  | x509Cert
  | locationVRF
  | service
  | yubi
  | name
  | hostMerkleSigner
  | hostTLSCA
  | hostMetadataSigner
  | subkey
  | pukVerify
  | ptkVerify
  | backupKey
  | passphraseKey
  | pkixCert
  | botTokenKey
  | adHocTeam
  | adHocTeamMashed
  deriving DecidableEq

namespace EntityType

/-- The type of an entity from the first byte of its ID; the types are numbered from one on. -/
def ofByte (b : ℕ) : Option EntityType :=
  [none, some .user, some .host, some .namedTeam, some .device, some .x509Cert, some .locationVRF,
    some .service, some .yubi, some .name, some .hostMerkleSigner, some .hostTLSCA,
    some .hostMetadataSigner, some .subkey, some .pukVerify, some .ptkVerify, some .backupKey,
    some .passphraseKey, some .pkixCert, some .botTokenKey, some .adHocTeam,
    some .adHocTeamMashed].getD b none

def isEd25519 : EntityType → Bool
  | .yubi | .name | .pkixCert | .adHocTeamMashed => false
  | _ => true

/-- `EntityType.Len`: the bytes of an ID of the type, where it has a length. -/
def len (t : EntityType) : Option ℕ :=
  if t.isEd25519 then some 33
  else match t with
    | .name => some 33
    | .yubi => some 34
    | .pkixCert => some 33
    | _ => none

/-- `EntityType.RollingType`: the type of the keys of a party. -/
def rollingType : EntityType → EntityType
  | .user => .pukVerify
  | .namedTeam | .adHocTeam => .ptkVerify
  | t => t

def isTeam : EntityType → Bool
  | .namedTeam | .adHocTeam => true
  | _ => false

theorem len_bounds {t : EntityType} {l : ℕ} (h : t.len = some l) : 1 ≤ l ∧ l ≤ 34 := by
  cases t <;> simp [len, isEd25519] at h <;> omega

end EntityType

namespace EntityID

/-- The ID with the last `len` bytes of a number. -/
def ofNat (len n : ℕ) : EntityID := ⟨len, n % 256 ^ len, Nat.mod_lt n (Nat.pow_pos (by decide))⟩

variable (e : EntityID)

/-- The first byte, and zero if there is none. -/
def firstByte : ℕ := e.num / 256 ^ (e.len - 1)

/-- `EntityID.Type` -/
def typ : Option EntityType := EntityType.ofByte e.firstByte

/-- `EntityID.Data`: the bytes after the first one. -/
def data : ℕ := e.num % 256 ^ (e.len - 1)

/-- `EntityID.Eq`: an ID without bytes is not even equal to itself. -/
def eq (e2 : EntityID) : Bool := e.len ≠ 0 ∧ e = e2

def rollingEq (e2 : EntityID) : Bool :=
  e.len = e2.len ∧ 2 < e.len ∧ e.typ.map (·.rollingType) = e2.typ.map (·.rollingType) ∧ e.data = e2.data

def toUID : Except CoreError UID := do
  refuse (e.len ≠ 33) (.entityError "wrong length for UID")
  refuse (e.typ ≠ some .user) (.entityError "wrong leading byte for UID")
  return e.num

def toTeamID : Except CoreError TeamID := do
  refuse (e.len ≠ 33) (.entityError "wrong length for team ID")
  refuse (¬ e.typ.any (·.isTeam)) (.entityError "wrong leading byte for team ID")
  return e.num

/-- `EntityID.Fixed` -/
def fixed : Except CoreError FixedEntityID := do
  refuse (34 < e.len) (.entityError "entity ID exceeds expected length")
  return e.num * 256 ^ (34 - e.len)

/-- `FixedEntityID.Unfix`: as many bytes as the type asks for. The length of a type that is not known
is negative, so that the slice is out of range. -/
def unfix (f : FixedEntityID) : Except CoreError EntityID :=
  match (EntityType.ofByte (f / 256 ^ 33)).bind (·.len) with
  | none => .error outOfRange
  | some l => .ok (.ofNat l (f / 256 ^ (34 - l)))

variable {e} {f : FixedEntityID} {u : EntityID}

theorem fixed_eq_ok : e.fixed = .ok f ↔ e.len ≤ 34 ∧ e.num * 256 ^ (34 - e.len) = f := by
  unfold fixed
  rw [bind_eq_ok]
  constructor
  · rintro ⟨⟨⟩, hlen, hf⟩
    exact ⟨not_lt.mp (refuse_eq_ok.mp hlen), Except.ok.inj hf⟩
  · rintro ⟨hlen, rfl⟩
    exact ⟨(), refuse_eq_ok.mpr hlen.not_gt, rfl⟩

theorem fixed_lt (h : e.fixed = .ok f) : f < 256 ^ 34 := by
  obtain ⟨hlen, rfl⟩ := fixed_eq_ok.mp h
  calc e.num * 256 ^ (34 - e.len)
      < 256 ^ e.len * 256 ^ (34 - e.len) := Nat.mul_lt_mul_of_pos_right e.lt (Nat.pow_pos (by decide))
    _ = 256 ^ 34 := by rw [← pow_add, Nat.add_sub_cancel' hlen]

theorem pow_33_eq {l : ℕ} (hl : 1 ≤ l) (hle : l ≤ 34) : 256 ^ 33 = 256 ^ (34 - l) * 256 ^ (l - 1) := by
  rw [← pow_add]
  congr 1
  omega

/-- The fixed form begins with the type. -/
theorem firstByte_eq (h : e.fixed = .ok f) (hlen : 1 ≤ e.len) : e.firstByte = f / 256 ^ 33 := by
  obtain ⟨hle, rfl⟩ := fixed_eq_ok.mp h
  rw [pow_33_eq hlen hle, ← Nat.div_div_eq_div_mul, Nat.mul_div_cancel _ (Nat.pow_pos (by decide)), firstByte]

theorem lt_of_unfix (h : unfix f = .ok u) : f < 256 ^ 34 := by
  by_contra hge
  have hbyte : EntityType.ofByte (f / 256 ^ 33) = none := by
    have hle : 256 ≤ f / 256 ^ 33 := by
      rw [Nat.le_div_iff_mul_le (Nat.pow_pos (by decide)), ← pow_succ']
      exact not_lt.mp hge
    exact List.getD_eq_default _ _ (le_trans (by decide) hle)
  rw [unfix, hbyte] at h
  cases h

/-- An ID that is read from a fixed form has the length of its type. -/
theorem unfix_eq_ok (h : unfix f = .ok u) : ∃ t l, EntityType.ofByte (f / 256 ^ 33) = some t ∧ t.len = some l ∧
    u.len = l ∧ u.num = f / 256 ^ (34 - l) := by
  have hlt := lt_of_unfix h
  unfold unfix at h
  split at h
  · cases h
  · next l hl =>
    obtain ⟨t, ht, hlen⟩ := Option.bind_eq_some_iff.mp hl
    cases h
    refine ⟨t, l, ht, hlen, rfl, Nat.mod_eq_of_lt (Nat.div_lt_of_lt_mul ?_)⟩
    rw [← pow_add]
    refine hlt.trans_le (Nat.pow_le_pow_right (by decide) ?_)
    omega

/-- What is read from a fixed form has a fixed form that it is read from. -/
theorem exists_fixed_of_unfix (h : unfix f = .ok u) : ∃ f', u.fixed = .ok f' ∧ unfix f' = .ok u := by
  obtain ⟨t, l, ht, hl, hlen, hnum⟩ := unfix_eq_ok h
  subst hlen
  obtain ⟨hone, hle⟩ := t.len_bounds hl
  refine ⟨_, fixed_eq_ok.mpr ⟨hle, rfl⟩, ?_⟩
  have hpos : 0 < 256 ^ (34 - u.len) := Nat.pow_pos (by decide)
  -- the first byte is the one from before, so that the same bytes are read
  have hbyte : u.num * 256 ^ (34 - u.len) / 256 ^ 33 = f / 256 ^ 33 := by
    rw [pow_33_eq hone hle, ← Nat.div_div_eq_div_mul, Nat.mul_div_cancel _ hpos, hnum, Nat.div_div_eq_div_mul]
  unfold unfix
  rw [hbyte, ht, Option.bind_some, hl]
  dsimp only
  rw [Nat.mul_div_cancel _ hpos, ofNat]
  congr 1
  exact EntityID.ext rfl (Nat.mod_eq_of_lt u.lt)

/-- The ID that is read from the fixed form of an ID has its type, and is this ID if the length is the one
of the type. -/
theorem of_unfix_fixed (h : e.fixed = .ok f) (hu : unfix f = .ok u) :
    u.typ = e.typ ∧ (e.len = u.len → u = e) := by
  obtain ⟨t, l, ht, hl, hlen, hnum⟩ := unfix_eq_ok hu
  obtain ⟨hone, hle⟩ := t.len_bounds hl
  have hpos : 1 ≤ e.len := by
    refine Nat.one_le_iff_ne_zero.mpr fun hzero => ?_
    have hlt := e.lt
    obtain ⟨-, rfl⟩ := fixed_eq_ok.mp h
    rw [hzero, pow_zero, Nat.lt_one_iff] at hlt
    rw [hlt, Nat.zero_mul, Nat.zero_div] at ht
    cases ht
  constructor
  · unfold typ
    rw [firstByte_eq h hpos, firstByte, hlen, hnum, Nat.div_div_eq_div_mul, ← pow_33_eq hone hle]
  · intro heq
    obtain ⟨-, rfl⟩ := fixed_eq_ok.mp h
    refine EntityID.ext heq.symm ?_
    rw [hnum, ← hlen, ← heq, Nat.mul_div_cancel _ (Nat.pow_pos (by decide))]

end EntityID

def UID.entityID (u : UID) : EntityID := .ofNat 33 u

def TeamID.entityID (t : TeamID) : EntityID := .ofNat 33 t

end Foks
