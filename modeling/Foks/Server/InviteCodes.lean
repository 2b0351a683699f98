import Foks.Core.Role
import Foks.Lib.Except

/-!
# Invite codes

A new user types an invite code as `ExportInviteCode` prints it; `ImportInviteCode` reads the text
back (`core/encodings.go`), and `CheckInviteCode` looks the code up in the tables of the host. Base
62 is abstract, and so is `strings.ToLower` on one character.
-/

namespace Foks.Server

open Lib List Except

inductive InviteCodeRegime where
  | none
  | codeRequired
  | codeOptional
  | skipViaSSO
  deriving DecidableEq

inductive InviteCodeError where
  | badInviteCodeError
  | versionNotSupportedError (msg : String)
  | corruptInputError
  deriving DecidableEq

/-- An invite code, over the type `B` of bytes. -/
inductive InviteCode (B : Type) where
  | empty
  | sso
  | standard (b : List B)
  | multiuse (s : List Char)
  deriving DecidableEq

/-- A row of `invite_codes`. -/
structure InviteCodeRow (B : Type) where
  shortHostID : ShortHostID
  code : List B
  usedBy : Option UID

/-- A row of `multiuse_invite_codes`. -/
structure MultiuseInviteCodeRow where
  shortHostID : ShortHostID
  code : List Char
  valid : Bool

structure InviteCodeDB (B : Type) where
  inviteCodes : List (InviteCodeRow B)
  multiuse : List MultiuseInviteCodeRow

def inviteCodeBytes : ℕ := 10

def singleUsePrefix : List Char := ['s', '.']

section Codes

variable {B : Type}

/-- The multi-use codes are those of `multiUseInviteCodeRxx`. -/
def validateInviteCode : InviteCode B → Except InviteCodeError Unit
  | .empty => .ok ()
  | .standard b => refuse (b.length < inviteCodeBytes) .badInviteCodeError
  | .multiuse s =>
    refuse (¬ (5 ≤ s.length ∧ s.all fun c => c.isAlphanum || ['.', '_', '+', '-'].contains c))
      .badInviteCodeError
  | .sso => .error .badInviteCodeError

variable (encode : List B → List Char) (decode : List Char → Except InviteCodeError (List B))
  (toLower : Char → Char)
  (icr : InviteCodeRegime)

def exportInviteCode : InviteCode B → Except InviteCodeError (List Char)
  | .multiuse s => .ok s
  | .standard b => .ok (singleUsePrefix ++ encode b)
  | .empty => .ok []
  | .sso => .error (.versionNotSupportedError "cannot support invitation code type")

def importInviteCode (s : List Char) : Except InviteCodeError (InviteCode B) :=
  if s = [] then
    if icr = .codeOptional then .ok .empty else .error .badInviteCodeError
  else do
    let ret ← (if singleUsePrefix <+: s then .standard <$> decode (s.drop 2)
      else .ok (.multiuse (s.map toLower)))
    validateInviteCode ret
    return ret

/-- The query of `CheckInviteCode`. -/
def InviteCodeDB.finds [DecidableEq B] (db : InviteCodeDB B) (host : ShortHostID) :
    InviteCode B → Bool
  | .standard b => db.inviteCodes.any fun row => row.shortHostID = host ∧ row.code = b ∧
    row.usedBy = none
  | .multiuse s => db.multiuse.any fun row => row.shortHostID = host ∧ row.code = s ∧ row.valid
  | _ => false

def checkInviteCode [DecidableEq B] (db : InviteCodeDB B) (host : ShortHostID) (ic : InviteCode B) :
    Except InviteCodeError Unit := do
  validateInviteCode ic
  match ic with
  | .empty => refuse (icr ≠ .codeOptional) .badInviteCodeError
  | ic => refuse (!db.finds host ic) .badInviteCodeError

/-- The import takes the text of the code for no other: a multi-use code has to be in lower case,
and must not start as the text of a standard code does. -/
def InviteCode.Printable : InviteCode B → Prop
  | .multiuse s => s.map toLower = s ∧ ¬ singleUsePrefix <+: s
  | _ => True

variable {encode decode toLower icr} {c : InviteCode B} (hdecode : ∀ b, decode (encode b) = .ok b)

include hdecode

theorem roundTrip_iff (hvalid : validateInviteCode c = .ok ()) (hne : c ≠ .empty) :
    (∃ text, exportInviteCode encode c = .ok text ∧
      importInviteCode decode toLower icr text = .ok c) ↔
      c.Printable toLower := by
  cases c with
  | empty => exact absurd rfl hne
  | sso => cases hvalid
  | standard b =>
    refine iff_of_true ⟨_, rfl, ?_⟩ trivial
    simp [importInviteCode, singleUsePrefix, hdecode, bind, pure, Except.bind, Except.pure,
      Functor.map, Except.map, hvalid]
  | multiuse s =>
    have hs : s ≠ [] := by
      rintro rfl
      cases hvalid
    simp only [exportInviteCode, ok.injEq, exists_eq_left', importInviteCode, if_neg hs, bind_eq_ok,
      InviteCode.Printable]
    split_ifs with hstandard
    · cases decode (s.drop 2) <;> simp [hstandard, pure, Except.pure]
    · suffices s.map toLower = s →
          ∃ u, validateInviteCode (.multiuse (s.map toLower) : InviteCode B) = .ok u by
        simpa [hstandard, pure, Except.pure]
      exact fun hlower => ⟨(), hlower.symm ▸ hvalid⟩

/-- A code is redeemed by its text, and its text by no other code, if and only if it is printable.
-/
theorem redeemable_iff [DecidableEq B] (hvalid : validateInviteCode c = .ok ()) (hne : c ≠ .empty) :
    (∃ text, exportInviteCode encode c = .ok text ∧
      importInviteCode decode toLower icr text = .ok c ∧
      (∀ db host, (importInviteCode decode toLower icr text >>=
        checkInviteCode icr db host) = .ok () ↔ db.finds host c) ∧
      ∀ c', validateInviteCode c' = .ok () → c' ≠ .empty → c'.Printable toLower →
        exportInviteCode encode c' = .ok text → c' = c) ↔ c.Printable toLower := by
  rw [← roundTrip_iff hdecode hvalid hne]
  constructor
  · rintro ⟨text, hexport, himport, -⟩
    exact ⟨text, hexport, himport⟩
  rintro ⟨text, hexport, himport⟩
  refine ⟨text, hexport, himport, fun db host => ?_, fun c' hvalid' hne' hprint hexport' => ?_⟩
  · rw [himport]
    change checkInviteCode icr db host c = .ok () ↔ _
    unfold checkInviteCode
    rw [hvalid]
    cases c with
    | empty => exact absurd rfl hne
    | _ => simp [bind_eq_ok]
  obtain ⟨text', htext, himport'⟩ := (roundTrip_iff hdecode hvalid' hne').mpr hprint
  cases hexport'.symm.trans htext
  exact ok.inj (himport'.symm.trans himport)

end Codes

/-- A code in lower case, in an alphabet that needs no encoding. -/
theorem redeemable_lower : ∃ text, exportInviteCode id (.multiuse "abcde".toList) = .ok text ∧
    (importInviteCode .ok Char.toLower .codeRequired text >>= checkInviteCode .codeRequired
        ⟨[], [⟨0, text, true⟩]⟩ 0) = .ok () := by
  obtain ⟨text, hexport, -, hredeem, -⟩ := (@redeemable_iff Char id .ok Char.toLower .codeRequired
    (.multiuse "abcde".toList) (fun _ => rfl) _ (by decide) (by decide)).mpr ⟨by decide, by decide⟩
  refine ⟨text, hexport, (hredeem _ 0).mpr ?_⟩
  cases hexport
  decide

/-- The text of a code in upper case is read as another code, which is not in the table. -/
theorem upper_not_redeemable :
    validateInviteCode (.multiuse "ABCDE".toList : InviteCode Char) = .ok () ∧
    exportInviteCode id (.multiuse "ABCDE".toList) = .ok "ABCDE".toList ∧
    importInviteCode .ok Char.toLower .codeRequired "ABCDE".toList =
      .ok (.multiuse "abcde".toList : InviteCode Char) ∧
    (importInviteCode .ok Char.toLower .codeRequired "ABCDE".toList >>=
      checkInviteCode .codeRequired (⟨[], [⟨0, "ABCDE".toList, true⟩]⟩ : InviteCodeDB Char) 0) =
        .error .badInviteCodeError := by
  decide

end Foks.Server
