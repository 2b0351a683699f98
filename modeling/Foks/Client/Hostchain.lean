import Foks.Client.UserChain

/-!
# Host chains

`lib/core/hostchain.go`: a host publishes its keys in a chain of links. Each link adds and revokes keys,
names the link before it, and is signed by the keys that it adds and, last, by a key of the host. The
first link is signed by the key that the host is named after.

The encoding of links, their signatures and hashes, and certificates are parameters. Entities are byte
strings here: those of a link may have any length.
-/

namespace Foks.Host

open Lib Client List Option Except

/-! ## Entities -/

/-- `proto.EntityID`: the first byte is the type. -/
abbrev EntityID := List UInt8

/-- `proto.EntityID33`, the bytes of `HostID` and `HostTLSCAID`. -/
structure EntityID33 where
  entityID : EntityID
  length_eq : entityID.length = 33
  deriving DecidableEq

abbrev HostID := EntityID33

def typeHost : UInt8 := 2

def typeHostTLSCA : UInt8 := 11

namespace EntityID

/-- `EntityID.Type`: the first byte. -/
def typ : EntityID → Except CoreError UInt8
  | [] => .error outOfRange
  | b :: _ => .ok b

/-- `EntityID.Fixed`: 34 bytes, with zeros at the end. -/
def fixed (e : EntityID) : Except CoreError (List UInt8) := do
  refuse (34 < e.length) (.entityError "entity ID exceeds expected length")
  return e ++ replicate (34 - e.length) 0

def eq (e e2 : EntityID) : Bool := e ≠ [] && e = e2

def publicKeyEd25519 (e : EntityID) : Except CoreError (Option (List UInt8)) := do
  let t ← e.typ
  return if (EntityType.ofByte t.toNat).any (·.isEd25519) then some (e.drop 1) else none

end EntityID

def EntityID33.isZero (e : EntityID33) : Bool := e.entityID.all (· = 0)

def EntityID33.zero : EntityID33 := ⟨replicate 33 0, length_replicate⟩

/-! ## Links -/

structure HostTLSCA where
  id : EntityID33
  cert : List UInt8
  deriving DecidableEq

/-- `proto.HostchainChangeItem`: a type that is not known is skipped. -/
inductive HostchainChangeItem where
  | revoke (e : EntityID)
  | key (e : EntityID)
  | tlsca (ca : HostTLSCA)
  | unknown
  deriving DecidableEq

/-- The public key of a certificate: none if its algorithm is not known. -/
inductive CertKey where
  | none
  | ed25519 (key : List UInt8)
  | other
  deriving DecidableEq

structure HostchainChange (H : Type) where
  chainer : BaseChainer H
  host : HostID
  signer : HostID
  changes : List HostchainChangeItem
  deriving DecidableEq

/-- The encoding of certificates. -/
class X509 where
  parseCertificate : List UInt8 → Except CoreError CertKey

/-- The encoding of links of type `L`, and the signatures under them: a signature is over the link with
the signatures before it. -/
class Format (L : Type) (H : outParam Type) where
  openHostchainChangeLink : L → Except CoreError (HostchainChange H)
  hostchainLinkHash : L → H
  zeroHash : H
  signatures : L → List Signature
  verifyEd25519 : List UInt8 → Signature → L → List Signature → Except CoreError Unit

structure KeyAtSeqno where
  seqno : Seqno
  eid : EntityID
  deriving DecidableEq

structure HostTLSCAAtSeqno where
  seqno : Seqno
  ca : HostTLSCA
  deriving DecidableEq

structure HostchainState (H : Type) where
  seqno : Seqno := 0
  host : HostID := .zero
  time : Time := 0
  tail : H
  cas : List HostTLSCAAtSeqno := []
  addr : String := ""
  deriving DecidableEq

structure HostchainTail (H : Type) where
  seqno : Seqno
  hash : H
  deriving DecidableEq

/-- What is known of a host: its keys by their types, the latest link, the links before it, and the
keys that were revoked. -/
structure Hostchain (H : Type) where
  keys : Map UInt8 (List KeyAtSeqno) := ∅
  raw : HostchainState H
  tails : List (HostchainTail H) := []
  revoked : Finset (List UInt8) := ∅

/-! ## Playing a chain -/

open Format

variable {L H : Type}

def hostchainEldestSeqno : Seqno := 1

namespace Hostchain

variable (h : Hostchain H)

def hostID : HostID := h.raw.host

/-- `copy`: the tails are not copied. -/
def copy : Hostchain H := { h with tails := [] }

variable (e : EntityID)

def revokeTLSCA : Hostchain H :=
  { h with raw := { h.raw with cas := h.raw.cas.filter fun k => !EntityID.eq k.ca.id.entityID e } }

def revokeKey : Except CoreError (Hostchain H) := do
  let t ← EntityID.typ e
  let lst := (h.keys.lookup t).getD []
  let feid ← EntityID.fixed e
  return { h with
    keys := h.keys.insert t (lst.filter fun k => !EntityID.eq k.eid e)
    revoked := insert feid h.revoked }

def revoke : Except CoreError (Hostchain H) := do
  let t ← EntityID.typ e
  if t = typeHostTLSCA then return h.revokeTLSCA e
  else h.revokeKey e

def addKey (eid : EntityID) : Except CoreError (Hostchain H) := do
  let t ← EntityID.typ eid
  return { h with keys := h.keys.insert t ((h.keys.lookup t).getD [] ++ [⟨h.raw.seqno, eid⟩]) }

def checkChainer [DecidableEq H] (h : Hostchain H) (c : BaseChainer H) : Except CoreError Unit := do
  refuse (!isValid c.seqno) (.hostchainError "seqno 0 not allowed")
  refuse (c.seqno ≠ h.raw.seqno + 1) (.hostchainError "seqno must be exactly 1 greater than previous")
  if c.seqno = hostchainEldestSeqno then
    refuse (c.prev ≠ none) (.hostchainError "eldest seqno must not have prev")
  else
    refuse (c.prev = none) (.hostchainError "prev must not be nil")
    refuse (c.prev ≠ some h.raw.tail) (.hostchainError "prev did not match tail")

def checkHostAndSigner (q : Seqno) (host signer : HostID) : Except CoreError Unit := do
  refuse (q = hostchainEldestSeqno ∧ host ≠ signer) (.hostchainError "hostkey must sign first change")
  refuse (hostchainEldestSeqno < q ∧ h.raw.host ≠ host)
    (.hostchainError "cannot change hostID once established")

/-- One change of a link; also the keys that must have signed the link. -/
def playChange [X509] (h : Hostchain H) (keys : List EntityID) :
    HostchainChangeItem → Except CoreError (Hostchain H × List EntityID)
  | .revoke e => do
    let h ← h.revoke e
    return (h, keys)
  | .key eid => do
    let h ← h.addKey eid
    return (h, keys ++ [eid])
  | .tlsca ca => do
    let pk ← X509.parseCertificate ca.cert
    refuse (pk = .none) (.hostchainError "could not cast public key from cert")
    let eid := ca.id.entityID
    let eidPk ← EntityID.publicKeyEd25519 eid
    refuse (eidPk.all fun key => pk ≠ .ed25519 key) (.hostchainError "certificate does not match entity ID")
    return ({ h with raw := { h.raw with cas := h.raw.cas ++ [⟨h.raw.seqno, ca⟩] } }, keys ++ [eid])
  | .unknown => return (h, keys)

/-- The loop over the changes of a link. -/
def playItems [X509] (h : Hostchain H) (keys : List EntityID) :
    List HostchainChangeItem → Except CoreError (Hostchain H × List EntityID)
  | [] => return (h, keys)
  | i :: changes => do
    let (h, keys) ← h.playChange keys i
    playItems h keys changes

def playChanges [X509] [DecidableEq H] (h : Hostchain H) (c : HostchainChange H) (hsh : H) :
    Except CoreError (Hostchain H × List EntityID) := do
  h.checkChainer c.chainer
  h.checkHostAndSigner c.chainer.seqno c.host c.signer
  let ret := { h.copy with raw := { h.raw with
    seqno := c.chainer.seqno, tail := hsh, time := c.chainer.time, host := c.host } }
  let (ret, keys) ← ret.playItems [] c.changes
  -- the last signer is the advertised one
  let keys := keys ++ [c.signer.entityID]
  if c.chainer.seqno = hostchainEldestSeqno then
    let ret ← ret.addKey c.signer.entityID
    return (ret, keys)
  else return (ret, keys)

def findHostKey : Bool :=
  ((h.keys.lookup typeHost).getD []).any fun k => EntityID.eq k.eid e

end Hostchain

section Signatures

variable [Format L H]

/-- `EntityPublicEd25519.Verify`: a key of a wrong length stops the program. -/
def verifyEntity (e : EntityID) (sig : Signature) (l : L) (stack : List Signature) : Except CoreError Unit := do
  match ← EntityID.publicKeyEd25519 e with
  | none => .error (.verifyError "cannot get public verification key")
  | some key => do
    refuse (key.length ≠ 32) (.internalError "ed25519: bad public key length")
    verifyEd25519 key sig l stack

/-- The loop of `VerifyStackedSignature`: each signature is over those before it. -/
def verifyStacked (l : L) : List Signature → List (EntityID × Signature) → Except CoreError Unit
  | _, [] => return ()
  | stack, (key, sig) :: rest => do
    verifyEntity key sig l stack
    verifyStacked l (stack ++ [sig]) rest

def verifyStackedSignature (l : L) (keys : List EntityID) : Except CoreError Unit := do
  let sigs := signatures l
  refuse (keys = []) (.verifyError "cannot verify with 0 keys")
  refuse (sigs.length ≠ keys.length) (.verifyError "wrong number of keys")
  verifyStacked l [] (keys.zip sigs)

end Signatures

namespace Hostchain

variable [Format L H] [X509] [DecidableEq H]

/-- The end of `Play` for a link after the first: who may have signed it. -/
def checkLastSigner (h ret : Hostchain H) (verifyEntities : List EntityID) :
    Except CoreError (Hostchain H) := do
  match verifyEntities.getLast? with
  | none => .error outOfRange
  | some lst => do
    let flst ← EntityID.fixed lst
    refuse (flst ∈ h.revoked) (.hostchainError "revoked key used")
    refuse (!h.findHostKey lst) (.hostchainError "existing host signing key not found")
    return { ret with tails := h.tails ++ [⟨h.raw.seqno, h.raw.tail⟩] }

/-- `Play`: the changes of a link are played on a copy, before its signatures are verified. -/
def play (h : Hostchain H) (l : L) : Except CoreError (Hostchain H) := do
  let chng ← openHostchainChangeLink l
  let (ret, verifyEntities) ← h.playChanges chng (hostchainLinkHash l)
  verifyStackedSignature l verifyEntities
  if ret.raw.seqno ≠ hostchainEldestSeqno then h.checkLastSigner ret verifyEntities
  else return ret

def multiPlay (h : Hostchain H) : List L → Except CoreError (Hostchain H)
  | [] => return h
  | l :: v => do
    let r ← h.play l
    r.multiPlay v

end Hostchain

def playChain [Format L H] [X509] [DecidableEq H] (addr : String) (links : List L)
    (hostID : Option HostID) : Except CoreError (Hostchain H) := do
  let ch ← Hostchain.multiPlay ({ raw := { tail := zeroHash L, addr } } : Hostchain H) links
  let n := links.length
  refuse ch.hostID.isZero (.badServerDataError s!"empty hostID in hostchain reply (nlink={n})")
  refuse (hostID.any (· ≠ ch.hostID)) (.hostMismatchError "hostID")
  return ch

/-! ## What a link says -/

section Meaning

variable [Format L H]

variable (l : L) (e : EntityID)

/-- The last signature under the link is by this key. -/
def SignedBy : Prop :=
  ∃ stack sig, signatures l = stack ++ [sig] ∧ verifyEntity e sig l stack = .ok ()

/-- The link adds this key; the first link also adds its signer. -/
def Adds : Prop :=
  ∃ c : HostchainChange H, openHostchainChangeLink l = .ok c ∧
    (.key e ∈ c.changes ∨ c.chainer.seqno = hostchainEldestSeqno ∧ c.signer.entityID = e)

def Revokes : Prop :=
  ∃ c : HostchainChange H, openHostchainChangeLink l = .ok c ∧ .revoke e ∈ c.changes

variable {keys : List EntityID} {e : EntityID}

theorem verifyStacked_concat {l : L} {sigs stack : List Signature} (hlength : keys.length = sigs.length)
    {sig : Signature}
    (h : verifyStacked l stack ((keys ++ [e]).zip (sigs ++ [sig])) = .ok ()) :
    verifyEntity e sig l (stack ++ sigs) = .ok () := by
  induction keys generalizing sigs stack with
  | nil =>
    obtain rfl := length_eq_zero_iff.mp hlength.symm
    obtain ⟨⟨⟩, hverify, -⟩ := bind_eq_ok.mp h
    rwa [append_nil]
  | cons key keys ih =>
    obtain ⟨sig', sigs, rfl⟩ := exists_cons_of_length_eq_add_one hlength.symm
    have hrest := of_bind_eq_ok h
    have hlast := ih (Nat.succ.inj hlength) hrest
    rwa [append_assoc] at hlast

/-- The last of the keys has signed last. -/
theorem signedBy_of_verifyStackedSignature {l : L}
    (h : verifyStackedSignature l (keys ++ [e]) = .ok ()) : SignedBy l e := by
  have h1 := of_bind_eq_ok h
  obtain ⟨⟨⟩, hcount, h2⟩ := bind_eq_ok.mp h1
  have hlength : (signatures l).length = keys.length + 1 := by
    have := of_refuse hcount
    rwa [length_append] at this
  rcases eq_nil_or_concat (signatures l) with hnil | ⟨sigs, sig, hsigs⟩
  · rw [hnil] at hlength
    cases hlength
  rw [concat_eq_append] at hsigs
  rw [hsigs] at h2 hlength
  refine ⟨sigs, sig, hsigs, ?_⟩
  rw [length_append] at hlength
  exact verifyStacked_concat (Nat.succ.inj hlength).symm h2

end Meaning

/-! ## What is known after some links -/

namespace Hostchain

/-- The keys of a type. -/
def keysOf (h : Hostchain H) (t : UInt8) : List KeyAtSeqno := (h.keys.lookup t).getD []

/-- What the changes of a link do: the numbers and names stay, a key of `h'` was there before or was
added, and what was revoked stays revoked. -/
structure Changed (items : List HostchainChangeItem) (h h' : Hostchain H) : Prop where
  seqno : h'.raw.seqno = h.raw.seqno
  tail : h'.raw.tail = h.raw.tail
  host : h'.raw.host = h.raw.host
  keys (t : UInt8) (k : KeyAtSeqno) : k ∈ h'.keysOf t → k ∈ h.keysOf t ∨
    EntityID.typ k.eid = .ok t ∧ .key k.eid ∈ items
  kept : h.revoked ⊆ h'.revoked
  revoked (e : EntityID) : .revoke e ∈ items → EntityID.typ e = .ok typeHost →
    ∃ f, EntityID.fixed e = .ok f ∧ f ∈ h'.revoked

theorem Changed.refl (h : Hostchain H) : Changed [] h h :=
  ⟨rfl, rfl, rfl, fun _ _ => .inl, subset_rfl, fun _ he => absurd he not_mem_nil⟩

variable {h h' ret : Hostchain H} {e : EntityID} {keys : List EntityID}

theorem Changed.trans {items1 items2 : List HostchainChangeItem} {h1 : Hostchain H}
    (h1' : Changed items1 h h1) (h2' : Changed items2 h1 h') : Changed (items1 ++ items2) h h' where
  seqno := h2'.seqno.trans h1'.seqno
  tail := h2'.tail.trans h1'.tail
  host := h2'.host.trans h1'.host
  keys t k hk := by
    rcases h2'.keys t k hk with hk | ⟨ht, hmem⟩
    · rcases h1'.keys t k hk with hk | ⟨ht, hmem⟩
      · exact .inl hk
      · exact .inr ⟨ht, mem_append_left _ hmem⟩
    · exact .inr ⟨ht, mem_append_right _ hmem⟩
  kept := h1'.kept.trans h2'.kept
  revoked e he ht := by
    rcases mem_append.mp he with he | he
    · obtain ⟨f, hf, hmem⟩ := h1'.revoked e he ht
      exact ⟨f, hf, h2'.kept hmem⟩
    · exact h2'.revoked e he ht

theorem changed_addKey (hadd : h.addKey e = .ok h') : Changed [.key e] h h' := by
  obtain ⟨t, ht, hret⟩ := bind_eq_ok.mp hadd
  cases hret
  refine ⟨rfl, rfl, rfl, fun t' k hk => ?_, subset_rfl, fun e he => ?_⟩
  · unfold keysOf at hk ⊢
    by_cases hne : t' = t
    · subst hne
      rw [Finmap.lookup_insert, getD_some, mem_append, mem_singleton] at hk
      rcases hk with hk | rfl
      · exact .inl hk
      · exact .inr ⟨ht, mem_cons_self⟩
    · rw [Finmap.lookup_insert_of_ne _ hne] at hk
      exact .inl hk
  · cases mem_singleton.mp he

theorem changed_revoke (hrevoke : h.revoke e = .ok h') : Changed [.revoke e] h h' := by
  obtain ⟨t, ht, h1⟩ := bind_eq_ok.mp hrevoke
  split at h1
  · next htls =>
    cases h1
    refine ⟨rfl, rfl, rfl, fun _ _ => .inl, subset_rfl, fun e' he' ht' => ?_⟩
    cases mem_singleton.mp he'
    obtain rfl := ok_unique ht ht'
    exact absurd htls (by decide)
  obtain ⟨t', ht', h2⟩ := bind_eq_ok.mp h1
  obtain ⟨f, hf, h3⟩ := bind_eq_ok.mp h2
  cases h3
  refine ⟨rfl, rfl, rfl, fun t'' k hk => .inl ?_, Finset.subset_insert .., fun e' he' _ => ?_⟩
  · unfold keysOf at hk ⊢
    by_cases hne : t'' = t'
    · subst hne
      rw [Finmap.lookup_insert] at hk
      exact mem_of_mem_filter hk
    · rwa [Finmap.lookup_insert_of_ne _ hne] at hk
  · cases mem_singleton.mp he'
    exact ⟨f, hf, Finset.mem_insert_self ..⟩

theorem changed_playItems [X509] {items : List HostchainChangeItem}
    {keys' : List EntityID} (hplay : h.playItems keys items = .ok (h', keys')) :
    Changed items h h' := by
  induction items generalizing h keys with
  | nil =>
    cases hplay
    exact .refl _
  | cons i items ih =>
    obtain ⟨⟨h1, keys1⟩, hi, hrest⟩ := bind_eq_ok.mp hplay
    rw [← singleton_append]
    refine Changed.trans ?_ (ih hrest)
    cases i with
    | revoke e =>
      obtain ⟨h2, hrevoke, hret⟩ := bind_eq_ok.mp hi
      cases hret
      exact changed_revoke hrevoke
    | key e =>
      obtain ⟨h2, hadd, hret⟩ := bind_eq_ok.mp hi
      cases hret
      exact changed_addKey hadd
    | tlsca ca =>
      obtain ⟨pk, -, h2⟩ := bind_eq_ok.mp hi
      have h3 := of_bind_eq_ok h2
      obtain ⟨eidPk, -, h4⟩ := bind_eq_ok.mp h3
      have h5 := of_bind_eq_ok h4
      cases h5
      refine ⟨rfl, rfl, rfl, fun _ _ => .inl, subset_rfl, fun e he => ?_⟩
      cases mem_singleton.mp he
    | unknown =>
      cases hi
      refine ⟨rfl, rfl, rfl, fun _ _ => .inl, subset_rfl, fun e he => ?_⟩
      cases mem_singleton.mp he

/-- All that a link that was played has passed, and what it leaves. -/
structure Plays [Format L H] (h : Hostchain H) (l : L) (c : HostchainChange H) (h' : Hostchain H) : Prop where
  opened : openHostchainChangeLink l = .ok c
  seqno : c.chainer.seqno = h.raw.seqno + 1
  prev : c.chainer.seqno ≠ hostchainEldestSeqno → c.chainer.prev = some h.raw.tail
  host : c.host = if c.chainer.seqno = hostchainEldestSeqno then c.signer else h.raw.host
  signed : SignedBy l c.signer.entityID
  signer : c.chainer.seqno ≠ hostchainEldestSeqno → h.findHostKey c.signer.entityID ∧
    ∃ f, EntityID.fixed c.signer.entityID = .ok f ∧ f ∉ h.revoked
  seqno' : h'.raw.seqno = c.chainer.seqno
  tail' : h'.raw.tail = hostchainLinkHash l
  host' : h'.raw.host = c.host
  keys' (t : UInt8) (k : KeyAtSeqno) : k ∈ h'.keysOf t → k ∈ h.keysOf t ∨
    EntityID.typ k.eid = .ok t ∧ Adds l k.eid
  kept : h.revoked ⊆ h'.revoked
  revoked' (e : EntityID) : .revoke e ∈ c.changes → EntityID.typ e = .ok typeHost →
    ∃ f, EntityID.fixed e = .ok f ∧ f ∈ h'.revoked

theorem checkChainer_eq_ok [DecidableEq H] {c : BaseChainer H} (hcheck : h.checkChainer c = .ok ()) :
    c.seqno = h.raw.seqno + 1 ∧ (c.seqno ≠ hostchainEldestSeqno → c.prev = some h.raw.tail) := by
  have h1 := of_bind_eq_ok hcheck
  obtain ⟨⟨⟩, hseqno, h2⟩ := bind_eq_ok.mp h1
  refine ⟨of_refuse hseqno, fun hne => ?_⟩
  rw [if_neg hne] at h2
  have hprev := of_bind_eq_ok h2
  exact of_refuse hprev

theorem checkHostAndSigner_eq_ok {q : Seqno} {host signer : HostID} (hq : 1 ≤ q)
    (hcheck : h.checkHostAndSigner q host signer = .ok ()) :
    host = if q = hostchainEldestSeqno then signer else h.raw.host := by
  obtain ⟨⟨⟩, hfirst, hlater⟩ := bind_eq_ok.mp hcheck
  split
  · next heldest => exact not_not.mp fun hne => refuse_eq_ok.mp hfirst ⟨heldest, hne⟩
  · next heldest =>
    have hlt : hostchainEldestSeqno < q := lt_of_le_of_ne hq (Ne.symm heldest)
    exact (not_not.mp fun hne => refuse_eq_ok.mp hlater ⟨hlt, hne⟩).symm

theorem checkLastSigner_eq_ok (hcheck : h.checkLastSigner ret (keys ++ [e]) = .ok h') :
    h.findHostKey e ∧ (∃ f, EntityID.fixed e = .ok f ∧ f ∉ h.revoked) ∧
      h' = { ret with tails := h.tails ++ [⟨h.raw.seqno, h.raw.tail⟩] } := by
  unfold checkLastSigner at hcheck
  rw [getLast?_concat] at hcheck
  obtain ⟨f, hf, h1⟩ := bind_eq_ok.mp hcheck
  obtain ⟨⟨⟩, hrevoked, h2⟩ := bind_eq_ok.mp h1
  obtain ⟨⟨⟩, hfound, h3⟩ := bind_eq_ok.mp h2
  cases h3
  have hkey := refuse_eq_ok.mp hfound
  rw [Bool.not_eq_true', Bool.not_eq_false] at hkey
  exact ⟨hkey, ⟨f, hf, refuse_eq_ok.mp hrevoked⟩, rfl⟩

/-- What a chain is after the changes of a link. -/
theorem playChanges_eq_ok [X509] [DecidableEq H] {c : HostchainChange H} {hsh : H}
    (hplay : h.playChanges c hsh = .ok (ret, keys)) :
    h.checkChainer c.chainer = .ok () ∧ h.checkHostAndSigner c.chainer.seqno c.host c.signer = .ok () ∧
      (∃ keys', keys = keys' ++ [c.signer.entityID]) ∧
      ∃ items, Changed items { h.copy with raw := { h.raw with
          seqno := c.chainer.seqno, tail := hsh, time := c.chainer.time, host := c.host } } ret ∧
        (∀ e, .revoke e ∈ items ↔ .revoke e ∈ c.changes) ∧
        ∀ e, .key e ∈ items → .key e ∈ c.changes ∨ c.chainer.seqno = hostchainEldestSeqno ∧
            c.signer.entityID = e := by
  obtain ⟨⟨⟩, hchainer, h1⟩ := bind_eq_ok.mp hplay
  obtain ⟨⟨⟩, hhost, h2⟩ := bind_eq_ok.mp h1
  obtain ⟨⟨ret', keys'⟩, hitems, h3⟩ := bind_eq_ok.mp h2
  have hchanged := changed_playItems hitems
  refine ⟨hchainer, hhost, ?_⟩
  dsimp only at h3
  split at h3
  · next heldest =>
    obtain ⟨ret'', hadd, hret⟩ := bind_eq_ok.mp h3
    cases hret
    -- the signer is one more key, added after the changes
    refine ⟨⟨keys', rfl⟩, c.changes ++ [.key c.signer.entityID], hchanged.trans (changed_addKey hadd), ?_, ?_⟩
    · intro e
      simp
    intro e he
    rcases mem_append.mp he with he | he
    · exact .inl he
    · cases mem_singleton.mp he
      exact .inr ⟨heldest, rfl⟩
  · cases h3
    exact ⟨⟨keys', rfl⟩, c.changes, hchanged, fun _ => Iff.rfl, fun _ => .inl⟩

theorem play_eq_ok [Format L H] [X509] [DecidableEq H] {l : L} (hplay : h.play l = .ok h') :
    ∃ c, Plays h l c h' := by
  obtain ⟨c, hopen, h1⟩ := bind_eq_ok.mp hplay
  obtain ⟨⟨ret, keys⟩, hchanges, h2⟩ := bind_eq_ok.mp h1
  obtain ⟨⟨⟩, hsigned, h3⟩ := bind_eq_ok.mp h2
  obtain ⟨hchainer, hhost, ⟨keys', rfl⟩, items, hchanged, hrevoke, hkey⟩ :=
    playChanges_eq_ok hchanges
  obtain ⟨hseqno, hprev⟩ := checkChainer_eq_ok hchainer
  have hpos : 1 ≤ c.chainer.seqno := hseqno ▸ Nat.le_add_left ..
  have hlast : (c.chainer.seqno ≠ hostchainEldestSeqno → h.findHostKey c.signer.entityID ∧
      ∃ f, EntityID.fixed c.signer.entityID = .ok f ∧ f ∉ h.revoked) ∧
      h'.raw = ret.raw ∧ h'.keys = ret.keys ∧ h'.revoked = ret.revoked := by
    rw [hchanged.seqno] at h3
    split at h3
    · obtain ⟨hfound, hfixed, rfl⟩ := checkLastSigner_eq_ok h3
      exact ⟨fun _ => ⟨hfound, hfixed⟩, rfl, rfl, rfl⟩
    · next heldest =>
      cases h3
      exact ⟨fun hne => absurd hne heldest, rfl, rfl, rfl⟩
  obtain ⟨hsigner, hraw, hkeys, hrevoked⟩ := hlast
  refine ⟨c, hopen, hseqno, hprev, checkHostAndSigner_eq_ok hpos hhost,
    signedBy_of_verifyStackedSignature hsigned, hsigner, ?_, ?_, ?_, ?_, ?_, ?_⟩
  · rw [hraw, hchanged.seqno]
  · rw [hraw, hchanged.tail]
  · rw [hraw, hchanged.host]
  · intro t k hk
    unfold keysOf at hk
    rw [hkeys] at hk
    rcases hchanged.keys t k hk with hk | ⟨ht, hmem⟩
    · exact .inl hk
    · exact .inr ⟨ht, c, hopen, hkey _ hmem⟩
  · rw [hrevoked]
    exact hchanged.kept
  intro e he ht
  rw [hrevoked]
  exact hchanged.revoked e ((hrevoke e).mpr he) ht

/-- What is known after the links: how many there were, the last and the first of them, where each key
comes from, and that each host key that was revoked is marked. -/
structure Played [Format L H] (links : List L) (h : Hostchain H) : Prop where
  seqno : h.raw.seqno = links.length
  tail (l : L) : links.getLast? = some l → h.raw.tail = hostchainLinkHash l
  host (l : L) : links.head? = some l →
    ∃ c, openHostchainChangeLink l = .ok c ∧ h.raw.host = c.signer ∧ SignedBy l c.signer.entityID
  keys (t : UInt8) (k : KeyAtSeqno) : k ∈ h.keysOf t → EntityID.typ k.eid = .ok t ∧ ∃ l ∈ links, Adds l k.eid
  revoked (l : L) : l ∈ links → ∀ e, Revokes l e → EntityID.typ e = .ok typeHost →
    ∃ f, EntityID.fixed e = .ok f ∧ f ∈ h.revoked

theorem findHostKey_eq_true (hfind : h.findHostKey e = true) : ∃ k ∈ h.keysOf typeHost, k.eid = e := by
  obtain ⟨k, hk, heq⟩ := any_eq_true.mp hfind
  rw [EntityID.eq, Bool.and_eq_true, decide_eq_true_eq, decide_eq_true_eq] at heq
  exact ⟨k, hk, heq.2⟩

section Authority

variable [Format L H]

theorem played_nil (hseqno : h.raw.seqno = 0) (hkeys : h.keys = ∅) : Played ([] : List L) h where
  seqno := hseqno
  tail _ hl := absurd hl (some_ne_none _).symm
  host _ hl := absurd hl (some_ne_none _).symm
  keys t k hk := by
    rw [keysOf, hkeys] at hk
    exact absurd hk not_mem_nil
  revoked _ hl := absurd hl not_mem_nil

/-- A link after the others that the keys they have added, and not revoked, allow. -/
structure Authorized (links : List L) (l : L) (c : HostchainChange H) : Prop where
  opened : openHostchainChangeLink l = .ok c
  seqno : c.chainer.seqno = links.length + 1
  prev (last : L) : links.getLast? = some last → c.chainer.prev = some (hostchainLinkHash last)
  signed : SignedBy l c.signer.entityID
  typ : links ≠ [] → EntityID.typ c.signer.entityID = .ok typeHost
  added : links ≠ [] → ∃ l' ∈ links, Adds l' c.signer.entityID
  unrevoked : links ≠ [] → ∀ l' ∈ links, ¬ Revokes l' c.signer.entityID

variable {links : List L} {c : HostchainChange H} {l : L}

section Played

variable (hlinks : Played links h) (hplays : Plays h l c h')

include hlinks hplays

theorem Played.eldest_iff :
    c.chainer.seqno = hostchainEldestSeqno ↔ links = [] := by
  rw [hplays.seqno, hlinks.seqno]
  exact Nat.succ_inj.trans length_eq_zero_iff

theorem Played.authorized :
    Authorized links l c := by
  have hlater : links ≠ [] → c.chainer.seqno ≠ hostchainEldestSeqno :=
    mt (hlinks.eldest_iff hplays).mp
  have hsigner (hne : links ≠ []) : EntityID.typ c.signer.entityID = .ok typeHost ∧
      ∃ l' ∈ links, Adds l' c.signer.entityID := by
    obtain ⟨k, hk, heq⟩ := findHostKey_eq_true (hplays.signer (hlater hne)).1
    rw [← heq]
    exact hlinks.keys typeHost k hk
  refine ⟨hplays.opened, by rw [hplays.seqno, hlinks.seqno], ?_, hplays.signed,
    fun hne => (hsigner hne).1, fun hne => (hsigner hne).2, ?_⟩
  · intro last hlast
    have hne : links ≠ [] := by
      rintro rfl
      cases hlast
    rw [hplays.prev (hlater hne), hlinks.tail last hlast]
  intro hne l' hl' hrevokes
  obtain ⟨f, hf, hfresh⟩ := (hplays.signer (hlater hne)).2
  obtain ⟨f', hf', hmem⟩ := hlinks.revoked l' hl' _ hrevokes (hsigner hne).1
  obtain rfl := ok_unique hf hf'
  exact hfresh hmem

/-- What a link adds to what is known of the links before it. -/
theorem Played.play :
    Played (links ++ [l]) h' where
  seqno := by rw [hplays.seqno', hplays.seqno, hlinks.seqno, length_append, length_singleton]
  tail l' hl' := by
    rw [getLast?_concat] at hl'
    cases hl'
    exact hplays.tail'
  host l' hl' := by
    have heldest := hlinks.eldest_iff hplays
    cases links with
    | nil =>
      cases hl'
      refine ⟨c, hplays.opened, ?_, hplays.signed⟩
      rw [hplays.host', hplays.host, if_pos (heldest.mpr rfl)]
    | cons first rest =>
      cases hl'
      rw [hplays.host', hplays.host, if_neg (mt heldest.mp (cons_ne_nil _ _))]
      exact hlinks.host _ rfl
  keys t k hk := by
    rcases hplays.keys' t k hk with hk | ⟨ht, hadds⟩
    · obtain ⟨ht, l', hl', hadds⟩ := hlinks.keys t k hk
      exact ⟨ht, l', mem_append_left _ hl', hadds⟩
    · exact ⟨ht, l, mem_append_right _ mem_cons_self, hadds⟩
  revoked l' hl' e hrevokes ht := by
    rcases mem_append.mp hl' with hl' | hl'
    · obtain ⟨f, hf, hmem⟩ := hlinks.revoked l' hl' e hrevokes ht
      exact ⟨f, hf, hplays.kept hmem⟩
    cases mem_singleton.mp hl'
    obtain ⟨c', hopen, hmem⟩ := hrevokes
    obtain rfl := ok_unique hplays.opened hopen
    exact hplays.revoked' e hmem ht

end Played

/-- Each link of a chain that was played is one that the links before it allow. -/
theorem Played.multiPlay [X509] [DecidableEq H] {before : List L}
    (hbefore : Played before h) (hplay : h.multiPlay links = .ok h') :
    Played (before ++ links) h' ∧ ∀ pre l post, links = pre ++ l :: post →
        ∃ c, Authorized (before ++ pre) l c := by
  induction links generalizing before h with
  | nil =>
    cases hplay
    refine ⟨by rwa [append_nil], fun pre l post hsplit => ?_⟩
    exact absurd hsplit (append_ne_nil_of_right_ne_nil _ (cons_ne_nil _ _)).symm
  | cons first rest ih =>
    obtain ⟨h1, hfirst, hrest⟩ := bind_eq_ok.mp hplay
    obtain ⟨c, hplays⟩ := play_eq_ok hfirst
    obtain ⟨hplayed, hauth⟩ := ih (hbefore.play hplays) hrest
    rw [append_assoc] at hplayed
    refine ⟨hplayed, fun pre l post hsplit => ?_⟩
    cases pre with
    | nil =>
      cases hsplit
      exact ⟨c, by rw [append_nil]; exact hbefore.authorized hplays⟩
    | cons first' pre =>
      cases hsplit
      obtain ⟨c', hc'⟩ := hauth pre l post rfl
      rw [append_assoc] at hc'
      exact ⟨c', hc'⟩

end Authority

end Hostchain

/-- A host is named after the signer of the first link. Each later link follows the one before it, and
its last signature is by a host key that the links before it have added and that none of them has
revoked: adding a key again does not bring it back. -/
theorem playChain_authority [Format L H] [X509] [DecidableEq H] {addr : String} {links : List L}
    {hostID : Option HostID} {ch : Hostchain H} (h : playChain addr links hostID = .ok ch) :
    (∃ first rest c, links = first :: rest ∧ openHostchainChangeLink first = .ok c ∧
      ch.hostID = c.signer ∧ SignedBy first c.signer.entityID) ∧
    ∀ pre last l post, links = pre ++ last :: l :: post →
      ∃ before c, openHostchainChangeLink last = .ok before ∧ openHostchainChangeLink l = .ok c ∧
        c.chainer.seqno = before.chainer.seqno + 1 ∧
        c.chainer.prev = some (hostchainLinkHash last) ∧
        SignedBy l c.signer.entityID ∧ EntityID.typ c.signer.entityID = .ok typeHost ∧
        (∃ l' ∈ pre ++ [last], Adds l' c.signer.entityID) ∧
        ∀ l' ∈ pre ++ [last], ¬ Revokes l' c.signer.entityID := by
  obtain ⟨ch', hplay, h₁⟩ := bind_eq_ok.mp h
  obtain ⟨⟨⟩, hzero, h₂⟩ := bind_eq_ok.mp h₁
  have h₃ := of_bind_eq_ok h₂
  cases h₃
  obtain ⟨hplayed, hauth⟩ := (Hostchain.played_nil rfl rfl).multiPlay hplay
  constructor
  · cases links with
    | nil =>
      -- no link sets the name of the host
      cases hplay
      have hempty : EntityID33.zero.isZero := by decide
      exact absurd hempty (refuse_eq_ok.mp hzero)
    | cons first rest =>
      obtain ⟨c, hopen, hhost, hsigned⟩ := hplayed.host first rfl
      exact ⟨first, rest, c, rfl, hopen, hhost, hsigned⟩
  · intro pre last l post hsplit
    obtain ⟨before, hbefore⟩ := hauth pre last (l :: post) hsplit
    obtain ⟨c, hc⟩ := hauth (pre ++ [last]) l post (by rw [hsplit]; simp)
    rw [nil_append] at hbefore hc
    have hne : pre ++ [last] ≠ [] := append_ne_nil_of_right_ne_nil _ (cons_ne_nil _ _)
    refine ⟨before, c, hbefore.opened, hc.opened, ?_, hc.prev last getLast?_concat, hc.signed,
      hc.typ hne, hc.added hne, hc.unrevoked hne⟩
    rw [hc.seqno, hbefore.seqno, length_append, length_singleton]

/-! ## A chain of two links -/

namespace HostchainSample

/-- A link with its signatures. -/
abbrev Link := HostchainChange ℕ × List Signature

/-- A link is its own encoding, its hash is its number, and a signature is the first byte of the key. -/
instance : Format Link ℕ where
  openHostchainChangeLink l := .ok l.1
  hostchainLinkHash l := l.1.chainer.seqno
  zeroHash := 0
  signatures := Prod.snd
  verifyEd25519 key sig _ _ := refuse (key.head? ≠ some sig.toUInt8) (.verifyError "bad signature")

instance : X509 where
  parseCertificate _ := .ok .none

def hostKey (b : UInt8) : HostID := ⟨typeHost :: replicate 32 b, rfl⟩

def link (q : Seqno) (prev : Option ℕ) (signer : UInt8) (changes : List HostchainChangeItem) :
    HostchainChange ℕ :=
  ⟨⟨q, prev, ⟨0, 0⟩, 0⟩, hostKey 1, hostKey signer, changes⟩

/-- The first key adds a second one, which then revokes it. -/
def links : List Link :=
  [(link 1 none 1 [.key (hostKey 2).entityID], [2, 1]), (link 2 (some 1) 2 [.revoke (hostKey 1).entityID], [2])]

end HostchainSample

open HostchainSample in
theorem playChain_authority_two :
    ∃ ch : Hostchain ℕ, playChain "" links none = .ok ch ∧ ch.hostID = hostKey 1 ∧
      ∀ pre last l post, links = pre ++ last :: l :: post →
        ∃ l' ∈ pre ++ [last], Adds l' l.1.signer.entityID := by
  have hok : (playChain "" links none).isOk := by decide +kernel
  rcases hch : playChain "" links none with e | ch
  · rw [hch] at hok
    cases hok
  obtain ⟨⟨first, rest, c, hlinks, hopen, hhost, -⟩, hlater⟩ := playChain_authority hch
  refine ⟨ch, rfl, ?_, fun pre last l post hsplit => ?_⟩
  · cases hlinks
    cases hopen
    exact hhost
  obtain ⟨before, c, -, hopen, -, -, -, -, hadds, -⟩ := hlater pre last l post hsplit
  cases hopen
  exact hadds

end Foks.Host
