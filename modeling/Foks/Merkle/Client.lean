import Foks.Merkle.Node

/-!
# Verifying a path

`lib/merkle/client.go`: a client checks a compressed path against the root node hash that it
trusts. A path is one byte for the length of the prefix and the hash of the other child, for each
node on the way; the prefixes are cut from the key. At its end is a leaf, or the node whose
segment the key leaves.

The path and its terminal come from the server and may be anything. Two paths that verify under
one root node hash follow the same nodes as long as both go on, since the hash of a node fixes the
length of its prefix and the child that the key leads to. So they cannot disagree about a key.
-/

namespace Foks.Merkle

open Lib MerkleHash Except MerkleInteriorNode

section Types

variable (H : Type)

structure MerklePathToLeaf where
  leaf : H
  foundKey : Option MerkleTreeRFOutput
  deriving DecidableEq

/-- `proto.MerklePathTerminal`: the end of a path at a leaf, or at a node that the key misses; or
a value without the case that its tag names. -/
inductive MerklePathTerminal where
  | toLeaf (t : MerklePathToLeaf H)
  | incomplete (nodeAtPrefixMiss : MerkleInteriorNode H)
  | nilCase (leaf : Bool)
  deriving DecidableEq

/-- `proto.MerklePathCompressedBlob`: the bytes of a path, read as edges of 33 bytes (the length
of the prefix, and a hash) and fewer than 33 bytes after them. -/
structure MerklePathCompressedBlob where
  edges : List (UInt8 × H)
  rest : List UInt8
  short : rest.length < 33
  deriving DecidableEq

structure MerklePathCompressed where
  root : MerkleRoot H
  path : MerklePathCompressedBlob H
  terminal : MerklePathTerminal H
  deriving DecidableEq

end Types

theorem short_nil : ([] : List UInt8).length < 33 := by decide

variable {H : Type} [DecidableEq H] [MerkleHash H]

variable (n : MerkleInteriorNode H)

def MerkleInteriorNode.setChild (pos : Bool) (hash : H) : MerkleInteriorNode H :=
  if pos then { n with right := hash } else { n with left := hash }

/-- `MerkleInteriorNode.SetEmpty`: the right child if it is all zeroes, and else the left. -/
def MerkleInteriorNode.setEmpty (hash : H) : MerkleInteriorNode H :=
  if n.right = zero then { n with right := hash } else { n with left := hash }

/-- The error of `MerklePathTerminal.GetLeaf` -/
def nilCaseError (leaf : Bool) : CoreError :=
  .errorsNew (if leaf then "unexpected nil case for F_1__" else "unexpected nil case for F_0__")

def MerklePathTerminal.keyWasFound : MerklePathTerminal H → Except CoreError Bool
  | .toLeaf t => .ok t.foundKey.isNone
  | .incomplete _ => .ok false
  | .nilCase leaf => .error (nilCaseError leaf)

/-- The first loop of `verifyPath`: the nodes of the path, from the root down, each with the hash
of the child that is not on the way, and the bit after them. -/
def readEdges (key : List UInt8) : ℕ → List (UInt8 × H) → Except CoreError (ℕ × List (MerkleInteriorNode H))
  | bitCursor, [] => .ok (bitCursor, [])
  | bitCursor, (len, tmp) :: edges => do
    let prefixLen := len.toNat
    match copyAndClamp key bitCursor prefixLen with
    | none => .error (.merkleVerifyError "key bit offset overflow")
    | some prfx =>
      let bit ← bitAt key (bitCursor + prefixLen)
      let inode : MerkleInteriorNode H := ⟨bitCursor, prefixLen, prfx, zero, zero⟩
      let (cursor, path) ← readEdges key (bitCursor + prefixLen + 1) edges
      return (cursor, inode.setChild (!bit) tmp :: path)

/-- One turn of the second loop: the hash of a node with the hash below it filled in. -/
def climb (curr : MerkleInteriorNode H) (lastHash : H) : H :=
  hashNode (.node (curr.setEmpty lastHash))

/-- `checkErrIsBitPrefxMatchError` -/
def checkErrIsBitPrefixMatchError : Except CoreError Unit → Bool
  | .error (.bitPrefixMatchError _) => true
  | _ => false

/-- The hash at the end of the path, and the key that was found there instead. -/
def verifyTerminal (t : MerklePathTerminal H) (key : MerkleTreeRFOutput) (bitCursor : ℕ) :
    Except CoreError (H × Option MerkleTreeRFOutput) :=
  match t with
  | .incomplete n => do
    let err := assertKeyMatch key.bytes n.prfx bitCursor (int64 n.prefixBitCount)
    refuse (checkErrIsBitPrefixMatchError err = false)
      (.merkleVerifyError "we matched up to last interior node but server claimed otherwise")
    return (hashNode (.node n), none)
  | .toLeaf t => .ok (hashNode (.leaf ⟨t.foundKey.getD key, t.leaf⟩), t.foundKey)
  | .nilCase leaf => .error (nilCaseError leaf)

/-- A key that was found in the place of ours is another one, with the same bits so far. -/
def checkFoundKey (foundKey : Option MerkleTreeRFOutput) (key : MerkleTreeRFOutput)
    (bitCursor : ℕ) : Except CoreError Unit :=
  match foundKey with
  | none => .ok ()
  | some foundKey => do
    refuse (foundKey = key)
      (.merkleVerifyError "found key was the same as our key, and it should not have been")
    assertKeyMatch foundKey.bytes key.bytes 0 bitCursor

variable (p : MerklePathCompressed H) (key : MerkleTreeRFOutput)

def verifyPath : Except CoreError Unit := do
  let (bitCursor, path) ← readEdges key.bytes 0 p.path.edges
  refuse (p.path.rest ≠ []) (.merkleVerifyError "bad path, needs to be a multiple of 33 bytes")
  let (lastHash, foundKey) ← verifyTerminal p.terminal key bitCursor
  match p.root with
  | .future _ => .error (.versionNotSupportedError "got merkle root from the future")
  | .v1 rv1 =>
    refuse (rv1.rootNode ≠ path.foldr climb lastHash) (.merkleVerifyError "failed to match root node hash")
    checkFoundKey foundKey key bitCursor

def verifyAbsence : Except CoreError Unit := do
  let found ← p.terminal.keyWasFound
  refuse (found = true) (.merkleVerifyError "server claimed key was in tree")
  verifyPath p key

def verifyPresence : Except CoreError H := do
  let found ← p.terminal.keyWasFound
  refuse (found = false) (.merkleVerifyError "server claimed key was not in tree")
  verifyPath p key
  match p.terminal with
  | .toLeaf t => return t.leaf
  | _ => .error (.merkleVerifyError "expected a leaf at the end of the path")

def verify (present : Bool) : Except CoreError (Option H) :=
  if present then do
    let leaf ← verifyPresence p key
    return some leaf
  else do
    verifyAbsence p key
    return none

variable {p : MerklePathCompressed H} {key : MerkleTreeRFOutput} {leaf : Option H} {lastHash : H}
  {foundKey : Option MerkleTreeRFOutput} {bitCursor : ℕ} {path path' : List (MerkleInteriorNode H)}
  {edges : List (UInt8 × H)}

theorem verify_false_eq_ok (h : verify p key false = .ok leaf) : verifyAbsence p key = .ok () := by
  obtain ⟨⟨⟩, habsent, -⟩ := bind_eq_ok.mp h
  exact habsent

theorem verify_true_eq_ok (h : verify p key true = .ok leaf) :
    ∃ v, leaf = some v ∧ verifyPresence p key = .ok v := by
  obtain ⟨v, hpresent, h⟩ := bind_eq_ok.mp h
  exact ⟨v, (ok.inj h).symm, hpresent⟩

/-! ## What a verified path says -/

/-- The parts of a path that verifies: its nodes, and the hash at its end. -/
structure Verified (key : MerkleTreeRFOutput) (p : MerklePathCompressed H) (bitCursor : ℕ)
    (path : List (MerkleInteriorNode H)) (lastHash : H) (foundKey : Option MerkleTreeRFOutput) :
    Prop where
  edges : readEdges key.bytes 0 p.path.edges = .ok (bitCursor, path)
  terminal : verifyTerminal p.terminal key bitCursor = .ok (lastHash, foundKey)
  root : ∀ r, p.root = .v1 r → r.rootNode = path.foldr climb lastHash
  found : foundKey ≠ some key

theorem verified_of_verifyPath (h : verifyPath p key = .ok ()) :
    ∃ bitCursor path lastHash foundKey, Verified key p bitCursor path lastHash foundKey := by
  obtain ⟨⟨bitCursor, path⟩, hedges, h⟩ := bind_eq_ok.mp h
  have h := of_bind_eq_ok h
  obtain ⟨⟨lastHash, foundKey⟩, hterm, h⟩ := bind_eq_ok.mp h
  cases hroot : p.root with
  | future v =>
    rw [hroot] at h
    cases h
  | v1 r =>
    rw [hroot] at h
    obtain ⟨⟨⟩, heq, hfound⟩ := bind_eq_ok.mp h
    rw [refuse_eq_ok, not_not] at heq
    refine ⟨bitCursor, path, lastHash, foundKey, hedges, hterm, fun r' hr' => ?_, ?_⟩
    · cases hroot.symm.trans hr'
      exact heq
    · rintro rfl
      obtain ⟨⟨⟩, hne, -⟩ := bind_eq_ok.mp hfound
      rw [refuse_eq_ok] at hne
      exact hne rfl

section

omit [DecidableEq H]

/-- The hash at the end of a path is that of a node or of a leaf. -/
theorem verifyTerminal_cases {t : MerklePathTerminal H}
    (h : verifyTerminal t key bitCursor = .ok (lastHash, foundKey)) :
    (∃ n, t = .incomplete n ∧ lastHash = hashNode (.node n) ∧
      assertKeyMatch key.bytes n.prfx bitCursor (int64 n.prefixBitCount) ≠ .ok ()) ∨
    ∃ l, t = .toLeaf l ∧ foundKey = l.foundKey ∧ lastHash = hashNode (.leaf ⟨l.foundKey.getD key, l.leaf⟩) := by
  cases t with
  | incomplete n =>
    left
    obtain ⟨⟨⟩, hmiss, h⟩ := bind_eq_ok.mp h
    obtain ⟨rfl, -⟩ := Prod.mk.inj (ok.inj h)
    refine ⟨n, rfl, rfl, fun hok => ?_⟩
    rw [refuse_eq_ok, hok] at hmiss
    exact hmiss rfl
  | toLeaf l =>
    right
    obtain ⟨rfl, rfl⟩ := Prod.mk.inj (ok.inj h)
    exact ⟨l, rfl, rfl, rfl⟩
  | nilCase leaf => cases h

/-- The first edge of a path, and what follows it. -/
theorem readEdges_cons_eq_ok {key : List UInt8} {c c' : ℕ} {len : UInt8} {tmp : H} :
    readEdges key c ((len, tmp) :: edges) = .ok (c', path) ↔
      ∃ prfx bit rest, copyAndClamp key c len.toNat = some prfx ∧ bitAt key (c + len.toNat) = .ok bit ∧
        readEdges key (c + len.toNat + 1) edges = .ok (c', rest) ∧
        path = setChild ⟨c, len.toNat, prfx, zero, zero⟩ (!bit) tmp :: rest := by
  rw [readEdges]
  cases hcut : copyAndClamp key c len.toNat with
  | none => simp
  | some prfx =>
    simp only [bind_eq_ok, pure, Except.pure, ok.injEq, Prod.mk.injEq, Prod.exists]
    constructor
    · rintro ⟨bit, hbit, cursor, rest, hrest, rfl, rfl⟩
      exact ⟨prfx, bit, rest, rfl, hbit, hrest, rfl⟩
    · rintro ⟨_, bit, rest, ⟨⟩, hbit, hrest, rfl⟩
      exact ⟨bit, hbit, _, rest, hrest, rfl, rfl⟩

end

section Verified

theorem Verified.ne_zero (hs : SoundHash H)
    (h : Verified key p bitCursor path lastHash foundKey) : lastHash ≠ zero := by
  rcases verifyTerminal_cases h.terminal with ⟨n, -, rfl, -⟩ | ⟨l, -, -, rfl⟩
  · exact hs.ne_zero _
  · exact hs.ne_zero _

/-- A path that claims its key ends at the leaf of the key. -/
theorem Verified.of_found (h : Verified key p bitCursor path lastHash foundKey)
    (hfound : p.terminal.keyWasFound = .ok true) :
    ∃ l, p.terminal = .toLeaf l ∧ lastHash = hashNode (.leaf ⟨key, l.leaf⟩) := by
  rcases verifyTerminal_cases h.terminal with ⟨n, hterm, -⟩ | ⟨l, hterm, -, rfl⟩
  · rw [hterm] at hfound
    cases hfound
  · rw [hterm, MerklePathTerminal.keyWasFound, ok.injEq, Option.isNone_iff_eq_none] at hfound
    exact ⟨l, hterm, by rw [hfound]; rfl⟩

/-- A path that does not claim its key ends elsewhere than at a leaf of the key. -/
theorem Verified.of_not_found (hs : SoundHash H) (h : Verified key p bitCursor path lastHash foundKey)
    (hfound : p.terminal.keyWasFound = .ok false) (v : H) : lastHash ≠ hashNode (.leaf ⟨key, v⟩) := by
  rcases verifyTerminal_cases h.terminal with ⟨n, -, rfl, -⟩ | ⟨l, hterm, hkey, rfl⟩
  · intro heq
    cases hs.injective heq
  intro heq
  rw [hterm, MerklePathTerminal.keyWasFound, ok.injEq, Option.isNone_eq_false_iff,
    Option.isSome_iff_exists] at hfound
  obtain ⟨foundKey, hsome⟩ := hfound
  rw [hsome] at heq hkey
  -- the client has refused a found key that is its own
  have hsame := congrArg MerkleLeaf.key (MerkleNode.leaf.inj (hs.injective heq))
  exact h.found (hkey.trans (congrArg some hsame))

end Verified

/-! ## Two paths under one hash -/

/-- The hash is that of a node whose prefix is cut from the key at `bitCursor`. -/
def AtNode (key : MerkleTreeRFOutput) (bitCursor : ℕ) (hash : H) : Prop :=
  ∃ n : MerkleInteriorNode H, hash = hashNode (.node n) ∧ n.prefixBitCount < 2 ^ 63 ∧
    copyAndClamp key.bytes bitCursor n.prefixBitCount = some n.prfx

/-- A path does not end at a node that the key follows: the key would have to leave its prefix. -/
theorem Verified.not_atNode (hs : SoundHash H)
    (h : Verified key p bitCursor path lastHash foundKey) : ¬ AtNode key bitCursor lastHash := by
  rintro ⟨n, heq, hcount, hcut⟩
  rcases verifyTerminal_cases h.terminal with ⟨n', -, rfl, hmiss⟩ | ⟨l, -, -, rfl⟩
  · obtain rfl := MerkleNode.node.inj (hs.injective heq)
    have hsmall : 8 * key.bytes.length ≤ 2 ^ 63 := by
      rw [key.bits_length, keyBits]
      omega
    rw [int64_of_lt hcount, assertKeyMatch_copyAndClamp hsmall hcut] at hmiss
    exact hmiss rfl
  · cases hs.injective heq

theorem climb_ne_zero (hs : SoundHash H) (h : lastHash ≠ zero) : path.foldr climb lastHash ≠ zero := by
  cases path with
  | nil => exact h
  | cons n path => exact hs.ne_zero _

section

omit [DecidableEq H] [MerkleHash H]

@[simp] theorem MerkleInteriorNode.setChild_prefixBitCount (n : MerkleInteriorNode H) (b : Bool)
    (h : H) : (n.setChild b h).prefixBitCount = n.prefixBitCount := by
  cases b <;> rfl

@[simp] theorem MerkleInteriorNode.setChild_prfx (n : MerkleInteriorNode H) (b : Bool)
    (h : H) : (n.setChild b h).prfx = n.prfx := by
  cases b <;> rfl

end

@[simp] theorem MerkleInteriorNode.setEmpty_prefixBitCount (h : H) :
    (n.setEmpty h).prefixBitCount = n.prefixBitCount := by
  unfold setEmpty
  split <;> rfl

@[simp] theorem MerkleInteriorNode.setEmpty_prfx (h : H) : (n.setEmpty h).prfx = n.prfx := by
  unfold setEmpty
  split <;> rfl

/-- A node that the client rebuilds fixes its prefix, and the hash of the child that the key leads
to: an all-zero hash for the other child cannot make the two children change places. -/
theorem climb_inj (hs : SoundHash H) {n n' : MerkleInteriorNode H} {b : Bool}
    {tmp tmp' below below' : H} (hleft : n.left = zero) (hright : n.right = zero)
    (hleft' : n'.left = zero) (hright' : n'.right = zero) (hbelow : below ≠ zero)
    (hbelow' : below' ≠ zero)
    (h : climb (n.setChild (!b) tmp) below = climb (n'.setChild (!b) tmp') below') :
    below = below' := by
  have hnode := MerkleNode.node.inj (hs.injective h)
  have hl := congrArg left hnode
  have hr := congrArg right hnode
  cases b with
  | true =>
    -- the right child is empty on both sides, and is filled
    simp only [setChild, setEmpty, Bool.not_true,
      Bool.false_eq_true, if_false, hright, hright'] at hr
    exact hr
  | false =>
    -- the right child is `tmp`: if it is zero, it is overwritten and the left stays empty
    simp only [setChild, setEmpty, Bool.not_false] at hl hr
    by_cases ht : tmp = zero <;> by_cases ht' : tmp' = zero
    · simpa [ht, ht'] using hr
    · simp only [ht, ht', if_true, hleft] at hl
      exact absurd hl.symm hbelow'
    · simp only [ht, ht', if_true, hleft'] at hl
      exact absurd hl hbelow
    · simpa [ht, ht'] using hl

variable {last last' v : H}

/-- The hash of a path that has an edge is that of a node that the key follows. -/
theorem readEdges_cons_atNode {c c' : ℕ} {e : UInt8 × H} {hash : H}
    (h : readEdges key.bytes c (e :: edges) = .ok (c', path)) (heq : hash = path.foldr climb last) :
    AtNode key c hash := by
  obtain ⟨prfx, bit, rest, hcut, -, -, rfl⟩ := readEdges_cons_eq_ok.mp h
  refine ⟨_, heq, ?_, ?_⟩
  · simp only [setEmpty_prefixBitCount, setChild_prefixBitCount]
    have hlen := e.1.toNat_lt
    omega
  · simpa using hcut

/-- Two paths with one hash, read from one bit on: they end alike, or one of them ends at a node
that the other follows. -/
theorem readEdges_sync (hs : SoundHash H) {edges' : List (UInt8 × H)} {c c1 c2 : ℕ}
    (h : readEdges key.bytes c edges = .ok (c1, path)) (h' : readEdges key.bytes c edges' = .ok (c2, path'))
    (hne : last ≠ zero) (hne' : last' ≠ zero) (heq : path.foldr climb last = path'.foldr climb last') :
    (c1 = c2 ∧ last = last') ∨ AtNode key c1 last ∨ AtNode key c2 last' := by
  induction edges generalizing edges' c path path' with
  | nil =>
    cases h
    cases edges' with
    | nil =>
      cases h'
      exact .inl ⟨rfl, heq⟩
    | cons e' edges' => exact .inr (.inl (readEdges_cons_atNode h' heq))
  | cons e edges ih =>
    cases edges' with
    | nil =>
      cases h'
      exact .inr (.inr (readEdges_cons_atNode h heq.symm))
    | cons e' edges' =>
      obtain ⟨prfx, bit, rest, hcut, hbit, hrest, rfl⟩ := readEdges_cons_eq_ok.mp h
      obtain ⟨prfx', bit', rest', hcut', hbit', hrest', rfl⟩ := readEdges_cons_eq_ok.mp h'
      have hlen : e.1.toNat = e'.1.toNat := by
        have hnodes := MerkleNode.node.inj (hs.injective heq)
        simpa using congrArg prefixBitCount hnodes
      rw [← hlen] at hbit' hrest'
      obtain rfl : bit = bit' := ok_unique hbit hbit'
      exact ih hrest hrest' (climb_inj hs rfl rfl rfl rfl (climb_ne_zero hs hne) (climb_ne_zero hs hne') heq)

/-- The hash at the end of a path, given the root node hash, the key and the place. -/
theorem Verified.lastHash_eq (hs : SoundHash H) {p' : MerklePathCompressed H} {c c' : ℕ}
    {foundKey' : Option MerkleTreeRFOutput}
    (h : Verified key p c path last foundKey) (h' : Verified key p' c' path' last' foundKey')
    {r r' : MerkleRootV1 H} (hr : p.root = .v1 r) (hr' : p'.root = .v1 r')
    (hroot : r.rootNode = r'.rootNode) : last = last' := by
  have heq : path.foldr climb last = path'.foldr climb last' := by
    rw [← h.root r hr, ← h'.root r' hr', hroot]
  rcases readEdges_sync hs h.edges h'.edges (h.ne_zero hs) (h'.ne_zero hs) heq with
    ⟨-, hlast⟩ | hnode | hnode
  · exact hlast
  · exact absurd hnode (h.not_atNode hs)
  · exact absurd hnode (h'.not_atNode hs)

theorem verified_of_verifyPresence (h : verifyPresence p key = .ok v) :
    ∃ c path foundKey, Verified key p c path (hashNode (.leaf ⟨key, v⟩)) foundKey := by
  obtain ⟨found, hfound, h⟩ := bind_eq_ok.mp h
  obtain ⟨⟨⟩, htrue, h⟩ := bind_eq_ok.mp h
  obtain ⟨⟨⟩, hpath, h⟩ := bind_eq_ok.mp h
  rw [refuse_eq_ok, Bool.not_eq_false] at htrue
  obtain ⟨c, path, last, foundKey, hver⟩ := verified_of_verifyPath hpath
  obtain ⟨l, hterm, rfl⟩ := hver.of_found (htrue ▸ hfound)
  rw [hterm] at h
  cases h
  exact ⟨c, path, foundKey, hver⟩

theorem verified_of_verifyAbsence (hs : SoundHash H) (h : verifyAbsence p key = .ok ()) :
    ∃ c path last foundKey, Verified key p c path last foundKey ∧ ∀ v, last ≠ hashNode (.leaf ⟨key, v⟩) := by
  obtain ⟨found, hfound, h⟩ := bind_eq_ok.mp h
  obtain ⟨⟨⟩, hfalse, hpath⟩ := bind_eq_ok.mp h
  rw [refuse_eq_ok, Bool.not_eq_true] at hfalse
  obtain ⟨c, path, last, foundKey, hver⟩ := verified_of_verifyPath hpath
  exact ⟨c, path, last, foundKey, hver, hver.of_not_found hs (hfalse ▸ hfound)⟩

section OneRoot

variable (hs : SoundHash H) {p₁ p₂ : MerklePathCompressed H}
  {r₁ r₂ : MerkleRootV1 H} (hr₁ : p₁.root = .v1 r₁) (hr₂ : p₂.root = .v1 r₂)
  (hroot : r₁.rootNode = r₂.rootNode)
include hs hr₁ hr₂ hroot

/-- A key that one path shows is not missing from another. -/
theorem not_absent_of_present (hpresent : verifyPresence p₁ key = .ok v) : verifyAbsence p₂ key ≠ .ok () := by
  intro habsent
  obtain ⟨c, path, foundKey, hver⟩ := verified_of_verifyPresence hpresent
  obtain ⟨c', path', last, foundKey', hver', hne⟩ := verified_of_verifyAbsence hs habsent
  exact hne v (hver.lastHash_eq hs hver' hr₁ hr₂ hroot).symm

/-- A key has one value. -/
theorem present_unique {v' : H} (hpresent : verifyPresence p₁ key = .ok v)
    (hpresent' : verifyPresence p₂ key = .ok v') : v = v' := by
  obtain ⟨c, path, foundKey, hver⟩ := verified_of_verifyPresence hpresent
  obtain ⟨c', path', foundKey', hver'⟩ := verified_of_verifyPresence hpresent'
  have hleaf := hs.injective (hver.lastHash_eq hs hver' hr₁ hr₂ hroot)
  exact congrArg MerkleLeaf.value (MerkleNode.leaf.inj hleaf)

end OneRoot

/-- A node and the hash of its child that is not on the way fix the hash below, whichever child that is. -/
theorem climb_below_inj (hs : SoundHash H) {n n' : MerkleInteriorNode H} {b b' : Bool} {tmp below below' : H}
    (hleft : n.left = zero) (hright : n.right = zero) (hleft' : n'.left = zero) (hright' : n'.right = zero)
    (h : climb (n.setChild b tmp) below = climb (n'.setChild b' tmp) below') : below = below' := by
  have hnode := MerkleNode.node.inj (hs.injective h)
  have hl := congrArg left hnode
  have hr := congrArg right hnode
  simp only [setChild, setEmpty] at hl hr
  by_cases ht : tmp = zero <;> cases b <;> cases b' <;> simp_all

theorem readEdges_last_inj (hs : SoundHash H) {key key' : List UInt8} {c c₁ c₂ : ℕ}
    (h : readEdges key c edges = .ok (c₁, path)) (h' : readEdges key' c edges = .ok (c₂, path'))
    (heq : path.foldr climb last = path'.foldr climb last') : last = last' := by
  induction edges generalizing c path path' with
  | nil =>
    cases h
    cases h'
    exact heq
  | cons e edges ih =>
    obtain ⟨prfx, bit, rest, -, -, hrest, rfl⟩ := readEdges_cons_eq_ok.mp h
    obtain ⟨prfx', bit', rest', -, -, hrest', rfl⟩ := readEdges_cons_eq_ok.mp h'
    exact ih hrest hrest' (climb_below_inj hs rfl rfl rfl rfl heq)

/-- A path shows one key only. -/
theorem present_key_unique (hs : SoundHash H) {key' : MerkleTreeRFOutput} {v' : H} {r : MerkleRootV1 H}
    (hr : p.root = .v1 r) (h : verifyPresence p key = .ok v) (h' : verifyPresence p key' = .ok v') :
        key = key' := by
  obtain ⟨c, path, foundKey, hver⟩ := verified_of_verifyPresence h
  obtain ⟨c', path', foundKey', hver'⟩ := verified_of_verifyPresence h'
  have hleaf := hs.injective
    (readEdges_last_inj hs hver.edges hver'.edges ((hver.root r hr).symm.trans (hver'.root r hr)))
  exact congrArg MerkleLeaf.key (MerkleNode.leaf.inj hleaf)

/-- **No equivocation under one root node hash.** Whatever the paths, a key that one of them shows
is not missing from another, and has one value. -/
theorem verify_no_equivocation (hs : SoundHash H) (key : MerkleTreeRFOutput)
    (p₁ p₂ : MerklePathCompressed H) {r₁ r₂ : MerkleRootV1 H} (hr₁ : p₁.root = .v1 r₁)
    (hr₂ : p₂.root = .v1 r₂) (hroot : r₁.rootNode = r₂.rootNode) {v : H}
    (hpresent : verifyPresence p₁ key = .ok v) :
    verifyAbsence p₂ key ≠ .ok () ∧ ∀ v', verifyPresence p₂ key = .ok v' → v = v' :=
  ⟨not_absent_of_present hs hr₁ hr₂ hroot hpresent,
    fun _ hpresent' => present_unique hs hr₁ hr₂ hroot hpresent hpresent'⟩

/-- The key whose bits are all zero, and the path to its leaf in a tree of two keys that differ in
their first bit. -/
def zeroKey : MerkleTreeRFOutput := ⟨List.replicate 32 0, length_zeros⟩

def zeroKeyPath (edges : List (UInt8 × SymHash)) (terminal : MerklePathTerminal SymHash) :
    MerklePathCompressed SymHash where
  root := .v1 ⟨1, 0, .zero, .node 0 0 [] (.leaf zeroKey.bytes (.atom 7)) (.atom 8), ⟨0, .zero⟩⟩
  path := ⟨edges, [], short_nil⟩
  terminal := terminal

/-- The server cannot deny the key by showing the root node instead of its leaf. -/
theorem verify_no_equivocation_zeroKey :
    verifyPresence (zeroKeyPath [(0, .atom 8)] (.toLeaf ⟨.atom 7, none⟩)) zeroKey = .ok (.atom 7) ∧
      verifyAbsence (zeroKeyPath [] (.incomplete
        ⟨0, 0, [], .leaf zeroKey.bytes (.atom 7), .atom 8⟩)) zeroKey ≠ .ok () :=
  have hpresent : verifyPresence (zeroKeyPath [(0, .atom 8)] (.toLeaf ⟨.atom 7, none⟩)) zeroKey
      = .ok (.atom 7) := by decide +kernel
  ⟨hpresent, (verify_no_equivocation soundHash_symHash zeroKey _ _ rfl rfl rfl hpresent).1⟩

end Foks.Merkle
