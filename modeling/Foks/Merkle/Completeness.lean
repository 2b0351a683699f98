import Foks.Merkle.Client
import Foks.Merkle.History

/-!
# The proofs of the server

`LookupPathRes.Compress` sends the path of a lookup without its prefixes: the client cuts them
from the key. The server keeps them as segments, which may share bytes with other segments, and
hashes them with the bits around them cleared. Both are the same bytes at every node of the path,
so the client gets the hash of the root node, whatever the key and wherever its path ends.
-/

namespace Foks.Merkle

open Lib Lib.Radix MerkleHash List Option MerkleInteriorNode

section Compress

variable {H : Type}

variable (n : LookupPathNode H)

def LookupPathNode.oppositeHash : H := (n.node.select (!n.next)).hash

/-- The key leaves the segment of the node. -/
def LookupPathNode.missed : Bool := n.keyBitsMatched < n.node.prfx.bitCount

/-- The 33 bytes of a node: the length of its prefix as one byte, and the other child. -/
def LookupPathNode.edge : UInt8 × H :=
  (UInt8.ofNat n.node.prfx.bitCount, n.oppositeHash)

variable (path : List (LookupPathNode H))

/-- The nodes of the path that are sent as edges. -/
def fullNodes : List (LookupPathNode H) :=
  if (path.getLast?.any (·.missed)) then path.dropLast else path

variable (leaf : Option (LookupLeaf H))

def compressTerminal : MerklePathTerminal H :=
  match leaf, path.getLast?.filter (·.missed) with
  | some leaf, _ => .toLeaf ⟨leaf.leaf.value, if leaf.isMatch then none else some leaf.leaf.key⟩
  | none, some last => .incomplete last.node.buildNode
  -- the zero value of a terminal
  | none, none => .nilCase false

def compressPath : MerklePathCompressedBlob H × MerklePathTerminal H :=
  (⟨(fullNodes path).map (·.edge), [], short_nil⟩, compressTerminal path leaf)

def LookupPathRes.compress (l : LookupPathRes H) : Except CoreError (MerklePathCompressed H) := do
  refuse (l.path.length = 0) (.merkleVerifyError "empty path")
  let (path, terminal) := compressPath l.path l.leaf
  return ⟨l.rootBody, path, terminal⟩

variable {n : LookupPathNode H} {path : List (LookupPathNode H)}

/-- A node that the key follows is sent before the rest of the path. -/
theorem fullNodes_cons (hn : n.missed = false) : fullNodes (n :: path) = n :: fullNodes path := by
  cases path with
  | nil => simp [fullNodes, hn]
  | cons m path =>
    unfold fullNodes
    rw [getLast?_cons_cons]
    split <;> rfl

theorem compressTerminal_cons {leaf : Option (LookupLeaf H)} (hn : n.missed = false) :
    compressTerminal (n :: path) leaf = compressTerminal path leaf := by
  unfold compressTerminal
  cases path with
  | nil =>
    have hnone : Option.filter (·.missed) [n].getLast? = none := by simp [hn]
    rw [hnone]
    rfl
  | cons m path => rw [getLast?_cons_cons]

/-- A node that the key leaves is sent whole. -/
theorem compress_missed (hn : n.missed = true) :
    fullNodes [n] = [] ∧ compressTerminal [n] none = .incomplete n.node.buildNode := by
  have hlast : Option.filter (·.missed) [n].getLast? = some n := by simp [hn]
  constructor
  · simp [fullNodes, hn]
  · unfold compressTerminal
    rw [hlast]

end Compress

variable {H : Type} [DecidableEq H] [MerkleHash H]

/-- The client, at bit `p` of the key, computes `hash` from the rest of the path. -/
def Convinces (k : MerkleTreeRFOutput) (p : ℕ) (hash : H) (path : List (LookupPathNode H))
    (leaf : Option (LookupLeaf H)) : Prop :=
  ∃ bitCursor nodes lastHash foundKey,
    readEdges k.bytes p ((fullNodes path).map (·.edge)) = .ok (bitCursor, nodes) ∧
    verifyTerminal (compressTerminal path leaf) k bitCursor = .ok (lastHash, foundKey) ∧
    nodes.foldr climb lastHash = hash ∧ checkFoundKey foundKey k bitCursor = .ok ()

variable {s : Store H} {ph : PrefixedHash H} {t : Tree H} {k : MerkleTreeRFOutput}
  {path : List (LookupPathNode H)}
  {leaf : Option (LookupLeaf H)} {p : MerklePathCompressed H} {log : List (Inserted H)}

theorem Stored.hash_ne_zero (hs : SoundHash H) (h : Stored s ph t) : ph.hash ≠ zero := by
  cases h with
  | leaf | node => exact hs.ne_zero _

/-- Filling in the two children of a node gives the node that the server has hashed. -/
theorem setEmpty_setChild (n : Node H) (b : Bool) (hne : (n.select (!b)).hash ≠ zero) :
    (setChild ⟨n.prfx.bitStart, n.prfx.bitCount, n.buildNode.prfx, zero, zero⟩
      (!b) (n.select (!b)).hash).setEmpty (n.select b).hash = n.buildNode := by
  cases b with
  | true => simp [setChild, setEmpty, Node.select,
      Node.buildNode, Segment.exportToNode]
  | false =>
    have hright : n.right.hash ≠ zero := hne
    simp [setChild, setEmpty, Node.select, Node.buildNode,
      Segment.exportToNode, hright]

omit [DecidableEq H] [MerkleHash H] in
/-- A prefix that is cut from a key, and not empty, holds the bits of the key. -/
theorem Segment.holds_copyAndClamp {start count : ℕ} {buf : List UInt8} (hpos : 0 < count)
    (hend : start + count ≤ keyBits) (h : copyAndClamp k.bytes start count = some buf) :
    Segment.Holds ⟨buf, start, count⟩ k := by
  rw [← k.bits_length] at hend
  obtain ⟨buf', hcut, hlen, hbits⟩ := copyAndClamp_spec hpos hend
  obtain rfl : buf' = buf := mem_unique hcut h
  refine ⟨?_, fun i hi => ?_⟩
  · simp only
    omega
  simp only at hi ⊢
  have hin : decide (start % 8 ≤ start % 8 + i ∧ start % 8 + i ≤ start % 8 + count - 1) = true :=
    decide_eq_true (by omega)
  rw [hbits _ (by omega), hin, Bool.and_true, MerkleTreeRFOutput.bit]
  congr 1
  omega

section Node

variable {n : Node H} {l r : Tree H}

section

omit [DecidableEq H] [MerkleHash H]

/-- The client cuts the prefix of a node that it follows as the server has hashed it. -/
theorem copyAndClamp_buildNode (hseg : ∀ w, HasKey w (n.tree l r) → n.prfx.Holds w)
    (hsame : ∀ w, HasKey w (n.tree l r) → AgreeKey k w n.prfx.bitStart (n.prfx.bitStart + n.prfx.bitCount))
    (hend : n.prfx.bitStart + n.prfx.bitCount ≤ keyBits) :
    copyAndClamp k.bytes n.prfx.bitStart n.prfx.bitCount = some n.buildNode.prfx := by
  obtain ⟨w, hw⟩ := exists_hasKey (n.tree l r)
  have hholds : n.prfx.Holds k := (hseg w hw).congr (hsame w hw).symm
  exact hholds.copyAndClamp hend _ _

/-- The prefix of a node whose segment the key leaves is refuted by the key, as it was hashed. -/
theorem assertKeyMatch_buildNode {d : ℕ} (hd : d < n.prfx.bitCount)
    (hseg : ∀ w, HasKey w (n.tree l r) → n.prfx.Holds w)
    (hdiff : ∀ w, HasKey w (n.tree l r) → k.bit (n.prfx.bitStart + d) ≠ w.bit (n.prfx.bitStart + d))
    (hend : n.prfx.bitStart + n.prfx.bitCount ≤ keyBits) :
    ∃ pos, assertKeyMatch k.bytes n.buildNode.prfx n.prfx.bitStart n.prfx.bitCount
      = .error (.bitPrefixMatchError pos) := by
  -- the node with its prefix in the place of its segment
  let m : Node H := { n with prfx := { n.prfx with bytes := n.buildNode.prfx } }
  have hseg' : ∀ w, HasKey w (m.tree l r) → m.prfx.Holds w := by
    intro w hw
    have hcut := (hseg w hw).copyAndClamp hend n.left.hash n.right.hash
    exact Segment.holds_copyAndClamp (by omega) hend hcut
  rcases assertKeyMatch_node (k := k) hseg' hend with ⟨-, hsame⟩ | ⟨d', -, herr, -⟩
  · obtain ⟨w, hw⟩ := exists_hasKey (n.tree l r)
    have hagree : AgreeKey k w n.prfx.bitStart (n.prfx.bitStart + n.prfx.bitCount) := hsame w hw
    exact absurd (hagree (n.prfx.bitStart + d) (by omega) (by omega)) (hdiff w hw)
  · exact ⟨_, herr⟩

end

end Node

/-- A found key that shares the first bits with ours passes the check of the client. -/
theorem checkFoundKey_eq_ok {k' : MerkleTreeRFOutput} {c : ℕ} (hne : k' ≠ k) (hc : c ≤ keyBits)
    (hagree : AgreeKey k' k 0 c) : checkFoundKey (some k') k c = .ok () := by
  have hkey : 0 + c ≤ 8 * k'.bytes.length := by rw [k'.bits_length]; omega
  have hsub : 0 % 8 + c ≤ 8 * k.bytes.length := by rw [k.bits_length]; omega
  have hsmall : 8 * k'.bytes.length ≤ 2 ^ 63 := by rw [k'.bits_length, keyBits]; omega
  have hmatch : assertKeyMatch k'.bytes k.bytes 0 c = .ok () := by
    rcases assertKeyMatch_cases hkey hsmall hsub with ⟨hok, -⟩ | ⟨d, hd, -, hbit, -⟩
    · exact hok
    refine absurd ?_ hbit
    rw [Nat.zero_add]
    exact hagree d (Nat.zero_le d) hd
  rw [checkFoundKey, refuse, if_neg hne]
  exact hmatch

/-- The path of a lookup convinces the client of the hash that the lookup started from. -/
theorem Trace.convinces (hs : SoundHash H) {p : ℕ} {T : Tree H} (h : Trace s k p ph t path leaf)
    (hst : Stored s ph t) (hwf : t.WF p) (hp : p ≤ keyBits) (hfocus : Focus MerkleTreeRFOutput.bit T k p t) :
    Convinces k p ph.hash path leaf := by
  induction h with
  | @leaf p k' v' hsel =>
    by_cases hk : k = k'
    · subst hk
      refine ⟨p, [], _, none, rfl, ?_, rfl, rfl⟩
      simp [compressTerminal, verifyTerminal, MerkleLeaf.hash]
    refine ⟨p, [], _, some k', rfl, ?_, rfl, ?_⟩
    · simp [compressTerminal, verifyTerminal, MerkleLeaf.hash, hk]
    · exact checkFoundKey_eq_ok (Ne.symm hk) hp (hfocus.agree k' (hasKey_leaf.mpr rfl))
  | @miss n l r d hsel hd hsame hdiff =>
    obtain ⟨hseg, -⟩ := hst.node_inv hsel
    have hend : n.prfx.bitStart + n.prfx.bitCount < keyBits := by
      cases hwf with
      | node hsize => exact hsize
    obtain ⟨pos, herr⟩ := assertKeyMatch_buildNode hd hseg hdiff hend.le
    have hsmall : n.prfx.bitCount < 2 ^ 63 := by
      unfold keyBits at hend
      omega
    have hmissed : LookupPathNode.missed ⟨n, false, n.prfx.bitStart, d⟩ = true := decide_eq_true hd
    obtain ⟨hnodes, hterm⟩ := compress_missed hmissed
    have hcheck : assertKeyMatch k.bytes n.buildNode.prfx n.prfx.bitStart
        (int64 n.buildNode.prefixBitCount) = .error (.bitPrefixMatchError pos) := by
      rw [show n.buildNode.prefixBitCount = n.prfx.bitCount from rfl, int64_of_lt hsmall, herr]
    refine ⟨n.prfx.bitStart, [], n.hash, none, by rw [hnodes]; rfl, ?_, rfl, rfl⟩
    rw [hterm, verifyTerminal, hcheck]
    rfl
  | @step n l r path leaf hsel hsame h ih =>
    obtain ⟨hseg, hsub⟩ := hst.node_inv hsel
    have hdescend := hfocus.descend hwf hsame
    cases hwf with
    | node hsize hagree hbit hwfsub =>
      set b := k.bit (n.prfx.bitStart + n.prfx.bitCount) with hb
      obtain ⟨c, nodes, last, foundKey, hread, hterm, hfold, hfound⟩ :=
        ih (hsub b) (hwfsub b) hsize hdescend
      have hcut := copyAndClamp_buildNode hseg hsame hsize.le
      have hbitAt : bitAt k.bytes (n.prfx.bitStart + n.prfx.bitCount) = .ok b := k.bitAt_eq_ok hsize
      -- the length of a prefix fits a byte
      have hlen : (UInt8.ofNat n.prfx.bitCount).toNat = n.prfx.bitCount := by
        rw [UInt8.toNat_ofNat']
        unfold keyBits at hsize
        omega
      have hmissed : LookupPathNode.missed ⟨n, b, n.prfx.bitStart, n.prfx.bitCount + 1⟩ = false :=
        decide_eq_false (by simp)
      refine ⟨c, setChild ⟨n.prfx.bitStart, n.prfx.bitCount, n.buildNode.prfx, zero, zero⟩ (!b)
          (n.select (!b)).hash :: nodes, last, foundKey, ?_, ?_, ?_, hfound⟩
      · rw [fullNodes_cons hmissed]
        refine readEdges_cons_eq_ok.mpr ⟨n.buildNode.prfx, b, nodes, ?_, ?_, ?_, ?_⟩
        · rw [hlen]
          exact hcut
        · rw [hlen]
          exact hbitAt
        · rw [hlen]
          exact hread
        · rw [hlen]
          rfl
      · rw [compressTerminal_cons hmissed]
        exact hterm
      · rw [foldr_cons, hfold, climb, setEmpty_setChild n b ((hsub (!b)).hash_ne_zero hs)]
        rfl

/-- On the way of a lookup, the client cuts the prefixes that the server has hashed. -/
theorem Trace.prefixes {p : ℕ} (h : Trace s k p ph t path leaf) (hst : Stored s ph t) (hwf : t.WF p) :
    ∀ e ∈ path, e.missed = false →
      copyAndClamp k.bytes e.keyBitStart e.node.prfx.bitCount = some e.node.buildNode.prfx := by
  induction h with
  | leaf => exact fun e he => absurd he not_mem_nil
  | miss hsel hd =>
    intro e he hmissed
    cases mem_singleton.mp he
    exact absurd hd (of_decide_eq_false hmissed)
  | step hsel hsame h ih =>
    obtain ⟨hseg, hsub⟩ := hst.node_inv hsel
    cases hwf with
    | node hsize hagree hbit hwfsub =>
      intro e he hmissed
      rcases mem_cons.mp he with rfl | he
      · exact copyAndClamp_buildNode hseg hsame hsize.le
      · exact ih (hsub _) (hwfsub _) e he hmissed

/-- The answers of the client to a path that convinces it of the root node. -/
theorem Convinces.verifyPath {r : MerkleRootV1 H} (h : Convinces k 0 r.rootNode path leaf) :
    Merkle.verifyPath ⟨.v1 r, (compressPath path leaf).1, (compressPath path leaf).2⟩ k = .ok () := by
  obtain ⟨c, nodes, last, foundKey, hread, hterm, hfold, hfound⟩ := h
  simp only [Merkle.verifyPath, compressPath, hread, hterm, hfold, hfound, bind, Except.bind, refuse,
    ne_eq, not_true_eq_false, if_false]

/-- The terminal says whether the leaf of the lookup matched. -/
theorem Convinces.keyWasFound {p : ℕ} {hash : H} (h : Convinces k p hash path leaf) :
    (compressTerminal path leaf).keyWasFound = .ok (leaf.any (·.isMatch)) := by
  obtain ⟨c, nodes, last, foundKey, -, hterm, -, -⟩ := h
  cases leaf with
  | some l => cases hmatch : l.isMatch <;> simp [compressTerminal, hmatch, MerklePathTerminal.keyWasFound]
  | none =>
    unfold compressTerminal at hterm ⊢
    cases hlast : path.getLast?.filter (·.missed) with
    | some last => rfl
    | none =>
      rw [hlast] at hterm
      cases hterm

theorem verify_of_found {t : MerklePathToLeaf H} (hpath : verifyPath p k = .ok ())
    (hterm : p.terminal = .toLeaf t) (hfound : p.terminal.keyWasFound = .ok true) :
    verifyPresence p k = .ok t.leaf ∧
      verifyAbsence p k = .error (.merkleVerifyError "server claimed key was in tree") := by
  rw [hterm] at hfound
  constructor
  · simp only [verifyPresence, hfound, hpath, hterm]
    rfl
  · simp only [verifyAbsence, hterm, hfound, bind, Except.bind, refuse, if_true]

theorem verify_of_not_found (hpath : verifyPath p k = .ok ()) (hfound : p.terminal.keyWasFound = .ok false) :
    verifyAbsence p k = .ok () ∧
      verifyPresence p k = .error (.merkleVerifyError "server claimed key was not in tree") := by
  constructor
  · simp only [verifyAbsence, hfound, hpath, bind, Except.bind, refuse, Bool.false_eq_true, if_false]
  · simp only [verifyPresence, hfound, bind, Except.bind, refuse, if_true]

theorem Trace.path_ne_nil {p : ℕ} (h : Trace s k p ph t path leaf) (htyp : ph.typ = .node) : path ≠ [] := by
  cases h with
  | leaf => cases htyp
  | miss | step => exact cons_ne_nil _ _

/-! ## Trees of two keys -/

/-- Two keys were inserted by epoch `e`. -/
def TwoKeys (log : List (Inserted H)) (e : MerkleEpno) : Prop :=
  ∃ k k', k ≠ k' ∧ (valueAt log e k).isSome ∧ (valueAt log e k').isSome

omit [DecidableEq H] [MerkleHash H] in
theorem TwoKeys.mono {e e' : MerkleEpno} (h : TwoKeys log e) (he : e ≤ e') : TwoKeys log e' := by
  obtain ⟨k, k', hne, hk, hk'⟩ := h
  obtain ⟨v, hv⟩ := isSome_iff_exists.mp hk
  obtain ⟨v', hv'⟩ := isSome_iff_exists.mp hk'
  refine ⟨k, k', hne, ?_, ?_⟩
  · rw [valueAt_mono hv he]
    rfl
  · rw [valueAt_mono hv' he]
    rfl

/-- A tree of two keys is not a leaf. -/
theorem Shows.typ_eq {e : MerkleEpno} (h : Shows s log e ph t) (htwo : TwoKeys log e) : ph.typ = .node := by
  cases htyp : ph.typ with
  | node => rfl
  | leaf =>
    obtain ⟨w, v, -, rfl, -⟩ := h.stored.of_leaf htyp
    have honly : ∀ k, (valueAt log e k).isSome → k = w := by
      intro k hk
      obtain ⟨v', hv'⟩ := isSome_iff_exists.mp hk
      exact ((h.mem_iff k v').mpr hv').1
    obtain ⟨k, k', hne, hk, hk'⟩ := htwo
    exact absurd ((honly k hk).trans (honly k' hk').symm) hne

/-- The lookup of a key in an epoch with two keys, by its number, or as the latest one. -/
theorem Refines.lookup_two {a : History H} (h : Refines s a) {r : RootRow H} (hr : r ∈ s.roots)
    (htwo : TwoKeys a.log r.epno) (k : MerkleTreeRFOutput) :
    ∃ ph t path leaf, ph.hash = r.rootNode ∧ Shows s a.log r.epno ph t ∧ ph.typ = .node ∧
      Trace s k 0 ph t path leaf ∧
      lookupPathWithLock s k (some r.epno) = .ok ⟨r.epno, r.body, path, leaf⟩ ∧
      (r.epno = a.epno → lookupPathWithLock s k none = .ok ⟨r.epno, r.body, path, leaf⟩) := by
  have hle : r.epno ≤ a.epno := (h.ledger.mem_epnos.mp (mem_map_of_mem hr)).2
  obtain ⟨last, hlast⟩ : ∃ last, s.roots.getLast? = some last := by
    rw [← isSome_iff_exists, getLast?_isSome]
    exact ne_nil_of_mem hr
  -- the latest tree has the two keys as well, so the flag is that of a node
  obtain ⟨typ, t', hflag, hshows', -⟩ := h.latest last hlast
  obtain rfl : typ = .node := hshows'.typ_eq (htwo.mono hle)
  obtain ⟨ph, t, hhash, hshows⟩ := h.trees r hr
  have htyp := hshows.typ_eq htwo
  obtain ⟨res, hres, htrace⟩ := lookupFromRootNode_eq_ok hshows.stored hshows.wf k
  have hroot := h.selectRootForTraversal hr hhash (by rw [htyp]; exact hflag)
  refine ⟨ph, t, res.path, res.leaf, hhash, hshows, htyp, htrace, ?_, fun hepno => ?_⟩
  · rw [lookupPathWithLock, hroot]
    simp only [bind, Except.bind, hres]
    rfl
  -- epochs are unique, so the latest root is this one
  have hunique : (s.roots.map RootRow.epno).Nodup := by
    rw [h.ledger.epnos]
    exact nodup_range'
  obtain rfl : last = r := inj_on_of_nodup_map hunique (mem_of_getLast? hlast) hr
    ((h.ledger.epno_last hlast).trans hepno.symm)
  rw [lookupPathWithLock, h.ledger.selectRootForTraversal hlast hflag, hepno]
  obtain rfl : ph = ⟨.node, last.rootNode⟩ := by rw [← hhash, ← htyp]
  simp only [bind, Except.bind, hres]
  rfl

/-- **Proofs are complete.** In every run of the engine on an empty store, for every epoch with two
keys and every key: the lookup of the key succeeds and is compressed to a path that the client
accepts, as a proof of the value of the key if it was inserted by then, and otherwise as a proof
that it was not. The prefixes that the client cuts from the key on its way are those that the
server has hashed. -/
theorem verify_complete (hs : SoundHash H) (ops : List (Op H)) :
    let s := serve Merkle.step ({} : Store H) ops
    let a := serve History.step ({} : History H) ops
    ∀ r ∈ s.roots, TwoKeys a.log r.epno → ∀ k, ∃ res p,
      lookupPathWithLock s k (some r.epno) = .ok res ∧
      (r.epno = a.epno → lookupPathWithLock s k none = .ok res) ∧
      res.compress = .ok p ∧ p.root = r.body ∧
      (∀ v, valueAt a.log r.epno k = some v → verifyPresence p k = .ok v ∧
        verifyAbsence p k = .error (.merkleVerifyError "server claimed key was in tree")) ∧
      (valueAt a.log r.epno k = none → verifyAbsence p k = .ok () ∧
        verifyPresence p k = .error (.merkleVerifyError "server claimed key was not in tree")) ∧
      ∀ e ∈ res.path, e.missed = false →
        copyAndClamp k.bytes e.keyBitStart e.node.prfx.bitCount = some e.node.buildNode.prfx := by
  intro s a r hr htwo k
  have h : Refines s a := (alone_serve hs ops).refines
  obtain ⟨ph, t, path, leaf, hhash, hshows, htyp, htrace, hlookup, hlatest⟩ := h.lookup_two hr htwo k
  obtain ⟨body, hbody, -, hrootNode⟩ := h.ledger.bodies r hr
  have hpath : path.length ≠ 0 :=
    fun hzero => htrace.path_ne_nil htyp (length_eq_zero_iff.mp hzero)
  have hconv := htrace.convinces hs hshows.stored hshows.wf (Nat.zero_le _) (.root t k)
  rw [hhash, ← hrootNode] at hconv
  have hverify := hconv.verifyPath
  have hfound := hconv.keyWasFound
  rw [← hbody] at hverify
  refine ⟨_, ⟨r.body, (compressPath path leaf).1, (compressPath path leaf).2⟩, hlookup, hlatest, ?_,
    rfl, fun v hv => ?_, fun hnone => ?_, htrace.prefixes hshows.stored hshows.wf⟩
  · rw [LookupPathRes.compress, refuse, if_neg hpath]
    rfl
  · -- the path ends at the leaf of the key
    obtain ⟨l, rfl, hmatch, hleaf⟩ :=
      (htrace.leaf_mem_iff hshows.wf (.root t k) v).mpr ((hshows.mem_iff k v).mpr hv)
    rw [any_some, hmatch] at hfound
    have hterm : (compressPath path (some l)).2 = .toLeaf ⟨v, none⟩ := by
      simp [compressPath, compressTerminal, hmatch, hleaf]
    exact verify_of_found hverify hterm hfound
  have hmiss : ¬ HasKey k t := by
    rintro ⟨v, hmem⟩
    rw [hshows.mem_iff, hnone] at hmem
    cases hmem
  have hmatch : leaf.any (·.isMatch) = false := by
    rw [← Bool.not_eq_true, htrace.any_isMatch hshows.wf]
    exact hmiss
  rw [hmatch] at hfound
  exact verify_of_not_found hverify hfound

/-- The first of two keys, in the second epoch. -/
theorem verify_complete_twoInserts :
    ∃ res p, lookupPathWithLock (serve Merkle.step {} twoInserts) twoKeys.1 (some 2) = .ok res ∧
      res.compress = .ok p ∧ verifyPresence p twoKeys.1 = .ok (.atom 1) := by
  obtain ⟨r, hr, hepno⟩ : ∃ r ∈ (serve Merkle.step ({} : Store SymHash) twoInserts).roots, r.epno = 2 := by
    decide +kernel
  have hvalue : valueAt (serve History.step ({} : History SymHash) twoInserts).log r.epno twoKeys.1
      = some (.atom 1) := by
    rw [hepno]
    decide +kernel
  have htwo : TwoKeys (serve History.step ({} : History SymHash) twoInserts).log r.epno := by
    rw [hepno]
    exact ⟨twoKeys.1, twoKeys.2, by decide +kernel⟩
  obtain ⟨res, p, hlookup, -, hcompress, -, hpresent, -⟩ :=
    verify_complete soundHash_symHash twoInserts r hr htwo twoKeys.1
  rw [hepno] at hlookup
  exact ⟨res, p, hlookup, hcompress, (hpresent _ hvalue).1⟩

/-- **A client believes the log.** Under the root of any epoch, some path shows the client a value of a
key exactly if it is the one inserted by then, and some path shows it none exactly if there is none. -/
theorem shown_iff_inserted (hs : SoundHash H) (ops : List (Op H)) :
    let s := serve Merkle.step ({} : Store H) ops
    let a := serve History.step ({} : History H) ops
    ∀ r ∈ s.roots, ∀ k,
      (∀ v, (∃ p, p.root = r.body ∧ verifyPresence p k = .ok v) ↔ valueAt a.log r.epno k = some v) ∧
      ((∃ p, p.root = r.body ∧ verifyAbsence p k = .ok ()) ↔ valueAt a.log r.epno k = none) := by
  intro s a r hr k
  have h : Refines s a := (alone_serve hs ops).refines
  obtain ⟨ph, t, hhash, hshows⟩ := h.trees r hr
  obtain ⟨body, hbody, -, hrootNode⟩ := h.ledger.bodies r hr
  obtain ⟨res, -, htrace⟩ := lookupFromRootNode_eq_ok hshows.stored hshows.wf k
  have hconv := htrace.convinces hs hshows.stored hshows.wf (Nat.zero_le _) (.root t k)
  rw [hhash, ← hrootNode] at hconv
  have hverify := hconv.verifyPath
  have hfound := hconv.keyWasFound
  rw [hbody]
  -- the path of the lookup decides, and no other one contradicts it
  cases hvalue : valueAt a.log r.epno k with
  | none =>
    have hmatch : res.leaf.any (·.isMatch) = false := by
      rw [← Bool.not_eq_true, htrace.any_isMatch hshows.wf]
      rintro ⟨v, hmem⟩
      cases hvalue.symm.trans ((hshows.mem_iff k v).mp hmem)
    rw [hmatch] at hfound
    have habsent := (verify_of_not_found hverify hfound).1
    refine ⟨fun v => iff_of_false ?_ (by simp), iff_of_true ⟨_, rfl, habsent⟩ rfl⟩
    rintro ⟨p, hp, hpresent⟩
    exact not_absent_of_present hs hp rfl rfl hpresent habsent
  | some v =>
    obtain ⟨l, hl, hmatch, hleaf⟩ :=
      (htrace.leaf_mem_iff hshows.wf (.root t k) v).mpr ((hshows.mem_iff k v).mpr hvalue)
    rw [hl] at hverify hfound
    rw [any_some, hmatch] at hfound
    have hterm : (compressPath res.path (some l)).2 = .toLeaf ⟨v, none⟩ := by
      simp [compressPath, compressTerminal, hmatch, hleaf]
    have hpresent := (verify_of_found hverify hterm hfound).1
    refine ⟨fun v' => ⟨?_, ?_⟩, iff_of_false ?_ (by simp)⟩
    · rintro ⟨p, hp, hpresent'⟩
      exact congrArg some (present_unique hs rfl hp rfl hpresent hpresent')
    · rintro ⟨⟩
      exact ⟨_, rfl, hpresent⟩
    · rintro ⟨p, hp, habsent⟩
      exact not_absent_of_present hs rfl hp rfl hpresent habsent

/-- The second key is missing from the first epoch. -/
theorem shown_iff_inserted_twoInserts : ∃ r ∈ (serve Merkle.step ({} : Store SymHash) twoInserts).roots,
    r.epno = 1 ∧ ∃ p, p.root = r.body ∧ verifyAbsence p twoKeys.2 = .ok () := by
  obtain ⟨r, hr, hepno⟩ : ∃ r ∈ (serve Merkle.step ({} : Store SymHash) twoInserts).roots, r.epno = 1 := by
    decide +kernel
  refine ⟨r, hr, hepno, (shown_iff_inserted soundHash_symHash twoInserts r hr twoKeys.2).2.mpr ?_⟩
  rw [hepno]
  decide +kernel

end Foks.Merkle
