import Foks.Merkle.Engine

/-!
# The roots of the tree

The stored roots are numbered from one without a gap, so every back pointer finds its root, and
the next root is accepted unless its hostchain tail is older than the one stored last.
-/

namespace Foks.Merkle

open Lib MerkleHash List Option HostchainTail Store

/-- A sequence number of the hostchain is before the latest one. -/
def Outdated (tail seqno : Option Seqno) : Prop :=
  match seqno, tail with
  | some seqno, some tail => seqno < tail
  | _, _ => False

instance (tail seqno : Option Seqno) : Decidable (Outdated tail seqno) := by
  unfold Outdated
  split <;> infer_instance

variable {H : Type}

structure Ledger (s : Store H) (n : ℕ) (tail : Option Seqno) : Prop where
  epnos : s.roots.map RootRow.epno = range' 1 n
  bodies : ∀ r ∈ s.roots, ∃ b, r.body = .v1 b ∧ b.epno = r.epno ∧ b.rootNode = r.rootNode
  flag : s.firstNode.isSome = decide (0 < n)
  bookkeeping : s.bookkeeping.isSome = decide (0 < n)
  tail : s.selectCurrentHostchainTail.map seqno = tail

theorem Ledger.empty : Ledger ({} : Store H) 0 none where
  epnos := rfl
  bodies _ hr := absurd hr not_mem_nil
  flag := rfl
  bookkeeping := rfl
  tail := rfl

theorem olderTail_iff {curr new : Option (HostchainTail H)} : OlderTail curr new
      ↔ Outdated (curr.map seqno) (new.map seqno) := by
  cases curr <;> cases new <;> exact Iff.rfl

namespace Ledger

variable {s : Store H} {n : ℕ} {tail : Option Seqno}

section

variable (h : Ledger s n tail)

include h

theorem sorted : (s.roots.map RootRow.epno).Pairwise (· < ·) := by
  rw [h.epnos]
  exact pairwise_lt_range'

theorem length : s.roots.length = n := by
  rw [← length_map, h.epnos, length_range']

theorem mem_epnos {e : ℕ} : e ∈ s.roots.map RootRow.epno ↔ 0 < e ∧ e ≤ n := by
  rw [h.epnos, mem_range'_1]
  omega

theorem lastRoot : s.lastRoot = s.roots.getLast? :=
  argmax_eq_getLast? h.sorted

theorem rootAt {e : ℕ} (hpos : 0 < e) (hle : e ≤ n) :
    ∃ r ∈ s.roots, s.rootAt e = some r ∧ r.epno = e := by
  obtain ⟨r, hr, hepno⟩ := mem_map.mp (h.mem_epnos.mpr ⟨hpos, hle⟩)
  have hsome : (s.rootAt e).isSome := by
    rw [Store.rootAt, find?_isSome]
    exact ⟨r, hr, by simpa using hepno⟩
  obtain ⟨r', hr'⟩ := isSome_iff_exists.mp hsome
  exact ⟨r', mem_of_find?_eq_some hr', hr', by simpa using find?_some hr'⟩

theorem epno_last {r : RootRow H} (hr : s.roots.getLast? = some r) : r.epno = n := by
  have hlast := congrArg List.getLast? h.epnos
  rw [getLast?_map, hr, map_some] at hlast
  rcases Nat.eq_zero_or_pos n with rfl | hpos
  · cases hlast
  obtain ⟨m, rfl⟩ := Nat.exists_eq_succ_of_ne_zero hpos.ne'
  rw [range'_1_concat, getLast?_concat, some.injEq] at hlast
  rw [hlast, add_comm]

/-- The latest root, with the type that the flag of the tree gives it. -/
theorem selectRootForTraversal {r : RootRow H}
    (hr : s.roots.getLast? = some r) {typ : MerkleNodeType}
    (hflag : s.firstNode = some (decide (typ = .node))) :
    s.selectRootForTraversal none = .ok ⟨n, r.body, ⟨typ, r.rootNode⟩⟩ := by
  rw [Store.selectRootForTraversal, h.lastRoot, hr, hflag, ← h.epno_last hr]
  cases typ <;> rfl

end

theorem selectRootForTraversal_empty (h : Ledger s 0 tail) :
    s.selectRootForTraversal none = .error .merkleNoRootError := by
  have hroots : s.roots = [] := length_eq_zero_iff.mp h.length
  rw [Store.selectRootForTraversal, h.lastRoot, hroots]
  rfl

section

variable (h : Ledger s n tail) {hct : Option (HostchainTail H)}

include h

theorem updateBookkeeping (hpos : 0 < n) (bk : Bookkeeping) :
    ∃ row, s.updateBookkeeping bk = .ok { s with bookkeeping := some row } := by
  obtain ⟨row, hrow⟩ := isSome_iff_exists.mp (h.bookkeeping.trans (decide_eq_true hpos))
  exact ⟨{ row with build := bk }, by rw [Store.updateBookkeeping, hrow]⟩

/-- The back pointers of the next root all lead to stored roots. -/
theorem buildBackPointerHash [DecidableEq H] [MerkleHash H] :
    ∃ bphash, Merkle.buildBackPointerHash s (n + 1) = .ok bphash := by
  have hhash : ∀ e ∈ merkleBackpointerSequence (n + 1), ∃ hash, s.selectRootHash e = .ok hash := by
    intro e he
    obtain ⟨hpos, hlt⟩ := merkleBackpointerSequence_lt he
    obtain ⟨r, -, hr, -⟩ := h.rootAt hpos (by omega)
    exact ⟨r.hash, by rw [selectRootHash, hr]⟩
  obtain ⟨bps, hbps⟩ := mapM_eq_ok hhash
  exact ⟨_, by rw [Merkle.buildBackPointerHash, selectRootHashes, hbps]; rfl⟩

/-- A tail that is not outdated and not stored yet has a new sequence number. -/
theorem insertTail (hnew : ¬ Outdated tail (hct.map seqno)) :
    ∃ rows, insertTail (insertedTail s.selectCurrentHostchainTail hct) s.hostchainTails = .ok rows ∧
      (rows.argmax seqno).map seqno = (hct.map seqno).or tail := by
  have htail := h.tail
  rw [selectCurrentHostchainTail] at htail ⊢
  rcases hct with _ | t
  · exact ⟨_, rfl, htail⟩
  rcases hcurr : s.hostchainTails.argmax seqno with _ | curr
  · rw [argmax_eq_none] at hcurr
    rw [hcurr]
    exact ⟨[t], rfl, rfl⟩
  rw [hcurr] at htail
  subst htail
  have hle : curr.seqno ≤ t.seqno := Nat.le_of_not_lt hnew
  by_cases heq : curr.seqno = t.seqno
  · refine ⟨_, by rw [insertedTail, if_pos heq]; rfl, ?_⟩
    rw [hcurr]
    exact congrArg some heq
  have hmax : ∀ u ∈ s.hostchainTails, u.seqno ≤ curr.seqno :=
    fun u hu => le_of_mem_argmax hu hcurr
  have hlt : curr.seqno < t.seqno := Nat.lt_of_le_of_ne hle heq
  have hfresh : t.seqno ∉ s.hostchainTails.map seqno := by
    intro hmem
    obtain ⟨u, hu, hseq⟩ := mem_map.mp hmem
    rw [← hseq] at hlt
    exact lt_irrefl _ (lt_of_lt_of_le hlt (hmax u hu))
  refine ⟨s.hostchainTails ++ [t], ?_, ?_⟩
  · rw [insertedTail, if_neg heq]
    exact insertRow_eq_ok.mpr ⟨hfresh, rfl⟩
  · rw [argmax_concat, hcurr]
    simp [hlt]

theorem storeRoot_eq_error [DecidableEq H] [MerkleHash H]
    (hold : Outdated tail (hct.map seqno)) (rootNode : PrefixedHash H)
    (time now : Time) :
    storeRoot s (n + 1) rootNode time now hct = .error
        (.merkleTreeError "hostchain tail is older than current") := by
  obtain ⟨bphash, hbp⟩ := h.buildBackPointerHash
  have hold : OlderTail s.selectCurrentHostchainTail hct := by rwa [olderTail_iff, h.tail]
  unfold storeRoot
  rw [hbp]
  simp only [bind, Except.bind, refuse, if_pos hold]

/-- Storing the next root, with a hostchain tail that is not outdated. -/
theorem storeRoot_eq_ok [DecidableEq H] [MerkleHash H]
    (hnew : ¬ Outdated tail (hct.map seqno)) (rootNode : PrefixedHash H)
    (time now : Time) :
    ∃ s', storeRoot s (n + 1) rootNode time now hct = .ok s' ∧
      Ledger s' (n + 1) ((hct.map seqno).or tail) ∧
      s'.nodes = s.nodes ∧ s'.leaves = s.leaves ∧ s'.others = s.others ∧
      (∃ r, s'.roots = s.roots ++ [r] ∧ r.epno = n + 1 ∧ r.rootNode = rootNode.hash) ∧
      s'.firstNode = if n = 0 then some false
        else if rootNode.typ = .node then some true else s.firstNode := by
  obtain ⟨bphash, hbp⟩ := h.buildBackPointerHash
  obtain ⟨tails, htails, hmax⟩ := h.insertTail hnew
  have hold : ¬ OlderTail s.selectCurrentHostchainTail hct := by rwa [olderTail_iff, h.tail]
  have hepno : n + 1 ∉ s.roots.map RootRow.epno := by
    rw [h.mem_epnos]
    omega
  obtain ⟨flag, hflag, hflagsome, hflagval⟩ := flagAfter_eq_ok rootNode.typ h.flag
  obtain ⟨bk, hbk, hbksome⟩ := bookkeepingAfter_eq_ok h.bookkeeping
  set r1 : MerkleRootV1 H := ⟨n + 1, if time = 0 then now else time, bphash, rootNode.hash,
    (hct.or s.selectCurrentHostchainTail).getD ⟨0, zero⟩⟩ with hr1
  set row : RootRow H := ⟨n + 1, r1.time, hashRoot (.v1 r1), .v1 r1, rootNode.hash⟩ with hrow
  have hins : insertRow RootRow.epno (CoreError.uniqueViolation "merkle_roots_pkey") row s.roots
      = .ok (s.roots ++ [row]) := insertRow_eq_ok.mpr ⟨hepno, rfl⟩
  have hrun : storeRoot s (n + 1) rootNode time now hct = .ok { s with
      roots := s.roots ++ [row], hostchainTails := tails, firstNode := flag, bookkeeping := bk } := by
    unfold storeRoot
    rw [hbp]
    simp only [bind, Except.bind, refuse, if_neg hold]
    unfold insertRoot
    rw [hins, htails, hflag, hbk]
    rfl
  refine ⟨_, hrun, ⟨?_, ?_, ?_, ?_, hmax⟩, rfl, rfl, rfl, ⟨row, rfl, rfl, rfl⟩, hflagval⟩
  · rw [map_append, h.epnos, range'_1_concat, add_comm 1 n]
    rfl
  · intro r hr
    rcases mem_append.mp hr with hr | hr
    · exact h.bodies r hr
    · rw [mem_singleton.mp hr]
      exact ⟨r1, rfl, rfl, rfl⟩
  · rw [hflagsome, decide_eq_true (Nat.succ_pos n)]
  · rw [hbksome, decide_eq_true (Nat.succ_pos n)]

end

end Ledger

end Foks.Merkle
