import Foks.Merkle.Session

/-!
# The check of skip pointers is sound

A root that passes `checkSkipPointersFromAtoB` against an earlier one has it in its past: there is a
chain of roots between the two, each with a pointer to the next, whatever the database and the server
have answered.
-/

namespace Foks.Merkle

open Lib MerkleHash List Finmap Prog

variable {H : Type} {stop start : ℕ} {allRoots : Map MerkleEpno (MerkleRoot H)}

/-- What is assumed of the hashes of roots and of back pointers. -/
structure SoundRootHash (H : Type) [MerkleHash H] : Prop where
  root_injective : Function.Injective (hashRoot : MerkleRoot H → H)
  backPointers_injective : Function.Injective (hashBackPointers : List (MerkleBackPointer H) → H)

/-! ## Back pointers -/

theorem backpointerLoop_pairwise {e : ℕ} :
    ∀ turns cursor : ℕ, 0 < cursor → (backpointerLoop e turns cursor).Pairwise (· > ·) ∧
      ∀ p : ℕ, p ∈ backpointerLoop e turns cursor → p ≤ e - cursor := by
  intro turns
  induction turns with
  | zero => exact fun cursor _ => ⟨.nil, fun p hp => absurd hp not_mem_nil⟩
  | succ turns ih =>
    intro cursor hpos
    unfold backpointerLoop
    split
    · next hlt =>
      split
      · exact ⟨pairwise_singleton .., fun p hp => (mem_singleton.mp hp).le⟩
      obtain ⟨hsorted, hle⟩ := ih (2 * cursor) (by omega)
      have hrest : ∀ p : ℕ, p ∈ backpointerLoop e turns (2 * cursor) → p < e - cursor := by
        intro p hp
        have := hle p hp
        omega
      refine ⟨pairwise_cons.mpr ⟨hrest, hsorted⟩, fun p hp => ?_⟩
      rcases mem_cons.mp hp with rfl | hp
      · exact le_rfl
      · exact (hrest p hp).le
    · exact ⟨.nil, fun p hp => absurd hp not_mem_nil⟩

theorem merkleBackpointerSequence_nodup (e : MerkleEpno) : (merkleBackpointerSequence e).Nodup := by
  unfold merkleBackpointerSequence
  split
  case h_6 => exact (backpointerLoop_pairwise e 1 one_pos).1.imp fun hlt => Nat.ne_of_gt hlt
  all_goals decide

/-- Each root points to the one before it. -/
theorem pred_mem_merkleBackpointerSequence {e : ℕ} (h : 2 ≤ e) : e - 1 ∈ merkleBackpointerSequence e := by
  unfold merkleBackpointerSequence
  split
  case h_6 =>
    obtain ⟨turns, rfl⟩ : ∃ turns, e = turns + 1 := ⟨e - 1, by omega⟩
    rw [backpointerLoop, if_pos (by omega)]
    exact mem_cons_self
  all_goals simp_all

/-! ## The path -/

/-- A loop that keeps the last element of a kind ends with one of them, if there are any. -/
theorem foldl_last {α : Type} (p : α → Prop) [DecidablePred p] (l : List α) (init : α) :
    l.foldl (fun last a => if p a then a else last) init ∈ l ∧
        p (l.foldl (fun last a => if p a then a else last) init) ∨
      (∀ a ∈ l, ¬ p a) ∧ l.foldl (fun last a => if p a then a else last) init = init := by
  induction l generalizing init with
  | nil => exact .inr ⟨forall_mem_nil _, rfl⟩
  | cons a l ih =>
    rw [foldl_cons]
    rcases ih (if p a then a else init) with ⟨hmem, hp⟩ | ⟨hnone, heq⟩
    · exact .inl ⟨mem_cons_of_mem _ hmem, hp⟩
    rw [heq]
    by_cases ha : p a
    · exact .inl ⟨by rw [if_pos ha]; exact mem_cons_self, by rwa [if_pos ha]⟩
    · exact .inr ⟨forall_mem_cons.mpr ⟨ha, hnone⟩, if_neg ha⟩

/-- A turn of the loop leads to an earlier epoch that is not before the end. -/
theorem nextStart_spec (hpos : 1 ≤ stop) (hlt : stop < start) :
    nextStart stop start ∈ merkleBackpointerSequence start ∧ stop ≤ nextStart stop start ∧
      nextStart stop start < start := by
  have hpred := pred_mem_merkleBackpointerSequence (e := start) (by omega)
  rcases foldl_last (stop ≤ ·) (merkleBackpointerSequence start) start with ⟨hmem, hle⟩ | ⟨hnone, -⟩
  · exact ⟨hmem, hle, (merkleBackpointerSequence_lt hmem).2⟩
  · exact absurd (show stop ≤ start - 1 by omega) (hnone _ hpred)

/-- The epochs of the path from `start` on, without its end at `stop`. -/
inductive SkipPath (stop : MerkleEpno) : MerkleEpno → List MerkleEpno → Prop
  | nil : SkipPath stop stop []
  | cons {start : MerkleEpno} {path : List MerkleEpno} : stop < start →
      SkipPath stop (nextStart stop start) path → SkipPath stop start (start :: path)

theorem collectRoots_eq (hpos : 1 ≤ stop) {turns : ℕ}
    {done : List MerkleEpno} {siblings : Finset MerkleEpno} (hstart : stop ≤ start)
    (hturns : start ≤ turns) (hdone : ∀ e ∈ done, start < e) :
    ∃ path siblings', collectRoots stop turns start done siblings = some (done ++ path, siblings') ∧
      SkipPath stop start path ∧
      ∀ e, e ∈ siblings' ↔ e ∈ siblings ∨ ∃ f ∈ path, e ∈ merkleBackpointerSequence f := by
  induction turns generalizing start done siblings with
  | zero => omega
  | succ turns ih =>
    unfold collectRoots
    split
    · next hle =>
      obtain rfl : start = stop := le_antisymm hle hstart
      exact ⟨[], siblings, by rw [append_nil], .nil, by simp⟩
    · next hlt =>
      obtain ⟨-, hstop, hless⟩ := nextStart_spec hpos (not_le.mp hlt)
      have hdone' : ∀ e ∈ done ++ [start], nextStart stop start < e := by
        intro e he
        rcases mem_append.mp he with he | he
        · exact hless.trans (hdone e he)
        · rwa [mem_singleton.mp he]
      obtain ⟨path, siblings', heq, hpath, hsiblings⟩ := @ih (nextStart stop start) (done ++ [start])
        (siblings ∪ ((merkleBackpointerSequence start).toFinset \ (done ++ [start]).toFinset)) hstop
        (Nat.le_of_lt_succ (hless.trans_le hturns)) hdone'
      refine ⟨start :: path, siblings', ?_, .cons (not_le.mp hlt) hpath, fun e => ?_⟩
      · rw [heq, append_assoc, singleton_append]
      -- the back pointers are to epochs that were not visited yet
      have hnew : e ∈ merkleBackpointerSequence start → e ∉ done ++ [start] := by
        intro he hmem
        have hlt' := (merkleBackpointerSequence_lt he).2
        rcases mem_append.mp hmem with hmem | hmem
        · exact hlt'.not_gt (hdone e hmem)
        · exact hlt'.ne (mem_singleton.mp hmem)
      rw [hsiblings, Finset.mem_union, Finset.mem_sdiff, mem_toFinset, mem_toFinset]
      simp only [mem_cons, exists_eq_or_imp]
      tauto

/-- The path between two epochs, and the back pointers from it. -/
theorem merkleCollectRoots_eq_some (hpos : 1 ≤ stop) (hlt : stop < start) :
    ∃ path siblings, merkleCollectRoots start stop = some (path, siblings) ∧
      SkipPath stop start path ∧ siblings.Nodup ∧
      ∀ e, e ∈ siblings ↔ ∃ f ∈ path, e ∈ merkleBackpointerSequence f := by
  obtain ⟨path, siblings, heq, hpath, hsiblings⟩ := @collectRoots_eq stop start hpos start [] ∅ hlt.le
    le_rfl (forall_mem_nil _)
  refine ⟨path, (sorted siblings).reverse, by rw [merkleCollectRoots, heq]; rfl, hpath, ?_, ?_⟩
  · exact nodup_reverse.mpr (sorted_nodup siblings)
  · simpa using hsiblings

/-- The loop does not reach epoch zero. -/
theorem collectRoots_zero (turns : ℕ) {path : List MerkleEpno} {siblings : Finset MerkleEpno}
    (hpos : 0 < start) : collectRoots 0 turns start path siblings = none := by
  induction turns generalizing start path siblings with
  | zero => exact if_neg (not_le.mpr hpos)
  | succ turns ih =>
    rw [collectRoots, if_neg (not_le.mpr hpos)]
    refine ih ?_
    rcases foldl_last ((0 : ℕ) ≤ ·) (merkleBackpointerSequence start) start with ⟨hmem, -⟩ | ⟨-, heq⟩
    · exact (merkleBackpointerSequence_lt hmem).1
    -- epoch one has no back pointers: the loop stays there
    · exact hpos.trans_eq heq.symm

/-- The path to epoch zero does not end. -/
theorem merkleCollectRoots_zero (hpos : 0 < start) : merkleCollectRoots start 0 = none := by
  rw [merkleCollectRoots, collectRoots_zero start hpos]
  rfl

/-- The loop ends exactly if it is not to reach epoch zero from a later one. -/
theorem collectRoots_ends_iff (start stop : MerkleEpno) (hle : stop ≤ start) :
    (∃ turns found, collectRoots stop turns start [] ∅ = some found) ↔ 1 ≤ stop ∨ start = stop := by
  constructor
  · rintro ⟨turns, found, h⟩
    by_contra! hnot
    obtain ⟨hzero, hne⟩ := hnot
    obtain rfl : stop = 0 := Nat.lt_one_iff.mp hzero
    cases (collectRoots_zero turns (Nat.pos_of_ne_zero hne)).symm.trans h
  · rintro (hpos | rfl)
    · obtain ⟨path, siblings, heq, -⟩ :=
        @collectRoots_eq stop start hpos start [] ∅ hle le_rfl (forall_mem_nil _)
      exact ⟨start, _, heq⟩
    · exact ⟨0, ([], ∅), if_pos le_rfl⟩

theorem collectRoots_ends_iff_seven :
    (∃ turns found, collectRoots 2 turns 7 [] ∅ = some found) ↔ 1 ≤ 2 ∨ 7 = 2 :=
  collectRoots_ends_iff 7 2 (by decide)

/-- From epoch one to epoch zero: no number of turns is enough. -/
theorem collectRoots_one_zero : ¬ ∃ turns found, collectRoots 0 turns 1 [] ∅ = some found := by
  rintro ⟨turns, found, h⟩
  cases (collectRoots_zero turns one_pos).symm.trans h

namespace SkipPath

variable {start e : MerkleEpno} {path : List MerkleEpno}

theorem ne_nil (h : SkipPath stop start path) (hlt : stop < start) : path ≠ [] := by
  cases h with
  | nil => exact absurd hlt (lt_irrefl _)
  | cons => exact cons_ne_nil _ _

variable (hpos : 1 ≤ stop) (h : SkipPath stop start path)

include hpos h

theorem le_of_mem (he : e ∈ path) : stop < e ∧ e ≤ start := by
  induction h with
  | nil => cases he
  | cons hlt _ ih =>
    rcases mem_cons.mp he with rfl | he
    · exact ⟨hlt, le_rfl⟩
    · obtain ⟨hstop, hle⟩ := ih he
      exact ⟨hstop, hle.trans (nextStart_spec hpos hlt).2.2.le⟩

theorem nodup : path.Nodup := by
  induction h with
  | nil => exact .nil
  | cons hlt hnext ih =>
    refine nodup_cons.mpr ⟨fun hmem => ?_, ih⟩
    exact ((hnext.le_of_mem hpos hmem).2.trans_lt (nextStart_spec hpos hlt).2.2).ne rfl

/-- The epochs of the path after the first, and the one at its end, are back pointers from it. -/
theorem exists_pointer (he : e ∈ path ++ [stop]) (hne : e ≠ start) :
    ∃ f ∈ path, e ∈ merkleBackpointerSequence f := by
  induction h with
  | nil => exact absurd (mem_singleton.mp he) hne
  | @cons start path hlt hnext ih =>
    rcases mem_cons.mp he with rfl | he
    · exact absurd rfl hne
    by_cases hfirst : e = nextStart stop start
    · exact ⟨start, mem_cons_self, hfirst ▸ (nextStart_spec hpos hlt).1⟩
    · obtain ⟨f, hf, hmem⟩ := ih he hfirst
      exact ⟨f, mem_cons_of_mem _ hf, hmem⟩

end SkipPath

/-! ## Chains of roots -/

section Chain

variable [MerkleHash H]

/-- A root points to an earlier one: the hash of its back pointers is that of a list with the epochs
of the sequence, which has the hash of the other root. -/
structure PointsTo (v v' : MerkleRootV1 H) : Prop where
  earlier : v'.epno < v.epno
  sequence : v'.epno ∈ merkleBackpointerSequence v.epno
  commits : ∃ bps : List (MerkleBackPointer H), v.backPointers = hashBackPointers bps ∧
    bps.map (·.epno) = merkleBackpointerSequence v.epno ∧ ⟨v'.epno, hashRoot (.v1 v')⟩ ∈ bps

/-- A root has at most one root of an epoch among its back pointers. -/
theorem PointsTo.unique (hsound : SoundRootHash H) {v v1 v2 : MerkleRootV1 H} (h1 : PointsTo v v1)
    (h2 : PointsTo v v2) (hepno : v1.epno = v2.epno) : v1 = v2 := by
  obtain ⟨bps, hbps, hseq, hmem1⟩ := h1.commits
  obtain ⟨bps', hbps', -, hmem2⟩ := h2.commits
  obtain rfl := hsound.backPointers_injective (hbps.symm.trans hbps')
  have hnodup : (bps.map (·.epno)).Nodup := hseq ▸ merkleBackpointerSequence_nodup v.epno
  have heq := inj_on_of_nodup_map hnodup hmem1 hmem2 hepno
  have hhash : hashRoot (.v1 v1) = hashRoot (.v1 v2) := congrArg MerkleBackPointer.hash heq
  exact MerkleRoot.v1.inj (hsound.root_injective hhash)

/-- Two chains from one root through the same epochs are the same. -/
theorem chain_unique (hsound : SoundRootHash H) {v : MerkleRootV1 H} {vs ws : List (MerkleRootV1 H)}
    (hvs : (v :: vs).IsChain PointsTo) (hws : (v :: ws).IsChain PointsTo)
    (hepnos : vs.map (·.epno) = ws.map (·.epno)) : vs = ws := by
  induction vs generalizing v ws with
  | nil => exact (map_eq_nil_iff.mp hepnos.symm).symm
  | cons v1 vs ih =>
    obtain ⟨w1, ws, rfl, hhead, htail⟩ := map_eq_cons_iff.mp hepnos.symm
    obtain ⟨hv, hvs⟩ := isChain_cons_cons.mp hvs
    obtain ⟨hw, hws⟩ := isChain_cons_cons.mp hws
    obtain rfl := hv.unique hsound hw hhead.symm
    rw [ih hvs hws htail.symm]

variable [DecidableEq H]

/-- The roots of the path lead from the first of them to `left`. -/
structure Linked (path : List MerkleEpno) (right left : MerkleRootV1 H)
    (vs : List (MerkleRootV1 H)) : Prop where
  chain : (right :: vs).IsChain PointsTo
  last : (right :: vs).getLast? = some left
  epnos : (right :: vs).map (·.epno) = path ++ [left.epno]

section

omit [DecidableEq H]

theorem openRoot_eq_ok {r : MerkleRoot H} {o : OpenedRoot H} : openRoot r = .ok o ↔ r = o.r := by
  constructor
  · intro h
    cases r with
    | v1 v =>
      cases h
      rfl
    | future v => cases h
  · rintro rfl
    obtain ⟨r, v, h, rfl, rfl⟩ := o
    rfl

/-- The back pointers are those of the sequence, with the hashes that are known. -/
theorem computeBackPointers_eq_ok {hashes : Map MerkleEpno H}
    {roots : Map MerkleEpno (MerkleRoot H)} {hash : H} :
    computeBackPointers e hashes roots = .ok (hash, bps) ↔
      hash = hashBackPointers bps ∧ bps.map (·.epno) = merkleBackpointerSequence e ∧
        ∀ bp ∈ bps, pointerHash hashes roots bp.epno = some bp.hash := by
  unfold computeBackPointers
  rw [bind_eq_ok]
  refine (exists_congr fun ret => and_congr_left' (mapM_iff_map (g := (·.epno))
    (P := fun bp => pointerHash hashes roots bp.epno = some bp.hash) fun epno bp => ?_)).trans ?_
  · cases hpointer : pointerHash hashes roots epno with
    | none =>
      constructor
      · rintro ⟨⟩
      · rintro ⟨rfl, hbp⟩
        cases hpointer.symm.trans hbp
    | some hash =>
      constructor
      · rintro ⟨⟩
        exact ⟨rfl, hpointer⟩
      · rintro ⟨rfl, hbp⟩
        cases hpointer.symm.trans hbp
        rfl
  constructor
  · rintro ⟨ret, hret, h1⟩
    cases h1
    exact ⟨rfl, hret⟩
  · rintro ⟨rfl, hbps⟩
    exact ⟨bps, hbps, rfl⟩

/-- A root with the back pointers of its sequence points to each root that is one of them. -/
theorem pointsTo_of_mem {v v' : MerkleRootV1 H} (hbps : v.backPointers = hashBackPointers bps)
    (hseq : bps.map (·.epno) = merkleBackpointerSequence v.epno) (hmem : ⟨v'.epno, hashRoot (.v1 v')⟩ ∈ bps) :
    PointsTo v v' := by
  have hin : v'.epno ∈ merkleBackpointerSequence v.epno := hseq ▸ mem_map_of_mem hmem
  exact ⟨(merkleBackpointerSequence_lt hin).2, hin, bps, hbps, hseq, hmem⟩

end

variable {e : MerkleEpno} {bps bps' : List (MerkleBackPointer H)} {allHashes : Map MerkleEpno H}
  {path : List MerkleEpno}

/-- A root that passes the check is the one that is pointed to. -/
theorem checkRootAgainstBackPointers_eq_ok {root : MerkleRoot H}
    (h : checkRootAgainstBackPointers bps e root = .ok ()) (hbps : bps ≠ []) :
    ⟨e, hashRoot root⟩ ∈ bps := by
  unfold checkRootAgainstBackPointers at h
  rw [if_neg hbps] at h
  split at h
  · cases h
  · next bp hfind =>
    have hhash : hashRoot root = bp.hash := of_refuse h
    have hepno : bp.epno = e := by simpa using find?_some hfind
    rw [hhash, ← hepno]
    exact mem_of_find?_eq_some hfind

/-- What a turn of the loop over the path has checked. -/
theorem checkRoots_cons_eq_ok {es : List MerkleEpno}
    (h : checkRoots allRoots allHashes bps (e :: es) = .ok bps') :
    ∃ v bps1, allRoots.lookup e = some (.v1 v) ∧ v.epno = e ∧
      checkRootAgainstBackPointers bps e (.v1 v) = .ok () ∧
      v.backPointers = hashBackPointers bps1 ∧ bps1.map (·.epno) = merkleBackpointerSequence e ∧
      (∀ bp ∈ bps1, pointerHash allHashes allRoots bp.epno = some bp.hash) ∧
      checkRoots allRoots allHashes bps1 es = .ok bps' := by
  unfold checkRoots at h
  rcases hroot : allRoots.lookup e with _ | root
  · rw [hroot] at h
    cases h
  rw [hroot] at h
  obtain ⟨⟨⟩, hcheck, h1⟩ := bind_eq_ok.mp h
  obtain ⟨o, hopen, h2⟩ := bind_eq_ok.mp h1
  obtain ⟨⟨⟩, hepno, h3⟩ := bind_eq_ok.mp h2
  obtain ⟨⟨hash, bps1⟩, hcompute, h4⟩ := bind_eq_ok.mp h3
  obtain ⟨⟨⟩, hexpected, h5⟩ := bind_eq_ok.mp h4
  obtain rfl := openRoot_eq_ok.mp hopen
  obtain ⟨rfl, hseq, hhashes⟩ := computeBackPointers_eq_ok.mp hcompute
  have hepno' : o.epno = e := of_refuse hepno
  have hexpected' : o.v1.backPointers = hashBackPointers bps1 :=
    of_refuse hexpected
  rw [o.r_eq] at hcheck
  exact ⟨o.v1, bps1, congrArg some o.r_eq, hepno', hcheck, hexpected', hseq, hhashes, h5⟩

variable {start : MerkleEpno}

/-- Roots that were checked are a chain: from the first root of the path to the root at its end. -/
theorem checkRoots_chain (hpos : 1 ≤ stop) (hpath : SkipPath stop start path) (hlt : stop < start)
    (h : checkRoots allRoots allHashes bps path = .ok bps') {left : MerkleRootV1 H}
    (hleft : left.epno = stop) (hlast : checkRootAgainstBackPointers bps' stop (.v1 left) = .ok ()) :
    ∃ right vs, allRoots.lookup start = some (.v1 right) ∧ Linked path right left vs := by
  induction hpath generalizing bps with
  | nil => exact absurd hlt (lt_irrefl _)
  | @cons start path hlt hnext ih =>
    obtain ⟨v, bps1, hv, hepno, -, hback, hseq, -, hrest⟩ := checkRoots_cons_eq_ok h
    obtain ⟨hin, hstop, hless⟩ := nextStart_spec hpos hlt
    subst hepno
    have hne : bps1 ≠ [] := by
      rintro rfl
      rw [← hseq] at hin
      cases hin
    generalize nextStart stop v.epno = next at hnext ih
    cases hnext with
    | nil =>
      cases hrest
      have hmem := checkRootAgainstBackPointers_eq_ok hlast hne
      rw [← hleft] at hmem
      exact ⟨v, [left], hv, isChain_pair.mpr (pointsTo_of_mem hback hseq hmem), rfl, rfl⟩
    | cons hlt' hnext =>
      obtain ⟨v1, vs, hv1, hlinked⟩ := ih hlt' hrest
      obtain ⟨v2, -, hv2, hepno, hcheck, -⟩ := checkRoots_cons_eq_ok hrest
      obtain rfl : v2 = v1 := MerkleRoot.v1.inj (Option.mem_unique hv2 hv1)
      have hmem := checkRootAgainstBackPointers_eq_ok hcheck hne
      rw [← hepno] at hmem
      refine ⟨v, v2 :: vs, hv, isChain_cons_cons.mpr ⟨?_, hlinked.chain⟩, ?_, ?_⟩
      · exact pointsTo_of_mem hback hseq hmem
      · rw [getLast?_cons_cons, hlinked.last]
      · rw [map_cons, hlinked.epnos]
        rfl

/-- A root of the path that was pointed to has the hash that is known for its epoch. -/
theorem checkRoots_hash (hpos : 1 ≤ stop) (hpath : SkipPath stop start path)
    (hbps : ∀ bp ∈ bps, pointerHash allHashes allRoots bp.epno = some bp.hash)
    (h : checkRoots allRoots allHashes bps path = .ok bps') :
    (∀ bp ∈ bps', pointerHash allHashes allRoots bp.epno = some bp.hash) ∧ (path ≠ [] → bps' ≠ []) ∧
      ∀ e ∈ path, (e = start → bps ≠ []) → ∀ root hash, allRoots.lookup e = some root →
        allHashes.lookup e = some hash → hashRoot root = hash := by
  induction hpath generalizing bps with
  | nil =>
    cases h
    exact ⟨hbps, fun hne => absurd rfl hne, forall_mem_nil _⟩
  | @cons start path hlt hnext ih =>
    obtain ⟨v, bps1, hv, hepno, hcheck, -, hseq, hhashes, hrest⟩ := checkRoots_cons_eq_ok h
    obtain ⟨hin, -, hless⟩ := nextStart_spec hpos hlt
    have hne : bps1 ≠ [] := by
      rintro rfl
      rw [← hseq] at hin
      cases hin
    obtain ⟨hlast, hnonempty, hother⟩ := ih hhashes hrest
    refine ⟨hlast, fun _ => ?_, forall_mem_cons.mpr ⟨fun hfirst root hash hroot hhash => ?_, ?_⟩⟩
    · cases path with
      | nil =>
        cases hrest
        exact hne
      | cons e path => exact hnonempty (cons_ne_nil e path)
    · obtain rfl := Option.mem_unique hv hroot
      have hpointer := hbps _ (checkRootAgainstBackPointers_eq_ok hcheck (hfirst rfl))
      rw [pointerHash, hhash] at hpointer
      exact (Option.some.inj hpointer).symm
    · exact fun e he _ => hother e he fun _ => hne

end Chain

/-! ## The check -/

section Check

variable {σ : Type} {R : (q : Ask H) → σ → q.Answer → σ → Prop} {s s' : σ}

/-- The roots that are needed are some of those that were asked for. A root that is known is not looked for. -/
theorem loadRoots_spec {roots : List MerkleEpno} {found : Map MerkleEpno (MerkleRoot H) × List MerkleEpno}
    (h : (loadRoots allRoots roots).Runs R s (.ok found) s') :
    found.2.Sublist roots ∧ ∀ e r, allRoots.lookup e = some r → found.1.lookup e = some r ∧ e ∉ found.2 := by
  induction roots generalizing allRoots s found with
  | nil =>
    obtain ⟨hfound, rfl⟩ := runs_pure.mp h
    cases hfound
    exact ⟨.slnil, fun e r hr => ⟨hr, not_mem_nil⟩⟩
  | cons epno roots ih =>
    unfold loadRoots at h
    split at h
    · exact ⟨(ih h).1.cons epno, (ih h).2⟩
    · next hnone =>
      have hne : ∀ e r, allRoots.lookup e = some r → e ≠ epno := by
        rintro e r hr rfl
        simp [hr] at hnone
      obtain ⟨root, s1, -, h1⟩ := runs_bind_ok.mp h
      cases root with
      | some root =>
        obtain ⟨hsub, hknown⟩ := ih h1
        exact ⟨hsub.cons epno, fun e r hr => hknown e r (by rwa [lookup_insert_of_ne _ (hne e r hr)])⟩
      | none =>
        obtain ⟨rest, s2, hrest, h2⟩ := runs_bind_ok.mp h1
        obtain ⟨hfound, rfl⟩ := runs_pure.mp h2
        cases hfound
        obtain ⟨hsub, hknown⟩ := ih hrest
        refine ⟨hsub.cons_cons epno, fun e r hr => ⟨(hknown e r hr).1, ?_⟩⟩
        simp [hne e r hr, (hknown e r hr).2]

variable [MerkleHash H] [DecidableEq H]

theorem addRoots_lookup {roots : Map MerkleEpno (MerkleRoot H)} {neededRoots : List MerkleEpno}
    {newRoots : List (MerkleRoot H)}
    (h : (addRoots allRoots neededRoots newRoots).Runs R s (.ok roots) s') {e : MerkleEpno}
    (he : e ∉ neededRoots) : roots.lookup e = allRoots.lookup e := by
  induction newRoots generalizing allRoots neededRoots s with
  | nil =>
    cases neededRoots <;>
    · obtain ⟨hroots, rfl⟩ := runs_pure.mp h
      cases hroots
      rfl
  | cons root newRoots ih =>
    cases neededRoots with
    | nil =>
      obtain ⟨hroots, -⟩ := runs_fail.mp h
      cases hroots
    | cons epno neededRoots =>
      obtain ⟨⟨⟩, s1, -, h1⟩ := runs_bind_ok.mp h
      rw [mem_cons, not_or] at he
      exact (ih h1 he.2).trans (lookup_insert_of_ne _ he.1)

/-- The stages of a check that succeeds: what was found in the database, what the server has sent, and
all of it. -/
structure CheckRun (R : (q : Ask H) → σ → q.Answer → σ → Prop) (right left : OpenedRoot H) (s s' : σ) where
  path : List MerkleEpno
  siblings : List MerkleEpno
  foundRoots : Map MerkleEpno (MerkleRoot H)
  foundHashes : Map MerkleEpno H
  neededRoots : List MerkleEpno
  neededHashes : List MerkleEpno
  newRoots : List (MerkleRoot H)
  newHashes : List H
  allRoots : Map MerkleEpno (MerkleRoot H)
  allHashes : Map MerkleEpno H
  backPointerSet : List (MerkleBackPointer H)
  s₁ : σ
  s₂ : σ
  s₃ : σ
  s₄ : σ
  s₅ : σ
  later : left.epno < right.epno
  collect : merkleCollectRoots right.epno left.epno = some (path, siblings)
  loadRoots : (loadRoots (((∅ : Map _ _).insert right.epno right.r).insert left.epno left.r) path).Runs
    R s (.ok (foundRoots, neededRoots)) s₁
  loadHashes : (loadHashes ∅ siblings).Runs R s₁ (.ok (foundHashes, neededHashes)) s₂
  fetch : (getRootsFromServer neededRoots neededHashes).Runs R s₂ (.ok (newRoots, newHashes)) s₃
  addRoots : (addRoots foundRoots neededRoots newRoots).Runs R s₃ (.ok allRoots) s₄
  addHashes : addHashes foundHashes neededHashes newHashes = .ok allHashes
  checkRoots : checkRoots allRoots allHashes [] path = .ok backPointerSet
  checkLeft : checkRootAgainstBackPointers backPointerSet left.epno left.r = .ok ()
  storeRoots : (storeRoots right.epno allHashes neededRoots newRoots).Runs R s₄ (.ok ()) s₅
  storeHashes : (storeHashes right.epno neededHashes newHashes).Runs R s₅ (.ok ()) s'

theorem exists_checkRun {right left : OpenedRoot H}
    (h : (checkSkipPointersFromAtoB right left).Runs R s (.ok ()) s') :
    Nonempty (CheckRun R right left s s') := by
  obtain ⟨⟨⟩, _, hrefuse, h1⟩ := runs_bind_ok.mp h
  obtain ⟨hlt, rfl⟩ := runs_refuse_ok.mp hrefuse
  rcases hcollect : merkleCollectRoots right.epno left.epno with _ | found
  · rw [hcollect] at h1
    obtain ⟨hfail, -⟩ := runs_fail.mp h1
    cases hfail
  rw [hcollect] at h1
  obtain ⟨⟨foundRoots, neededRoots⟩, s1, hload, h2⟩ := runs_bind_ok.mp h1
  obtain ⟨⟨foundHashes, neededHashes⟩, s2, hhashes, h3⟩ := runs_bind_ok.mp h2
  obtain ⟨⟨newRoots, newHashes⟩, s3, hserver, h4⟩ := runs_bind_ok.mp h3
  obtain ⟨allRoots, s4, hadd, h5⟩ := runs_bind_ok.mp h4
  obtain ⟨allHashes, _, hlift, h6⟩ := runs_bind_ok.mp h5
  obtain ⟨haddHashes, rfl⟩ := runs_lift.mp hlift
  obtain ⟨bps, _, hlift1, h7⟩ := runs_bind_ok.mp h6
  obtain ⟨hcheck, rfl⟩ := runs_lift.mp hlift1
  obtain ⟨⟨⟩, _, hlift2, h8⟩ := runs_bind_ok.mp h7
  obtain ⟨hlast, rfl⟩ := runs_lift.mp hlift2
  obtain ⟨⟨⟩, s5, hstore, h9⟩ := runs_bind_ok.mp h8
  exact ⟨⟨_, _, _, _, _, _, _, _, _, _, bps, _, _, _, _, _, not_le.mp hlt, hcollect, hload, hhashes,
    hserver, hadd, haddHashes.symm, hcheck.symm, hlast.symm, hstore, h9⟩⟩

/-- A root that was checked against an earlier one has it at the end of a chain through the epochs of
the path. -/
theorem CheckRun.linked {right left : OpenedRoot H} (c : CheckRun R right left s s')
    (hpos : 1 ≤ left.epno) : ∃ vs, Linked c.path right.v1 left.v1 vs := by
  obtain ⟨path, siblings, hcollect, hpath, -⟩ := merkleCollectRoots_eq_some hpos c.later
  obtain ⟨rfl, -⟩ := Prod.mk.inj (Option.mem_unique c.collect hcollect)
  have hleft := c.checkLeft
  rw [left.r_eq] at hleft
  obtain ⟨v, vs, hv, hlinked⟩ := checkRoots_chain hpos hpath c.later c.checkRoots rfl hleft
  -- the root that is checked is the first of the path, and is not taken from elsewhere
  have hfirst : (((∅ : Map MerkleEpno (MerkleRoot H)).insert right.epno right.r).insert left.epno
      left.r).lookup right.epno = some right.r := by
    rw [lookup_insert_of_ne _ c.later.ne', lookup_insert]
  obtain ⟨hfound, hnot⟩ := (loadRoots_spec c.loadRoots).2 _ _ hfirst
  rw [addRoots_lookup c.addRoots hnot, hfound, right.r_eq] at hv
  obtain rfl := MerkleRoot.v1.inj (Option.some.inj hv)
  exact ⟨vs, hlinked⟩

/-- The check of skip pointers is sound, whatever the database and the server answer: the later root
is the first of a chain of roots that ends at the earlier one, each with a pointer to the next. No
other root of that epoch can pass the check against it. -/
theorem checkSkipPointersFromAtoB_sound (hsound : SoundRootHash H) {right left : OpenedRoot H}
    (hpos : 1 ≤ left.epno) (h : (checkSkipPointersFromAtoB right left).Returns (.ok ())) :
    (∃ vs : List (MerkleRootV1 H), (right.v1 :: vs).IsChain PointsTo ∧
      (right.v1 :: vs).getLast? = some left.v1) ∧
    ∀ left' : OpenedRoot H, left'.epno = left.epno →
      (checkSkipPointersFromAtoB right left').Returns (.ok ()) → left'.r = left.r := by
  obtain ⟨c⟩ := exists_checkRun h
  obtain ⟨vs, hvs⟩ := c.linked hpos
  refine ⟨⟨vs, hvs.chain, hvs.last⟩, fun left' hepno h' => ?_⟩
  obtain ⟨c'⟩ := exists_checkRun h'
  obtain ⟨ws, hws⟩ := c'.linked (hepno ▸ hpos)
  -- both chains go through the epochs of the path
  have hcollect := c'.collect
  rw [hepno, c.collect] at hcollect
  obtain ⟨hpath, -⟩ := Prod.mk.inj (Option.some.inj hcollect)
  have hepnos : (right.v1 :: vs).map (·.epno) = (right.v1 :: ws).map (·.epno) := by
    rw [hvs.epnos, hws.epnos, hpath, show left'.v1.epno = left.v1.epno from hepno]
  obtain rfl := chain_unique hsound hvs.chain hws.chain (List.cons.inj hepnos).2
  have hlast := Option.mem_unique hvs.last hws.last
  rw [left.r_eq, left'.r_eq, hlast]

end Check

/-! ## A hash that is sound -/

/-- Hashes as terms: nothing is lost. -/
inductive RootSym where
  | zero
  | atom (n : ℕ)
  | leaf (key : List UInt8) (value : RootSym)
  | node (start count : ℕ) (prfx : List UInt8) (left right : RootSym)
  | root (epno time : ℕ) (backPointers rootNode : RootSym) (seqno : ℕ) (tail : RootSym)
  | future (v : ℕ)
  | pointer (epno : ℕ) (hash rest : RootSym)
  deriving DecidableEq

namespace RootSym

def ofBackPointers : List (MerkleBackPointer RootSym) → RootSym
  | [] => zero
  | bp :: bps => pointer bp.epno bp.hash (ofBackPointers bps)

instance : MerkleHash RootSym where
  zero := .zero
  hashNode
    | .leaf l => .leaf l.key.bytes l.value
    | .node n => .node n.prefixBitStart n.prefixBitCount n.prfx n.left n.right
  hashRoot
    | .v1 r => .root r.epno r.time r.backPointers r.rootNode r.hostchain.seqno r.hostchain.hash
    | .future v => .future v
  hashBackPointers := ofBackPointers

theorem soundRootHash : SoundRootHash RootSym where
  root_injective := by
    rintro (⟨e, t, b, n, ⟨q, h⟩⟩ | v) (⟨e', t', b', n', ⟨q', h'⟩⟩ | v') heq
    · cases heq
      rfl
    · cases heq
    · cases heq
    · cases heq
      rfl
  backPointers_injective := by
    intro bps
    induction bps with
    | nil =>
      rintro (_ | ⟨bp', bps'⟩) heq
      · rfl
      · cases heq
    | cons bp bps ih =>
      rintro (_ | ⟨bp', bps'⟩) heq
      · cases heq
      · obtain ⟨hepno, hhash, hrest⟩ := pointer.inj heq
        rw [ih hrest, show bp = bp' from MerkleBackPointer.ext hepno hhash]

/-- A root with some back pointers. -/
def rootAt (epno : MerkleEpno) (bps : List (MerkleBackPointer RootSym)) : OpenedRoot RootSym :=
  let v1 : MerkleRootV1 RootSym := ⟨epno, 0, hashBackPointers bps, .zero, ⟨0, .zero⟩⟩
  ⟨.v1 v1, v1, hashRoot (.v1 v1), rfl, rfl⟩

end RootSym

open RootSym in
/-- The second root points to the first. -/
theorem checkSkipPointersFromAtoB_sound_two :
    (∃ vs : List (MerkleRootV1 RootSym),
      ((rootAt 2 [⟨1, (rootAt 1 []).h⟩]).v1 :: vs).IsChain PointsTo ∧
      ((rootAt 2 [⟨1, (rootAt 1 []).h⟩]).v1 :: vs).getLast? = some (rootAt 1 []).v1) := by
  have h : (checkSkipPointersFromAtoB (rootAt 2 [⟨1, (rootAt 1 []).h⟩]) (rootAt 1 [])).Returns (.ok ()) := by
    refine returns_of_exec (f := fun q => match q with
      | .dbGetCounter => (none : Option ℤ)
      | .dbGetHash _ => some (rootAt 1 []).h
      | .dbGetRoot _ => none
      | .dbPutCounter _ => ()
      | .dbPutTx _ => ()
      | .getHistoricalRoots _ _ => .ok ([], [])
      | .query _ => .future 0) ?_
    decide +kernel
  exact (checkSkipPointersFromAtoB_sound soundRootHash (by decide) h).1

end Foks.Merkle
