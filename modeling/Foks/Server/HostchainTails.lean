import Foks.Server.MerkleBuilder

/-!
# Host chain tails on their way to the tree

A batch may carry a tail of the host chain. `doOneLeaf` passes it to the engine with the first leaf of
the batch, or alone if the batch has no leaves, and the engine writes it to the root that it stores.
But an insertion of a key that the tree has already stores no root, and then the tail of the batch is
dropped: the builder goes on to the next leaf, without it.
-/

namespace Foks.Merkle

open Lib MerkleHash History

/-! ## The tail of the latest root -/

section Root

variable {H : Type} {t : Store H} {epno : MerkleEpno}

/-- The latest root has this tail, or a zero if there is none. -/
def RootTail (t : Store H) (tail : Option Seqno) : Prop :=
  ∃ row b, t.lastRoot = some row ∧ row.body = .v1 b ∧ b.hostchain.seqno = tail.getD 0

/-- The tail that the engine gets. -/
def Op.hostchain : Op H → Option (HostchainTail H)
  | .insertKeyValue arg _ => arg.hct
  | .storeRoot _ hct _ _ => some hct

/-- The row of a root that is stored with the tail `hct`. -/
def AddsRoot [MerkleHash H] (t t' : Store H) (hct : Option (HostchainTail H)) : Prop :=
  ∃ row b, t'.roots = t.roots ++ [row] ∧ row.body = .v1 b ∧
    b.hostchain = (hct.or t.selectCurrentHostchainTail).getD ⟨0, zero⟩

variable [DecidableEq H] [MerkleHash H]

variable {t' : Store H}

omit [DecidableEq H] in
theorem addsRoot_of_storeRoot {rootNode : PrefixedHash H} {time now : Time} {hct : Option (HostchainTail H)}
    (h : storeRoot t epno rootNode time now hct = .ok t') : AddsRoot t t' hct := by
  simp only [storeRoot, Store.insertRoot, bind_eq_ok, insertRow_eq_ok] at h
  obtain ⟨bphash, -, -, -, roots, ⟨-, rfl⟩, tails, -, flag, -, bk, -, hres⟩ := h
  cases hres
  exact ⟨_, _, rfl, rfl, rfl⟩

theorem addsRoot_of_storeUpdatedPath {leaf : MerkleLeaf H}
    {out : List (Node H)} {arg : InsertKeyValueArg H} {now : Time}
    (h : storeUpdatedPath t epno leaf out arg now = .ok t') : AddsRoot t t' arg.hct := by
  simp only [storeUpdatedPath, bind_eq_ok] at h
  obtain ⟨t1, hleaf, t2, hnodes, t3, hroot, hlast⟩ := h
  simp only [Store.insertLeaf, bind_eq_ok] at hleaf
  obtain ⟨-, -, -, -, hres⟩ := hleaf
  cases hres
  obtain ⟨hroots, htails, -⟩ := Server.storeNodes_frame hnodes
  obtain ⟨row, b, hrow, hbody, hhct⟩ := addsRoot_of_storeRoot hroot
  refine ⟨row, b, ?_, hbody, ?_⟩
  · rw [(Server.updateOptional_frame hlast).1, hrow, hroots]
  · rw [hhct, Store.selectCurrentHostchainTail, htails]
    rfl

variable {op : Op H} {tail : Option Seqno}

/-- An operation of the engine stores a root with the tail that it gets, or none. -/
theorem roots_of_step (h : Merkle.step t op = .ok t') : t'.roots = t.roots ∨ AddsRoot t t' op.hostchain := by
  cases op with
  | insertKeyValue arg now =>
    rw [Merkle.step, insertKeyValueTryTx] at h
    split at h
    · exact .inr (addsRoot_of_storeUpdatedPath h)
    · cases h
    split at h
    · exact .inl (Server.updateOptional_frame h).1
    simp only [bind_eq_ok] at h
    obtain ⟨out, -, out', -, hlast⟩ := h
    exact .inr (addsRoot_of_storeUpdatedPath hlast)
  | storeRoot time hct bk now =>
    simp only [Merkle.step, engineStoreRoot, bind_eq_ok] at h
    obtain ⟨root, -, t1, hroot, hbk⟩ := h
    obtain ⟨row, b, hrow, hbody, hhct⟩ := addsRoot_of_storeRoot hroot
    obtain ⟨-, -, rfl⟩ := Server.updateBookkeeping_eq_ok.mp hbk
    exact .inr ⟨row, b, hrow, hbody, hhct⟩

/-- The insertion of a key that the tree has. -/
def History.Known (a : History H) : Op H → Prop
  | .insertKeyValue arg _ => (valueAt a.log a.epno arg.key).isSome
  | .storeRoot .. => False

section

omit [DecidableEq H] [MerkleHash H]

variable {a : History H}

/-- Once there is a root, an operation is refused if it would store one with an outdated tail. -/
theorem History.refuses_iff (hpos : 0 < a.epno) :
    a.Refuses op ↔ ¬ a.Known op ∧ Outdated a.tail (op.hostchain.map HostchainTail.seqno) := by
  cases op with
  | insertKeyValue arg now => simp [History.Refuses, History.Known, Op.hostchain]
  | storeRoot time hct bk now => simp [History.Refuses, History.Known, Op.hostchain, hpos.ne']

theorem History.step_of_refuses (hpos : 0 < a.epno) (h : a.Refuses op) :
    a.step op = .error (.merkleTreeError "hostchain tail is older than current") := by
  cases op with
  | insertKeyValue arg now => rw [step, h.1, if_neg (by simp), push, if_pos h.2]
  | storeRoot time hct bk now =>
    rw [step, if_neg hpos.ne', push, if_pos (h.resolve_left hpos.ne')]

/-- The current tail after a step: it is set when an epoch is started. -/
theorem History.tail_step {a' : History H} (h : a.step op = .ok a') :
    a.Known op ∧ a'.epno = a.epno ∧ a'.tail = a.tail ∨
    ¬ a.Known op ∧ a'.epno = a.epno + 1 ∧ a'.tail = (op.hostchain.map HostchainTail.seqno).or a.tail ∧
      ¬ Outdated a.tail (op.hostchain.map HostchainTail.seqno) := by
  have hpush : ∀ {log seqno}, a.push log seqno = .ok a' →
      a'.epno = a.epno + 1 ∧ a'.tail = seqno.or a.tail ∧ ¬ Outdated a.tail seqno := by
    intro log seqno hpush
    unfold push at hpush
    split at hpush
    · cases hpush
    · next hnew =>
      cases hpush
      exact ⟨rfl, rfl, hnew⟩
  cases op with
  | insertKeyValue arg now =>
    rw [step] at h
    split at h
    · next hknown =>
      cases h
      exact .inl ⟨hknown, rfl, rfl⟩
    · next hknown => exact .inr ⟨hknown, hpush h⟩
  | storeRoot time hct bk now =>
    rw [step] at h
    split at h
    · cases h
    · exact .inr ⟨not_false, hpush h⟩

end

/-- The latest root covers this sequence number of the host chain. -/
def RootCovers (t : Store H) (seqno : Seqno) : Prop :=
  match t.lastRoot.map RootRow.body with
  | some (.v1 b) => seqno ≤ b.hostchain.seqno
  | _ => False

instance (t : Store H) (seqno : Seqno) : Decidable (RootCovers t seqno) := by
  unfold RootCovers
  split <;> infer_instance

section

omit [DecidableEq H] [MerkleHash H]

theorem RootTail.covers_iff (h : RootTail t tail) (s : Seqno) : RootCovers t s ↔ s ≤ tail.getD 0 := by
  obtain ⟨row, b, hrow, hbody, hseqno⟩ := h
  rw [RootCovers, hrow, Option.map_some, hbody, ← hseqno]

theorem RootTail.congr (h : RootTail t tail) (hroots : t'.roots = t.roots) : RootTail t' tail := by
  obtain ⟨row, b, hrow, hbody, hseqno⟩ := h
  refine ⟨row, b, ?_, hbody, hseqno⟩
  rw [Store.lastRoot, hroots]
  exact hrow

end

theorem RootTail.step {a a' : History H} (h : RootTail t a.tail) (ht : Refines t a)
    (ht' : Refines t' a') (hstep : Merkle.step t op = .ok t') (hhist : a.step op = .ok a') :
    RootTail t' a'.tail := by
  have hlen := ht.ledger.length
  have hlen' := ht'.ledger.length
  rcases roots_of_step hstep with hroots | ⟨row, b, hrow, hbody, hhct⟩ <;>
    rcases History.tail_step hhist with ⟨-, hepno, htail⟩ | ⟨-, hepno, htail, -⟩
  · obtain ⟨row, b, hrow, hbody, hseqno⟩ := h
    refine ⟨row, b, ?_, hbody, htail ▸ hseqno⟩
    rw [Store.lastRoot, hroots]
    exact hrow
  · rw [hroots, hlen, hepno] at hlen'
    exact absurd hlen'.symm (Nat.succ_ne_self _)
  · rw [hrow, List.length_append, hlen, hepno] at hlen'
    exact absurd hlen' (Nat.succ_ne_self _)
  refine ⟨row, b, ?_, hbody, ?_⟩
  · rw [ht'.ledger.lastRoot, hrow, List.getLast?_concat]
  · rw [hhct, htail, ← ht.ledger.tail]
    cases op.hostchain <;> cases t.selectCurrentHostchainTail <;> rfl

end Root

end Foks.Merkle

namespace Foks.Server

open Lib Merkle

variable {H : Type}

/-- The builder has passed the tail of this batch to the engine. -/
def Begun (bk : Bookkeeping) (c : MerkleBatch H) : Prop :=
  c.batchno < bk.batchNo ∨ c.batchno = bk.batchNo ∧ bk.pos ≠ -1

/-- The batch takes its tail to a root: it has no leaves, or the key of its first leaf is a new
one. -/
def RaftStore.Carries [MerkleHash H] (r : RaftStore H) (c : MerkleBatch H) : Prop :=
  ∀ leaf, c.leaves.head? = some leaf → leaf.key ∉ (nilLeaf :: r.leavesBefore c.batchno).map (·.key)

/-- The current tail comes from a batch that carries its own, and no such batch has a later one. -/
structure Pipeline.Tails [MerkleHash H] (r : RaftStore H) (a : History H) (bk : Bookkeeping) : Prop where
  source : ∀ s, a.tail = some s → ∃ c ∈ r.batches, Begun bk c ∧ r.Carries c ∧
    c.hostchain.map HostchainTail.seqno = some s
  covers : ∀ c ∈ r.batches, Begun bk c → r.Carries c → ∀ hct, c.hostchain = some hct →
    ∃ s, a.tail = some s ∧ hct.seqno ≤ s


/-! ## Which tails the tree gets -/

namespace Pipeline

variable [DecidableEq H] [MerkleHash H]

variable {p : Pipeline H} {a : History H} {bk bk' : Bookkeeping} {op : Op H} {batch : MerkleBatch H}

/-- The keys of the tree. -/
theorem Built.known_iff (h : Built p a bk) (k : MerkleTreeRFOutput) : (valueAt a.log a.epno k).isSome ↔
      k ∈ (nilLeaf :: p.raft.applied bk).map (·.key) := by
  have hkeys : a.log.map (·.key) = (nilLeaf :: p.raft.applied bk).map (·.key) := by
    have hfst := congrArg (List.map Prod.fst) h.contents
    simpa [pairs, Function.comp_def] using hfst
  rw [isSome_valueAt h.refines.logged, hkeys]

section Tails

variable {r : RaftStore H} {a' : History H}

section

omit [DecidableEq H]

/-- A step that does not set the current tail: it begins no batch that carries one. -/
theorem Tails.keep (h : Tails r a bk) (htail : a'.tail = a.tail)
    (hmono : ∀ c ∈ r.batches, Begun bk c → Begun bk' c)
    (hbegun : ∀ c ∈ r.batches, Begun bk' c → r.Carries c → c.hostchain.isSome → Begun bk c) :
    Tails r a' bk' := by
  constructor
  · intro s hs
    obtain ⟨c, hc, hb, hrest⟩ := h.source s (htail ▸ hs)
    exact ⟨c, hc, hmono c hc hb, hrest⟩
  · intro c hc hb hcarries hct hhct
    have hold : Begun bk c := hbegun c hc hb hcarries (by rw [hhct]; rfl)
    rw [htail]
    exact h.covers c hc hold hcarries hct hhct

/-- A step that sets the current tail. -/
theorem Tails.carry (h : Tails r a bk) {hct : HostchainTail H}
    (hmem : batch ∈ r.batches) (hbegun : ∀ c ∈ r.batches, Begun bk' c ↔ Begun bk c ∨ c = batch)
    (hcarries : r.Carries batch) (hhct : batch.hostchain = some hct)
    (htail : a'.tail = some hct.seqno) (hcurrent : ¬ Outdated a.tail (some hct.seqno)) :
    Tails r a' bk' := by
  constructor
  · intro s hs
    have hs : hct.seqno = s := Option.mem_unique htail hs
    refine ⟨batch, hmem, (hbegun batch hmem).mpr (.inr rfl), hcarries, ?_⟩
    rw [hhct, Option.map_some, hs]
  · intro c hc hb hcc hct' hhct'
    refine ⟨hct.seqno, htail, ?_⟩
    rcases (hbegun c hc).mp hb with hold | rfl
    · obtain ⟨s, hs, hle⟩ := h.covers c hc hold hcc hct' hhct'
      rw [hs] at hcurrent
      exact hle.trans (not_lt.mp hcurrent)
    · rw [Option.mem_unique hhct hhct']

end

end Tails

open RaftStore

/-- Which batches are begun after an operation. -/
theorem Built.begun_takes (h : Built p a bk) (htakes : Takes p.raft bk op bk')
    (hread : p.raft.readBatch bk.batchNo = some batch) (c : MerkleBatch H) (hc : c ∈ p.raft.batches) :
    Begun bk' c ↔ Begun bk c ∨ bk.pos = -1 ∧ c = batch := by
  have hno : bk'.batchNo = bk.batchNo ∧ bk'.pos ≠ -1 := by
    cases htakes with
    | storeRoot => exact ⟨rfl, (by decide : (0 : ℤ) ≠ -1)⟩
    | insert _ _ hleaf =>
      have := (lt_of_leafAt hleaf).1
      refine ⟨rfl, ?_⟩
      show leafPos bk + 1 ≠ -1
      omega
  have hbatch : c.batchno = bk.batchNo ↔ c = batch := by
    have hunique : Unique (·.batchno) p.raft.batches := by
      rw [Lib.Unique, h.numbered.batchnos]
      exact List.nodup_range'
    constructor
    · intro heq
      rw [readBatch, ← heq, hunique.find?_eq_some hc] at hread
      exact Option.some.inj hread
    · rintro rfl
      simpa using List.find?_some hread
  rw [Begun, Begun, hno.1]
  tauto

/-- The tail that an operation passes to the engine, and whether the engine stores a root then. -/
theorem Built.hostchain_takes (h : Built p a bk) (htakes : Takes p.raft bk op bk') :
    ∃ batch, p.raft.readBatch bk.batchNo = some batch ∧
      op.hostchain = (if bk.pos = -1 then batch.hostchain else none) ∧
      (bk.pos = -1 → (a.Known op ↔ ¬ p.raft.Carries batch)) := by
  cases htakes with
  | storeRoot _ hread hpos hleaves hhct =>
    refine ⟨_, hread, ?_, fun _ => iff_of_false not_false (not_not.mpr ?_)⟩
    · rw [if_pos hpos, hhct]
      rfl
    intro leaf hleaf
    rw [hleaves] at hleaf
    cases hleaf
  | @insert batch leaf _ hread hleaf =>
    refine ⟨batch, hread, rfl, fun hpos => ?_⟩
    have hhead : batch.leaves.head? = some leaf := by
      rw [leafPos, if_pos hpos] at hleaf
      rw [List.head?_eq_getElem?]
      exact hleaf
    have hno : batch.batchno = bk.batchNo := by simpa using List.find?_some hread
    have happ : p.raft.applied bk = p.raft.leavesBefore batch.batchno := by
      rw [applied, hpos, hno]
      exact List.append_nil _
    show (valueAt a.log a.epno leaf.key).isSome ↔ _
    rw [h.known_iff, happ, RaftStore.Carries]
    simp only [hhead, Option.some.injEq, forall_eq', not_not]

/-- Every transaction of the builder keeps the current tail. -/
theorem Tails.move {x y : Stage H} (hbuilt : Built { p with tree := x.tree } x.hist x.bk)
    (h : Tails p.raft x.hist x.bk) (hmove : Moves p.raft x y) : Tails p.raft y.hist y.bk := by
  cases hmove with
  | @advance batch tree hread hend htree =>
    have hbegun : ∀ c : MerkleBatch H, Begun x.bk.advance c ↔ Begun x.bk c := by
      unfold Begun Bookkeeping.advance
      dsimp only
      omega
    exact h.keep rfl (fun c _ => (hbegun c).mpr) fun c _ hb _ _ => (hbegun c).mp hb
  | @op op tree hist bk htakes htree hhist =>
    obtain ⟨batch, hread, hhct, hcarries⟩ := hbuilt.hostchain_takes htakes
    have hmem : batch ∈ p.raft.batches := (hbuilt.numbered.readBatch_lt hread).1
    have hbegun := hbuilt.begun_takes htakes hread
    have hmono : ∀ c ∈ p.raft.batches, Begun x.bk c → Begun bk c :=
      fun c hc hb => (hbegun c hc).mpr (.inl hb)
    by_cases hpos : x.bk.pos = -1
    · rw [if_pos hpos] at hhct
      rcases History.tail_step hhist with ⟨hknown, -, htail⟩ | ⟨hnew, -, htail, hcurrent⟩
      · -- the tail is dropped
        refine h.keep htail hmono fun c hc hb hcc _ => ?_
        rcases (hbegun c hc).mp hb with hold | ⟨-, rfl⟩
        · exact hold
        · exact absurd hcc ((hcarries hpos).mp hknown)
      have hcc : p.raft.Carries batch := not_not.mp fun hcc => hnew ((hcarries hpos).mpr hcc)
      rw [hhct] at htail hcurrent
      cases hbatch : batch.hostchain with
      | none =>
        rw [hbatch] at htail
        refine h.keep htail hmono fun c hc hb _ hsome => ?_
        rcases (hbegun c hc).mp hb with hold | ⟨-, rfl⟩
        · exact hold
        · rw [hbatch] at hsome
          cases hsome
      | some hct =>
        rw [hbatch] at htail hcurrent
        refine h.carry hmem (fun c hc => ?_) hcc hbatch htail hcurrent
        rw [hbegun c hc, and_iff_right hpos]
    · -- a later leaf, which comes without a tail
      rw [if_neg hpos] at hhct
      have htail : hist.tail = x.hist.tail := by
        rcases History.tail_step hhist with ⟨-, -, htail⟩ | ⟨-, -, htail, -⟩
        · exact htail
        · rw [htail, hhct]
          rfl
      refine h.keep htail hmono fun c hc hb _ _ => ?_
      exact ((hbegun c hc).mp hb).resolve_right fun hstart => hpos hstart.1

/-- A new batch has not been begun, and comes after the others. -/
theorem Tails.commit {p' : Pipeline H} (hbuilt : Built p a bk) (h : Tails p.raft a bk)
    (hp : Kept p p' ∨ ∃ b, Appended b p p') : Tails p'.raft a bk := by
  rcases hp with hkept | ⟨b, happ⟩
  · have hcarries : ∀ c, p'.raft.Carries c ↔ p.raft.Carries c := by
      intro c
      rw [RaftStore.Carries, RaftStore.Carries, leavesBefore, leavesBefore, hkept.batches]
    obtain ⟨hsource, hcovers⟩ := h
    constructor
    · simpa only [hkept.batches, hcarries] using hsource
    · simpa only [hkept.batches, hcarries] using hcovers
  have hold : ∀ c ∈ p'.raft.batches, Begun bk c → c ∈ p.raft.batches := by
    intro c hc hb
    rw [happ.batches, List.mem_append, List.mem_singleton] at hc
    rcases hc with hc | rfl
    · exact hc
    have hrange := hbuilt.inRange
    have hno := happ.batchno
    rcases hb with hlt | ⟨heq, hpos⟩
    · have hlast := hrange.last
      omega
    · exact absurd (hrange.fresh (heq.symm.trans hno)) hpos
  have hcarries : ∀ c ∈ p.raft.batches, p'.raft.Carries c ↔ p.raft.Carries c := by
    intro c hc
    have hno : c.batchno ∈ p.raft.batches.map (·.batchno) := List.mem_map_of_mem hc
    rw [hbuilt.numbered.batchnos, List.mem_range'_1] at hno
    have hle : c.batchno ≤ b.batchno := by
      rw [happ.batchno]
      omega
    rw [RaftStore.Carries, RaftStore.Carries, leavesBefore_append happ.batches hle]
  constructor
  · intro s hs
    obtain ⟨c, hc, hb, hcc, hseqno⟩ := h.source s hs
    refine ⟨c, ?_, hb, (hcarries c hc).mpr hcc, hseqno⟩
    rw [happ.batches]
    exact List.mem_append_left _ hc
  · intro c hc hb hcc
    have hc := hold c hc hb
    exact h.covers c hc hb ((hcarries c hc).mp hcc)

/-- The current tail, in the history and in the latest root, after every run. -/
theorem run_tails (hs : SoundHash H) {now : Time} {steps : List (Step H)} (hrun : run now steps = .ok p) :
    ∃ a bk, Built p a bk ∧ Tails p.raft a bk ∧ RootTail p.tree a.tail := by
  refine run_built hs (I := fun r x => Tails r x.hist x.bk ∧ RootTail x.tree x.hist.tail) ?_ ?_ ?_ ?_ hrun
  · rintro p x y hbuilt ⟨htails, hroot⟩ hmove
    refine ⟨htails.move hbuilt hmove, ?_⟩
    have hbuilt' := hbuilt.move hs hmove
    cases hmove with
    | advance hread hend htree =>
      obtain ⟨row, -, rfl⟩ := updateBookkeeping_eq_ok.mp htree
      exact hroot.congr rfl
    | op htakes htree hhist => exact hroot.step hbuilt.refines hbuilt'.refines htree hhist
  · rintro p p' a bk hbuilt ⟨htails, hroot⟩ hp
    refine ⟨htails.commit hbuilt hp, hroot.congr ?_⟩
    rcases hp with hkept | ⟨b, happ⟩
    · exact hkept.tree.roots
    · exact happ.tree.roots
  · rintro r x others ⟨htails, hroot⟩
    exact ⟨htails, hroot.congr rfl⟩
  intro p hp
  refine ⟨_, _, start_built hp, ⟨nofun, ?_⟩, ?_⟩
  · obtain ⟨tree, -, hp⟩ := bind_eq_ok.mp hp
    cases hp
    exact fun c hc => nomatch hc
  obtain ⟨tree, htree, hp⟩ := bind_eq_ok.mp hp
  cases hp
  cases htree
  exact ⟨_, _, rfl, rfl, rfl⟩

/-- **Host chain tails in the latest root.** In every run, with any batches and any fates of the
transactions: the latest root covers the tails of all batches that the builder has passed exactly
when each of them is at most the tail of a batch that carries its own, which is a batch without leaves
or with a new key in its first leaf. -/
theorem tails_reach_root_iff (hs : SoundHash H) {now : Time} {steps : List (Step H)}
    {p : Pipeline H} {bk : Bookkeeping} (hrun : run now steps = .ok p)
    (hbk : p.tree.selectBookkeeping = some bk) :
    (∀ b ∈ p.raft.batches, b.batchno < bk.batchNo → ∀ hct, b.hostchain = some hct →
      RootCovers p.tree hct.seqno) ↔
    ∀ b ∈ p.raft.batches, b.batchno < bk.batchNo → ∀ hct, b.hostchain = some hct → 0 < hct.seqno →
      ∃ c ∈ p.raft.batches, Begun bk c ∧ p.raft.Carries c ∧
        ∃ hct', c.hostchain = some hct' ∧ hct.seqno ≤ hct'.seqno := by
  obtain ⟨a, bk', hbuilt, htails, hroot⟩ := run_tails hs hrun
  obtain rfl : bk' = bk := Option.mem_unique hbuilt.bookkeeping hbk
  refine forall₄_congr fun b hb hlt hct => forall_congr' fun hhct => ?_
  rw [hroot.covers_iff]
  constructor
  · intro hle hpos
    rcases htail : a.tail with _ | s
    · rw [htail] at hle
      exact absurd hle (not_le.mpr hpos)
    obtain ⟨c, hc, hb, hcc, hhct'⟩ := htails.source s htail
    obtain ⟨hct', hct'eq, rfl⟩ := Option.map_eq_some_iff.mp hhct'
    rw [htail] at hle
    exact ⟨c, hc, hb, hcc, hct', hct'eq, hle⟩
  · intro h
    rcases Nat.eq_zero_or_pos hct.seqno with hzero | hpos
    · rw [hzero]
      exact Nat.zero_le _
    obtain ⟨c, hc, hb, hcc, hct', hct'eq, hle⟩ := h hpos
    obtain ⟨s, htail, hle'⟩ := htails.covers c hc hb hcc hct' hct'eq
    rw [htail]
    exact hle.trans hle'

/-- A tail of the host chain comes with a leaf that is batched for the second time. -/
def repeatedLeaf : List (Step SymHash) :=
  [.commitBatch (oneLeaf twoKeys.2) 5 {},
    .commitBatch { oneLeaf twoKeys.2 with hostchain := some ⟨1, .zero⟩ } 6 {},
    .doOneLeaf 7 {}, .doOneLeaf 8 {}, .doOneLeaf 9 {}, .doOneLeaf 10 {}]

theorem repeatedLeaf_drops_tail :
    ∃ p, run 1 repeatedLeaf = .ok p ∧ p.tree.selectBookkeeping = some ⟨3, -1⟩ ∧
      p.raft.batches.map (·.hostchain) = [none, some ⟨1, .zero⟩] ∧ ¬ RootCovers p.tree 1 := by
  have hrun : (run 1 repeatedLeaf).map (fun p => (p.tree.selectBookkeeping,
      p.raft.batches.map (·.hostchain), decide (RootCovers p.tree 1)))
      = .ok (some ⟨3, -1⟩, [none, some ⟨1, .zero⟩], false) := by decide +kernel
  obtain ⟨p, hp, hres⟩ := map_eq_ok.mp hrun
  simp only [Prod.mk.injEq, decide_eq_false_iff_not] at hres
  exact ⟨p, hp, hres⟩

/-- The same tail with a new leaf. -/
def newLeaf : List (Step SymHash) :=
  [.commitBatch { oneLeaf twoKeys.2 with hostchain := some ⟨1, .zero⟩ } 6 {}, .doOneLeaf 7 {}, .doOneLeaf 8 {}]

theorem tails_reach_root_iff_newLeaf :
    ∃ p, run 1 newLeaf = .ok p ∧ ∀ b ∈ p.raft.batches, b.batchno < 2 →
      ∀ hct, b.hostchain = some hct → RootCovers p.tree hct.seqno := by
  have hrun : (run 1 newLeaf).map (fun p => (p.tree.selectBookkeeping, p.raft.batches))
      = .ok (some ⟨2, -1⟩, [⟨1, 6, [⟨twoKeys.2, .atom 1⟩], some ⟨1, .zero⟩⟩]) := by decide +kernel
  obtain ⟨p, hp, hres⟩ := map_eq_ok.mp hrun
  obtain ⟨hbk, hbatches⟩ := Prod.mk.inj hres
  refine ⟨p, hp, (tails_reach_root_iff soundHash_symHash hp hbk).mpr ?_⟩
  intro b hb hlt hct hhct _
  refine ⟨b, hb, .inl hlt, ?_, hct, hhct, le_rfl⟩
  rw [hbatches, List.mem_singleton] at hb
  subst hb
  rintro leaf ⟨⟩
  rw [leavesBefore, hbatches]
  decide

/-! ## The contents of the tree, and when the builder goes on -/

/-- The batch that the builder stands at would take a tail to the tree that is older than that of an
earlier batch. -/
def Blocked (r : RaftStore H) (bk : Bookkeeping) (batch : MerkleBatch H) : Prop :=
  bk.pos = -1 ∧ r.Carries batch ∧ ∃ hct, batch.hostchain = some hct ∧ ∃ c ∈ r.batches, Begun bk c ∧
    r.Carries c ∧
      ∃ hct', c.hostchain = some hct' ∧ hct.seqno < hct'.seqno

/-- The key of the leaf that comes next is stored by another host of the database. -/
def Taken (t : Store H) (bk : Bookkeeping) (batch : MerkleBatch H) : Prop :=
  ∃ leaf, leafAt batch.leaves (leafPos bk) = some leaf ∧ leaf.key ∈ t.others.map (·.leaf.key)

/-- The engine can store the leaf that comes next, if there is one, unless its key is taken. -/
theorem Built.clear_iff (h : Built p a bk) (hs : SoundHash H) (hread : p.raft.readBatch bk.batchNo = some batch)
    (htakes : Takes p.raft bk op bk') : a.Clear p.tree op ↔ ¬ Taken p.tree bk batch := by
  cases htakes with
  | storeRoot _ hread' _ hleaves _ =>
    obtain rfl := Option.mem_unique hread' hread
    refine iff_of_true trivial ?_
    rintro ⟨leaf, hleaf, -⟩
    have hlt := lt_of_leafAt hleaf
    rw [hleaves] at hlt
    exact not_lt.mpr hlt.1 hlt.2
  | @insert batch' leaf now hread' hleaf =>
    obtain rfl : batch' = batch := Option.mem_unique hread' hread
    have htaken : Taken p.tree bk batch' ↔ leaf.key ∈ p.tree.others.map (·.leaf.key) := by
      simp [Taken, hleaf]
    rw [htaken]
    constructor
    · intro hclear hmem
      obtain ⟨row, hrow, hkey⟩ := List.mem_map.mp hmem
      have hnone : valueAt a.log a.epno leaf.key = none := by
        rw [← Option.not_isSome_iff_eq_none, isSome_valueAt h.refines.logged, ← hkey]
        exact (h.apart row hrow).2
      exact (hclear hnone).2 hmem
    · intro hkey _
      refine ⟨fun hmem => hkey ?_, hkey⟩
      -- a row with the hash of the leaf has its key
      obtain ⟨row, hrow, hhash⟩ := List.mem_map.mp hmem
      have hleaf : row.leaf = leaf := MerkleLeaf.hash_inj hs ((h.apart row hrow).1.symm.trans hhash)
      exact List.mem_map.mpr ⟨row, hrow, congrArg MerkleLeaf.key hleaf⟩

omit [DecidableEq H] in
theorem Tails.outdated_iff {r : RaftStore H} (h : Tails r a bk) (s : Seqno) : Outdated a.tail (some s) ↔
      ∃ c ∈ r.batches, Begun bk c ∧ r.Carries c ∧ ∃ hct', c.hostchain = some hct' ∧ s < hct'.seqno := by
  constructor
  · intro hold
    rcases htail : a.tail with _ | t
    · rw [htail] at hold
      exact hold.elim
    rw [htail] at hold
    obtain ⟨c, hc, hb, hcc, hseqno⟩ := h.source t htail
    obtain ⟨hct', hhct', rfl⟩ := Option.map_eq_some_iff.mp hseqno
    exact ⟨c, hc, hb, hcc, hct', hhct', hold⟩
  · rintro ⟨c, hc, hb, hcc, hct', hhct', hlt⟩
    obtain ⟨t, htail, hle⟩ := h.covers c hc hb hcc hct' hhct'
    rw [htail]
    exact hlt.trans_le hle

omit [DecidableEq H] [MerkleHash H] in
/-- A transaction on the tree that is not cut off. -/
theorem onTree_done (f : Store H → Except CoreError (Store H)) (p : Pipeline H) :
    onTree (transact .done cutOff f) p = match f p.tree with
      | .error e => (.error e, p)
      | .ok t => (.ok (), { p with tree := t }) := by
  rw [onTree, Action.within, transact_done]
  cases f p.tree <;> rfl

/-- A batch at its end is left for the next one. -/
theorem Built.nextLeaf_advance (h : Built p a bk) (hlen : batch.leaves.length ≤ bk.pos) (now : Time) :
    (Pipeline.nextLeaf batch bk now .done p).1 = .ok () := by
  obtain ⟨row, hrow⟩ := h.refines.ledger.updateBookkeeping h.epno bk.advance
  rw [Pipeline.nextLeaf, if_pos hlen, onTree_done, hrow]

/-- The builder cannot go on with the batch that it stands at. -/
def Stuck (p : Pipeline H) (bk : Bookkeeping) (batch : MerkleBatch H) (e : CoreError) : Prop :=
  Taken p.tree bk batch ∨
    Blocked p.raft bk batch ∧ e = .merkleTreeError "hostchain tail is older than current"

section Blocked

variable (h : Built p a bk) (htails : Tails p.raft a bk) (hread : p.raft.readBatch bk.batchNo = some batch)

include h htails hread

/-- The engine refuses the operation that comes next exactly when the batch is blocked. -/
theorem Built.refuses_iff (htakes : Takes p.raft bk op bk') : a.Refuses op ↔ Blocked p.raft bk batch := by
  obtain ⟨batch', hread', hhct, hcarries⟩ := h.hostchain_takes htakes
  obtain rfl : batch' = batch := Option.mem_unique hread' hread
  rw [History.refuses_iff h.epno, hhct, Blocked]
  by_cases hpos : bk.pos = -1
  · rw [if_pos hpos, hcarries hpos, not_not, and_iff_right hpos]
    refine and_congr_right fun _ => ?_
    cases batch'.hostchain with
    | none => exact iff_of_false (fun hold => by cases a.tail <;> exact hold) (by simp)
    | some hct =>
      rw [Option.map_some, htails.outdated_iff]
      simp
  · rw [if_neg hpos]
    exact iff_of_false (fun hold => by cases a.tail <;> exact hold.2) fun hold => hpos hold.1

/-- The engine answers the operation that comes next. -/
theorem Built.step_takes (hs : SoundHash H) (htakes : Takes p.raft bk op bk') :
    (∃ e, Stuck p bk batch e ∧ Merkle.step p.tree op = .error e) ∨
    ((∀ e, ¬ Stuck p bk batch e) ∧ ∃ tree, Merkle.step p.tree op = .ok tree) := by
  by_cases htaken : Taken p.tree bk batch
  · cases hstep : Merkle.step p.tree op with
    | ok tree => exact absurd htaken ((h.clear_iff hs hread htakes).mp (h.refines.clear_of_step h.epno hstep))
    | error e => exact .inl ⟨e, .inl htaken, rfl⟩
  have hnext := h.refines.step hs op ((h.clear_iff hs hread htakes).mpr htaken)
  by_cases hrefuses : a.Refuses op
  · rw [History.step_of_refuses h.epno hrefuses] at hnext
    refine .inl ⟨_, .inr ⟨(h.refuses_iff htails hread htakes).mp hrefuses, rfl⟩, ?_⟩
    cases hstep : Merkle.step p.tree op with
    | ok tree =>
      rw [hstep] at hnext
      exact hnext.elim
    | error e =>
      rw [hstep] at hnext
      exact congrArg _ hnext
  · refine .inr ⟨?_, hnext.exists_ok_iff.mpr (History.exists_step_iff.mpr hrefuses)⟩
    rintro e (hstuck | ⟨hblocked, -⟩)
    · exact htaken hstuck
    · exact hrefuses ((h.refuses_iff htails hread htakes).mpr hblocked)

/-- A call that finds a batch and is not cut off fails exactly when the builder is stuck, and then it
changes nothing. -/
theorem Built.doOneLeaf_done (hs : SoundHash H) (now : Time) :
    (∃ e, Stuck p bk batch e ∧ Pipeline.doOneLeaf now {} p = (.error e, p)) ∨
    ((∀ e, ¬ Stuck p bk batch e) ∧ (Pipeline.doOneLeaf now {} p).1 = .ok ()) := by
  rw [doOneLeaf_apply h.bookkeeping hread]
  by_cases hhost : bk.pos = -1 ∧ batch.leaves = []
  · -- the tail is stored alone, and then the builder goes on to the next batch
    obtain ⟨hpos, hleaves⟩ := hhost
    obtain ⟨hct, hhct⟩ := h.exists_hostchain hread hleaves
    have htakes : Takes p.raft bk _ _ := .storeRoot now hread hpos hleaves hhct
    rw [storeHostchain_of_tail hhct hpos hleaves, Action.bind_apply, Action.bind_apply, onTree_done]
    rcases h.step_takes htails hread hs htakes with ⟨e, hstuck, hstep⟩ | ⟨hfree, tree, hstep⟩
    · refine .inl ⟨e, hstuck, ?_⟩
      rw [show engineStoreRoot p.tree batch.time now hct { bk with pos := 0 } = _ from hstep]
    refine .inr ⟨hfree, ?_⟩
    obtain ⟨a', hmove⟩ := h.op hs htakes hstep
    have hbuilt : Built { p with tree := tree } a' { bk with pos := 0 } := h.move hs hmove
    rw [show engineStoreRoot p.tree batch.time now hct { bk with pos := 0 } = _ from hstep]
    exact hbuilt.nextLeaf_advance (by rw [hleaves]; exact le_rfl) now
  have hne : bk.pos = -1 → batch.leaves ≠ [] := fun hpos hleaves => hhost ⟨hpos, hleaves⟩
  rw [storeHostchain_of_leaves hne]
  show (∃ e, _ ∧ Pipeline.nextLeaf batch bk now .done p = _) ∨
    (_ ∧ (Pipeline.nextLeaf batch bk now .done p).1 = _)
  by_cases hlen : batch.leaves.length ≤ bk.pos
  · -- all leaves are applied, so that nothing of the batch can stop the builder
    refine .inr ⟨?_, h.nextLeaf_advance hlen now⟩
    have hpos : bk.pos ≠ -1 := by omega
    rintro e (⟨leaf, hleaf, -⟩ | ⟨hblocked, -⟩)
    · have hlt := (lt_of_leafAt hleaf).2
      rw [leafPos, if_neg hpos] at hlt
      exact not_lt.mpr hlen hlt
    · exact hpos hblocked.1
  obtain ⟨leaf, hleaf⟩ := leafAt_of_lt h.inRange.lower (not_le.mp hlen) hne
  have htakes : Takes p.raft bk _ _ := .insert now hread hleaf
  rw [Pipeline.nextLeaf, if_neg hlen]
  simp only [hleaf, onTree_done]
  rcases h.step_takes htails hread hs htakes with ⟨e, hstuck, hstep⟩ | ⟨hfree, tree, hstep⟩
  · refine .inl ⟨e, hstuck, ?_⟩
    rw [show insertKeyValueTryTx p.tree (leafArg batch bk leaf) now = _ from hstep]
  · refine .inr ⟨hfree, ?_⟩
    rw [show insertKeyValueTryTx p.tree (leafArg batch bk leaf) now = _ from hstep]

end Blocked

/-- The latest tree has the leaves that are applied, with their first values. -/
theorem Built.lookup (h : Built p a bk) (k : MerkleTreeRFOutput) :
    ∃ res, lookupPathWithLock p.tree k none = .ok res ∧ res.epno = a.epno ∧
      ∀ v, LookupPathSingle.Finds ⟨res.path, res.leaf⟩ v ↔
        (pairs (nilLeaf :: p.raft.applied bk)).lookup k = some v := by
  obtain ⟨body, ph, t, path, leaf, hlookup, -, -, hshows, -, htrace⟩ :=
    h.refines.lookup_latest h.epno k
  refine ⟨_, hlookup, rfl, fun v => ?_⟩
  rw [htrace.finds_iff hshows.wf, hshows.mem_iff, valueAt_of_logged h.refines.logged le_rfl,
    find?_log_eq_lookup, h.contents]

/-- **Every leaf is applied once.** In every run, with any batches and any fates of the transactions:
the latest tree has the leaves of the batches before the one that the builder stands at and those of
this batch up to the position, each key with its first value, over the leaf of zeroes; a call takes
the builder forward, or it fails and changes nothing; and a call that finds a batch and is not cut off
fails exactly when another host has stored the key of the next leaf, or the batch brings a tail of the
host chain that is older than an earlier one. -/
theorem leaves_applied_once (hs : SoundHash H) {now : Time} {steps : List (Step H)}
    {p : Pipeline H} (hrun : run now steps = .ok p) :
    ∃ bk, p.tree.selectBookkeeping = some bk ∧
    (∀ k, ∃ res, lookupPathWithLock p.tree k none = .ok res ∧
      ∀ v, LookupPathSingle.Finds ⟨res.path, res.leaf⟩ v ↔
        (pairs (nilLeaf :: p.raft.applied bk)).lookup k = some v) ∧
    (∀ now' fates, let call := doOneLeaf now' fates p
      (call.1 ≠ .ok () ∧ call.2 = p) ∨
        ∃ bk', call.2.tree.selectBookkeeping = some bk' ∧ bk.Before bk') ∧
    ∀ now' batch, p.raft.readBatch bk.batchNo = some batch →
      (∃ e, Stuck p bk batch e ∧ doOneLeaf now' {} p = (.error e, p)) ∨
      ((∀ e, ¬ Stuck p bk batch e) ∧ (doOneLeaf now' {} p).1 = .ok ()) := by
  obtain ⟨a, bk, hbuilt, htails, -⟩ := run_tails hs hrun
  refine ⟨bk, hbuilt.bookkeeping, fun k => ?_, fun now' fates => ?_, fun now' batch hread => ?_⟩
  · obtain ⟨res, hres, -, hfinds⟩ := hbuilt.lookup k
    exact ⟨res, hres, hfinds⟩
  · rcases hbuilt.doOneLeaf hs now' fates with ⟨hsame, hfail⟩ | ⟨y, hstate, hmoves⟩
    · exact .inl ⟨hfail, hsame⟩
    obtain ⟨hbuilt', -, hbefore⟩ :=
      Built.moves hs (I := fun _ => True) (fun _ _ _ _ _ => trivial) hbuilt trivial hmoves
    exact .inr ⟨y.bk, by rw [hstate]; exact hbuilt'.bookkeeping, hbefore⟩
  · exact hbuilt.doOneLeaf_done htails hread hs now'

/-- Two tails in the wrong order. -/
def olderTail : List (Step SymHash) :=
  [.commitBatch ⟨0, 0, [], some ⟨2, .zero⟩⟩ 5 {}, .doOneLeaf 6 {},
    .commitBatch { oneLeaf twoKeys.2 with hostchain := some ⟨1, .zero⟩ } 7 {}]

/-- The second of the batches is found again and again, and the tree has a leaf that no batch has. -/
theorem olderTail_blocks :
    ∃ p, run 1 olderTail = .ok p ∧ p.tree.selectBookkeeping = some ⟨2, -1⟩ ∧
      (p.raft.readBatch 2).isSome ∧ p.raft.applied ⟨2, -1⟩ = [] ∧
      (lookupPathWithLock p.tree twoKeys.1 none).map (·.leaf.isSome) = .ok true ∧
      doOneLeaf 8 {} p
        = (.error (.merkleTreeError "hostchain tail is older than current"), p) := by
  have hrun : (run 1 olderTail).map (fun p => (p.tree.selectBookkeeping, (p.raft.readBatch 2).isSome,
      p.raft.applied ⟨2, -1⟩,
      decide ((lookupPathWithLock p.tree twoKeys.1 none).map (·.leaf.isSome) = .ok true),
      decide (doOneLeaf 8 {} p = (.error (.merkleTreeError "hostchain tail is older than current"), p))))
      = .ok (some ⟨2, -1⟩, true, [], true, true) := by decide +kernel
  obtain ⟨p, hp, hres⟩ := map_eq_ok.mp hrun
  simp only [Prod.mk.injEq, decide_eq_true_eq] at hres
  exact ⟨p, hp, hres⟩

/-- A leaf that is inserted without a report is not inserted again. -/
theorem leaves_applied_once_unsure :
    SoundHash SymHash ∧ ∃ p, run 1 unsureSteps = .ok p ∧
      p.tree.selectBookkeeping = some ⟨1, 1⟩ ∧
      ∃ res, lookupPathWithLock p.tree twoKeys.2 none = .ok res ∧
        LookupPathSingle.Finds ⟨res.path, res.leaf⟩ (SymHash.atom 1) := by
  have hrun : (run 1 unsureSteps).map (fun p => (p.tree.selectBookkeeping, p.raft.applied ⟨1, 1⟩))
      = .ok (some ⟨1, 1⟩, [⟨twoKeys.2, .atom 1⟩]) := by decide +kernel
  obtain ⟨p, hp, hres⟩ := map_eq_ok.mp hrun
  obtain ⟨hbk, happ⟩ := Prod.mk.inj hres
  obtain ⟨bk, hbk', hlookup, -⟩ := leaves_applied_once soundHash_symHash hp
  obtain rfl : bk = ⟨1, 1⟩ := Option.mem_unique hbk' hbk
  obtain ⟨res, hres, hfinds⟩ := hlookup twoKeys.2
  refine ⟨soundHash_symHash, p, hp, hbk, res, hres, (hfinds _).mpr ?_⟩
  rw [happ]
  decide

end Pipeline

end Foks.Server
