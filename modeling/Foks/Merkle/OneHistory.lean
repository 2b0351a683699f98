import Foks.Merkle.Process

/-!
# A client accepts one history

A client that gets all hashes it asks for never accepts two roots of one epoch, in any of its sessions:
the hash of a root that was accepted stays in the database, and a root of that epoch which is checked
later has this hash.
-/

namespace Foks.Merkle

open Lib MerkleHash List Option

variable {H : Type} [DecidableEq H] [MerkleHash H]

/-- The call runs to its end. -/
def Event.Completes : Event H → Prop
  | .stop .. => False
  | _ => True

/-- The roots that were accepted, and those that the sessions have begun with, are known. -/
structure OneHistory (p : Process H) : Prop where
  coherent : p.disk.1.Coherent
  bounded : p.disk.1.Bounded
  accepted : ∀ r ∈ p.accepted, ∃ o : OpenedRoot H, r = o.r ∧ p.disk.1.hashes.lookup o.epno = some o.h
  sessions : ∀ live ∈ p.sessions, ∀ o ∈ live.session.rootAtStart, p.disk.1.hashes.lookup o.epno = some o.h

theorem oneHistory_empty : OneHistory ({} : Process H) where
  coherent := LocalDb.coherent_empty
  bounded e h hrow := absurd hrow (by rw [Finmap.lookup_empty]; exact nofun)
  accepted := forall_mem_nil _
  sessions := forall_mem_nil _

omit [DecidableEq H] in
theorem OpenedRoot.eq_of_r_eq {o o' : OpenedRoot H} (h : o.r = o'.r) : o = o' :=
  ok_unique (openRoot_eq_ok.mpr rfl) (openRoot_eq_ok.mpr h)

variable {server : Server H} {p p' : Process H}

namespace OneHistory

theorem accepted_hash (h : OneHistory p) {o : OpenedRoot H} (ho : o.r ∈ p.accepted) :
    p.disk.1.hashes.lookup o.epno = some o.h := by
  obtain ⟨o', heq, hrow⟩ := h.accepted o.r ho
  rwa [OpenedRoot.eq_of_r_eq heq]

section

variable (hinj : Function.Injective (hashRoot : MerkleRoot H → H)) (hfull : server.Full) (h : OneHistory p)

include hinj hfull h

theorem step {e : Event H} (hstep : p.Step server e p') (hsmall : e.Small) (hcompletes : e.Completes) :
    OneHistory p' ∧ ∀ e h, p.disk.1.hashes.lookup e = some h → p'.disk.1.hashes.lookup e = some h := by
  cases hstep with
  | init hruns =>
    obtain ⟨hsame, s, rfl, hstart⟩ := h.coherent.init hruns.of_recorded
    rw [hsame]
    refine ⟨⟨?_, ?_, ?_, fun live hlive => ?_⟩, fun _ _ hrow => hrow⟩
    · exact hsame ▸ h.coherent
    · exact hsame ▸ h.bounded
    · exact hsame ▸ h.accepted
    rw [hsame]
    rcases mem_append.mp hlive with hlive | hlive
    · exact h.sessions live hlive
    obtain rfl := mem_singleton.mp hlive
    rcases hstart with ⟨-, hnone⟩ | ⟨o, -, hhash, hroot⟩
    · rw [hnone]
      exact nofun
    rw [hroot]
    rintro _ ⟨⟩
    exact hhash
  | @initWithRoot r s hr hs =>
    refine ⟨⟨h.coherent, h.bounded, h.accepted, fun live hlive => ?_⟩, fun _ _ hrow => hrow⟩
    rcases mem_append.mp hlive with hlive | hlive
    · exact h.sessions live hlive
    obtain rfl := mem_singleton.mp hlive
    obtain ⟨o, hopen, hpure⟩ := bind_eq_ok.mp hs
    cases hpure
    rintro _ ⟨⟩
    exact h.accepted_hash (openRoot_eq_ok.mp hopen ▸ hr)
  | @check i live c res disk hlive hruns =>
    have hcall := hruns.of_recorded.meets (fun _ => rfl) (meets_check hinj h.coherent hsmall)
    have hlearns := hcall.learns hfull h.bounded (h.sessions live (mem_of_getElem? hlive))
    refine ⟨⟨hcall.coherent, hlearns.bounded, fun r hr => ?_, fun live hlive o ho => ?_⟩, hlearns.kept⟩
    · rcases mem_append.mp hr with hr | hr
      · obtain ⟨o, heq, hrow⟩ := h.accepted r hr
        exact ⟨o, heq, hlearns.kept _ _ hrow⟩
      cases res with
      | error err => cases hr
      | ok u =>
        obtain rfl := mem_singleton.mp hr
        exact hlearns.accepted rfl
    · exact hlearns.kept _ _ (h.sessions live hlive o ho)
  | stop hlive hstops => exact hcompletes.elim

theorem reaches (hrun : p.Reaches server (fun e => e.Small ∧ e.Completes) p') :
    OneHistory p' ∧ ∀ e h, p.disk.1.hashes.lookup e = some h → p'.disk.1.hashes.lookup e = some h := by
  induction hrun with
  | refl => exact ⟨h, fun _ _ hrow => hrow⟩
  | tail _ hstep ih =>
    obtain ⟨e, ⟨hsmall, hcompletes⟩, hstep⟩ := hstep
    obtain ⟨hnext, hkept⟩ := ih.1.step hinj hfull hstep hsmall hcompletes
    exact ⟨hnext, fun e h hrow => hkept e h (ih.2 e h hrow)⟩

end

end OneHistory

/-- A client whose calls run to their ends, and that gets as many hashes as it asks for, accepts one
history: two roots that it has accepted for one epoch have the same hash, and a hash that it knows is
that of every root it accepts later for that epoch. -/
theorem one_history (hinj : Function.Injective (hashRoot : MerkleRoot H → H)) (hfull : server.Full)
    (hrun : Process.Reaches server (fun e => e.Small ∧ e.Completes) {} p) :
    (∀ o₁ o₂ : OpenedRoot H, o₁.r ∈ p.accepted → o₂.r ∈ p.accepted → o₁.epno = o₂.epno →
      o₁.h = o₂.h) ∧
    ∀ e h, p.disk.1.hashes.lookup e = some h → ∀ p' : Process H,
      p.Reaches server (fun e => e.Small ∧ e.Completes) p' →
      ∀ o : OpenedRoot H, o.r ∈ p'.accepted → o.epno = e → o.h = h := by
  obtain ⟨hp, -⟩ := oneHistory_empty.reaches hinj hfull hrun
  refine ⟨fun o₁ o₂ h₁ h₂ hepno => ?_, fun e h hrow p' hlater o ho hepno => ?_⟩
  · have hrow := hp.accepted_hash h₁
    rw [hepno] at hrow
    exact mem_unique hrow (hp.accepted_hash h₂)
  obtain ⟨hp', hkept⟩ := hp.reaches hinj hfull hlater
  have hrow' := hp'.accepted_hash ho
  rw [hepno] at hrow'
  exact mem_unique hrow' (hkept e h hrow)

/-! ## Samples -/

namespace HistorySample

open RootSym

/-- The root of epoch seven, and the only one of epoch six that it points to. -/
def six : OpenedRoot RootSym := rootAt 6 []

def seven : OpenedRoot RootSym := rootAt 7 [⟨6, six.h⟩]

/-- Another root of epoch six, and a root of epoch eight that points to it and to `seven`. -/
def otherSix : OpenedRoot RootSym := rootAt 6 [⟨1, .zero⟩]

def eight : OpenedRoot RootSym := rootAt 8 [⟨7, seven.h⟩, ⟨6, otherSix.h⟩, ⟨4, .zero⟩]

/-- A server that sends no hash for epoch six, until it is asked for that of epoch four as well. -/
def short : Replies RootSym := fun _ hashes =>
  .ok ([], if hashes = [6, 4] then [otherSix.h, .zero] else [])

/-- Two roots, the second of which points to the first. -/
def one : OpenedRoot RootSym := rootAt 1 []

def two : OpenedRoot RootSym := rootAt 2 [⟨1, one.h⟩]

/-- The server answers as `ProcessSample.down` does. -/
def onlyDown : Server RootSym := fun full hashes a => a = ProcessSample.down full hashes

theorem onlyDown_full : onlyDown.Full := by
  intro full hashes roots hs h
  cases h

end HistorySample

open HistorySample ProcessSample RootSym in
/-- The server needs not send a hash when the client knows the root before. -/
theorem one_history_two :
    ∃ p : Process RootSym, one.r ∈ p.accepted ∧ two.r ∈ p.accepted ∧
      (∀ o₁ o₂ : OpenedRoot RootSym, o₁.r ∈ p.accepted → o₂.r ∈ p.accepted → o₁.epno = o₂.epno →
        o₁.h = o₂.h) := by
  let moves : List (Move RootSym) :=
    [.init, .check 0 (.run one.r) none, .init, .check 1 (.run two.r) none, .check 1 (.historical one.r) none]
  have hplay : ∃ p ∈ Process.play down {} moves, one.r ∈ p.accepted ∧ two.r ∈ p.accepted := by
    decide +kernel
  obtain ⟨p, hp, hone, htwo⟩ := hplay
  have hdown : ∀ full hashes, onlyDown full hashes (down full hashes) := fun _ _ => rfl
  have hreaches : Process.Reaches onlyDown (fun e => e.Small ∧ e.Completes) {} p := by
    refine Process.reaches_play hdown ?_ hp
    exact ⟨⟨trivial, trivial⟩, ⟨small_rootAt (by decide), trivial⟩, ⟨trivial, trivial⟩,
      ⟨small_rootAt (by decide), trivial⟩, trivial, trivial⟩
  exact ⟨p, hone, htwo, (one_history soundRootHash.root_injective onlyDown_full hreaches).1⟩

open HistorySample ProcessSample RootSym in
/-- The server sends no hash for epoch six when the client checks a root of that epoch against `seven`.
The root is accepted and its hash is not stored; another root of epoch six is accepted later. -/
theorem not_one_history :
    ∃ p : Process RootSym, Process.Reaches (fun _ _ _ => True) (fun e => e.Small ∧ e.Completes) {} p ∧
      ∃ o₁ o₂ : OpenedRoot RootSym, o₁.r ∈ p.accepted ∧ o₂.r ∈ p.accepted ∧ o₁.epno = 6 ∧
        o₂.epno = 6 ∧ o₁.h ≠ o₂.h := by
  let moves : List (Move RootSym) :=
    [.init, .check 0 (.run seven.r) none, .init, .check 1 (.historical six.r) none,
      .check 1 (.run eight.r) none, .init, .check 2 (.historical otherSix.r) none]
  have hplay : ∃ p ∈ Process.play short {} moves, six.r ∈ p.accepted ∧ otherSix.r ∈ p.accepted := by
    decide +kernel
  obtain ⟨p, hp, hsix, hother⟩ := hplay
  refine ⟨p, ?_, six, otherSix, hsix, hother, rfl, rfl, by decide⟩
  refine Process.reaches_play (fun _ _ => trivial) ?_ hp
  exact ⟨⟨trivial, trivial⟩, ⟨small_rootAt (by decide), trivial⟩, ⟨trivial, trivial⟩, ⟨trivial, trivial⟩,
    ⟨small_rootAt (by decide), trivial⟩, ⟨trivial, trivial⟩, trivial, trivial⟩

end Foks.Merkle
