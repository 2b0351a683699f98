import Foks.Client.TeamMembers

/-!
# Resuming the chain of a team

A loader that has played some links of a team saves a state, from which the next loader continues. Is it
then where it would be if it had played all links at once?

The saved state has no generations. The roster that is read back takes them from the key ring, and the two
agree only if each link carries the keys of its schedule, which a client does not check. And the IDs of the
members are saved in as many bytes as their types ask for, which a client does not check either.
-/

namespace Foks.Client

open Lib Merkle LinkFormat List Option Prod
open Lib.Action (read_bind_eq_ok within_eq_ok)
open Team (MemberID)

variable {L H X A : Type} {hepks hepks' : HEPKSet H} {host : HostID} {roster roster' : Roster H}
  {links links' : List L} {otlrs otlrs' o₁ o₂ : List (OpenTeamLinkRes H)}
    {a : TeamPlayArg H} {p p' q : TeamPlayer H}
  {last : Option H} {sv : TeamServices L H X A} {boxed : X}

/-! ## Opening the links -/

section Open

variable [DecidableEq H]

/-- The delegation floor after the links. -/
def floorAfter (floor : Option Role) (otlrs : List (OpenTeamLinkRes H)) : Option Role :=
  otlrs.foldl (fun floor otlr => otlr.rosterDelegationFloor.or floor) floor

omit [DecidableEq H] in
theorem rosterAfter_append (roster : Roster H) (otlrs otlrs' : List (OpenTeamLinkRes H)) :
    rosterAfter roster (otlrs ++ otlrs') = rosterAfter (rosterAfter roster otlrs) otlrs' := by
  induction otlrs generalizing roster with
  | nil => rfl
  | cons otlr otlrs ih => rw [cons_append, rosterAfter_cons, rosterAfter_cons, ih]

/-- The keys of some links are found in both sets, or in none. -/
def SameHEPKs [LinkFormat L H] (links : List L) (hepks hepks' : HEPKSet H) : Prop :=
  ∀ link ∈ links, ∀ gc : GroupChange H, openGroupChange link = .ok gc → ∀ sk ∈ gc.sharedKeys,
    hepks'.lookup sk.hepkFp = hepks.lookup sk.hepkFp

theorem openSharedKeysFrom_congr {sks : List (SharedKey H)}
    (h : ∀ sk ∈ sks, hepks'.lookup sk.hepkFp = hepks.lookup sk.hepkFp) (prev : Option Role) :
    openSharedKeysFrom hepks' prev sks = openSharedKeysFrom hepks prev sks := by
  induction sks generalizing prev with
  | nil => rfl
  | cons sk sks ih =>
    rw [forall_mem_cons] at h
    unfold openSharedKeysFrom
    rw [h.1, ih h.2]

variable [MerkleHash H] [LinkFormat L H] {tid : TeamID} {n : ℕ} {floor : Option Role}

theorem openTeamLink_congr {link : L} (h : SameHEPKs [link] hepks hepks') (team : Option TeamID)
    (host : HostID) (roster : Roster H) (floor : Option Role) :
    openTeamLink link hepks' team host roster floor = openTeamLink link hepks team host roster floor := by
  unfold openTeamLink
  cases hgc : (openGroupChange link : Except CoreError (GroupChange H)) with
  | error e => rfl
  | ok gc =>
    have hkeys : openSharedKeys gc hepks' = openSharedKeys gc hepks :=
      openSharedKeysFrom_congr (h link mem_cons_self gc hgc) none
    simp only [bind, Except.bind, hkeys]

theorem openedTeamLinks_congr (h : SameHEPKs links hepks hepks') (n : ℕ) (roster : Roster H)
    (floor : Option Role) :
    openedTeamLinks hepks' tid host n roster floor links = openedTeamLinks hepks tid host n roster
        floor links := by
  induction links generalizing n roster floor with
  | nil => rfl
  | cons link links ih =>
    obtain ⟨hlink, hlinks⟩ := forall_mem_cons.mp h
    unfold openedTeamLinks
    rw [openTeamLink_congr (forall_mem_cons.mpr ⟨hlink, forall_mem_nil _⟩)]
    simp only [ih hlinks]

/-- The number of a link is part of the errors only. -/
theorem openedTeamLinks_index (h : openedTeamLinks hepks tid host n roster floor links = .ok otlrs)
    (m : ℕ) : openedTeamLinks hepks tid host m roster floor links = .ok otlrs := by
  induction links generalizing n m roster floor otlrs with
  | nil => exact h
  | cons link links ih =>
    obtain ⟨otlr, hotlr, rest, hrest, rfl⟩ := openedTeamLinks_cons.mp h
    exact openedTeamLinks_cons.mpr ⟨otlr, hotlr, rest, ih hrest (m + 1), rfl⟩

theorem openedTeamLinks_append
    (h : openedTeamLinks hepks tid host n roster floor (links ++ links') = .ok otlrs) :
    ∃ o₁ o₂, openedTeamLinks hepks tid host n roster floor links = .ok o₁ ∧
      openedTeamLinks hepks tid host (n + links.length) (rosterAfter roster o₁) (floorAfter floor o₁)
        links' = .ok o₂ ∧ otlrs = o₁ ++ o₂ := by
  induction links generalizing n roster floor otlrs with
  | nil => exact ⟨[], otlrs, rfl, h, rfl⟩
  | cons link links ih =>
    obtain ⟨otlr, hotlr, rest, hrest, rfl⟩ := openedTeamLinks_cons.mp h
    obtain ⟨o₁, o₂, ho1, ho2, rfl⟩ := ih hrest
    rw [Nat.add_right_comm, ← rosterAfter_cons roster] at ho2
    exact ⟨otlr :: o₁, o₂, openedTeamLinks_cons.mpr ⟨otlr, hotlr, o₁, ho1, rfl⟩, ho2, rfl⟩

/-- Links that are the same, except for the rosters that they lead to. -/
def SameLink (otlr otlr' : OpenTeamLinkRes H) : Prop := ∃ post, otlr' = { otlr with rosterPost := post }

section Opened

variable (hopen : openedTeamLinks hepks tid host n roster floor links = .ok otlrs)

include hopen

theorem length_of_openedTeamLinks : otlrs.length = links.length := by
  have hchainers := congrArg List.length (linkChainer_of_openedTeamLinks hopen)
  simpa using hchainers

theorem Keyed.openedTeamLinks (h : Keyed roster) : Keyed (rosterAfter roster otlrs) := by
  induction links generalizing n roster floor otlrs with
  | nil =>
    cases hopen
    exact h
  | cons link links ih =>
    obtain ⟨otlr, hotlr, rest, hrest, rfl⟩ := openedTeamLinks_cons.mp hopen
    rw [rosterAfter_cons]
    exact ih hrest (h.openTeamLink hotlr)

/-- A roster after a link is one that was created. -/
theorem isSome_of_openedTeamLinks (hne : links ≠ []) : (rosterAfter roster otlrs).core.isSome ∧
    (rosterAfter roster otlrs).mks.isSome ∧
      (rosterAfter roster otlrs).keyGens.isSome := by
  obtain ⟨init, last, rfl⟩ := (eq_nil_or_concat' links).resolve_left hne
  obtain ⟨o₁, o₂, -, hlast, rfl⟩ := openedTeamLinks_append hopen
  obtain ⟨otlr, hotlr, rest, hrest, rfl⟩ := openedTeamLinks_cons.mp hlast
  cases hrest
  obtain ⟨-, -, keyOwner, opts, -, hopts, hplan⟩ := openTeamLink_eq_ok hotlr
  obtain ⟨hcore, hmks, hgens, -⟩ := Roster.gameplan_changes hopts hplan
  rw [rosterAfter_append]
  exact ⟨hcore, hmks, hgens⟩

/-- The IDs in the rosters are kept if and only if the links name such IDs. -/
theorem keepsIDs_iff_of_opened (h : KeepsIDs roster) :
    (∀ i ≤ otlrs.length, KeepsIDs (rosterAfter roster (otlrs.take i))) ↔
        ∀ link ∈ links, NamesKeptIDs H link := by
  induction links generalizing n roster floor otlrs with
  | nil =>
    cases hopen
    exact ⟨fun _ => forall_mem_nil _, fun _ i _ => by rwa [take_nil]⟩
  | cons link links ih =>
    obtain ⟨otlr, hotlr, rest, hrest, rfl⟩ := openedTeamLinks_cons.mp hopen
    have hiff := keepsIDs_openTeamLink_iff h hotlr
    rw [forall_mem_cons]
    constructor
    · intro hall
      have hpost : KeepsIDs otlr.rosterPost := hall 1 (by simp)
      refine ⟨hiff.mp hpost, (ih hrest hpost).mp fun i hi => ?_⟩
      have hnext := hall (i + 1) (by simpa using hi)
      rwa [take_succ_cons, rosterAfter_cons] at hnext
    · rintro ⟨hlink, hlinks⟩ i hi
      have hpost := hiff.mpr hlink
      cases i with
      | zero => exact h
      | succ i =>
        rw [take_succ_cons, rosterAfter_cons]
        exact (ih hrest hpost).mpr hlinks i (by simpa using hi)

/-- Links that are opened from one roster are opened from another one that cannot be told apart. -/
theorem SameRoster.openedTeamLinks (hsame : SameRoster roster roster') :
    ∃ otlrs', openedTeamLinks hepks tid host n roster' floor links = .ok otlrs' ∧
      List.Forall₂ SameLink otlrs otlrs' ∧
      SameRoster (rosterAfter roster otlrs) (rosterAfter roster' otlrs') := by
  induction links generalizing n roster roster' floor otlrs with
  | nil =>
    cases hopen
    exact ⟨[], rfl, .nil, hsame⟩
  | cons link links ih =>
    obtain ⟨otlr, hotlr, rest, hrest, rfl⟩ := openedTeamLinks_cons.mp hopen
    obtain ⟨post', hotlr', hpost⟩ := hsame.openTeamLink hotlr
    obtain ⟨rest', hrest', hlinks, hlast⟩ := ih hrest hpost
    refine ⟨{ otlr with rosterPost := post' } :: rest', ?_, .cons ⟨post', rfl⟩ hlinks, ?_⟩
    · exact openedTeamLinks_cons.mpr ⟨_, hotlr', rest', hrest', rfl⟩
    · rwa [rosterAfter_cons, rosterAfter_cons]

end Opened

end Open

/-! ## Playing the links -/

section Play

variable {otlr otlr' : OpenTeamLinkRes H} {tir' : Option RationalRange}

theorem playTeamLinks_append (h : playTeamLinks a (otlrs ++ otlrs') p = (.ok (), p')) :
    ∃ v, playTeamLinks a otlrs p = (.ok (), v) ∧ playTeamLinks a otlrs' v = (.ok (), p') := by
  induction otlrs generalizing p with
  | nil => exact ⟨p, rfl, h⟩
  | cons otlr otlrs ih =>
    obtain ⟨v, hstep, h1⟩ := playTeamLinks_cons.mp h
    obtain ⟨w, hfirst, hrest⟩ := ih h1
    exact ⟨w, playTeamLinks_cons.mpr ⟨v, hstep, hfirst⟩, hrest⟩

/-- Of the leaves, those of the links are read. -/
theorem playTeamLinks_leaves {leaves : List (MerkleLeaf H)}
    (h : ∀ otlr ∈ otlrs,
      leaves[otlr.gc.chainer.base.seqno - 1]? =
        a.allMerkleLeaves[otlr.gc.chainer.base.seqno - 1]?) :
    playTeamLinks { a with allMerkleLeaves := leaves } otlrs = playTeamLinks a otlrs := by
  induction otlrs with
  | nil => rfl
  | cons otlr otlrs ih =>
    rw [forall_mem_cons] at h
    have hlink : playTeamLink { a with allMerkleLeaves := leaves } otlr = playTeamLink a otlr := by
      unfold playTeamLink
      simp only [h.1]
    unfold playTeamLinks
    rw [hlink, ih h.2]

theorem RangeStep.isSome {tir r before after : Option RationalRange} {seqno : Seqno}
    (h : RangeStep tir seqno r before after) : (after.or tir).isSome := by
  unfold RangeStep at h
  split at h
  · obtain ⟨hsome, -, rfl⟩ := h
    obtain ⟨rng, rfl⟩ := ne_none_iff_exists'.mp hsome
    rfl
  obtain ⟨prev, hprev, ⟨-, rfl⟩ | ⟨rng, -, -, -, rfl⟩⟩ := h
  · rw [hprev]
    rfl
  · rfl

/-- What a link does to the parts of the player that the saved state needs. -/
theorem playTeamStep_spec (h : playTeamStep a otlr p = (.ok (), p')) :
    p'.rosterDelegationFloor = otlr.rosterDelegationFloor.or p.rosterDelegationFloor ∧
      (p'.getIndexRange a.tir).isSome ∧
      (isEldest otlr.gc.chainer.base.seqno = true ∨ p.sctlsc.isSome → p'.sctlsc.isSome) := by
  unfold playTeamStep at h
  split at h
  · obtain ⟨⟨⟩, v, heldest, hlink⟩ := Action.bind_eq_ok.mp h
    obtain ⟨-, -, -, -, range, -, -, hrange, rfl⟩ := playTeamLink_iff.mp hlink
    obtain ⟨res, -, hupdate⟩ := Action.lift_bind_eq_ok.mp heldest
    cases hupdate
    refine ⟨?_, hrange.isSome, fun _ => rfl⟩
    cases otlr.rosterDelegationFloor with
    | none | some floor => rfl
  · next hlater =>
    obtain ⟨-, -, -, -, range, -, -, hrange, rfl⟩ := playTeamLink_iff.mp h
    exact ⟨rfl, hrange.isSome, fun hset => hset.resolve_left hlater⟩

theorem playTeamLinks_floor (h : playTeamLinks a otlrs p = (.ok (), p')) :
    p'.rosterDelegationFloor = floorAfter p.rosterDelegationFloor otlrs := by
  induction otlrs generalizing p with
  | nil =>
    cases h
    rfl
  | cons otlr otlrs ih =>
    obtain ⟨v, hstep, hrest⟩ := playTeamLinks_cons.mp h
    rw [ih hrest, (playTeamStep_spec hstep).1]
    rfl

/-- After the eldest link, and those that follow it, the state can be saved. -/
theorem playTeamLinks_isSome (h : playTeamLinks a (otlr :: otlrs) p = (.ok (), p'))
    (heldest : isEldest otlr.gc.chainer.base.seqno = true) :
    p'.sctlsc.isSome ∧ (p'.getIndexRange a.tir).isSome := by
  obtain ⟨v, hstep, hrest⟩ := playTeamLinks_cons.mp h
  obtain ⟨-, hrange, hsctlsc⟩ := playTeamStep_spec hstep
  have hv : v.sctlsc.isSome ∧ (v.getIndexRange a.tir).isSome := ⟨hsctlsc (.inl heldest), hrange⟩
  clear h hstep hrange hsctlsc heldest
  induction otlrs generalizing v with
  | nil =>
    cases hrest
    exact hv
  | cons otlr otlrs ih =>
    obtain ⟨w, hstep, hrest⟩ := playTeamLinks_cons.mp hrest
    obtain ⟨-, hrange, hsctlsc⟩ := playTeamStep_spec hstep
    exact ih w hrest ⟨hsctlsc (.inr hv.1), hrange⟩

/-- Players that agree on the keys, the range and the floor; the range may be the one that was saved. -/
structure SamePlayer (tir tir' : Option RationalRange) (p q : TeamPlayer H) : Prop where
  ptks : q.ptks = p.ptks
  range : q.getIndexRange tir' = p.getIndexRange tir
  floor : q.rosterDelegationFloor = p.rosterDelegationFloor

/-- A later link that one player accepts is accepted by the other one. -/
theorem SamePlayer.playTeamStep (h : SamePlayer a.tir tir' p q)
    (hlink : SameLink otlr otlr') (hlater : isEldest otlr.gc.chainer.base.seqno = false)
    (hplay : playTeamStep a otlr p = (.ok (), p')) :
    ∃ q', playTeamStep { a with tir := tir' } otlr' q = (.ok (), q') ∧ SamePlayer a.tir tir' p' q' := by
  obtain ⟨post, rfl⟩ := hlink
  unfold Client.playTeamStep at hplay ⊢
  simp only [hlater] at hplay ⊢
  obtain ⟨hadHoc, hvalid, leaf, ptks, range, hleaf, hfold, hrange, rfl⟩ := playTeamLink_iff.mp hplay
  rw [RangeStep, if_neg (by rw [hlater]; exact Bool.false_ne_true)] at hrange
  obtain ⟨prev, hprev, hnext⟩ := hrange
  -- the second player may have the range from the saved state
  have hprev' : q.indexRange.or tir' = some prev := h.range.trans hprev
  obtain ⟨range', hrange', hsame⟩ : ∃ range',
      (otlr.range = none ∧ range' = q.indexRange ∨ ∃ rng, otlr.range = some rng ∧
        ¬ prev.eq rng = true ∧ prev.includes rng = true ∧ range' = some rng) ∧
      range'.or tir' = range.or a.tir := by
    rcases hnext with ⟨hnone, rfl⟩ | ⟨rng, hrng, hnew, hincl, rfl⟩
    · exact ⟨q.indexRange, .inl ⟨hnone, rfl⟩, hprev'.trans hprev.symm⟩
    · exact ⟨some rng, .inr ⟨rng, hrng, hnew, hincl, rfl⟩, rfl⟩
  rw [← h.ptks] at hfold
  refine ⟨_, playTeamLink_iff.mpr ⟨hadHoc, hvalid, leaf, ptks, range', hleaf, hfold, ?_, rfl⟩,
    rfl, hsame, ?_⟩
  · rw [RangeStep, if_neg (by rw [hlater]; exact Bool.false_ne_true)]
    exact ⟨prev, hprev', hrange'⟩
  · rw [h.floor]

theorem SamePlayer.playTeamLinks (h : SamePlayer a.tir tir' p q) (hlinks : List.Forall₂ SameLink otlrs otlrs')
    (hlater : ∀ otlr ∈ otlrs, isEldest otlr.gc.chainer.base.seqno = false)
    (hplay : playTeamLinks a otlrs p = (.ok (), p')) :
    ∃ q', playTeamLinks { a with tir := tir' } otlrs' q = (.ok (), q') ∧ SamePlayer a.tir tir' p' q' := by
  induction hlinks generalizing p q with
  | nil =>
    cases hplay
    exact ⟨q, rfl, h⟩
  | cons hlink _ ih =>
    rw [forall_mem_cons] at hlater
    obtain ⟨v, hstep, hrest⟩ := playTeamLinks_cons.mp hplay
    obtain ⟨w, hstep', hsame⟩ := h.playTeamStep hlink hlater.1 hstep
    obtain ⟨q', hrest', hsame'⟩ := ih hsame hlater.2 hrest
    exact ⟨q', playTeamLinks_cons.mpr ⟨w, hstep', hrest'⟩, hsame'⟩

end Play

/-! ## The links of a reply -/

section Chain

variable [DecidableEq H] [LinkHash L H]

/-- The links pass the check of the chain, from a hash and a number on. -/
def Chained (otlrs : List (OpenTeamLinkRes H)) (links : List L) (prev : Option H) (seqno : Seqno)
    (last : Option H) : Prop :=
  ∀ b, ∃ b', checkLinks "team_id" none (teamChainerAtIndex otlrs) 0 links prev seqno b = (.ok last, b')

variable {prev : Option H} {seqno : Seqno} {b b' : BaseChainLoader H} {chainerOf : L → Option (HidingChainer H)}
  {raw : TeamChain L H A} {leaves : List (MerkleLeaf H)} {l l' : TeamLoader H X}

theorem chained_of_checkLinks (hch : (otlrs.map (·.gc.chainer)).map some = links.map chainerOf)
    (h : checkLinks "team_id" none (teamChainerAtIndex otlrs) 0 links prev seqno b = (.ok last, b')) :
    Chained otlrs links prev seqno last := by
  -- the check reads nothing of the object
  obtain ⟨res, hashes, hall, -, -⟩ :=
    checkLinks_apply "team_id" prev seqno (chainers_getElem hch)
  rw [teamChainerAtIndex_eq] at h
  obtain ⟨rfl, -⟩ := mk.inj ((hall b).symm.trans h)
  intro b1
  rw [teamChainerAtIndex_eq]
  exact ⟨_, hall b1⟩

theorem Chained.seqno_eq (h : Chained otlrs links prev seqno last) {i : ℕ} (hi : i < links.length)
    {otlr : OpenTeamLinkRes H} (hotlr : otlrs[i]? = some otlr) :
    otlr.gc.chainer.base.seqno = seqno + i := by
  obtain ⟨b', hcheck⟩ := h {}
  obtain ⟨ch, hch, hseqno⟩ := seqno_of_checkLinks hcheck i hi
  rw [Nat.zero_add, teamChainerAtIndex, hotlr] at hch
  cases hch
  exact hseqno

theorem Chained.split (h : Chained (o₁ ++ o₂) (links ++ links') prev seqno last)
    (hch1 : (o₁.map (·.gc.chainer)).map some = links.map chainerOf)
    (hch2 : (o₂.map (·.gc.chainer)).map some = links'.map chainerOf) :
    ∃ mid, Chained o₁ links prev seqno mid ∧ Chained o₂ links' mid (seqno + links.length) last := by
  have hlen : o₁.length = links.length := by simpa using congrArg List.length hch1
  obtain ⟨b', hcheck⟩ := h {}
  obtain ⟨mid, b1, hfirst, hrest⟩ := checkLinks_append hcheck
  have hleft : ∀ n < links.length, teamChainerAtIndex o₁ (0 + n) = teamChainerAtIndex (o₁ ++ o₂) (0 + n) := by
    intro n hn
    rw [Nat.zero_add, teamChainerAtIndex, teamChainerAtIndex, List.getElem?_append_left (hlen ▸ hn)]
  have hright : ∀ n < links'.length,
      teamChainerAtIndex o₂ (0 + n) = teamChainerAtIndex (o₁ ++ o₂) (0 + links.length + n) := by
    intro n _
    rw [Nat.zero_add, Nat.zero_add, teamChainerAtIndex, teamChainerAtIndex, ← hlen,
      List.getElem?_append_right (Nat.le_add_right _ _), Nat.add_sub_cancel_left]
  rw [← checkLinks_congr hleft] at hfirst
  rw [← checkLinks_congr hright] at hrest
  exact ⟨mid, chained_of_checkLinks hch1 hfirst, chained_of_checkLinks hch2 hrest⟩

theorem Chained.of_same (h : Chained otlrs links prev seqno last)
    (hsame : List.Forall₂ SameLink otlrs otlrs') : Chained otlrs' links prev seqno last := by
  have hchainers : otlrs'.map (·.gc.chainer) = otlrs.map (·.gc.chainer) := by
    clear h
    induction hsame with
    | nil => rfl
    | cons hlink _ ih =>
      obtain ⟨post, rfl⟩ := hlink
      rw [map_cons, map_cons, ih]
  unfold Chained
  rwa [teamChainerAtIndex_eq, hchainers, ← teamChainerAtIndex_eq]

variable [MerkleHash H] [LinkFormat L H]

/-- The links as a loader opens, checks and plays them, after a roster and a player. -/
structure Plays (hepks : HEPKSet H) (host : HostID) (a : TeamPlayArg H) (prev : Option H)
    (seqno : Seqno) (roster : Roster H) (p : TeamPlayer H) (links : List L)
    (otlrs : List (OpenTeamLinkRes H)) (last : Option H) (p' : TeamPlayer H) : Prop where
  opened : openedTeamLinks hepks a.team host 0 roster p.rosterDelegationFloor links = .ok otlrs
  chained : Chained otlrs links prev seqno last
  played : playTeamLinks a otlrs p = (.ok (), p')

/-- The first links, and those after them. -/
theorem Plays.split (h : Plays hepks host a prev seqno roster p (links ++ links') otlrs last p') :
    ∃ o₁ o₂ mid v, otlrs = o₁ ++ o₂ ∧ Plays hepks host a prev seqno roster p links o₁ mid v ∧
      Plays hepks host a mid (seqno + links.length) (rosterAfter roster o₁) v links' o₂ last p' := by
  obtain ⟨o₁, o₂, hopen1, hopen2, rfl⟩ := openedTeamLinks_append h.opened
  obtain ⟨v, hplay1, hplay2⟩ := playTeamLinks_append h.played
  obtain ⟨mid, hchain1, hchain2⟩ := h.chained.split (linkChainer_of_openedTeamLinks hopen1)
    (linkChainer_of_openedTeamLinks hopen2)
  rw [← playTeamLinks_floor hplay1] at hopen2
  exact ⟨o₁, o₂, mid, v, rfl, ⟨hopen1, hchain1, hplay1⟩, ⟨openedTeamLinks_index hopen2 0, hchain2, hplay2⟩⟩

section

variable (h : Plays hepks host a prev seqno roster p links otlrs last p')

include h

theorem Plays.seqno_of_mem {otlr : OpenTeamLinkRes H} (hotlr : otlr ∈ otlrs) :
    ∃ i < links.length, otlr.gc.chainer.base.seqno = seqno + i := by
  obtain ⟨i, hi⟩ := List.getElem?_of_mem hotlr
  have hlt : i < links.length := by
    rw [← length_of_openedTeamLinks h.opened]
    exact (List.getElem?_eq_some_iff.mp hi).1
  exact ⟨i, hlt, h.chained.seqno_eq hlt hi⟩

/-- Of the keys and the leaves, those of the links are read. -/
theorem Plays.congr
    (hsame : SameHEPKs links hepks hepks')
    (hleaves : ∀ i < links.length, leaves[seqno + i - 1]? = a.allMerkleLeaves[seqno + i - 1]?) :
    Plays hepks' host { a with allMerkleLeaves := leaves } prev seqno roster p links otlrs last p' where
  opened := (openedTeamLinks_congr hsame 0 roster p.rosterDelegationFloor).trans h.opened
  chained := h.chained
  played := by
    rw [playTeamLinks_leaves fun otlr hotlr => ?_]
    · exact h.played
    obtain ⟨i, hlt, hseqno⟩ := h.seqno_of_mem hotlr
    rw [hseqno]
    exact hleaves i hlt

/-- Later links are played alike from a roster and a player that cannot be told apart. -/
theorem Plays.same
    (hseqno : chainEldestSeqno < seqno) (hroster : SameRoster roster roster')
    {tir' : Option RationalRange} (hplayer : SamePlayer a.tir tir' p q) :
    ∃ otlrs' q', Plays hepks host { a with tir := tir' } prev seqno roster' q links otlrs' last q' ∧
      SameRoster (rosterAfter roster otlrs) (rosterAfter roster' otlrs') ∧
      SamePlayer a.tir tir' p' q' := by
  obtain ⟨otlrs', hopen, hlinks, hpost⟩ := hroster.openedTeamLinks h.opened
  have hlater : ∀ otlr ∈ otlrs, isEldest otlr.gc.chainer.base.seqno = false := by
    intro otlr hotlr
    obtain ⟨i, -, hi⟩ := h.seqno_of_mem hotlr
    rw [hi, isEldest, beq_eq_false_iff_ne]
    exact Nat.ne_of_gt (Nat.lt_add_right i hseqno)
  obtain ⟨q', hplay, hsame⟩ := hplayer.playTeamLinks hlinks hlater h.played
  rw [← hplayer.floor] at hopen
  exact ⟨otlrs', q', ⟨hopen, h.chained.of_same hlinks, hplay⟩, hpost, hsame⟩

end

variable [KeyHash H]

/-- A loader plays the links of a reply; the leaves are those that `checkMerkleTeamIDPaths` finds. -/
def playChain (raw : TeamChain L H A) (leaves : List (MerkleLeaf H)) :
    Action (TeamLoader H X) CoreError Unit := do
  -- `updateHEPKs`
  .update fun l => { l with hepks := mergeHEPKs l.hepks (importHEPKSet raw.hepks) }
  let l ← .read id
  openTeamLinks l.arg.host 0 l.rosterPre l.player.rosterDelegationFloor raw.links
  checkTeamChain raw
  .update fun l => { l with
    allMerkleLeaves := (l.existing.map (·.merkleLeaves)).getD [] ++ leaves }
  let l ← .read id
  TeamLoader.playing (playTeamLinks l.playArg l.otlrs)

/-- What the player reads in `playChain`. -/
def TeamLoader.playArgWith (l : TeamLoader H X) (leaves : List (MerkleLeaf H)) : TeamPlayArg H :=
  ⟨l.arg.teamID, l.existing.map (·.tir), (l.existing.map (·.merkleLeaves)).getD [] ++ leaves⟩

/-- `Plays`, for a reply that comes to a loader. -/
def PlaysReply (raw : TeamChain L H A) (leaves : List (MerkleLeaf H)) (l : TeamLoader H X)
    (otlrs : List (OpenTeamLinkRes H)) (last : Option H) (p : TeamPlayer H) : Prop :=
  Plays (mergeHEPKs l.hepks (importHEPKSet raw.hepks)) l.arg.host (l.playArgWith leaves)
    (prevOf (l.existing.map (·.chainState))) (seqnoOf (l.existing.map (·.chainState))) l.rosterPre
    l.player raw.links otlrs last p

/-- The loader after the links of a reply. -/
def TeamLoader.afterChain (l : TeamLoader H X) (raw : TeamChain L H A) (leaves : List (MerkleLeaf H))
    (otlrs : List (OpenTeamLinkRes H)) (last : Option H) (b : BaseChainLoader H) (p : TeamPlayer H) :
    TeamLoader H X :=
  { l with
    hepks := mergeHEPKs l.hepks (importHEPKSet raw.hepks)
    otlrs
    rosterPost := rosterAfter l.rosterPre otlrs
    base := { b with lastHash := last }
    allMerkleLeaves := (l.existing.map (·.merkleLeaves)).getD [] ++ leaves
    player := p }

theorem playChain_iff (hotlrs : l.otlrs = []) : playChain raw leaves l = (.ok (), l') ↔
      ∃ otlrs last b p, PlaysReply raw leaves l otlrs last p ∧
        checkLinks "team_id" none (teamChainerAtIndex otlrs) 0 raw.links
          (prevOf (l.existing.map (·.chainState))) (seqnoOf (l.existing.map (·.chainState)))
            l.base = (.ok last, b) ∧
        l' = l.afterChain raw leaves otlrs last b p := by
  constructor
  · intro h
    have h1 := Action.update_bind_eq_ok.mp h
    have h2 := read_bind_eq_ok.mp h1
    obtain ⟨⟨⟩, l3, hopen, h3⟩ := Action.bind_eq_ok.mp h2
    -- the loop stops at the first link that cannot be opened
    cases hopened : openedTeamLinks (mergeHEPKs l.hepks (importHEPKSet raw.hepks)) l.arg.teamID
      l.arg.host 0 l.rosterPre l.player.rosterDelegationFloor raw.links with
    | error e =>
      obtain ⟨-, l'', herror⟩ := openTeamLinks_of_error
        (l := { l with hepks := mergeHEPKs l.hepks (importHEPKSet raw.hepks) }) hopened
      cases hopen.symm.trans herror
    | ok otlrs =>
      obtain ⟨-, rfl⟩ := mk.inj (hopen.symm.trans (openTeamLinks_of_ok
        (l := { l with hepks := mergeHEPKs l.hepks (importHEPKSet raw.hepks) }) hopened))
      obtain ⟨⟨⟩, l4, hchain, h4⟩ := Action.bind_eq_ok.mp h3
      have hchecking := read_bind_eq_ok.mp hchain
      obtain ⟨b, hcheck, rfl⟩ := within_eq_ok.mp hchecking
      obtain ⟨last, b1, hlinks, hlast⟩ := Action.bind_eq_ok.mp hcheck
      cases hlast
      have h5 := Action.update_bind_eq_ok.mp h4
      have h6 := read_bind_eq_ok.mp h5
      obtain ⟨p, hplay, rfl⟩ := within_eq_ok.mp h6
      rw [hotlrs] at hlinks hplay ⊢
      exact ⟨otlrs, last, b1, p,
        ⟨hopened, chained_of_checkLinks (linkChainer_of_openedTeamLinks hopened) hlinks, hplay⟩, hlinks, rfl⟩
  · rintro ⟨otlrs, last, b, p, ⟨hopened, -, hplay⟩, hlinks, rfl⟩
    refine Action.bind_eq_ok.mpr ⟨(), _, rfl, Action.bind_eq_ok.mpr ⟨_, _, rfl, ?_⟩⟩
    refine Action.bind_eq_ok.mpr ⟨(), _, openTeamLinks_of_ok
      (l := { l with hepks := mergeHEPKs l.hepks (importHEPKSet raw.hepks) }) hopened, ?_⟩
    rw [hotlrs]
    refine Action.bind_eq_ok.mpr ⟨(), { l with
      hepks := mergeHEPKs l.hepks (importHEPKSet raw.hepks)
      otlrs
      rosterPost := rosterAfter l.rosterPre otlrs
      base := { b with lastHash := last } }, ?_, ?_⟩
    · refine Action.bind_eq_ok.mpr ⟨_, _, rfl, within_eq_ok.mpr ⟨_, ?_, rfl⟩⟩
      exact Action.bind_eq_ok.mpr ⟨last, b, hlinks, rfl⟩
    · refine Action.bind_eq_ok.mpr ⟨(), _, rfl, Action.bind_eq_ok.mpr ⟨_, _, rfl, ?_⟩⟩
      exact within_eq_ok.mpr ⟨p, hplay, rfl⟩

/-- A reply that can be played is played. -/
theorem PlaysReply.playChain
    (h : PlaysReply raw leaves l otlrs last p) (hotlrs : l.otlrs = []) :
    ∃ b, Client.playChain raw leaves l = (.ok (), l.afterChain raw leaves otlrs last b p) := by
  obtain ⟨b, hcheck⟩ := h.chained l.base
  exact ⟨b, (playChain_iff hotlrs).mpr ⟨otlrs, last, b, p, h, hcheck, rfl⟩⟩

end Chain

/-! ## Saving and reading -/

section Save

variable [DecidableEq H] {raw : TeamChain L H A} {l : TeamLoader H X} {st : TeamChainState H X}

/-- The state that a loader saves after it has played some links. -/
structure SavesTeam (l : TeamLoader H X) (boxed : X) (st : TeamChainState H X) : Prop where
  tail : (l.otlrs.getLast?.map (·.gc.chainer)).or (l.existing.map (·.tail)) = some st.tail
  lastHash : l.base.lastHash = some st.lastHash
  merkleLeaves : st.merkleLeaves = l.allMerkleLeaves
  ptks : st.ptks = exportPub l.player.ptks
  members : l.rosterPost.exportMembers l.arg.host = .ok st.members
  hepks : st.hepks = l.hepks
  tir : l.player.getIndexRange (l.existing.map (·.tir)) = some st.tir
  floor : st.rosterDelegationFloor = l.player.rosterDelegationFloor
  tracked : st.rosterDelegationFloorTracked = true
  boxed : st.boxed = boxed

section

omit [DecidableEq H]

theorem savesTeam_of_newTeamState {b : NameBundle} (h : newTeamState b boxed l = .ok st) :
    SavesTeam l boxed st := by
  unfold newTeamState at h
  split at h
  · cases h
  · next htir htail hlast =>
    obtain ⟨members, hmembers, h1⟩ := bind_eq_ok.mp h
    split at h1
    · cases h1
    · cases h1
      exact ⟨htail, hlast, rfl, rfl, hmembers, rfl, htir, rfl, rfl, rfl⟩
  · cases h

theorem saveTeamState_of_links (hne : raw.links ≠ []) : saveTeamState sv raw boxed l =
      teamNameBundle sv l.arg.teamID raw.teamnameUtf8 >>= fun b => newTeamState b boxed l := by
  have hempty : raw.links.isEmpty = false := by simpa using hne
  unfold saveTeamState
  rw [refuse, if_neg (by simp [hempty])]
  split
  · next hlinks _ _ => exact absurd hlinks hne
  · rfl

theorem savesTeam_of_saveTeamState (hne : raw.links ≠ [])
    (h : saveTeamState sv raw boxed l = .ok st) : SavesTeam l boxed st := by
  rw [saveTeamState_of_links hne] at h
  obtain ⟨b, -, hst⟩ := bind_eq_ok.mp h
  exact savesTeam_of_newTeamState hst

/-- A state is saved if the members can be exported. -/
theorem saveTeamState_of_export (hne : raw.links ≠ []) {b : NameBundle}
    (hname : teamNameBundle sv l.arg.teamID raw.teamnameUtf8 = .ok b)
    (hotlrs : l.otlrs ≠ []) (hlast : l.base.lastHash.isSome) (hsctlsc : l.player.sctlsc.isSome)
    (htir : (l.player.getIndexRange (l.existing.map (·.tir))).isSome)
    {members : List (Team.MemberRoleSeqno H)}
    (hexport : l.rosterPost.exportMembers l.arg.host = .ok members) :
    ∃ st, saveTeamState sv raw boxed l = .ok st := by
  obtain ⟨last, hlast⟩ := isSome_iff_exists.mp hlast
  obtain ⟨sctlsc, hsctlsc⟩ := isSome_iff_exists.mp hsctlsc
  obtain ⟨tir, htir⟩ := isSome_iff_exists.mp htir
  have htail := List.getLast?_eq_some_getLast hotlrs
  rw [saveTeamState_of_links hne, hname]
  simp only [newTeamState, hlast, hsctlsc, htir, htail, hexport]
  exact ⟨_, rfl⟩

end

/-- A state that was saved from a ring in order is read with this ring, and with the roster that loads
with the generations of the ring. -/
theorem SavesTeam.readTeamState (h : SavesTeam l boxed st) (hring : RingInOrder l.player.ptks)
    (hboxed : sv.readParcels boxed = .ok ()) (host : HostID) :
    readTeamState sv host (some st) = .ok ((Roster.load (toKeyGens l.player.ptks) st.members host).toOption.map
        fun roster => (st, l.player.ptks, roster)) := by
  unfold Client.readTeamState
  simp only [h.tracked, h.ptks, h.boxed, hring.addPub_exportPub, hboxed, bind, Except.bind]
  cases Roster.load (toKeyGens l.player.ptks) st.members host with
  | error e | ok roster => rfl

end Save

/-! ## Resuming -/

section Resume

variable [DecidableEq H] [MerkleHash H] [LinkHash L H] [LinkFormat L H] [KeyHash H]

/-- A loader that has played the links of a reply saves a state, from which a new loader plays the
links of the next reply. -/
def resumeTeam (sv : TeamServices L H X A) (raw₁ : TeamChain L H A) (boxed : X)
    (raw₂ : TeamChain L H A) (leaves₂ : List (MerkleLeaf H)) (l : TeamLoader H X) :
    Except CoreError Unit × TeamLoader H X :=
  match saveTeamState sv raw₁ boxed l with
  | .error e => (.error e, l)
  | .ok st => (do
      loadExistingTeam sv (some st)
      playChain raw₂ leaves₂ : Action (TeamLoader H X) CoreError Unit) (newTeamLoader l.arg)

/-- The two loaders have the same members, with the same roles, generations, numbers and keys, the same
keys of the team, the same range and the same floor. -/
structure SameTeam (l l' : TeamLoader H X) : Prop where
  members : l'.rosterPost.members = l.rosterPost.members
  keysOf (id : MemberID) : l'.rosterPost.keysOf id = l.rosterPost.keysOf id
  keyGens : l'.rosterPost.keyGens = l.rosterPost.keyGens
  ptks : l'.player.ptks = l.player.ptks
  range : l'.player.getIndexRange (l'.existing.map (·.tir)) = l.player.getIndexRange (l.existing.map (·.tir))
  floor : l'.player.rosterDelegationFloor = l.player.rosterDelegationFloor

/-- Two replies that come one after the other, with the first links of a chain; the first reply has the
name of the team, and both have the leaves and the keys that the chain has for their links. -/
structure Cut (sv : TeamServices L H X A) (team : TeamID) (raw : TeamChain L H A)
    (leaves : List (MerkleLeaf H)) (raw₁ : TeamChain L H A) (leaves₁ : List (MerkleLeaf H))
    (raw₂ : TeamChain L H A) (leaves₂ : List (MerkleLeaf H)) : Prop where
  nonempty : raw₁.links ≠ []
  links : raw₁.links ++ raw₂.links <+: raw.links
  leaves : leaves₁ ++ leaves₂ <+: leaves
  length₁ : leaves₁.length = raw₁.links.length
  length₂ : leaves₂.length = raw₂.links.length
  hepks₁ : SameHEPKs raw₁.links (importHEPKSet raw.hepks : HEPKSet H) (importHEPKSet raw₁.hepks)
  hepks₂ : SameHEPKs raw₂.links (importHEPKSet raw.hepks : HEPKSet H)
    (mergeHEPKs (importHEPKSet raw₁.hepks) (importHEPKSet raw₂.hepks))
  name : ∃ b, teamNameBundle sv team raw₁.teamnameUtf8 = .ok b

/-- One load of all links of the two replies, and two loads, of which the second one resumes, are
accepted and end with the same team. -/
def ResumesAs (sv : TeamServices L H X A) (arg : LoadTeamArg) (boxed : X) (raw raw₁ : TeamChain L H A)
    (leaves₁ : List (MerkleLeaf H)) (raw₂ : TeamChain L H A) (leaves₂ : List (MerkleLeaf H)) : Prop :=
  ∃ l l₁ l' : TeamLoader H X,
    playChain { raw with links := raw₁.links ++ raw₂.links } (leaves₁ ++ leaves₂)
      (newTeamLoader arg) = (.ok (), l) ∧
    playChain raw₁ leaves₁ (newTeamLoader arg) = (.ok (), l₁) ∧
    resumeTeam sv raw₁ boxed raw₂ leaves₂ l₁ = (.ok (), l') ∧ SameTeam l l'

variable {sv : TeamServices L H X A} {arg : LoadTeamArg} {boxed : X} {raw raw₁ raw₂ : TeamChain L H A}
  {leaves leaves₁ leaves₂ : List (MerkleLeaf H)} {otlrs o₁ o₂ : List (OpenTeamLinkRes H)} {last mid : Option H}
  {p p₁ p₂ : TeamPlayer H} {links : List L}

omit [MerkleHash H] [LinkHash L H] [LinkFormat L H] [KeyHash H] in
@[simp] theorem mergeHEPKs_empty (h : HEPKSet H) : mergeHEPKs ∅ h = h := Finmap.union_empty

/-- The links of a chain, as a new loader plays them. -/
abbrev PlaysFirst (arg : LoadTeamArg) (raw : TeamChain L H A) (leaves : List (MerkleLeaf H))
    (links : List L) (otlrs : List (OpenTeamLinkRes H)) (last : Option H) (p : TeamPlayer H) : Prop :=
  Plays (importHEPKSet raw.hepks : HEPKSet H) arg.host ⟨arg.teamID, none, leaves⟩ none chainEldestSeqno
    {} {} links otlrs last p

theorem playsReply_new : PlaysReply raw leaves (newTeamLoader arg : TeamLoader H X) otlrs last p ↔
      PlaysFirst arg raw leaves raw.links otlrs last p := by
  unfold PlaysReply PlaysFirst newTeamLoader TeamLoader.playArgWith
  rw [mergeHEPKs_empty]
  rfl

omit [DecidableEq H] [MerkleHash H] [KeyHash H] in
/-- The leaf of a link is at the number of the link. -/
theorem getElem?_leaves (hpre : leaves₁ <+: leaves) {k : ℕ} (hk : k < leaves₁.length) :
    leaves₁[chainEldestSeqno + k - 1]? = leaves[chainEldestSeqno + k - 1]? := by
  obtain ⟨rest, rfl⟩ := hpre
  rw [chainEldestSeqno, Nat.add_sub_cancel_left, List.getElem?_append_left hk]

omit [MerkleHash H] [LinkFormat L H] [KeyHash H] in
theorem Chained.isSome_last {prev : Option H} {seqno : Seqno}
    (h : Chained otlrs links prev seqno last) (hne : links ≠ []) : last.isSome := by
  obtain ⟨init, link, rfl⟩ := (eq_nil_or_concat' links).resolve_left hne
  obtain ⟨b', hcheck⟩ := h {}
  obtain ⟨mid, b1, -, hlast⟩ := checkLinks_append hcheck
  obtain ⟨hsh, b2, -, hres⟩ := Action.bind_eq_ok.mp hlast
  cases hres
  rfl

/-- After the first links of a chain, a state can be saved if the members can be exported. -/
theorem PlaysFirst.isSome (h : PlaysFirst arg raw leaves links o₁ mid p₁) (hne : links ≠ []) :
    o₁ ≠ [] ∧ mid.isSome ∧ p₁.sctlsc.isSome ∧ (p₁.getIndexRange none).isSome := by
  have hlen := length_of_openedTeamLinks h.opened
  cases o₁ with
  | nil => exact absurd (length_eq_zero_iff.mp hlen.symm) hne
  | cons otlr otlrs =>
    have heldest : isEldest otlr.gc.chainer.base.seqno = true := by
      rw [h.chained.seqno_eq (i := 0) (by rw [← hlen]; simp) rfl]
      rfl
    obtain ⟨hsctlsc, hrange⟩ := playTeamLinks_isSome h.played heldest
    exact ⟨cons_ne_nil _ _, h.chained.isSome_last hne, hsctlsc, hrange⟩

/-- The number of the last link. -/
theorem PlaysFirst.getLast? (h : PlaysFirst arg raw leaves links o₁ mid p₁)
    {otlr : OpenTeamLinkRes H} (hlast : o₁.getLast? = some otlr) :
    otlr.gc.chainer.base.seqno + 1 = chainEldestSeqno + links.length := by
  have hlen := length_of_openedTeamLinks h.opened
  have hne : o₁ ≠ [] := by
    rintro rfl
    cases hlast
  have hpos : 0 < links.length := hlen ▸ length_pos_of_ne_nil hne
  rw [List.getLast?_eq_getElem?, hlen] at hlast
  rw [h.chained.seqno_eq (Nat.sub_lt hpos Nat.one_pos) hlast, Nat.add_assoc, Nat.sub_add_cancel hpos]

/-- The links of the two replies, in the chain that they come from. -/
theorem Cut.plays (hcut : Cut sv arg.teamID raw leaves raw₁ leaves₁ raw₂ leaves₂)
    (h : PlaysFirst arg raw leaves raw.links otlrs last p) :
    ∃ o₁ o₂ mid p₁ last2 p₂, o₁ ++ o₂ <+: otlrs ∧
      PlaysFirst arg raw leaves (raw₁.links ++ raw₂.links) (o₁ ++ o₂) last2 p₂ ∧
      PlaysFirst arg raw leaves raw₁.links o₁ mid p₁ ∧
      Plays (importHEPKSet raw.hepks : HEPKSet H) arg.host ⟨arg.teamID, none, leaves⟩ mid
        (chainEldestSeqno + raw₁.links.length) (rosterAfter {} o₁) p₁ raw₂.links o₂ last2 p₂ := by
  obtain ⟨rest, hrest⟩ := hcut.links
  rw [← hrest] at h
  obtain ⟨both, o3, last2, p₂, rfl, hboth, -⟩ := h.split
  obtain ⟨o₁, o₂, mid, p₁, rfl, hfirst, hsecond⟩ := hboth.split
  exact ⟨o₁, o₂, mid, p₁, last2, p₂, prefix_append _ _, hboth, hfirst, hsecond⟩

/-- If the ring and the roster agree after the first links, and the IDs are kept, then a new loader reads
the ring and the roster that the links have left. -/
theorem PlaysFirst.readTeamState (hfirst : PlaysFirst arg raw leaves raw₁.links o₁ mid p₁)
    (hne : raw₁.links ≠ []) (hname : ∃ b, teamNameBundle sv arg.teamID raw₁.teamnameUtf8 = .ok b)
    (hboxed : sv.readParcels boxed = .ok ())
    (hagree : toKeyGens p₁.ptks = (rosterAfter {} o₁).keyGens.getD ∅)
    (hids : KeepsIDs (rosterAfter {} o₁)) (b : BaseChainLoader H) :
    let l1 := (newTeamLoader arg : TeamLoader H X).afterChain raw₁ leaves₁ o₁ mid b p₁
    ∃ st roster, saveTeamState sv raw₁ boxed l1 = .ok st ∧ SavesTeam l1 boxed st ∧
      readTeamState sv arg.host (some st) = .ok (some (st, p₁.ptks, roster)) ∧
      SameRoster (rosterAfter {} o₁) roster := by
  intro l1
  obtain ⟨name, hname⟩ := hname
  obtain ⟨hotlrs, hmid, hsctlsc, hrange⟩ := hfirst.isSome hne
  obtain ⟨hcore, hmks, hgens⟩ := isSome_of_openedTeamLinks hfirst.opened hne
  have hkeyed := keyed_empty.openedTeamLinks hfirst.opened
  obtain ⟨members, roster, hexport, hroster, hsame⟩ :=
    hkeyed.load hcore hmks hids arg.host (toKeyGens p₁.ptks)
  obtain ⟨st, hst⟩ : ∃ st, saveTeamState sv raw₁ boxed l1 = .ok st :=
    saveTeamState_of_export hne hname hotlrs hmid hsctlsc hrange hexport
  have hsaves := savesTeam_of_saveTeamState hne hst
  obtain rfl : members = st.members := ok_unique hexport hsaves.members
  have hring : RingInOrder l1.player.ptks := ringInOrder_empty.playTeamLinks hfirst.played
  have hload : Roster.load (toKeyGens l1.player.ptks) st.members arg.host = .ok roster := hroster
  have hread := hsaves.readTeamState hring hboxed arg.host
  rw [hload] at hread
  refine ⟨st, roster, hst, hsaves, hread, ?_⟩
  -- the generations that are read are those of the ring
  obtain ⟨kg, hkg⟩ := isSome_iff_exists.mp hgens
  rw [hkg, getD_some] at hagree
  rwa [hagree, ← hkg] at hsame

/-- If the ring and the roster agree at the cut, and the IDs are kept, then a new loader resumes as if
it had played all links. -/
theorem Cut.resumesAs (hcut : Cut sv arg.teamID raw leaves raw₁ leaves₁ raw₂ leaves₂)
    (hboxed : sv.readParcels boxed = .ok ())
    (hboth : PlaysFirst arg raw leaves (raw₁.links ++ raw₂.links) (o₁ ++ o₂) last p₂)
    (hfirst : PlaysFirst arg raw leaves raw₁.links o₁ mid p₁)
    (hsecond : Plays (importHEPKSet raw.hepks : HEPKSet H) arg.host ⟨arg.teamID, none, leaves⟩ mid
      (chainEldestSeqno + raw₁.links.length) (rosterAfter {} o₁) p₁ raw₂.links o₂ last p₂)
    (hagree : toKeyGens p₁.ptks = (rosterAfter {} o₁).keyGens.getD ∅)
    (hids : KeepsIDs (rosterAfter {} o₁)) :
    ResumesAs sv arg boxed raw raw₁ leaves₁ raw₂ leaves₂ := by
  have hlen : (leaves₁ ++ leaves₂).length = raw₁.links.length + raw₂.links.length := by
    rw [length_append, hcut.length₁, hcut.length₂]
  -- one load of all links
  have hboth' : PlaysReply { raw with links := raw₁.links ++ raw₂.links } (leaves₁ ++ leaves₂)
      (newTeamLoader arg : TeamLoader H X) (o₁ ++ o₂) last p₂ := by
    refine playsReply_new.mpr (hboth.congr (fun _ _ _ _ _ _ => rfl) fun i hi => ?_)
    exact getElem?_leaves hcut.leaves (by rw [hlen, ← length_append]; exact hi)
  obtain ⟨b, hload⟩ := hboth'.playChain rfl
  -- the first of two loads
  have hpre1 : leaves₁ <+: leaves := (prefix_append _ _).trans hcut.leaves
  have hfirst' : PlaysReply raw₁ leaves₁ (newTeamLoader arg : TeamLoader H X) o₁ mid p₁ :=
    playsReply_new.mpr (hfirst.congr hcut.hepks₁ fun i hi => getElem?_leaves hpre1 (hcut.length₁ ▸ hi))
  obtain ⟨b1, hload1⟩ := hfirst'.playChain rfl
  obtain ⟨st, roster, hst, hsaves, hread, hroster⟩ :=
    hfirst.readTeamState hcut.nonempty hcut.name hboxed hagree hids b1
  -- the second one starts from what the first one has left, and plays the other links alike
  let l2 := (newTeamLoader arg : TeamLoader H X).resume (some (st, p₁.ptks, roster))
  have hplayer : SamePlayer none (some st.tir) p₁ l2.player := ⟨rfl, hsaves.tir.symm, hsaves.floor⟩
  have hpos : 0 < raw₁.links.length := length_pos_of_ne_nil hcut.nonempty
  obtain ⟨o2', q, hplays, hpost, hsame⟩ :=
    hsecond.same (Nat.lt_add_of_pos_right hpos) hroster hplayer
  have hleaves : ∀ i < raw₂.links.length, (leaves₁ ++ leaves₂)[chainEldestSeqno + raw₁.links.length + i - 1]?
        = leaves[chainEldestSeqno + raw₁.links.length + i - 1]? := by
    intro i hi
    rw [Nat.add_assoc chainEldestSeqno]
    exact getElem?_leaves hcut.leaves (by rw [hlen]; exact Nat.add_lt_add_left hi _)
  have hsecond' : PlaysReply raw₂ leaves₂ l2 o2' last q := by
    have hreply := hplays.congr hcut.hepks₂ hleaves
    have hhepks : mergeHEPKs l2.hepks (importHEPKSet raw₂.hepks)
        = mergeHEPKs (importHEPKSet raw₁.hepks) (importHEPKSet raw₂.hepks) :=
      congrArg (mergeHEPKs · _) (hsaves.hepks.trans (mergeHEPKs_empty _))
    have hmid : prevOf (l2.existing.map (·.chainState)) = mid := hsaves.lastHash.symm
    have hseqno : seqnoOf (l2.existing.map (·.chainState)) = chainEldestSeqno + raw₁.links.length := by
      have htail : o₁.getLast?.map (·.gc.chainer) = some st.tail := (or_none).symm.trans hsaves.tail
      obtain ⟨otlr, hotlr, htail⟩ := map_eq_some_iff.mp htail
      rw [← hfirst.getLast? hotlr, htail]
      rfl
    have harg : l2.playArgWith leaves₂ = ⟨arg.teamID, some st.tir, leaves₁ ++ leaves₂⟩ := by
      have hsaved : st.merkleLeaves = leaves₁ := hsaves.merkleLeaves
      change (⟨arg.teamID, some st.tir, st.merkleLeaves ++ leaves₂⟩ : TeamPlayArg H) = _
      rw [hsaved]
    unfold PlaysReply
    rw [hhepks, hmid, hseqno, harg]
    exact hreply
  obtain ⟨b2, hload2⟩ := hsecond'.playChain rfl
  refine ⟨_, _, l2.afterChain raw₂ leaves₂ o2' last b2 q, hload, hload1, ?_, ?_⟩
  · unfold resumeTeam
    rw [hst]
    exact Action.bind_eq_ok.mpr ⟨(), l2, loadExistingTeam_eq_ok.mpr ⟨_, hread, rfl⟩, hload2⟩
  have hafter := rosterAfter_append {} o₁ o₂
  refine ⟨?_, fun id => ?_, ?_, hsame.ptks, hsame.range, hsame.floor⟩
  · exact hpost.members.trans (congrArg Roster.members hafter.symm)
  · exact (hpost.keysOf id).trans (congrArg (Roster.keysOf · id) hafter.symm)
  · exact hpost.keyGens.trans (congrArg Roster.keyGens hafter.symm)

omit [MerkleHash H] [LinkHash L H] in
/-- A reply with the first links of a chain, and one with no more links. -/
theorem cut_nil {n : ℕ} (hne : raw.links.take n ≠ []) (hleaves : leaves.length = raw.links.length)
    (hname : ∃ b, teamNameBundle sv arg.teamID raw.teamnameUtf8 = .ok b) :
    Cut sv arg.teamID raw leaves { raw with links := raw.links.take n } (leaves.take n)
      { raw with links := [] } [] where
  nonempty := hne
  links := by
    rw [append_nil]
    exact take_prefix n raw.links
  leaves := by
    rw [append_nil]
    exact take_prefix n leaves
  length₁ := by rw [length_take, length_take, hleaves]
  length₂ := rfl
  hepks₁ _ _ _ _ _ _ := rfl
  hepks₂ _ hlink := absurd hlink not_mem_nil
  name := hname

/-- If a new loader resumes after the first links as if it had played them, then the ring and the roster
agree there, and the IDs are kept. -/
theorem PlaysFirst.of_resumesAs (h : PlaysFirst arg raw leaves raw₁.links o₁ mid p₁)
    (hne : raw₁.links ≠ []) (hhepks : raw₁.hepks = raw.hepks) (hlinks : raw₂.links = [])
    (hpre : leaves₁ <+: leaves) (hlen : leaves₁.length = raw₁.links.length)
    (hboxed : sv.readParcels boxed = .ok ())
    (hres : ResumesAs sv arg boxed raw raw₁ leaves₁ raw₂ [] ) :
    toKeyGens p₁.ptks = (rosterAfter {} o₁).keyGens.getD ∅ ∧ KeepsIDs (rosterAfter {} o₁) := by
  obtain ⟨l, l1, l', hload, hload1, hresume, hsame⟩ := hres
  rw [hlinks, append_nil, append_nil] at hload
  -- the two loads of the first links are the same
  have hplays := h.congr (fun _ _ _ _ _ _ => rfl) fun i hi => getElem?_leaves hpre (hlen ▸ hi)
  have hreply : PlaysReply { raw with links := raw₁.links } leaves₁ (newTeamLoader arg : TeamLoader H X)
      o₁ mid p₁ := playsReply_new.mpr hplays
  have hreply1 : PlaysReply raw₁ leaves₁ (newTeamLoader arg : TeamLoader H X) o₁ mid p₁ := by
    rw [playsReply_new, PlaysFirst, hhepks]
    exact hplays
  obtain ⟨b, hplay⟩ := hreply.playChain rfl
  obtain ⟨b1, hplay1⟩ := hreply1.playChain rfl
  obtain rfl := state_unique hload hplay
  obtain rfl := state_unique hload1 hplay1
  -- what the second loader has read is what it ends with
  unfold resumeTeam at hresume
  split at hresume
  · cases hresume
  · next st hst =>
    have hsaves := savesTeam_of_saveTeamState hne hst
    obtain ⟨⟨⟩, l2, hread, hrest⟩ := Action.bind_eq_ok.mp hresume
    obtain ⟨start, hstart, rfl⟩ := loadExistingTeam_eq_ok.mp hread
    have hring : RingInOrder p₁.ptks := ringInOrder_empty.playTeamLinks h.played
    have hstart' : (.ok start : Except CoreError (TeamStart H X)) =
        .ok ((Roster.load (toKeyGens p₁.ptks) st.members arg.host).toOption.map fun roster =>
            (st, p₁.ptks, roster)) :=
      hstart.symm.trans (hsaves.readTeamState hring hboxed arg.host)
    have hotlrs : ((newTeamLoader arg : TeamLoader H X).resume start).otlrs = [] := by
      cases start with
      | none | some start => rfl
    obtain ⟨otlrs, last, b2, q, hplays2, -, rfl⟩ := (playChain_iff hotlrs).mp hrest
    have hopened := hplays2.opened
    rw [hlinks] at hopened
    cases hopened
    obtain ⟨-, hmks, hgens⟩ := isSome_of_openedTeamLinks h.opened hne
    cases hroster : Roster.load (toKeyGens p₁.ptks) st.members arg.host with
    | error e =>
      -- a roster that cannot be read is empty
      rw [hroster] at hstart'
      cases hstart'
      have hnone : none = (rosterAfter {} o₁).keyGens := hsame.keyGens
      rw [← hnone] at hgens
      cases hgens
    | ok roster =>
      rw [hroster] at hstart'
      cases hstart'
      have hread : roster.keyGens = some (toKeyGens p₁.ptks) := (readTeamState_eq_some hstart).2
      have hkeyGens : roster.keyGens = (rosterAfter {} o₁).keyGens := hsame.keyGens
      have hmembers : roster.members = (rosterAfter {} o₁).members := hsame.members
      have hkept := (keyed_empty.openedTeamLinks h.opened).keepsIDs_of_load hmks hsaves.members hroster
      refine ⟨?_, fun id hid => hkept id (hmembers ▸ hid)⟩
      rw [← hkeyGens, hread]
      rfl

variable [LocationHash H]

/-- A first attempt whose checks succeed and whose links can be played has played a chain, with one leaf
for each link. -/
theorem playChain_of_attempt {r : TeamAttempt L H A} {l l1 : TeamLoader H X}
    (hprepare : prepareTeam sv none r (newTeamLoader arg) = (.ok (), l))
    (hcheck : checkTeamRes r l = (.ok (), l1))
    (hplay : playTeamLinks l1.playArg l1.otlrs l1.player = (.ok (), p)) :
    l1.base.merkleLeaves.length = r.raw.links.length ∧ ∃ l' : TeamLoader H X,
      playChain r.raw l1.base.merkleLeaves
          (newTeamLoader { arg with team := teamOf arg r }) = (.ok (), l') ∧
        l'.otlrs = l1.otlrs ∧ l'.rosterPost = l1.rosterPost ∧ l'.player = p := by
  have hready : TeamReady (teamStart sv arg.host none) arg {} (newTeamLoader arg : TeamLoader H X) := .new
  obtain ⟨-, rfl⟩ := (prepareTeam_eq_ok hready).mp hprepare
  rcases checkTeamRes_cases sv hready r with ⟨e, l', -, herror, -⟩ | ⟨otlrs, hopen, hchecked⟩
  · cases hcheck.symm.trans herror
  have hopened := of_bind_eq_ok hopen
  rcases hreply : checkReply "team_id" (teamChainArg ((teamOf arg r).getD 0) r.raw) none
    (teamReply r.raw) (otlrs.map (·.gc.chainer)) (newTeamLoader arg : TeamLoader H X).base with
    ⟨e | ⟨⟩, b⟩
  · cases hcheck.symm.trans (hchecked _ _ hreply)
  obtain rfl := state_unique hcheck (hchecked _ _ hreply)
  obtain ⟨⟨⟩, b1, hchain, hpaths⟩ := Action.bind_eq_ok.mp hreply
  obtain ⟨last, b2, hlinks, hlast⟩ := Action.bind_eq_ok.mp hchain
  cases hlast
  have hch := linkChainer_of_openedTeamLinks hopened
  -- the checks of the links leave the leaves alone
  obtain ⟨res, hashes, hall, -, -⟩ :=
    checkLinks_apply "team_id" none chainEldestSeqno (chainers_getElem hch)
  obtain rfl := state_unique hlinks (hall _)
  obtain ⟨leaves, rfl, -, hlen, -⟩ := checkMerklePaths_used rfl hpaths
  refine ⟨hlen, ?_⟩
  rw [← teamChainerAtIndex_eq] at hlinks
  have hplays : PlaysReply r.raw leaves
      (newTeamLoader { arg with team := teamOf arg r } : TeamLoader H X) otlrs last p :=
    ⟨hopened, chained_of_checkLinks hch hlinks, hplay⟩
  obtain ⟨b', hload⟩ := hplays.playChain rfl
  exact ⟨_, hload, rfl, rfl, rfl⟩

end Resume

/-! ## Two chains -/

namespace TeamSample

variable (keys : Bool)

/-- The reply with both links, and one with no more links. -/
def raw : TeamChain Link SymHash Unit := (reply keys).raw

def noMore : TeamChain Link SymHash Unit := { raw keys with links := [] }

/-- The leaves of the two links. -/
def leaves : List (MerkleLeaf SymHash) := (checked keys).base.merkleLeaves

/-- A loader that has played both links, and one that has resumed after them. -/
def loaded : TeamLoader SymHash Unit :=
  (playChain (raw keys) (leaves keys) (newTeamLoader arg)).2

def resumed : TeamLoader SymHash Unit :=
  (resumeTeam services (raw keys) () (noMore keys) [] (loaded keys)).2

theorem playChain_loaded (keys : Bool) :
    playChain (raw keys) (leaves keys) (newTeamLoader arg) = (.ok (), loaded keys) := by
  cases keys with
  | false | true => exact fst_eq_iff.mp (by decide +kernel)

end TeamSample

end Foks.Client
