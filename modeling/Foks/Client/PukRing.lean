import Foks.Lib.Sort
import Foks.Client.UserSteps

/-!
# The PUKs that a player holds

A player keeps the PUKs that it has added in three maps: by role and generation, by role, and the last
generation of each role. The maps are those of one list of PUKs, in the order in which they were added,
and for each role they are in the order of their generations.

`saveState` writes the PUKs in the order of a comparison, and a new loader adds them in that order. The
comparison is not always an order: `Role.Cmp` does not tell a member role from one of a lower level, and
the difference of two generations is taken as a signed number.
-/

namespace Foks.Client

open Lib Merkle List Finmap

variable {H α : Type} {puk : SharedPublicSuite H} {rk : RoleKey} {l : List (SharedPublicSuite H)}
  {ks : List (SharedKey H)}

/-! ## Adding PUKs -/

/-- The PUKs of a role. -/
def ofRole (rk : RoleKey) (l : List (SharedPublicSuite H)) : List (SharedPublicSuite H) :=
  l.filter (·.role = rk.exportRole)

theorem ofRole_append (rk : RoleKey) (l l' : List (SharedPublicSuite H)) :
    ofRole rk (l ++ l') = ofRole rk l ++ ofRole rk l' := filter_append ..

theorem ofRole_self (h : puk.role = rk.exportRole) : ofRole rk [puk] = [puk] :=
    filter_cons_of_pos (decide_eq_true h)

theorem ofRole_other {rk' : RoleKey} (h : puk.role = rk.exportRole) (hne : rk' ≠ rk) :
    ofRole rk' [puk] = [] := by
  refine filter_cons_of_neg fun heq => hne ?_
  exact RoleKey.exportRole_injective ((of_decide_eq_true heq).symm.trans h)

theorem mem_ofRole : puk ∈ ofRole rk l ↔ puk ∈ l ∧ puk.role = rk.exportRole := by
  rw [ofRole, mem_filter, decide_eq_true_eq]

/-- The entry of a map for a list: there is none for the empty list. -/
def entryOf {α : Type} : List α → Option (List α)
  | [] => none
  | x :: l => some (x :: l)

theorem entryOf_concat (l : List α) (x : α) : entryOf (l ++ [x]) = some (l ++ [x]) := by
  cases l <;> rfl

theorem entryOf_getD (l : List α) : (entryOf l).getD [] = l := by
  cases l <;> rfl

/-- The player holds the PUKs of the list, which were added in this order. -/
structure HoldsPuks (l : List (SharedPublicSuite H)) (p : UserPlayer H) : Prop where
  roles : ∀ puk ∈ l, ∃ rk : RoleKey, puk.role = rk.exportRole
  ordered (rk : RoleKey) : (ofRole rk l).Pairwise (·.gen < ·.gen)
  byRole (rk : RoleKey) : p.puksByRole.lookup rk = entryOf (ofRole rk l)
  gens (rk : RoleKey) : p.pukGens.lookup rk = (ofRole rk l).getLast?.map (·.gen)
  puks (rk : RoleKey) (g : Generation) : p.puks.lookup (rk, g) = (ofRole rk l).find? (·.gen = g)

theorem holdsPuks_empty : HoldsPuks [] ({} : UserPlayer H) :=
  ⟨forall_mem_nil _, fun _ => .nil, fun _ => rfl, fun _ => rfl, fun _ _ => rfl⟩

/-- The last PUK of a role has the highest generation. -/
theorem forall_gen_lt (h : l.Pairwise (·.gen < ·.gen)) {g : Generation} :
    ¬ l.getLast?.any (g ≤ ·.gen) ↔ ∀ puk ∈ l, puk.gen < g := by
  rcases eq_nil_or_concat l with rfl | ⟨l, last, rfl⟩
  · simp
  rw [concat_eq_append] at h ⊢
  rw [getLast?_concat, Option.any_some, decide_eq_true_eq, not_le]
  constructor
  · intro hlt puk hpuk
    rcases mem_append.mp hpuk with hpuk | hpuk
    · exact ((pairwise_append.mp h).2.2 puk hpuk last mem_cons_self).trans hlt
    · rwa [mem_singleton.mp hpuk]
  · exact fun hall => hall last (mem_append_right _ mem_cons_self)

section Holds

variable {l' : List (SharedPublicSuite H)} {p p' : UserPlayer H}

section

variable (h : HoldsPuks l p)

include h

/-- One more PUK is accepted if it is the newest one of its role. -/
theorem HoldsPuks.addPuk_eq_ok : addPuk puk p = (.ok (), p') ↔
      ∃ rk : RoleKey, puk.role = rk.exportRole ∧ (∀ old ∈ ofRole rk l, old.gen < puk.gen) ∧
          p' = p.takePuk rk puk := by
  rw [Client.addPuk_eq_ok]
  refine exists_congr fun rk => and_congr ?_ (and_congr_left fun _ => ?_)
  · constructor
    · exact fun hrk => (exportRole_of_importRole hrk).symm
    · exact fun hrole => hrole ▸ importRole_exportRole rk
  · rw [h.byRole, entryOf_getD, forall_gen_lt (h.ordered rk)]

theorem HoldsPuks.takePuk (hrole : puk.role = rk.exportRole)
    (hnew : ∀ old ∈ ofRole rk l, old.gen < puk.gen) :
    HoldsPuks (l ++ [puk]) (p.takePuk rk puk) := by
  have hall : (p.pukGens.lookup rk).all (· < puk.gen) := by
    rw [h.gens]
    cases hlast : (ofRole rk l).getLast? with
    | none => rfl
    | some last => exact decide_eq_true (hnew last (mem_of_getLast? hlast))
  refine ⟨?_, fun rk' => ?_, fun rk' => ?_, fun rk' => ?_, fun rk' g => ?_⟩
  · intro puk' hpuk'
    rcases mem_append.mp hpuk' with hpuk' | hpuk'
    · exact h.roles puk' hpuk'
    · rw [mem_singleton.mp hpuk']
      exact ⟨rk, hrole⟩
  all_goals
    rw [ofRole_append]
    by_cases heq : rk' = rk
  · subst heq
    rw [ofRole_self hrole, pairwise_append]
    refine ⟨h.ordered rk', pairwise_singleton .., fun old hold new hnew' => ?_⟩
    rw [mem_singleton.mp hnew']
    exact hnew old hold
  · rw [ofRole_other hrole heq, append_nil]
    exact h.ordered rk'
  · subst heq
    rw [ofRole_self hrole, entryOf_concat, UserPlayer.takePuk, lookup_insert, h.byRole, entryOf_getD]
  · rw [ofRole_other hrole heq, append_nil, UserPlayer.takePuk, lookup_insert_of_ne _ heq, h.byRole]
  · subst heq
    rw [ofRole_self hrole, getLast?_concat, UserPlayer.takePuk, if_pos hall, lookup_insert]
    rfl
  · rw [ofRole_other hrole heq, append_nil, UserPlayer.takePuk, if_pos hall, lookup_insert_of_ne _ heq, h.gens]
  · subst heq
    rw [ofRole_self hrole, find?_append, UserPlayer.takePuk]
    by_cases hg : g = puk.gen
    · subst hg
      have hnone : (ofRole rk' l).find? (·.gen = puk.gen) = none :=
        find?_eq_none.mpr fun old hold heq =>
          (hnew old hold).ne (of_decide_eq_true heq)
      rw [hnone]
      simp
    have hne : (rk', g) ≠ (rk', puk.gen) := fun heq => hg (Prod.mk.inj heq).2
    rw [lookup_insert_of_ne _ hne, h.puks,
      find?_cons_of_neg fun heq => hg (of_decide_eq_true heq).symm, find?_nil, Option.or_none]
  · have hne : (rk', g) ≠ (rk, puk.gen) := fun hkey => heq (Prod.mk.inj hkey).1
    rw [ofRole_other hrole heq, append_nil, UserPlayer.takePuk, lookup_insert_of_ne _ hne, h.puks]

theorem HoldsPuks.addPuks (hadd : addPuks l' p = (.ok (), p')) : HoldsPuks (l ++ l') p' := by
  induction l' generalizing l p with
  | nil =>
    cases hadd
    rwa [append_nil]
  | cons puk l' ih =>
    obtain ⟨⟨⟩, p1, hpuk, hrest⟩ := Action.bind_eq_ok.mp hadd
    obtain ⟨rk, hrole, hnew, rfl⟩ := h.addPuk_eq_ok.mp hpuk
    have hholds := ih (h.takePuk hrole hnew) hrest
    rwa [append_assoc] at hholds

/-- PUKs are accepted if those of each role come in the order of their generations. -/
theorem HoldsPuks.addPuks_accepts
    (hroles : ∀ puk ∈ l', ∃ rk : RoleKey, puk.role = rk.exportRole)
    (hordered : ∀ rk, (ofRole rk (l ++ l')).Pairwise (·.gen < ·.gen)) :
    ∃ p', Client.addPuks l' p = (.ok (), p') := by
  induction l' generalizing l p with
  | nil => exact ⟨p, rfl⟩
  | cons puk l' ih =>
    rw [forall_mem_cons] at hroles
    obtain ⟨⟨rk, hrole⟩, hroles⟩ := hroles
    have hnew : ∀ old ∈ ofRole rk l, old.gen < puk.gen := by
      intro old hold
      have hpair := hordered rk
      rw [ofRole_append] at hpair
      refine (pairwise_append.mp hpair).2.2 old hold puk ?_
      exact mem_ofRole.mpr ⟨mem_cons_self, hrole⟩
    have hsplit : l ++ puk :: l' = l ++ [puk] ++ l' := by
      rw [append_assoc, singleton_append]
    rw [hsplit] at hordered
    obtain ⟨p', hrest⟩ := ih (h.takePuk hrole hnew) hroles hordered
    exact ⟨p', Action.bind_eq_ok.mpr ⟨(), _, h.addPuk_eq_ok.mpr ⟨rk, hrole, hnew, rfl⟩, hrest⟩⟩

/-- Players that hold the same PUKs of each role have the same maps. -/
theorem HoldsPuks.maps_eq (h' : HoldsPuks l' p') (hsame : ∀ rk, ofRole rk l' = ofRole rk l) :
    p'.puks = p.puks ∧ p'.puksByRole = p.puksByRole ∧ p'.pukGens = p.pukGens := by
  refine ⟨ext_lookup fun ⟨rk, g⟩ => ?_, ext_lookup fun rk => ?_,
    ext_lookup fun rk => ?_⟩
  · rw [h.puks, h'.puks, hsame]
  · rw [h.byRole, h'.byRole, hsame]
  · rw [h.gens, h'.gens, hsame]

end

end Holds

/-! ## The order in which PUKs are saved -/

/-- The comparison with which `saveState` sorts the PUKs: by role, then by the difference of the
generations as a signed number. -/
def comparePuks (x y : SharedKey H) : ℤ :=
  let roleCmp := x.role.cmp y.role
  if roleCmp ≠ 0 then roleCmp else int64 (x.gen - y.gen)

/-- The PUKs of each role come in the order of their generations. -/
def InOrder (ks : List (SharedKey H)) : Prop :=
  ks.Pairwise fun x y => x.role = y.role → x.gen < y.gen

/-- There is at most one PUK of each role, or the comparison is an order of the PUKs that puts the
generations of each role in order. -/
def PuksInOrder (ks : List (SharedKey H)) : Prop :=
  (∀ x ∈ ks, ∀ y ∈ ks, x.role = y.role → x = y) ∨ StrictWeak comparePuks (ks : Multiset (SharedKey H)) ∧
      ∀ x ∈ ks, ∀ y ∈ ks, x.role = y.role → x.gen < y.gen → comparePuks x y < 0

instance [DecidableEq H] (ks : List (SharedKey H)) : Decidable (PuksInOrder ks) :=
  inferInstanceAs (Decidable (_ ∨ _))

theorem InOrder.gen_ne (h : InOrder ks) {x y : SharedKey H} (hx : x ∈ ks) (hy : y ∈ ks) (hne : x ≠ y)
    (hrole : x.role = y.role) : x.gen ≠ y.gen := by
  have hsymm : Std.Symm fun x y : SharedKey H => x.role = y.role → x.gen ≠ y.gen :=
    ⟨fun _ _ hxy hrole => (hxy hrole.symm).symm⟩
  have hpair : ks.Pairwise fun x y => x.role = y.role → x.gen ≠ y.gen :=
    h.imp fun hlt hrole => (hlt hrole).ne
  exact hpair.forall hx hy hne hrole

theorem InOrder.nodup (h : InOrder ks) : ks.Nodup :=
  h.imp fun hlt heq => (hlt (congrArg SharedKey.role heq)).ne (congrArg SharedKey.gen heq)

/-- All orders in which the PUKs may be saved can be read again if and only if the comparison puts the
PUKs of each role in order. -/
theorem inOrder_iff_puksInOrder (h : InOrder ks) :
    (∀ saved, Sorts comparePuks (ks : Multiset (SharedKey H)) saved → InOrder saved) ↔ PuksInOrder ks := by
  constructor
  · intro hall
    by_contra hnot
    rw [PuksInOrder, not_or, not_and] at hnot
    obtain ⟨htwo, hbad⟩ := hnot
    -- two PUKs of one role that may be saved in the wrong order
    obtain ⟨x, hx, y, hy, hrole, hlt, hcmp⟩ : ∃ x ∈ ks, ∃ y ∈ ks, x.role = y.role ∧ x.gen < y.gen ∧
        (StrictWeak comparePuks (ks : Multiset (SharedKey H)) → ¬ comparePuks x y < 0) := by
      by_cases hweak : StrictWeak comparePuks (ks : Multiset (SharedKey H))
      · have hpair := hbad hweak
        push Not at hpair
        obtain ⟨x, hx, y, hy, hrole, hlt, hcmp⟩ := hpair
        exact ⟨x, hx, y, hy, hrole, hlt, fun _ => not_lt.mpr hcmp⟩
      push Not at htwo
      obtain ⟨x, hx, y, hy, hrole, hne⟩ := htwo
      rcases (h.gen_ne hx hy hne hrole).lt_or_gt with hlt | hlt
      · exact ⟨x, hx, y, hy, hrole, hlt, fun h' => absurd h' hweak⟩
      · exact ⟨y, hy, x, hx, hrole.symm, hlt, fun h' => absurd h' hweak⟩
    have hne : x ≠ y := fun heq => hlt.ne (congrArg SharedKey.gen heq)
    obtain ⟨saved, hsaved, hsub⟩ :=
      exists_sorts_before (Multiset.mem_coe.mpr hx) (Multiset.mem_coe.mpr hy) hne hcmp
    have hwrong := pairwise_pair.mp ((hall saved hsaved).sublist hsub)
    exact absurd (hwrong hrole.symm) hlt.not_gt
  · intro horder saved hsaved
    have hperm : saved.Perm ks := Multiset.coe_eq_coe.mp hsaved.elements
    have hnodup : saved.Nodup := hperm.nodup_iff.mpr h.nodup
    rcases horder with hone | ⟨hweak, hright⟩
    · refine hnodup.imp_of_mem fun {x y} hx hy hne hrole => ?_
      exact absurd (hone x (hperm.mem_iff.mp hx) y (hperm.mem_iff.mp hy) hrole) hne
    refine ((hsaved.sorted hweak).and hnodup).imp_of_mem fun {x y} hx hy hsorted hrole => ?_
    have hx := hperm.mem_iff.mp hx
    have hy := hperm.mem_iff.mp hy
    rcases (h.gen_ne hx hy hsorted.2 hrole).lt_or_gt with hlt | hlt
    · exact hlt
    · exact absurd (hright y hy x hx hrole.symm hlt) hsorted.1

/-! ## PUKs that are read again -/

section Read

variable {p : UserPlayer H} {hepks : HEPKSet H} {saved : List (SharedKey H)}

/-- The order of the PUKs of each role, for all roles at once. -/
theorem ordered_iff_inOrder (hroles : ∀ puk ∈ l, ∃ rk : RoleKey, puk.role = rk.exportRole) :
    (∀ rk, (ofRole rk l).Pairwise (·.gen < ·.gen)) ↔ InOrder (l.map (·.toSharedKey)) := by
  unfold InOrder ofRole
  simp only [pairwise_filter, pairwise_map, decide_eq_true_eq]
  constructor
  · intro h
    induction l with
    | nil => exact .nil
    | cons puk l ih =>
      rw [forall_mem_cons] at hroles
      obtain ⟨⟨rk, hrk⟩, hroles⟩ := hroles
      refine .cons (fun puk' hpuk' hrole => ?_) (ih hroles fun rk => (pairwise_cons.mp (h rk)).2)
      exact (pairwise_cons.mp (h rk)).1 puk' hpuk' hrk (hrole ▸ hrk)
  · exact fun h rk => h.imp fun hlt hx hy => hlt (hx.trans hy.symm)

/-- The PUKs in the map of a player are those of the list. -/
theorem HoldsPuks.values_eq (h : HoldsPuks l p) : p.puks.values = (l : Multiset (SharedPublicSuite H)) := by
  have hfind {rk : RoleKey} {g : Generation} {puk : SharedPublicSuite H}
      (hpuk : p.puks.lookup (rk, g) = some puk) : puk ∈ ofRole rk l ∧ puk.gen = g := by
    rw [h.puks] at hpuk
    have hgen := find?_some hpuk
    rw [decide_eq_true_eq] at hgen
    exact ⟨mem_of_find?_eq_some hpuk, hgen⟩
  have hnodup : l.Nodup := by
    refine (((ordered_iff_inOrder h.roles).mp h.ordered).nodup).of_map _
  refine (Multiset.Nodup.ext (Map.nodup_values fun k k' puk hk hk' => ?_)
    (Multiset.coe_nodup.mpr hnodup)).mpr fun puk => ?_
  · obtain ⟨hmem, hgen⟩ := hfind hk
    obtain ⟨hmem', hgen'⟩ := hfind hk'
    have hrole := (mem_ofRole.mp hmem).2.symm.trans (mem_ofRole.mp hmem').2
    exact Prod.ext (RoleKey.exportRole_injective hrole) (hgen.symm.trans hgen')
  rw [Map.mem_values]
  constructor
  · rintro ⟨⟨rk, g⟩, hpuk⟩
    exact (mem_ofRole.mp (hfind hpuk).1).1
  · intro hpuk
    obtain ⟨rk, hrk⟩ := h.roles puk hpuk
    refine ⟨(rk, puk.gen), ?_⟩
    rw [h.puks]
    have hmem : puk ∈ ofRole rk l := mem_ofRole.mpr ⟨hpuk, hrk⟩
    cases hfound : (ofRole rk l).find? (·.gen = puk.gen) with
    | none => exact absurd (decide_eq_true rfl) (find?_eq_none.mp hfound puk hmem)
    | some puk' =>
      -- there is only one PUK of this generation
      have hmem' := mem_of_find?_eq_some hfound
      have hgen := find?_some hfound
      rw [decide_eq_true_eq] at hgen
      refine congrArg some (not_not.mp fun hne => ?_)
      have hsymm : Std.Symm fun x y : SharedPublicSuite H => x.gen ≠ y.gen :=
        ⟨fun _ _ hxy => hxy.symm⟩
      have hpair : (ofRole rk l).Pairwise fun x y => x.gen ≠ y.gen :=
        (h.ordered rk).imp fun hlt => hlt.ne
      exact hpair.forall hmem' hmem hne hgen

theorem readPuks_eq [DecidableEq H] (h : ∀ puk ∈ l, hepks.lookup puk.hepkFp = some puk.hepk) :
    readPuks hepks (l.map (·.toSharedKey)) = addPuks l := by
  induction l with
  | nil => rfl
  | cons puk l ih =>
    rw [forall_mem_cons] at h
    rw [map_cons, readPuks, h.1, ih h.2]
    rfl

/-- The PUKs are saved without their keys for encryption, which are found again. -/
theorem exists_suites [DecidableEq H] (h : ∀ puk ∈ l, hepks.lookup puk.hepkFp = some puk.hepk)
    (hsaved : saved.Perm (l.map (·.toSharedKey))) :
    ∃ l' : List (SharedPublicSuite H), l'.Perm l ∧ saved = l'.map (·.toSharedKey) := by
  let suite (k : SharedKey H) : Option (SharedPublicSuite H) :=
    (hepks.lookup k.hepkFp).map fun hepk => ⟨k, hepk⟩
  have hsuite : ∀ puk ∈ l, suite puk.toSharedKey = some puk := by
    intro puk hpuk
    dsimp only [suite]
    rw [h puk hpuk]
    rfl
  refine ⟨saved.filterMap suite, ?_, ?_⟩
  · refine (hsaved.filterMap suite).trans (.of_eq ?_)
    rw [filterMap_map]
    exact (filterMap_congr hsuite).trans filterMap_some
  rw [map_filterMap]
  refine (filterMap_some.symm.trans (filterMap_congr fun k hk => ?_))
  obtain ⟨puk, hpuk, rfl⟩ := mem_map.mp (hsaved.mem_iff.mp hk)
  rw [hsuite puk hpuk]
  rfl

theorem addPuks_stalePUKs {p' : UserPlayer H} (hstale : p.stalePUKs = ∅)
    (h : addPuks l p = (.ok (), p')) : p'.stalePUKs = ∅ := by
  induction l generalizing p with
  | nil =>
    cases h
    exact hstale
  | cons puk l ih =>
    obtain ⟨⟨⟩, p1, hpuk, hrest⟩ := Action.bind_eq_ok.mp h
    obtain ⟨rk, -, -, rfl⟩ := addPuk_eq_ok.mp hpuk
    refine ih ?_ hrest
    rw [UserPlayer.takePuk, hstale]
    exact Finset.erase_empty rk

variable [DecidableEq H] {q q' : UserPlayer H} (h : HoldsPuks l p)
  (hhepks : ∀ puk ∈ l, hepks.lookup puk.hepkFp = some puk.hepk)
  (hsaved : saved.Perm (l.map (·.toSharedKey))) (hnew : HoldsPuks [] q)

include h hhepks hsaved hnew

/-- A player without PUKs that reads those of another one: it holds them in the end if and only if they
are saved in order. -/
theorem HoldsPuks.readPuks_iff : (∃ q', readPuks hepks saved q = (.ok (), q')) ↔ InOrder saved := by
  obtain ⟨l', hperm, rfl⟩ := exists_suites hhepks hsaved
  have hroles : ∀ puk ∈ l', ∃ rk : RoleKey, puk.role = rk.exportRole :=
    fun puk hpuk => h.roles puk (hperm.mem_iff.mp hpuk)
  rw [readPuks_eq fun puk hpuk => hhepks puk (hperm.mem_iff.mp hpuk), ← ordered_iff_inOrder hroles]
  constructor
  · rintro ⟨q', hq'⟩
    exact (hnew.addPuks hq').ordered
  · exact fun hordered => hnew.addPuks_accepts hroles hordered

theorem HoldsPuks.readPuks (hstale : q.stalePUKs = ∅) (hread : readPuks hepks saved q = (.ok (), q')) :
    q' = { q with puks := p.puks, puksByRole := p.puksByRole, pukGens := p.pukGens } := by
  obtain ⟨l', hperm, rfl⟩ := exists_suites hhepks hsaved
  rw [readPuks_eq fun puk hpuk => hhepks puk (hperm.mem_iff.mp hpuk)] at hread
  have hholds := hnew.addPuks hread
  have hsame (rk : RoleKey) : ofRole rk l' = ofRole rk l :=
    (hperm.filter _).eq_of_pairwise (fun x y _ _ hxy hyx => absurd hxy hyx.not_gt)
      (hholds.ordered rk) (h.ordered rk)
  obtain ⟨hpuks, hbyRole, hgens⟩ := h.maps_eq hholds hsame
  have hframe := state_unique hread (addPuks_frame ⟨rfl, rfl, rfl, rfl⟩ hread)
  rw [hframe]
  unfold UserPlayer.withPuks
  rw [hpuks, hbyRole, hgens, addPuks_stalePUKs hstale hread, ← hstale]

end Read

end Foks.Client
