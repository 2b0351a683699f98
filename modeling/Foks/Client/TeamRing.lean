import Foks.Client.TeamKeys

/-!
# Saving the keys of a team

The key ring of a team is saved as one list, role by role (`TeamKeyRing.Export`), and read back with
`AddPub`, key by key. A key is saved with who replaced it; `AddPub` sets this once more when it adds the
next key, from what the next key says of the link that it came from.
-/

namespace Foks.Client

open Lib Merkle List Option Finmap Option

variable {H : Type} {k : SharedKeyWithInfo H} {pub : List (SharedKeyWithInfo H)} {r : TeamKeyRing H}

/-! ## Keys in order -/

/-- Who replaces a key: the link that adds the next one. -/
def replacedBy (next : Option (SharedKeyWithInfo H)) : Option (RevokeInfo H) :=
  next.map fun k => ⟨k.pi.signer, k.pi.chain⟩

/-- The keys of a role: from the first generation on, each with who replaced it. The first one comes
without, since `AddPub` compares the number of keys with the first generation. -/
structure RoleKeys (rk : RoleKey) (pub : List (SharedKeyWithInfo H)) : Prop where
  nonempty : pub ≠ []
  role (i : ℕ) (k : SharedKeyWithInfo H) : pub[i]? = some k → k.sk.role = rk.exportRole
  gen (i : ℕ) (k : SharedKeyWithInfo H) : pub[i]? = some k → k.sk.gen = i + firstGeneration
  ri (i : ℕ) (k : SharedKeyWithInfo H) : pub[i]? = some k →
    k.ri = if i = 0 then none else replacedBy pub[i + 1]?

/-- A ring with the keys of each role in order. -/
def RingInOrder (r : TeamKeyRing H) : Prop := ∀ rk pub, r.lookup rk = some pub → RoleKeys rk pub

theorem ringInOrder_empty : RingInOrder (∅ : TeamKeyRing H) := by
  intro rk pub h
  cases h

/-- The keys of a role before `AddPub` appends the key `k`. -/
def replaceLast (k : SharedKeyWithInfo H) (pub : List (SharedKeyWithInfo H)) : List (SharedKeyWithInfo H) :=
  if firstGeneration < pub.length then
    pub.modify (pub.length - 1) fun last => { last with ri := some ⟨k.pi.signer, k.pi.chain⟩ }
  else pub

section Replace

theorem length_replaceLast : (replaceLast k pub).length = pub.length := by
  unfold replaceLast
  split
  · rw [length_modify]
  · rfl

/-- The last key, unless it is the first one, is replaced by the new key. -/
theorem getElem?_replaceLast (i : ℕ) : (replaceLast k pub)[i]? = pub[i]?.map fun x =>
      if i ≠ 0 ∧ i + 1 = pub.length then { x with ri := replacedBy (some k) } else x := by
  unfold replaceLast
  split
  · next hlength =>
    have hlength' : 1 < pub.length := hlength
    have hlast : pub.length - 1 = i ↔ i ≠ 0 ∧ i + 1 = pub.length := by omega
    rw [getElem?_modify]
    simp only [hlast]
    rfl
  · next hlength =>
    have hlength' : ¬ 1 < pub.length := hlength
    have hnot : ¬ (i ≠ 0 ∧ i + 1 = pub.length) := by omega
    simp only [hnot, if_false, Option.map_id']

theorem replacedBy_replaceLast (i : ℕ) : replacedBy (replaceLast k pub)[i]? = replacedBy pub[i]? := by
  rw [getElem?_replaceLast, replacedBy, Option.map_map]
  refine congrFun (congrArg Option.map (funext fun x => ?_)) _
  split
  · rfl
  · rfl

/-- Nothing changes if the keys already say that the new key comes next. -/
theorem replaceLast_eq_self (h : ∀ i x, i ≠ 0 → i + 1 = pub.length → pub[i]? = some x →
    x.ri = replacedBy (some k)) : replaceLast k pub = pub := by
  refine ext_getElem? fun i => ?_
  rw [getElem?_replaceLast]
  rcases hx : pub[i]? with _ | x
  · rfl
  rw [map_some]
  split
  · next hi => rw [← h i x hi.1 hi.2 hx]
  · rfl

end Replace

section Add

variable {r' : TeamKeyRing H}

/-- What `AddPub` does. -/
theorem addPub_iff : addPub k r = .ok r' ↔ ∃ rk, importRole k.sk.role = .ok rk ∧
      ((r.lookup rk).getD []).length + firstGeneration = k.sk.gen ∧
      r' = r.insert rk (replaceLast k ((r.lookup rk).getD []) ++ [k]) := by
  unfold addPub
  simp only [bind_eq_ok, refuse_eq_ok, exists_const, not_not]
  constructor
  · rintro ⟨rk, hrk, hgen, hres⟩
    exact ⟨rk, hrk, hgen, (Except.ok.inj hres).symm⟩
  · rintro ⟨rk, hrk, hgen, rfl⟩
    exact ⟨rk, hrk, hgen, rfl⟩

/-- A key after another one was added: the new one, or one from before. -/
theorem getElem?_concat_eq_some {i : ℕ} {x : SharedKeyWithInfo H}
    (h : (replaceLast k pub ++ [k])[i]? = some x) :
    i = pub.length ∧ x = k ∨ i < pub.length ∧ ∃ y, pub[i]? = some y ∧
      x = if i ≠ 0 ∧ i + 1 = pub.length then { y with ri := replacedBy (some k) } else y := by
  rcases Nat.lt_or_ge i pub.length with hi | hi
  · rw [getElem?_append_left (length_replaceLast.symm ▸ hi), getElem?_replaceLast] at h
    obtain ⟨y, hy, rfl⟩ := map_eq_some_iff.mp h
    exact .inr ⟨hi, y, hy, rfl⟩
  rw [getElem?_append_right (length_replaceLast.symm ▸ hi), length_replaceLast, getElem?_singleton] at h
  split at h
  · next hzero => exact .inl ⟨by omega, (some.inj h).symm⟩
  · cases h

theorem replacedBy_concat {i : ℕ} (hi : i < pub.length) : replacedBy (replaceLast k pub ++ [k])[i + 1]? =
      if i + 1 = pub.length then replacedBy (some k) else replacedBy pub[i + 1]? := by
  split
  · next hlast =>
    rw [hlast, getElem?_append_right length_replaceLast.le, length_replaceLast, Nat.sub_self]
    rfl
  · next hlast =>
    rw [getElem?_append_left (by rw [length_replaceLast]; omega), replacedBy_replaceLast]

/-- A new key comes after the keys of its role. -/
theorem roleKeys_concat {rk : RoleKey} (h : pub ≠ [] → RoleKeys rk pub) (hrole : k.sk.role = rk.exportRole)
    (hgen : pub.length + firstGeneration = k.sk.gen) (hnew : k.ri = none) :
    RoleKeys rk (replaceLast k pub ++ [k]) where
  nonempty := append_ne_nil_of_right_ne_nil _ (cons_ne_nil k [])
  role i x hx := by
    obtain ⟨rfl, rfl⟩ | ⟨hi, y, hy, rfl⟩ := getElem?_concat_eq_some hx
    · exact hrole
    have hkeys := (h (ne_nil_of_length_pos (Nat.zero_lt_of_lt hi))).role i y hy
    split
    · exact hkeys
    · exact hkeys
  gen i x hx := by
    obtain ⟨rfl, rfl⟩ | ⟨hi, y, hy, rfl⟩ := getElem?_concat_eq_some hx
    · exact hgen.symm
    have hkeys := (h (ne_nil_of_length_pos (Nat.zero_lt_of_lt hi))).gen i y hy
    split
    · exact hkeys
    · exact hkeys
  ri i x hx := by
    obtain ⟨rfl, rfl⟩ | ⟨hi, y, hy, rfl⟩ := getElem?_concat_eq_some hx
    · -- no key comes after the new one
      rw [getElem?_eq_none (by rw [length_append, length_replaceLast]; rfl), hnew]
      split
      · rfl
      · rfl
    have hkeys := (h (ne_nil_of_length_pos (Nat.zero_lt_of_lt hi))).ri i y hy
    rw [replacedBy_concat hi]
    by_cases hzero : i = 0
    · rw [if_neg (fun hlast => hlast.1 hzero), if_pos hzero, hkeys, if_pos hzero]
    rw [if_neg hzero]
    split
    · next hlast => rw [if_pos hlast.2]
    · next hlast => rw [if_neg (fun h => hlast ⟨hzero, h⟩), hkeys, if_neg hzero]

/-- A key that was just added keeps the ring in order. -/
theorem RingInOrder.addPub (h : RingInOrder r) (hnew : k.ri = none) (hadd : addPub k r = .ok r') :
    RingInOrder r' := by
  obtain ⟨rk, hrk, hgen, rfl⟩ := addPub_iff.mp hadd
  intro rk' pub hpub
  obtain ⟨rfl, rfl⟩ | ⟨-, hpub⟩ := Map.lookup_insert_cases hpub
  · refine roleKeys_concat (fun hkeys => ?_) (exportRole_of_importRole hrk).symm hgen hnew
    cases hold : r.lookup rk' with
    | none =>
      rw [hold] at hkeys
      exact absurd rfl hkeys
    | some old => exact h rk' old hold
  · exact h rk' pub hpub

end Add

/-! ## Playing the links -/

section Play

variable {a : TeamPlayArg H} {p p' : TeamPlayer H}

theorem RingInOrder.playTeamStep {otlr : OpenTeamLinkRes H} (h : RingInOrder p.ptks)
    (hplay : playTeamStep a otlr p = (.ok (), p')) : RingInOrder p'.ptks := by
  obtain ⟨pi, p1, p2, hadd, hp1, hp2⟩ := playTeamStep_ptks hplay
  obtain ⟨ptks, hfold, rfl⟩ := addPubs_iff.mp hadd
  rw [hp2]
  rw [← hp1] at h
  exact foldlM_invariant (fun sk _ r r' hstep hr => hr.addPub rfl hstep) hfold h

/-- Playing links keeps the ring in order. -/
theorem RingInOrder.playTeamLinks {otlrs : List (OpenTeamLinkRes H)} (h : RingInOrder p.ptks)
    (hplay : playTeamLinks a otlrs p = (.ok (), p')) : RingInOrder p'.ptks := by
  induction otlrs generalizing p with
  | nil =>
    cases hplay
    exact h
  | cons otlr otlrs ih =>
    obtain ⟨v, hstep, hrest⟩ := playTeamLinks_cons.mp hplay
    exact ih (h.playTeamStep hstep) hrest

end Play

/-! ## The end of a key -/

section Ends

/-- Some role has a second generation. -/
def Rotated (r : TeamKeyRing H) : Prop := ∃ rk pub, r.lookup rk = some pub ∧ firstGeneration < pub.length

/-- Every key says which link added the next one of its role; the last one says nothing. -/
def Ends (r : TeamKeyRing H) : Prop :=
  ∀ rk pub, r.lookup rk = some pub → ∀ i k, pub[i]? = some k → k.ri = replacedBy pub[i + 1]?

theorem rotated_addPub {r' : TeamKeyRing H} (hadd : addPub k r = .ok r') :
    Rotated r' ↔ Rotated r ∨ k.sk.gen ≠ firstGeneration := by
  obtain ⟨rk, -, hgen, rfl⟩ := addPub_iff.mp hadd
  have hlength : firstGeneration < (replaceLast k ((r.lookup rk).getD []) ++ [k]).length ↔
      k.sk.gen ≠ firstGeneration := by
    have hnat : ∀ n : ℕ, 1 < n + 1 ↔ n + 1 ≠ 1 := by omega
    rw [length_append, length_replaceLast, ← hgen]
    exact hnat _
  constructor
  · rintro ⟨rk', pub, hpub, hlt⟩
    obtain ⟨rfl, rfl⟩ | ⟨-, hpub⟩ := Map.lookup_insert_cases hpub
    · exact .inr (hlength.mp hlt)
    · exact .inl ⟨rk', pub, hpub, hlt⟩
  · intro h
    by_cases hnew : k.sk.gen ≠ firstGeneration
    · exact ⟨rk, _, lookup_insert _, hlength.mpr hnew⟩
    obtain ⟨rk', pub, hpub, hlt⟩ := h.resolve_right hnew
    have hne : rk' ≠ rk := by
      rintro rfl
      rw [hpub, not_not.mp hnew] at hgen
      exact absurd (hgen ▸ hlt) (Nat.not_lt_of_le (Nat.le_add_right _ _))
    exact ⟨rk', pub, (lookup_insert_of_ne _ hne).trans hpub, hlt⟩

variable {a : TeamPlayArg H} {p p' : TeamPlayer H} {otlrs : List (OpenTeamLinkRes H)}

theorem rotated_playTeamLinks (hplay : playTeamLinks a otlrs p = (.ok (), p')) :
    Rotated p'.ptks ↔ Rotated p.ptks ∨ ∃ otlr ∈ otlrs, ∃ sk ∈ otlr.sharedKeys, sk.gen ≠ firstGeneration := by
  induction otlrs generalizing p with
  | nil =>
    cases hplay
    simp
  | cons otlr otlrs ih =>
    obtain ⟨v, hstep, hrest⟩ := playTeamLinks_cons.mp hplay
    obtain ⟨pi, p1, p2, hadd, hp1, hp2⟩ := playTeamStep_ptks hstep
    obtain ⟨ptks, hfold, rfl⟩ := addPubs_iff.mp hadd
    have hlink := foldlM_iff (fun r sk r' hstep => rotated_addPub hstep) hfold
    rw [ih hrest, hp2, hlink, hp1]
    simp only [mem_cons, exists_eq_or_imp]
    exact or_assoc

/-- The first key of a role never says that it was replaced. -/
theorem RingInOrder.ends_iff (h : RingInOrder r) : Ends r ↔ ¬ Rotated r := by
  constructor
  · rintro hends ⟨rk, pub, hpub, hlt⟩
    have hlt' : 1 < pub.length := hlt
    have hfirst : pub[0]? = some pub[0] := getElem?_eq_getElem _
    have hri := hends rk pub hpub 0 _ hfirst
    rw [(h rk pub hpub).ri 0 _ hfirst, getElem?_eq_getElem hlt'] at hri
    cases hri
  · intro hrot rk pub hpub i k hk
    rw [(h rk pub hpub).ri i k hk]
    split
    · next hi =>
      have hnone : pub[i + 1]? = none :=
        getElem?_eq_none (not_lt.mp fun hlt => hrot ⟨rk, pub, hpub, by subst hi; exact hlt⟩)
      rw [hnone]
      rfl
    · rfl

/-- **The end of a key.** The keys of a team say when they end as long as no role gets a second
generation: a key is told so only if it is not the first of its role. -/
theorem ends_playTeamLinks_iff (h : RingInOrder p.ptks) (hplay : playTeamLinks a otlrs p = (.ok (), p')) :
    Ends p'.ptks ↔ ¬ Rotated p.ptks ∧ ∀ otlr ∈ otlrs, ∀ sk ∈ otlr.sharedKeys, sk.gen = firstGeneration := by
  rw [(h.playTeamLinks hplay).ends_iff, rotated_playTeamLinks hplay, not_or]
  simp only [not_exists, not_and, not_not]

open TeamSample in
theorem ends_playTeamLinks_iff_create : ∃ p,
    playTeamLinks (checked true).playArg ((checked true).otlrs.take 1)
        (checked true).player = (.ok (), p) ∧ Ends p.ptks := by
  have hplay : playTeamLinks (checked true).playArg ((checked true).otlrs.take 1) (checked true).player
      = (.ok (), played true ((checked true).otlrs.take 1)) := Prod.fst_eq_iff.mp (by decide +kernel)
  have hempty : (checked true).player.ptks = ∅ := by decide +kernel
  refine ⟨_, hplay, (ends_playTeamLinks_iff (hempty ▸ ringInOrder_empty) hplay).mpr ⟨?_, by decide +kernel⟩⟩
  rintro ⟨rk, pub, hpub, -⟩
  rw [hempty, lookup_empty] at hpub
  cases hpub

open TeamSample in
/-- User 2 is removed, and the members get a second key. The first one does not say that it ends. -/
theorem first_key_never_ends : ∃ p k,
    playTeamLinks (checked true).playArg (checked true).otlrs (checked true).player = (.ok (), p) ∧
      (p.ptks.lookup .memberRole).map (·.map (·.sk.gen)) = some [1, 2] ∧
      (p.ptks.lookup .memberRole).bind (·[0]?) = some k ∧ k.ri = none := by
  have hplay : playTeamLinks (checked true).playArg (checked true).otlrs (checked true).player
      = (.ok (), played true (checked true).otlrs) := Prod.fst_eq_iff.mp (by decide +kernel)
  have hkey : (((played true (checked true).otlrs).ptks.lookup .memberRole).bind (·[0]?)).map
      (·.ri) = some none := by
    decide +kernel
  obtain ⟨k, hk, hri⟩ := map_eq_some_iff.mp hkey
  exact ⟨_, k, hplay, by decide +kernel, hk, hri⟩

end Ends

/-! ## Reading a ring back -/

section Read

variable {ring : TeamKeyRing H} {rk : RoleKey}

/-- The first keys of a role, read into a ring that has none of them. -/
theorem RoleKeys.addPub_take (h : RoleKeys rk pub) (hnew : r.lookup rk = none) {n : ℕ} (hn : n < pub.length) :
    (pub.take (n + 1)).foldlM (fun r k => addPub k r) r = .ok (r.insert rk (pub.take (n + 1))) := by
  induction n with
  | zero =>
    have hfirst : pub[0]? = some pub[0] := getElem?_eq_getElem hn
    rw [take_one, head?_eq_getElem?, hfirst]
    refine bind_eq_ok.mpr ⟨_, addPub_iff.mpr ⟨rk, ?_, ?_, rfl⟩, ?_⟩
    · rw [h.role 0 _ hfirst, importRole_exportRole]
    · rw [hnew, h.gen 0 _ hfirst]
      rfl
    · rw [hnew]
      rfl
  | succ n ih =>
    have hget : pub[n + 1]? = some pub[n + 1] := getElem?_eq_getElem hn
    have hlength : (pub.take (n + 1)).length = n + 1 := by
      rw [length_take]
      omega
    rw [take_succ_eq_append_getElem hn, foldlM_append]
    refine bind_eq_ok.mpr ⟨_, ih (by omega), bind_eq_ok.mpr ⟨_, addPub_iff.mpr ⟨rk, ?_, ?_, rfl⟩, ?_⟩⟩
    · rw [h.role _ _ hget, importRole_exportRole]
    · rw [lookup_insert, getD_some, hlength, h.gen _ _ hget]
    rw [lookup_insert, getD_some, insert_insert, replaceLast_eq_self]
    · rfl
    -- the last key was saved with the one after it
    intro i x hi hlast hx
    obtain rfl : i = n := by omega
    rw [getElem?_take_of_lt (by omega)] at hx
    rw [h.ri i x hx, if_neg hi, hget]

theorem RoleKeys.addPub_all (h : RoleKeys rk pub) (hnew : r.lookup rk = none) :
    pub.foldlM (fun r k => addPub k r) r = .ok (r.insert rk pub) := by
  have hpos := length_pos_of_ne_nil h.nonempty
  have htake := h.addPub_take hnew (n := pub.length - 1) (by omega)
  rwa [Nat.sub_add_cancel hpos, take_length] at htake

/-- The keys of some roles, read into a ring that has none of them. -/
theorem RingInOrder.addPub_roles (h : RingInOrder ring) {rks : List RoleKey}
    (hnodup : rks.Nodup) (hmem : ∀ rk ∈ rks, rk ∈ ring) (hnew : ∀ rk ∈ rks, r.lookup rk = none) :
    ∃ r', (rks.flatMap fun rk => (ring.lookup rk).getD []).foldlM (fun r k => Client.addPub k r) r = .ok r' ∧
      ∀ rk, r'.lookup rk = if rk ∈ rks then ring.lookup rk else r.lookup rk := by
  induction rks generalizing r with
  | nil => exact ⟨r, rfl, fun rk => (if_neg not_mem_nil).symm⟩
  | cons rk rks ih =>
    rw [nodup_cons] at hnodup
    rw [forall_mem_cons] at hmem hnew
    obtain ⟨pub, hpub⟩ := Map.mem_iff.mp hmem.1
    have hrest : ∀ rk' ∈ rks, (r.insert rk pub).lookup rk' = none := by
      intro rk' hrk'
      have hne : rk' ≠ rk := fun heq => hnodup.1 (heq ▸ hrk')
      rw [lookup_insert_of_ne _ hne]
      exact hnew.2 rk' hrk'
    obtain ⟨r', hread, hlookup⟩ := ih hnodup.2 hmem.2 hrest
    refine ⟨r', ?_, fun rk' => ?_⟩
    · rw [flatMap_cons, hpub, foldlM_append]
      exact bind_eq_ok.mpr ⟨_, (h rk pub hpub).addPub_all hnew.1, hread⟩
    rw [hlookup rk']
    by_cases hne : rk' = rk
    · subst hne
      rw [if_neg hnodup.1, if_pos mem_cons_self, lookup_insert, hpub]
    · rw [lookup_insert_of_ne _ hne]
      simp only [mem_cons, hne, false_or]

/-- A ring that is in order is read back as it was saved. -/
theorem RingInOrder.addPub_exportPub (h : RingInOrder ring) :
    (exportPub ring).foldlM (fun r k => Client.addPub k r) ∅ = .ok ring := by
  obtain ⟨r, hread, hlookup⟩ := h.addPub_roles (r := ∅) (sorted_nodup ring.keys)
    (fun rk hrk => mem_keys.mp (mem_sorted.mp hrk)) (fun rk _ => lookup_empty rk)
  rw [exportPub, hread]
  refine congrArg Except.ok (ext_lookup fun rk => ?_)
  rw [hlookup rk]
  split
  · rfl
  · next hrk =>
    rw [mem_sorted] at hrk
    rw [lookup_empty, lookup_eq_none.mpr hrk]

end Read

end Foks.Client
