import Foks.Realtime.Mutations

/-!
# The names of channels

The server cannot read a name, so the clients keep the names of a tier apart (`client/librt/minder.go`). An
attempt lists the channels, looks for the name, and makes or renames a channel. The server refuses a creation
when the set of channels has changed since the listing, but a rename only when the channel itself has.
-/

namespace Foks.Realtime

open Lib Function

/-- What an attempt has listed: all channels that its user may know of. -/
structure Listing where
  uid : UID
  team : TeamID
  app : AppID
  set : ChannelSet

/-- The tables, and the listings of the attempts. -/
structure Attempts where
  t : Channels
  listing : ℕ → Option Listing

/-- A step of an attempt by an honest client, for which `name` gives the normalized name in a box. A rename
is sent when `ok` allows it. -/
inductive Attempts.Step {N : Type} (ok : Channels → Listing → Prop) (db : UsersDb) (name : RTBox → N) :
    Attempts → Attempts → Prop
  | list {w : Attempts} {x : Listing} (i : ℕ) (hset : listAllChannels w.t db x.uid x.team x.app 0 = .ok x.set) :
    Step ok db name w { w with listing := update w.listing i (some x) }
  | make {w : Attempts} {i : ℕ} {x : Listing} {c : ChannelID} {t' : Channels} (md : ChannelRow)
    (hx : w.listing i = some x) (hset : md.team = x.team ∧ md.app = x.app)
    (hname : ¬ md.isPrivate → ∀ c' ch, x.set.lst c' = some ch → ch.tier = md.tier →
      name ch.nameBox ≠ name md.nameBox)
    (hmade : makeChannel w.t db x.uid c (x.set.vers + 1) md = .ok t') :
    Step ok db name w { w with t := t' }
  | rename {w : Attempts} {i : ℕ} {x : Listing} {c : ChannelID} {ch : ChannelMetadata} {t' : Channels}
    (box : RTBox) (desc : DescUpdate) (hx : w.listing i = some x) (hch : x.set.lst c = some ch) (hok : ok w.t x)
    (hname : ¬ ch.isPrivate → ∀ c' ch', c' ≠ c → x.set.lst c' = some ch' → ch'.tier = ch.tier →
      name ch'.nameBox ≠ name box)
    (hrenamed : updateChannel w.t db x.uid c ch.seqno (some box) desc = .ok t') :
    Step ok db name w { w with t := t' }

/-- Two channels whose names have to differ. -/
def ChannelRow.Competes (row row' : ChannelRow) : Prop :=
  ¬ row.isPrivate ∧ ¬ row'.isPrivate ∧ row'.team = row.team ∧ row'.app = row.app ∧ row'.tier = row.tier

def Channels.NamesUnique {N : Type} (t : Channels) (name : RTBox → N) : Prop :=
  ∀ c c' row row', c' ≠ c → t.channels c = some row → t.channels c' = some row' → row.Competes row' →
    name row'.nameBox ≠ name row.nameBox

/-- The set of channels has not changed since the listing. -/
def Listing.Current (t : Channels) (x : Listing) : Prop := x.set.vers = t.sets x.team x.app

/-- What a listing says of the tables, now or later. -/
structure Listing.Sound (db : UsersDb) (t : Channels) (x : Listing) : Prop where
  le : x.set.vers ≤ t.sets x.team x.app
  known : ∀ c ch, x.set.lst c = some ch → ∃ row, t.channels c = some row ∧ row.team = x.team ∧ row.app = x.app
  shown : x.Current t → ∀ c row role, t.channels c = some row → row.team = x.team → row.app = x.app →
    ¬ row.isPrivate → db.role x.team x.uid = some role → (row.tier = .admin → role.isAdminOrAbove) →
    ∃ ch, x.set.lst c = some ch ∧ (ch.tier, ch.nameBox, ch.isPrivate) = (row.tier, row.nameBox, row.isPrivate)

section Names

variable {N : Type} {db : UsersDb} {t : Channels} {x : Listing} {c : ChannelID} {row : ChannelRow}
  {name : RTBox → N}

theorem Listing.Sound.of_list (h : listAllChannels t db x.uid x.team x.app 0 = .ok x.set) : x.Sound db t := by
  obtain ⟨uid, team, app, set⟩ := x
  simp only [listAllChannels, bind_eq_ok, authorizeUserForTeam_eq_ok] at h
  obtain ⟨role, hrole, h⟩ := h
  split at h
  · next hzero =>
    cases h
    refine ⟨le_rfl, by rintro _ _ ⟨⟩, ?_⟩
    rintro - c row - hrow rfl rfl
    exact absurd hzero (t.versioned c row hrow).2.ne'
  obtain ⟨lst, hlst, h⟩ := bind_eq_ok.mp h
  cases h
  obtain ⟨-, rfl⟩ := readAllChannels_eq_ok.mp hlst
  refine ⟨le_rfl, fun c ch hch => ?_, ?_⟩
  · obtain ⟨row, hrow, -⟩ := Option.map_eq_some_iff.mp hch
    obtain ⟨hrow, hlisted⟩ := Option.filter_eq_some_iff.mp hrow
    obtain ⟨hteam, happ, -⟩ := of_decide_eq_true hlisted
    exact ⟨row, hrow, hteam, happ⟩
  · rintro - c row role' hrow rfl rfl hpublic hrole' htier
    cases hrole.symm.trans hrole'
    have hvisible : privateVisibleToCaller t uid c row := by simp [privateVisibleToCaller, hpublic]
    refine ⟨_, (gatedRow_eq_some hrow).mpr ⟨htier, .inr hvisible, rfl⟩, ?_⟩
    rw [applyPrivateGate, if_pos hvisible, applyReadRoleGate]
    split <;> rfl

/-- A change of another set does not matter, and after a change of its own the listing is not current. -/
theorem Listing.Sound.put (h : x.Sound db t)
    (hsame : ∀ old, t.channels c = some old → old.team = row.team ∧ old.app = row.app) :
        x.Sound db (t.put c row) := by
  refine ⟨?_, fun c' ch hch => ?_, fun hcurrent c' row' role hrow' hteam happ => ?_⟩
  · refine h.le.trans ?_
    simp only [Channels.put]
    split <;> omega
  · obtain ⟨old, hold, hteam, happ⟩ := h.known c' ch hch
    rcases eq_or_ne c' c with rfl | hne
    · exact ⟨_, update_self .., (hsame old hold).1 ▸ hteam, (hsame old hold).2 ▸ happ⟩
    · exact ⟨old, (update_of_ne hne ..).trans hold, hteam, happ⟩
  by_cases hset : x.team = row.team ∧ x.app = row.app
  · have hle := h.le
    simp [Listing.Current, Channels.put, hset] at hcurrent hle
    omega
  have hne : c' ≠ c := by
    rintro rfl
    cases (update_self ..).symm.trans hrow'
    exact hset ⟨hteam.symm, happ.symm⟩
  refine h.shown ?_ c' row' role ((update_of_ne hne ..).symm.trans hrow') hteam happ
  simpa [Listing.Current, Channels.put, hset] using hcurrent

/-- A name that is not in a current listing is free. -/
theorem Channels.NamesUnique.put {role : RoleKey} (h : t.NamesUnique name) (hx : x.Sound db t)
    (hcurrent : x.Current t)
    (hset : row.team = x.team ∧ row.app = x.app) (hrole : db.role row.team x.uid = some role)
    (htier : row.tier = .admin → role.isAdminOrAbove)
    (hfree : ¬ row.isPrivate → ∀ c' ch, c' ≠ c → x.set.lst c' = some ch → ch.tier = row.tier →
      name ch.nameBox ≠ name row.nameBox) : (t.put c row).NamesUnique name := by
  have hnew : ∀ c' row', c' ≠ c → t.channels c' = some row' → row.Competes row' →
      name row'.nameBox ≠ name row.nameBox := by
    rintro c' row' hne hrow' ⟨hpublic, hpublic', hteam, happ, htier'⟩
    obtain ⟨ch, hch, hsame⟩ :=
      hx.shown hcurrent c' row' role hrow' (hteam.trans hset.1) (happ.trans hset.2) hpublic'
      (hset.1 ▸ hrole) (htier' ▸ htier)
    simp only [Prod.mk.injEq] at hsame
    exact hsame.2.1 ▸ hfree hpublic c' ch hne hch (hsame.1.trans htier')
  intro c1 c2 row1 row2 hne h1 h2
  rcases eq_or_ne c1 c with rfl | hc1
  · cases (update_self ..).symm.trans h1
    exact hnew c2 row2 hne ((update_of_ne hne ..).symm.trans h2)
  have h1' := (update_of_ne hc1 ..).symm.trans h1
  rcases eq_or_ne c2 c with rfl | hc2
  · cases (update_self ..).symm.trans h2
    rintro ⟨hp1, hp2, hteam, happ, htier'⟩
    exact (hnew c1 row1 hc1 h1' ⟨hp2, hp1, hteam.symm, happ.symm, htier'.symm⟩).symm
  · exact h c1 c2 row1 row2 hne h1' ((update_of_ne hc2 ..).symm.trans h2)

/-- Steps whose renames find the set as it was listed keep the names apart. -/
theorem Attempts.Step.sound {w w' : Attempts} (h : Step (fun t x => x.Current t) db name w w')
    (hx : ∀ i x, w.listing i = some x → x.Sound db w.t) (hu : w.t.NamesUnique name) :
    (∀ i x, w'.listing i = some x → x.Sound db w'.t) ∧ w'.t.NamesUnique name := by
  cases h with
  | @list x i hset =>
    refine ⟨fun j y hy => ?_, hu⟩
    rcases eq_or_ne j i with rfl | hne
    · cases (update_self ..).symm.trans hy
      exact .of_list hset
    · exact hx j y ((update_of_ne hne ..).symm.trans hy)
  | @make i x c t' md hi hset hname hmade =>
    obtain ⟨⟨role, hrole, htier⟩, hfresh, hvers, rfl⟩ := makeChannel_eq_ok hmade
    have hcurrent : x.Current w.t := by
      rw [Listing.Current, ← hset.1, ← hset.2]
      exact Nat.succ.inj hvers
    have hunique : (w.t.put c { md with lastMsg := none, archived := false }).NamesUnique name :=
      hu.put (hx i x hi) hcurrent hset hrole htier fun hpublic c' ch _ => hname hpublic c' ch
    have hput : ∀ j y, w.listing j = some y →
        y.Sound db (w.t.put c { md with lastMsg := none, archived := false }) :=
      fun j y hy => (hx j y hy).put (by simp [hfresh])
    split
    · exact ⟨fun j y hy => ⟨(hput j y hy).le, (hput j y hy).known, (hput j y hy).shown⟩, hunique⟩
    · exact ⟨hput, hunique⟩
  | @rename i x c ch t' box desc hi hch hok hname hrenamed =>
    obtain ⟨row, role, hrow, hrole, htier, -, -, -, rfl⟩ := updateChannel_eq_ok hrenamed
    obtain ⟨old, hold, hset⟩ := (hx i x hi).known c ch hch
    cases hrow.symm.trans hold
    refine ⟨fun j y hy => (hx j y hy).put (by simp [hrow]), hu.put (hx i x hi) hok hset hrole htier ?_⟩
    intro hpublic
    obtain ⟨ch', hch', hsame⟩ :=
      (hx i x hi).shown hok c row role hrow hset.1 hset.2 hpublic (hset.1 ▸ hrole) htier
    cases hch.symm.trans hch'
    simp only [Prod.mk.injEq] at hsame
    exact hsame.1 ▸ hname (hsame.2.2 ▸ hpublic)

end Names

/-- Nothing was made or listed. -/
def Attempts.start : Attempts := ⟨.empty, fun _ => none⟩

/-- The names of a tier stay apart when every rename finds the set of channels as its attempt has listed it. -/
theorem channel_names_unique {N : Type} (db : UsersDb) (name : RTBox → N) (w : Attempts)
    (h : Relation.ReflTransGen (Attempts.Step (fun t x => x.Current t) db name) .start w) :
        w.t.NamesUnique name := by
  have hinv : (∀ i x, w.listing i = some x → x.Sound db w.t) ∧ w.t.NamesUnique name := by
    induction h with
    | refl => exact ⟨by rintro _ _ ⟨⟩, by rintro _ _ _ _ - ⟨⟩⟩
    | tail _ hstep ih => exact hstep.sound ih.1 ih.2
  exact hinv.2

/-- The listing of channel 7 alone. -/
def oneListed : Listing :=
  ⟨1, 1, .chat, ⟨1, gatedRow (Channels.empty.put 7 exampleChannel) 1 1 .chat .adminRole 0⟩⟩

theorem oneListed_eq_some {c : ChannelID} {ch : ChannelMetadata} (h : oneListed.set.lst c = some ch) :
    c = 7 ∧ ch.nameBox.ctext = 0 := by
  by_cases hc : c = 7
  · subst hc
    cases h
    exact ⟨rfl, rfl⟩
  · simp [oneListed, gatedRow, selectedRow, Channels.put, hc, Channels.empty] at h

/-- After two attempts have listed channel 7, the second one makes channel 8. -/
theorem reaches_racing (ok : Channels → Listing → Prop) :
    ∃ w, Relation.ReflTransGen (Attempts.Step ok exampleUsers RTBox.ctext) .start w ∧
      w.listing 1 = some oneListed ∧
      w.t = (Channels.empty.put 7 exampleChannel).put 8
          { exampleChannel with nameBox := ⟨.kvMinRole, 1, 5⟩ } := by
  have h0 : Relation.ReflTransGen (Attempts.Step ok exampleUsers RTBox.ctext) .start .start := .refl
  have h1 := h0.tail (.list (x := ⟨1, 1, .chat, ⟨0, fun _ => none⟩⟩) 0 rfl)
  have h2 := h1.tail (.make (i := 0) (c := 7) { exampleChannel with updatedAt := 1 } rfl ⟨rfl, rfl⟩
    (by rintro _ _ _ ⟨⟩) rfl)
  have h3 := (h2.tail (.list (x := oneListed) 1 rfl)).tail (.list (x := oneListed) 2 rfl)
  refine ⟨_, h3.tail (.make (i := 2) (c := 8)
    { exampleChannel with nameBox := ⟨.kvMinRole, 1, 5⟩, updatedAt := 2 }
    rfl ⟨rfl, rfl⟩ (fun _ c' ch hch _ => ?_) rfl), rfl, rfl⟩
  rw [(oneListed_eq_some hch).2]
  decide

/-- The first attempt lists both channels, and gives channel 7 a name that neither of them has. -/
theorem channel_names_unique_racing :
    ∃ w : Attempts, (w.t.channels 7).map (·.nameBox.ctext) = some 6 ∧ w.t.NamesUnique RTBox.ctext := by
  obtain ⟨⟨t, listing⟩, hreaches, -, rfl⟩ := reaches_racing fun t x => x.Current t
  let t := (Channels.empty.put 7 exampleChannel).put 8 { exampleChannel with nameBox := ⟨.kvMinRole, 1, 5⟩ }
  have hlist := hreaches.tail (.list (x := ⟨1, 1, .chat, ⟨2, gatedRow t 1 1 .chat .adminRole 0⟩⟩) 1 rfl)
  refine ⟨_, ?_, channel_names_unique _ _ _ (hlist.tail (.rename (i := 1) (c := 7) ⟨.kvMinRole, 1, 6⟩ .keep
    rfl rfl rfl (fun _ c' ch hne hch _ => ?_) rfl))⟩
  · rfl
  by_cases hc : c' = 8
  · subst hc
    cases hch
    decide
  · simp [t, gatedRow, selectedRow, Channels.put, hne, hc, Channels.empty] at hch

/-- The first attempt then gives channel 7 the name of channel 8, which it has not listed. -/
theorem duplicate_name_committed : ∃ w, Relation.ReflTransGen
    (Attempts.Step (fun _ _ => True) exampleUsers RTBox.ctext) .start w ∧ ¬ w.t.NamesUnique RTBox.ctext := by
  obtain ⟨⟨t, listing⟩, hreaches, hlisting, rfl⟩ := reaches_racing fun _ _ => True
  refine ⟨_, hreaches.tail (.rename (c := 7) ⟨.kvMinRole, 1, 5⟩ .keep hlisting rfl trivial ?_ rfl), fun h => ?_⟩
  · exact fun _ c' ch hne hch _ => absurd (oneListed_eq_some hch).1 hne
  · exact h 7 8 _ _ (by decide) rfl rfl ⟨Bool.false_ne_true, Bool.false_ne_true, rfl, rfl, rfl⟩ rfl

end Foks.Realtime
