import Mathlib.Data.List.Find
import Thylacine.Territory.MountSpec

/-!
# Unmount and the Shed

The two operations that only take entries away. `Pruned` is what both leave for the release: the
entries that stay, in their order, and those that were unlinked.

## Main results

* `Ok.unmount`: `unmount` edits the listing as `Listing.unmount` says.
* `Ok.swapRoot`: a new root keeps exactly the entries of its generation.
-/

namespace Thylacine

open Option (bind_eq_bind bind_some)
open DoublyLinked List Listing PointerChain Relation Worklist

namespace Table

variable {spoors : SpoorRef → Spoor} {T T' T'' : Table} {es es' : List MountRef}
  {hs hs' : List HeadRef} {m : MountRef} {h : HeadRef} {k : MKey}

/-- The table lost the entries `dead`, and the points left empty. -/
structure Pruned (T : Table) (es : List MountRef) (hs : List HeadRef) (T' : Table)
    (dead : MountDead) (es' : List MountRef) (hs' : List HeadRef) : Prop where
  rep : T'.Rep es' hs'
  hosts : ∀ h ∈ hs', seq (es'.map T'.entryOf) (T'.key h) ≠ []
  perm : es.Perm (dead.entries ++ es')
  listing : es'.map T'.entryOf = es'.map T.entryOf
  edit : Edit T T' es hs
  points : hs' ⊆ hs
  dead : ∀ p ∈ dead.points, p ∈ hs ∧ p ∉ hs'

theorem Pruned.balanced {dead : MountDead} (hp : Pruned T es hs T' dead es' hs') :
    Balanced T es T' (dead.entries ++ es') :=
  (balanced_perm hp.perm).trans (hp.edit.balanced _)

/-- After the release nothing is owed for what was pruned. -/
theorem Pruned.release {dead : MountDead} (hp : Pruned T es hs T' dead es' hs')
    (hes : es.Nodup) (hrules : Rules spoors (es'.map T'.entryOf))
    (hentries : ∀ m ∈ es, m ∈ T.mountLive) (hpoints : ∀ h ∈ hs, h ∈ T.headLive) :
    Ok spoors (T'.mountDeadRelease dead) es' hs' ∧
      Moves T es hs (T'.mountDeadRelease dead) es' hs' ∧
      Balanced T es (T'.mountDeadRelease dead) es' ∧
      (T'.mountDeadRelease dead).rootSpoor = T.rootSpoor ∧
      (T'.mountDeadRelease dead).entryOf = T'.entryOf := by
  obtain ⟨hsame, hbal, hml, hhl⟩ := mountDeadRelease_spec T' dead es'
  have hnd := hp.perm.nodup_iff.mp hes
  have hin {m : MountRef} (hm : m ∈ dead.entries ++ es') : m ∈ es := hp.perm.symm.subset hm
  refine ⟨hsame.ok ⟨hp.rep, hp.hosts, hrules⟩, ?_, hp.balanced.trans hbal,
    hsame.root.trans hp.edit.rootSpoor, hsame.entryOf⟩
  constructor
  · intro m hm
    rw [hml, hp.edit.mountLive, Finset.mem_sdiff, mem_toFinset]
    exact ⟨hentries m (hin (mem_append_right _ hm)),
      fun hdead => (nodup_append.mp hnd).2.2 m hdead m hm rfl⟩
  · intro h hh
    rw [hhl, hp.edit.headLive, Finset.mem_sdiff, mem_toFinset]
    exact ⟨hpoints h (hp.points hh), fun hdead => (hp.dead h hdead).2 hh⟩
  · intro m hm hnot
    rw [hml, hp.edit.mountLive, Finset.mem_sdiff, mem_toFinset]
    exact ⟨⟨hm, fun hdead => hnot (hin (mem_append_left _ hdead))⟩,
      fun hmem => hnot (hin (mem_append_right _ hmem))⟩
  · intro h hh hnot
    rw [hhl, hp.edit.headLive, Finset.mem_sdiff, mem_toFinset]
    exact ⟨⟨hh, fun hdead => hnot (hp.dead h hdead).1⟩, fun hmem => hnot (hp.points hmem)⟩
  · exact ⟨es, hs, hp.edit.same.trans (hsame.sameOff es hs), fun _ _ hnot => hnot,
      fun _ _ hnot => hnot⟩

/-! ### One entry goes -/

/-- The unions that lose nothing still have a member. -/
theorem seq_erase_of_ne (hm : T.pointKey m ≠ k) :
    seq ((es.erase m).map T.entryOf) k = seq (es.map T.entryOf) k := by
  rw [seq, seq, filter_map, filter_map, ← erase_filter, erase_of_not_mem]
  intro hmem
  exact hm (decide_eq_true_iff.mp (mem_filter.mp hmem).2)

/-- An entry is unlinked, and its point taken out if empty. -/
theorem Rep.pruneOne (hrep : T.Rep es hs)
    (hhosts : ∀ h ∈ hs, seq (es.map T.entryOf) (T.key h) ≠ []) (hm : m ∈ es)
    (hhead : T.head m = some h) :
    ∃ T₁, T.mountUnlink m = some T₁ ∧ Edit T T₁ es hs ∧ Rehead T T₁ [m] ∧
      (T₁.first h ≠ none → Pruned T es hs T₁ ⟨[m], []⟩ (es.erase m) hs) ∧
      (T₁.first h = none → ∃ T₂, T₁.mheadRemove h = some T₂ ∧
      Pruned T es hs T₂ ⟨[m], [h]⟩ (es.erase m) (hs.erase h) ∧ Rehead T T₂ [m]) := by
  have hnd := hrep.entriesNodup
  have hh : h ∈ hs := by
    obtain ⟨p, hp, heq⟩ := hrep.headed m hm
    rwa [Option.some.inj (hhead.symm.trans heq)]
  obtain ⟨T₁, hunlink, hrep₁, hedit₁, hre₁⟩ := hrep.mountUnlink hm
  have hmap : (es.erase m).map T₁.entryOf = (es.erase m).map T.entryOf :=
    hedit₁.map_entryOf hre₁ fun x hx hxm => (hnd.mem_erase_iff.mp hx).1 (mem_singleton.mp hxm)
  have hperm : es.Perm ([m] ++ es.erase m) := perm_cons_erase hm
  have hothers : ∀ p ∈ hs, p ≠ h → seq ((es.erase m).map T₁.entryOf) (T.key p) ≠ [] := by
    intro p hp hne
    rw [hmap, seq_erase_of_ne ?_]
    · exact hhosts p hp
    · rw [pointKey_of_head hhead]
      exact fun heq => hne (inj_on_of_nodup_map hrep.keys hp hh heq.symm)
  refine ⟨T₁, hunlink, hedit₁, hre₁, fun hfirst => ?_, fun hfirst => ?_⟩
  · refine ⟨hrep₁, fun p hp => ?_, hperm, hmap, hedit₁, Subset.refl hs, nofun⟩
    by_cases hne : p = h
    · subst hne
      exact fun hnil => hfirst ((hrep₁.first_eq_none_iff hp).mpr hnil)
    · rw [hre₁.key]
      exact hothers p hp hne
  · have hempty : T₁.membersIn (es.erase m) h = [] := by
      have hnil := (hrep₁.first_eq_none_iff hh).mp hfirst
      rwa [← hrep₁.map_membersIn hh, map_eq_nil_iff] at hnil
    obtain ⟨T₂, hremove, hrep₂, hedit₂, hkey₂, hhead₂, hvisit₂, -⟩ := hrep₁.mheadRemove hh hempty
    have hentry₂ (x : MountRef) : T₂.entryOf x = T₁.entryOf x :=
      hedit₂.entryOf_eq (by rw [pointKey, pointKey, hkey₂, hhead₂])
    have hmap₂ : (es.erase m).map T₂.entryOf = (es.erase m).map T₁.entryOf :=
      map_congr_left fun x _ => hentry₂ x
    refine ⟨T₂, hremove, ⟨hrep₂, fun p hp => ?_, hperm, hmap₂.trans hmap,
      hedit₁.trans (hedit₂.mono (nil_subset es) (Subset.refl hs)), erase_subset,
      fun p hp => ?_⟩, ?_⟩
    · obtain ⟨hne, hp⟩ := hrep.headsNodup.mem_erase_iff.mp hp
      rw [hmap₂, hkey₂, hre₁.key]
      exact hothers p hp hne
    · obtain rfl := mem_singleton.mp hp
      exact ⟨hh, fun hmem => (hrep.headsNodup.mem_erase_iff.mp hmem).1 rfl⟩
    · exact ⟨hkey₂.trans hre₁.key, hvisit₂.trans hre₁.visit,
        fun x hx => (congrFun hhead₂ x).trans (hre₁.head x hx)⟩

/-- Two prunings in a row. -/
theorem Pruned.trans {d d' : MountDead} {es'' : List MountRef} {hs'' : List HeadRef}
    (hp : Pruned T es hs T' d es' hs') (hp' : Pruned T' es' hs' T'' d' es'' hs'') :
    Pruned T es hs T'' ⟨d.entries ++ d'.entries, d'.points ++ d.points⟩ es'' hs'' := by
  have hsub : es' ⊆ es := fun m hm => hp.perm.symm.subset (mem_append_right _ hm)
  have hsub' : es'' ⊆ es' := fun m hm => hp'.perm.symm.subset (mem_append_right _ hm)
  refine ⟨hp'.rep, hp'.hosts, ?_, ?_, hp.edit.trans (hp'.edit.mono hsub hp.points),
    fun p hh => hp.points (hp'.points hh), fun p hh => ?_⟩
  · rw [append_assoc]
    exact hp.perm.trans (hp'.perm.append_left _)
  · rw [hp'.listing]
    refine map_congr_left fun m hm => ?_
    exact map_inj_left.mp hp.listing m (hsub' hm)
  · rcases mem_append.mp hh with hh | hh
    · exact ⟨hp.points (hp'.dead p hh).1, (hp'.dead p hh).2⟩
    · exact ⟨(hp.dead p hh).1, fun hmem => (hp.dead p hh).2 (hp'.points hmem)⟩

/-! ### The shed -/

/-- The pass reached the point of this entry. -/
def reached (T : Table) (pass : UInt32) (m : MountRef) : Bool :=
  (T.head m).elim false fun h => T.visit h = pass

theorem Pruned.refl (hrep : T.Rep es hs)
    (hhosts : ∀ h ∈ hs, seq (es.map T.entryOf) (T.key h) ≠ []) :
    Pruned T es hs T ⟨[], []⟩ es hs :=
  ⟨hrep, hhosts, .refl es, rfl, .refl .., Subset.refl hs, nofun⟩

/-- The loop drops the entries not reached, **and no other**. -/
theorem shedEntries_spec {kept rest : List MountRef} (hrep : T.Rep (kept ++ rest) hs)
    (hhosts : ∀ h ∈ hs, seq ((kept ++ rest).map T.entryOf) (T.key h) ≠ [])
    (pass : UInt32) (d : MountDead) :
    ∃ T' d' hs', shedEntries pass rest T d =
      some (T', ⟨d.entries ++ d'.entries, d'.points ++ d.points⟩) ∧
      Pruned T (kept ++ rest) hs T' d' (kept ++ rest.filter (T.reached pass)) hs' := by
  induction rest generalizing T kept hs d with
  | nil =>
    refine ⟨T, ⟨[], []⟩, hs, ?_, .refl hrep hhosts⟩
    rw [shedEntries, append_nil, nil_append]
  | cons m rest ih =>
    obtain ⟨h, hh, hhead⟩ := hrep.headed m (mem_append_right _ mem_cons_self)
    rw [shedEntries, hhead]
    simp only [bind_eq_bind, bind_some]
    by_cases hmark : T.visit h = pass
    · have hreach : T.reached pass m = true := by
        rw [reached, hhead]
        exact decide_eq_true hmark
      have happ : kept ++ m :: rest = kept ++ [m] ++ rest := by rw [append_assoc, singleton_append]
      rw [if_pos hmark, filter_cons_of_pos hreach]
      rw [happ] at hrep hhosts ⊢
      obtain ⟨T', d', hs', hshed, hp⟩ := ih hrep hhosts d
      refine ⟨T', d', hs', hshed, ?_⟩
      rwa [append_assoc kept [m] (rest.filter _)] at hp
    · have hnot : ¬ T.reached pass m = true := by
        rw [reached, hhead]
        exact fun hr => hmark (decide_eq_true_iff.mp hr)
      have hnd := hrep.entriesNodup
      have hmnot : m ∉ kept ++ rest := (nodup_cons.mp (nodup_middle.mp hnd)).1
      have herase : (kept ++ m :: rest).erase m = kept ++ rest := by
        rw [erase_append_right _ fun hk => hmnot (mem_append_left _ hk), erase_cons_head]
      have hfilter {T₁ : Table} (hre : Rehead T T₁ [m]) :
          rest.filter (T₁.reached pass) = rest.filter (T.reached pass) :=
        filter_congr fun x hx => by
          have hxm : x ∉ [m] := fun hxm => hmnot (mem_append_right _ (mem_singleton.mp hxm ▸ hx))
          rw [reached, reached, hre.head x hxm, hre.visit]
      obtain ⟨T₁, hunlink, -, hre₁, hsome, hnone⟩ := hrep.pruneOne hhosts
        (mem_append_right _ mem_cons_self) hhead
      rw [if_neg hmark, hunlink, bind_some, filter_cons_of_neg hnot]
      cases hfirst : T₁.first h with
      | some a =>
        have hp₁ := hsome (by rw [hfirst]; nofun)
        rw [herase] at hp₁
        obtain ⟨T', d', hs', hshed, hp⟩ := ih hp₁.rep hp₁.hosts ⟨d.entries ++ [m], d.points⟩
        rw [hfilter hre₁] at hp
        refine ⟨T', _, hs', ?_, hp₁.trans hp⟩
        rw [hshed]
        simp
      | none =>
        obtain ⟨T₂, hremove, hp₂, hre₂⟩ := hnone hfirst
        rw [herase] at hp₂
        obtain ⟨T', d', hs', hshed, hp⟩ := ih hp₂.rep hp₂.hosts ⟨d.entries ++ [m], h :: d.points⟩
        rw [hfilter hre₂] at hp
        refine ⟨T', _, hs', ?_, hp₂.trans hp⟩
        simp only [hremove, bind_some]
        rw [hshed]
        simp

open Classical in
/-- **The shed** keeps the entries of the root's generation. -/
theorem Ok.shed (hok : Ok spoors T es hs) (root : Spoor) :
    ∃ T₁ T' d es' hs', T.territoryShedUnreachableLocked spoors root = some (T', d) ∧
      Visited T T₁ hs ∧ Pruned T₁ es hs T' d es' hs' ∧
      es'.map T'.entryOf = Listing.shed spoors (es.map T.entryOf) root := by
  obtain ⟨hnext, hrep₁, hempty⟩ := tracks_mvisitNext hok.rep
  obtain ⟨T₁, hT₁⟩ : ∃ T₁, T.mvisitNext = T₁ := ⟨_, rfl⟩
  rw [hT₁] at hnext hrep₁ hempty
  obtain ⟨start, hdef, htracks⟩ : ∃ start, T.territoryShedUnreachableLocked spoors root =
      (drain (fun h Tw => (false, (Tw.1.members h).foldl
        (fun Tw m => shedReach T₁.mvisit (spoors (Tw.1.source m)) Tw) Tw)) fuel start).bind
        (fun r => shedEntries T₁.mvisit r.2.entries r.2 ⟨[], []⟩) ∧
      Tracks T₁ hs T₁.mvisit start (.from (T₁.shedStart spoors root)) := by
    have hroot := shedReach_tracks hrep₁ root hempty
    rw [territoryShedUnreachableLocked, hT₁]
    refine ⟨_, rfl, ?_⟩
    rw [shedStart, State.from]
    cases hunion : root.unionPoint with
    | none =>
      rw [Option.map_none, Option.getD_none, append_nil]
      exact hroot
    | some p =>
      rw [Option.map_some, Option.getD_some, pushAll, foldl_append]
      exact shedReach_tracks hrep₁ (spoors p) hroot
  have hstart : ∀ a ∈ T₁.shedStart spoors root, a ∈ hs.toFinset := by
    intro a ha
    rcases mem_append.mp ha with ha | ha
    · exact mem_toFinset.mpr (hrep₁.mem_instancePoints.mp ha).1
    · cases hunion : root.unionPoint with
      | none =>
        rw [hunion] at ha
        cases ha
      | some p =>
        rw [hunion] at ha
        exact mem_toFinset.mpr (hrep₁.mem_instancePoints.mp ha).1
  have hU : ∀ a ∈ hs.toFinset, ∀ x ∈ T₁.members a, ∀ b ∈ T₁.shedEnds spoors x, b ∈ hs.toFinset :=
    fun a _ x _ b hb => mem_toFinset.mpr (hrep₁.mem_instancePoints.mp hb).1
  obtain ⟨found, s', hsearch, hfound, hmarked⟩ :=
    search_from (fun _ => false) hstart hU hrep₁.card_points_le
  obtain rfl : found = false := by
    cases found with
    | false => rfl
    | true =>
      obtain ⟨_, _, _, _, hhit⟩ := hfound.mp rfl
      cases hhit
  obtain ⟨Tw', hdrain, htracks'⟩ := drain_tracks (fun h Tw => (false,
      (Tw.1.members h).foldl (fun Tw m => shedReach T₁.mvisit (spoors (Tw.1.source m)) Tw) Tw))
    (fun h _ Tw s ht => by
      rw [ht.seen.members_eq]
      exact shedScan_tracks hrep₁ _ ht) htracks hsearch
  rw [hdrain, bind_some] at hdef
  have hv := hnext.trans htracks'.seen
  have hok' := hv.ok hok (htracks'.rep hrep₁)
  have hrep' : Tw'.1.Rep ([] ++ es) hs := hok'.rep
  obtain ⟨T', d', hs', hshed, hp⟩ := shedEntries_spec hrep' hok'.hosts T₁.mvisit ⟨[], []⟩
  rw [nil_append, append_nil] at hshed
  rw [hok'.rep.entries_eq] at hdef
  refine ⟨Tw'.1, T', d', _, hs', hdef.trans hshed, hv, hp, ?_⟩
  -- the points that the pass reached are those of the generation
  rw [hp.listing, Listing.shed, nil_append, hv.entryOf_eq, filter_map]
  congr 1
  refine filter_congr fun m hm => ?_
  obtain ⟨h, hh, hhead⟩ := hok'.rep.headed m hm
  have hkey : (T.entryOf m).key = T₁.key h := by
    rw [← hv.entryOf_eq]
    have hkeys : Tw'.1.key = T₁.key := by
      obtain ⟨v, w, n, heq⟩ := htracks'.seen.exists_eq
      rw [heq]
    exact (pointKey_of_head hhead).trans (congrFun hkeys h)
  rw [reached, hhead, Function.comp_apply, hkey, Option.elim_some, decide_eq_decide,
    htracks'.marked h hh, hmarked rfl h, reach_iff_generation hrep₁ hh, hnext.entryOf_eq]

/-! ### Unmount -/

theorem eraseP_eq_erase {α : Type*} [DecidableEq α] {l : List α} {q : α → Bool} {a : α}
    (hfind : l.find? q = some a) : l.eraseP q = l.erase a := by
  induction l with
  | nil => cases hfind
  | cons x xs ih =>
    rw [find?_cons] at hfind
    cases hx : q x with
    | true =>
      rw [hx] at hfind
      cases hfind
      rw [eraseP_cons_of_pos hx, erase_cons_head]
    | false =>
      rw [hx] at hfind
      have hne : x ≠ a := fun heq => by
        have := find?_some hfind
        rw [← heq, hx] at this
        cases this
      rw [eraseP_cons_of_neg (by rw [hx]; nofun), erase_cons_tail (by simpa using hne), ih hfind]

/-- The first uncovered member is what the listing loses. -/
theorem Ok.find_uncovered (hok : Ok spoors T es hs) (hh : h ∈ hs) :
    ∃ m, ((T.members h).find? fun m => !hasFlag (T.flags m) mcovered) = some m ∧ m ∈ es ∧
      T.head m = some h ∧ (es.erase m).map T.entryOf =
      (es.map T.entryOf).eraseP fun e => e.key = T.key h && !e.covered := by
  rw [hok.rep.members_eq hh]
  cases hfind : (T.membersIn es h).find? fun m => !hasFlag (T.flags m) mcovered with
  | none =>
    obtain ⟨x, hx⟩ := exists_mem_of_ne_nil _ (hok.hosts h hh)
    obtain ⟨hxL, hxk⟩ := mem_seq.mp hx
    obtain ⟨y, hy, hyk, hycov⟩ := hok.rules.mounted x hxL
    have hyseq := mem_seq.mpr ⟨hy, hyk.trans hxk⟩
    rw [← hok.rep.map_membersIn hh] at hyseq
    obtain ⟨m, hm, rfl⟩ := mem_map.mp hyseq
    have hnot := find?_eq_none.mp hfind m hm
    exact absurd (by rw [Bool.not_eq_true']; exact hycov) hnot
  | some m =>
    obtain ⟨hm, hhead⟩ := mem_membersIn.mp (mem_of_find?_eq_some hfind)
    refine ⟨m, rfl, hm, hhead, ?_⟩
    rw [eraseP_map]
    congr 1
    refine (eraseP_eq_erase ?_).symm
    rw [membersIn, find?_filter] at hfind
    rw [← hfind]
    refine find?_congr fun x hx => ?_
    rw [Function.comp_apply, Bool.eq_iff_iff, decide_eq_true_iff, Bool.and_eq_true,
      decide_eq_true_iff, decide_eq_true_iff]
    exact and_congr_left' (hok.rep.head_iff hx hh).symm

/-- **`unmount` under the lock** edits the listing. -/
theorem Ok.unmountLocked (hok : Ok spoors T es hs) (k : MKey) :
    ∃ T' rc d es' hs', T.unmountLocked k = some (T', rc, d) ∧ Pruned T es hs T' d es' hs' ∧
      UnmountStep (es.map T.entryOf) k rc (es'.map T'.entryOf) := by
  rw [Table.unmountLocked]
  cases hfind : T.mheadFind k with
  | none => exact ⟨T, -1, ⟨[], []⟩, es, hs, rfl, .refl hok.rep hok.hosts,
      .nothing (hok.rep.seq_eq_nil (hok.rep.mheadFind_eq_none.mp hfind))⟩
  | some h =>
    obtain ⟨hh, rfl⟩ := hok.rep.mheadFind_eq_some.mp hfind
    obtain ⟨m, hm, hmes, hhead, herase⟩ := hok.find_uncovered hh
    obtain ⟨T₁, hunlink, hedit₁, hre₁, hsome, hnone⟩ := hok.rep.pruneOne hok.hosts hmes hhead
    obtain ⟨T₁', hunlink', hrep₁, -, -⟩ := hok.rep.mountUnlink hmes
    cases hunlink.symm.trans hunlink'
    simp only [hm, hunlink, bind_eq_bind, bind_some]
    have hnd := hok.rep.entriesNodup
    set L₁ := (es.erase m).map T₁.entryOf
    have hL₁ : L₁ = (es.map T.entryOf).eraseP fun e => e.key = T.key h && !e.covered := by
      rw [← herase]
      exact hedit₁.map_entryOf hre₁ fun x hx hxm =>
        (hnd.mem_erase_iff.mp hx).1 (mem_singleton.mp hxm)
    have hseq : ((T₁.members h).map T₁.entryOf) = seq L₁ (T.key h) := by
      rw [hrep₁.members_eq hh, hrep₁.map_membersIn hh, hre₁.key]
    obtain ⟨rest, hrest⟩ : ∃ rest, T₁.members h = rest := ⟨_, rfl⟩
    rw [hrest] at hseq ⊢
    have hany : (rest.any fun m => !hasFlag (T₁.flags m) mcovered) =
        (seq L₁ (T.key h)).any (!·.covered) := by
      rw [← hseq, any_map]
      rfl
    have hstep := UnmountStep.unmounted (hok.hosts h hh)
    rw [Listing.unmount, ← hL₁, ← hany] at hstep
    have hfirst := hrep₁.first_eq_none_iff hh
    rw [hre₁.key, ← hseq, map_eq_nil_iff] at hfirst
    cases hmounted : rest.any fun m => !hasFlag (T₁.flags m) mcovered with
    | true =>
      rw [hmounted, if_pos rfl] at hstep
      rw [if_pos rfl, unlinkAll, foldlM_nil, Option.pure_def, bind_some]
      have hne : T₁.first h ≠ none := by
        rw [ne_eq, hfirst]
        rintro rfl
        cases hmounted
      obtain ⟨a, ha⟩ := Option.ne_none_iff_exists'.mp hne
      rw [ha]
      exact ⟨T₁, 0, ⟨[m], []⟩, _, hs, rfl, hsome hne, hstep⟩
    | false =>
      -- what is left is covered, so it is one entry at most
      rw [hmounted, if_neg Bool.false_ne_true] at hstep
      have hcov : ∀ x ∈ rest, hasFlag (T₁.flags x) mcovered = true := fun x hx => by
        have := any_eq_false.mp hmounted x hx
        rwa [Bool.not_eq_true, Bool.not_eq_false'] at this
      have hfilter : (rest.filter fun m => hasFlag (T₁.flags m) mcovered) = rest :=
        filter_eq_self.mpr hcov
      have hlen : rest.length ≤ 1 := by
        have hone := hok.rules.coveredOnce (T.key h)
        have hsub : (seq L₁ (T.key h)).Sublist (seq (es.map T.entryOf) (T.key h)) := by
          rw [hL₁]
          exact (eraseP_sublist (T.key h)).filter _
        have hle := ((hsub.filter (·.covered)).length_le).trans hone
        rwa [← hseq, filter_map, length_map,
          show (rest.filter ((·.covered) ∘ T₁.entryOf)) = rest from hfilter] at hle
      rw [if_neg Bool.false_ne_true, hfilter]
      rcases rest with _ | ⟨c, _ | ⟨c', cs⟩⟩
      · -- no member is left
        have hnil : T₁.first h = none := hfirst.mpr rfl
        obtain ⟨T₂, hremove, hp, -⟩ := hnone hnil
        refine ⟨T₂, 0, ⟨[m], [h]⟩, _, _, ?_, hp, ?_⟩
        · rw [getLast?_nil, Option.toList_none, unlinkAll, foldlM_nil,
            Option.pure_def, bind_some, hnil]
          simp only [hremove, bind_some]
        · rw [hp.listing, herase, ← hL₁]
          refine (congrArg _ (filter_eq_self.mpr fun e he => ?_)).mp hstep
          rw [decide_eq_true_iff]
          exact fun hk => absurd (hseq ▸ mem_seq.mpr ⟨he, hk⟩) not_mem_nil
      · have hne : T₁.first h ≠ none := by
          rw [ne_eq, hfirst]
          exact cons_ne_nil c []
        have hp₁ := hsome hne
        have hin (x : MountRef) (hx : x ∈ es.erase m) : (T₁.entryOf x).key = T.key h ↔ x = c := by
          have hmem : x ∈ T₁.members h ↔ x = c := by rw [hrest, mem_singleton]
          rw [hrep₁.members_eq hh, mem_membersIn, and_iff_right hx,
            hrep₁.head_iff hx hh, hre₁.key] at hmem
          exact hmem
        have hc : c ∈ es.erase m ∧ T₁.head c = some h := by
          have hmem : c ∈ T₁.members h := hrest ▸ mem_singleton_self c
          rwa [hrep₁.members_eq hh, mem_membersIn] at hmem
        have hlist : ((es.erase m).erase c).map T₁.entryOf =
            ((es.erase m).map T₁.entryOf).filter fun e => e.key ≠ T.key h := by
          rw [(hnd.erase m).erase_eq_filter, filter_map]
          congr 1
          refine filter_congr fun x hx => ?_
          rw [Function.comp_apply, Bool.eq_iff_iff, bne_iff_ne, decide_eq_true_iff]
          exact (not_congr (hin x hx)).symm
        obtain ⟨T₂, hunlink₂, hedit₂, hre₂, hsome₂, hnone₂⟩ := hp₁.rep.pruneOne hp₁.hosts hc.1 hc.2
        have hnil : T₂.first h = none := by
          by_contra hne₂
          have hhosts := (hsome₂ hne₂).hosts h hh
          rw [(hsome₂ hne₂).listing, hlist, hre₂.key, hre₁.key, seq_filter] at hhosts
          exact hhosts (filter_eq_nil_iff.mpr fun e he => by simpa using (mem_seq.mp he).2)
        obtain ⟨T₃, hremove, hp₂, -⟩ := hnone₂ hnil
        refine ⟨T₃, 0, _, _, _, ?_, hp₁.trans hp₂, ?_⟩
        · rw [getLast?_singleton, Option.toList_some, unlinkAll, foldlM_cons, hunlink₂]
          simp only [bind_eq_bind, bind_some, foldlM_nil, Option.pure_def, hnil, hremove]
          rfl
        · rw [hp₂.listing, hlist]
          exact hstep
      · exact absurd hlen (by simp)

/-- **`unmount`** edits the listing. -/
theorem Ok.unmount (hok : Ok spoors T es hs) (hentries : ∀ m ∈ es, m ∈ T.mountLive)
    (hpoints : ∀ h ∈ hs, h ∈ T.headLive) (mountpoint : Option SpoorRef) :
    ∃ T' rc es' hs', T.unmount spoors mountpoint = some (T', rc) ∧ Ok spoors T' es' hs' ∧
      Moves T es hs T' es' hs' ∧ Balanced T es T' es' ∧ T'.rootSpoor = T.rootSpoor ∧
      UnmountCall spoors (es.map T.entryOf) mountpoint rc (es'.map T'.entryOf) := by
  cases mountpoint with
  | none => exact ⟨T, -1, es, hs, rfl, hok, .refl hentries hpoints, .refl T es, rfl, .null rfl⟩
  | some mp =>
    obtain ⟨T₁, rc, d, es', hs', hlocked, hp, hstep⟩ := hok.unmountLocked (spoors mp).key
    have hrules : Rules spoors (es'.map T₁.entryOf) := by
      generalize es'.map T₁.entryOf = L' at hstep
      cases hstep with
      | nothing => exact hok.rules
      | unmounted => exact hok.rules.unmount _
    obtain ⟨hok', hmoves, hbal, hroot, hentry⟩ :=
      hp.release hok.rep.entriesNodup hrules hentries hpoints
    refine ⟨_, rc, es', hs', ?_, hok', hmoves, hbal, hroot, .locked rfl (hentry ▸ hstep)⟩
    rw [Table.unmount, hlocked]
    rfl

/-! ### The root -/

/-- The references are settled: as much is owed for the entries and the root. -/
structure Settled (T : Table) (es : List MountRef) (T' : Table) (es' : List MountRef) : Prop where
  spoors : ∀ s, T'.owed es' s - T'.rootSpoor.toList.count s = T.owed es s - T.rootSpoor.toList.count s
  paths : T'.pathOwed es' = T.pathOwed es

theorem Balanced.settled (hbal : Balanced T es T' es') (hroot : T'.rootSpoor = T.rootSpoor) :
    Settled T es T' es' :=
  ⟨fun s => by rw [hbal.spoors, hroot], hbal.paths⟩

theorem Settled.refl (T : Table) (es : List MountRef) : Settled T es T es := ⟨fun _ => rfl, rfl⟩

/-- A dropped root gives up its reference, nothing else. -/
theorem clunkRoot_spec (T : Table) (root : Option SpoorRef) (ms : List MountRef) :
    SameTable T (T.clunkRoot root) ∧
      (∀ s, (T.clunkRoot root).owed ms s = T.owed ms s - root.toList.count s) ∧
      (T.clunkRoot root).pathOwed ms = T.pathOwed ms ∧ (T.clunkRoot root).mountLive = T.mountLive ∧
      (T.clunkRoot root).headLive = T.headLive := by
  cases root with
  | none => exact ⟨.refl T, fun s => (sub_zero _).symm, rfl, rfl, rfl⟩
  | some r =>
    refine ⟨⟨⟨_, T.pathRefs, T.mountLive, T.headLive, rfl⟩, rfl⟩, fun s => ?_, rfl, rfl, rfl⟩
    rw [clunkRoot, owed, owed, spoorRefs_spoorClunk]
    exact sub_right_comm ..

/-- The root's references do not show in the lists. -/
theorem Ok.setRoot (hok : Ok spoors T es hs) (refs : SpoorRef → ℤ) (root : Option SpoorRef) :
    Ok spoors { T with spoorRefs := refs, rootSpoor := root } es hs :=
  ⟨⟨hok.rep.table, hok.rep.chains, hok.rep.keys, hok.rep.members, hok.rep.nmembers, hok.rep.headed,
    hok.rep.nmounts, hok.rep.npoints, hok.rep.visited, hok.rep.entriesLe, hok.rep.pointsLe⟩,
    hok.hosts, hok.rules⟩

theorem Moves.congr {T₀ T₁ : Table} (hmoves : Moves T es hs T' es' hs')
    (hsame : SameOff T₀.toNsMem T.toNsMem [] hs) (hml : T.mountLive = T₀.mountLive)
    (hhl : T.headLive = T₀.headLive) (hsame' : SameTable T' T₁)
    (hml' : T₁.mountLive = T'.mountLive) (hhl' : T₁.headLive = T'.headLive) :
    Moves T₀ es hs T₁ es' hs' := by
  obtain ⟨ms, ps, hoff, hms, hps⟩ := hmoves.same
  refine ⟨hml' ▸ hmoves.entries, hhl' ▸ hmoves.points, hml' ▸ hml ▸ hmoves.entry,
    hhl' ▸ hhl ▸ hmoves.point, ms, hs ++ ps, ?_, hml ▸ hms, ?_⟩
  · exact ((hsame.mono (nil_subset ms) (subset_append_left hs ps)).trans
      (hoff.mono (Subset.refl ms) (subset_append_right hs ps))).trans (hsame'.sameOff ..)
  · rw [← hhl]
    intro h hh hnot hmem
    rcases mem_append.mp hmem with hmem | hmem
    · exact hnot hmem
    · exact hps h hh hnot hmem

variable (hok : Ok spoors T es hs) (hentries : ∀ m ∈ es, m ∈ T.mountLive)
  (hpoints : ∀ h ∈ hs, h ∈ T.headLive)
include hok hentries hpoints

/-- **A new root** keeps its generation's entries, and takes over the old one's reference. -/
theorem Ok.swapRoot (source : SpoorRef) :
    ∃ T' es' hs', T.swapRoot spoors source = some (T', 0) ∧ Ok spoors T' es' hs' ∧
      Moves T es hs T' es' hs' ∧ Settled T es T' es' ∧ T'.rootSpoor = some source ∧
      (T.rootSpoor = some source → T' = T) ∧
      (T.rootSpoor ≠ some source →
      es'.map T'.entryOf = Listing.shed spoors (es.map T.entryOf) (spoors source)) := by
  rw [Table.swapRoot]
  by_cases hsame : T.rootSpoor = some source
  · rw [if_pos hsame]
    exact ⟨T, es, hs, rfl, hok, .refl hentries hpoints,
      .refl T es, hsame, fun _ => rfl, absurd hsame⟩
  rw [if_neg hsame]
  have hok₁ := hok.setRoot (Function.update T.spoorRefs source (T.spoorRefs source + 1))
    (some source)
  obtain ⟨T₁, hT₁⟩ : ∃ T₁, ({ T.spoorRef source with rootSpoor := some source } : Table) = T₁ :=
    ⟨_, rfl⟩
  replace hok₁ : Ok spoors T₁ es hs := hT₁ ▸ hok₁
  have hoff₁ : SameOff T.toNsMem T₁.toNsMem [] hs := by
    rw [← hT₁]
    exact ⟨fun _ _ => ⟨rfl, rfl, rfl, rfl, rfl, rfl, rfl, rfl⟩,
      fun _ _ => ⟨rfl, rfl, rfl, rfl, rfl, rfl⟩⟩
  have hlive₁ : T₁.mountLive = T.mountLive ∧ T₁.headLive = T.headLive := hT₁ ▸ ⟨rfl, rfl⟩
  have hroot₁ : T₁.rootSpoor = some source := hT₁ ▸ rfl
  have hentry₁ : T₁.entryOf = T.entryOf := hT₁ ▸ rfl
  have howed₁ (s : SpoorRef) : T₁.owed es s = T.owed es s + [source].count s :=
    hT₁ ▸ owed_spoorRef T es source s
  have hpath₁ : T₁.pathOwed es = T.pathOwed es := hT₁ ▸ rfl
  obtain ⟨T₂, T₃, d, es', hs', hshed, hv, hp, hlist⟩ := hok₁.shed (spoors source)
  have hlive₂ : T₂.mountLive = T.mountLive ∧ T₂.headLive = T.headLive :=
    ⟨hv.live.1.trans hlive₁.1, hv.live.2.trans hlive₁.2⟩
  have hrules : Rules spoors (es'.map T₃.entryOf) := by
    rw [hlist]
    exact hok₁.rules.shed _
  obtain ⟨hok', hmoves, hbal, hroot, hentry⟩ := hp.release hok.rep.entriesNodup hrules
    (hlive₂.1 ▸ hentries) (hlive₂.2 ▸ hpoints)
  set T₄ := T₃.mountDeadRelease d
  have hroot' : T₄.rootSpoor = some source := hroot.trans (hv.root.trans hroot₁)
  have hlist' : es'.map T₄.entryOf = Listing.shed spoors (es.map T.entryOf) (spoors source) := by
    rw [hentry, hlist, hentry₁]
  have hoff₂ := hoff₁.trans hv.sameOff
  have howed (s : SpoorRef) : T₄.owed es' s = T.owed es s + [source].count s := by
    rw [hbal.spoors, (hv.balanced es).spoors, howed₁]
  have hpath : T₄.pathOwed es' = T.pathOwed es := by rw [hbal.paths, (hv.balanced es).paths, hpath₁]
  rw [hT₁]
  simp only [hshed]
  obtain ⟨hclunk, hdrop, hdropp, hml, hhl⟩ := clunkRoot_spec T₄ T.rootSpoor es'
  refine ⟨_, es', hs', rfl, hclunk.ok hok', hmoves.congr hoff₂ hlive₂.1 hlive₂.2 hclunk hml hhl,
    ⟨fun s => ?_, hdropp.trans hpath⟩, hclunk.root.trans hroot', fun heq => absurd heq hsame,
    fun _ => ?_⟩
  · rw [hdrop, howed, hclunk.root, hroot', Option.toList_some]
    omega
  · rw [hclunk.entryOf]
    exact hlist'

theorem Ok.territoryChroot (source : Option SpoorRef) :
    ∃ T' rc es' hs', T.territoryChroot spoors source = some (T', rc) ∧ Ok spoors T' es' hs' ∧
      Moves T es hs T' es' hs' ∧ Settled T es T' es' := by
  cases source with
  | none => exact ⟨T, -1, es, hs, rfl, hok, .refl hentries hpoints, .refl T es⟩
  | some source =>
    obtain ⟨T', es', hs', hswap, hok', hmoves, hsettled, -⟩ := hok.swapRoot hentries hpoints source
    exact ⟨T', 0, es', hs', hswap, hok', hmoves, hsettled⟩

theorem Ok.territoryPivotRoot (source : Option SpoorRef) :
    ∃ T' rc es' hs', T.territoryPivotRoot spoors source = some (T', rc) ∧ Ok spoors T' es' hs' ∧
      Moves T es hs T' es' hs' ∧ Settled T es T' es' := by
  cases source with
  | none => exact hok.territoryChroot hentries hpoints none
  | some source =>
    by_cases hroot : T.rootSpoor = none
    · exact ⟨T, -1, es, hs, if_pos hroot, hok, .refl hentries hpoints, .refl T es⟩
    · rw [Table.territoryPivotRoot, if_neg hroot]
      exact hok.territoryChroot hentries hpoints (some source)

end Table

end Thylacine
