import Thylacine.Territory.TableListing

/-!
# The Passes over the Points

The two searches of the mount table, the cycle check and the shed at a change of the root, are
instances of one worklist search. A mark is the number of the pass in the `visit` field, and the
worklist is threaded through the `work` fields; `Tracks` says that such a table stands for a
state of the search. Marks of earlier passes remain, so a new pass needs a number that no point
has.

## Main results

* `mvisitNext_spec`: there is one, also when the counter wraps.
* `wouldCreateMountCycle_spec`: the check finds a cycle exactly if the source leads to the point.
* `reach_iff_generation`: the shed marks the points of the reachable device instances.
-/

namespace Thylacine

open DoublyLinked List PointerChain Relation Worklist
open Function (update update_of_ne update_self)

namespace Table

variable {T T' T'' : Table} {es : List MountRef} {hs : List HeadRef} {m : MountRef} {h : HeadRef}
  {k : MKey}

/-! ### What a pass writes -/

/-- Only marks of `hs`, worklist links and pass counter differ. -/
structure Visited (T T' : Table) (hs : List HeadRef) : Prop where
  mem : ∃ visit work, T'.toNsMem = { T.toNsMem with visit := visit, work := work } ∧
    ∀ h, h ∉ hs → visit h = T.visit h
  ns : ∃ n, T'.toNsTable = { T.toNsTable with mvisit := n }

theorem Visited.refl (T : Table) (hs : List HeadRef) : Visited T T hs :=
  ⟨⟨_, _, rfl, fun _ _ => rfl⟩, ⟨_, rfl⟩⟩

section

variable (hv : Visited T T' hs)
include hv

theorem Visited.trans (hv' : Visited T' T'' hs) : Visited T T'' hs := by
  obtain ⟨⟨v, w, hmem, hoff⟩, ⟨n, hns⟩⟩ := hv
  obtain ⟨⟨v', w', hmem', hoff'⟩, ⟨n', hns'⟩⟩ := hv'
  refine ⟨⟨v', w', by rw [hmem', hmem], fun h hh => (hoff' h hh).trans ?_⟩, ⟨n', by rw [hns', hns]⟩⟩
  rw [hmem]
  exact hoff h hh

theorem Visited.exists_eq :
    ∃ visit work n, T' = { T with visit := visit, work := work, mvisit := n } := by
  obtain ⟨⟨v, w, hmem, -⟩, ⟨n, hns⟩⟩ := hv
  obtain ⟨M, N⟩ := T'
  subst hmem hns
  exact ⟨v, w, n, rfl⟩

/-- What does not look at the marks is the same. -/
theorem Visited.congr {γ : Sort*} (f : Table → γ)
    (hf : ∀ visit work n, f { T with visit := visit, work := work, mvisit := n } = f T) :
    f T' = f T := by
  obtain ⟨v, w, n, rfl⟩ := hv.exists_eq
  exact hf v w n

theorem Visited.sameOff : SameOff T.toNsMem T'.toNsMem [] hs := by
  obtain ⟨⟨v, w, hmem, hoff⟩, -⟩ := hv
  rw [hmem]
  exact ⟨fun _ _ => ⟨rfl, rfl, rfl, rfl, rfl, rfl, rfl, rfl⟩,
    fun h hh => ⟨rfl, rfl, rfl, rfl, rfl, hoff h hh⟩⟩

theorem Visited.entryOf_eq : T'.entryOf = T.entryOf := hv.congr entryOf fun _ _ _ => rfl

theorem Visited.members_eq : T'.members = T.members := hv.congr members fun _ _ _ => rfl

theorem Visited.balanced (ms : List MountRef) : Balanced T ms T' ms := by
  obtain ⟨v, w, n, rfl⟩ := hv.exists_eq
  exact ⟨rfl, rfl⟩

theorem Visited.live : T'.mountLive = T.mountLive ∧ T'.headLive = T.headLive := by
  obtain ⟨v, w, n, rfl⟩ := hv.exists_eq
  exact ⟨rfl, rfl⟩

theorem Visited.root : T'.rootSpoor = T.rootSpoor := hv.congr (·.rootSpoor) fun _ _ _ => rfl

theorem Visited.rep (hrep : T.Rep es hs) (hle : ∀ h ∈ hs, T'.visit h ≤ T'.mvisit) :
    T'.Rep es hs := by
  obtain ⟨v, w, n, rfl⟩ := hv.exists_eq
  exact ⟨hrep.table, hrep.chains, hrep.keys, hrep.members, hrep.nmembers, hrep.headed, hrep.nmounts,
    hrep.npoints, hle, hrep.entriesLe, hrep.pointsLe⟩

end

/-- **A new pass** starts with no point marked, even after a wrap. -/
theorem mvisitNext_spec (hrep : T.Rep es hs) :
    Visited T T.mvisitNext hs ∧ ∀ h ∈ hs, T.mvisitNext.visit h < T.mvisitNext.mvisit := by
  rw [mvisitNext]
  split_ifs with hwrap
  · refine ⟨⟨⟨_, _, rfl, fun h hh => if_neg fun hmem => hh (hrep.mem_points.mp hmem)⟩, ⟨_, rfl⟩⟩,
      fun h hh => ?_⟩
    dsimp only
    rw [if_pos (hrep.mem_points.mpr hh)]
    decide
  · refine ⟨⟨⟨_, _, rfl, fun _ _ => rfl⟩, ⟨_, rfl⟩⟩, fun h hh => ?_⟩
    have hle := UInt32.le_iff_toNat_le.mp (hrep.visited h hh)
    have hnz : (T.mvisit + 1).toNat ≠ 0 := fun hzero => hwrap (UInt32.toNat_inj.mp hzero)
    rw [UInt32.toNat_add] at hnz
    rw [UInt32.lt_iff_toNat_lt, UInt32.toNat_add]
    have hlt := T.mvisit.toNat_lt
    simp only [UInt32.toNat_one] at hnz ⊢
    omega

/-! ### The table as a state of a search -/

/-- Marks and worklist of `Tw` stand for the state `s` of a search. -/
structure Tracks (T : Table) (hs : List HeadRef) (pass : UInt32) (Tw : Table × Option HeadRef)
    (s : State HeadRef) : Prop where
  seen : Visited T Tw.1 hs
  mvisit : Tw.1.mvisit = pass
  le : ∀ h ∈ hs, Tw.1.visit h ≤ pass
  marked : ∀ h ∈ hs, Tw.1.visit h = pass ↔ h ∈ s.marked
  inside : ∀ h ∈ s.marked, h ∈ hs
  work : Chain Tw.1.work Tw.2 s.pending
  pending : ∀ h ∈ s.pending, h ∈ s.marked

variable {pass : UInt32} {Tw : Table × Option HeadRef} {s : State HeadRef}

theorem Tracks.rep (ht : Tracks T hs pass Tw s) (hrep : T.Rep es hs) : Tw.1.Rep es hs :=
  ht.seen.rep hrep fun h hh => (ht.le h hh).trans_eq ht.mvisit.symm

/-- To queue a point is to push it. -/
theorem Tracks.enqueue (ht : Tracks T hs pass Tw s) (hh : h ∈ hs) :
    Tracks T hs pass (enqueue pass Tw h) (push s h) := by
  rw [Table.enqueue, push]
  by_cases hmark : Tw.1.visit h = pass
  · rw [if_pos hmark, if_pos ((ht.marked h hh).mp hmark)]
    exact ht
  · have hnot : h ∉ s.marked := fun hmem => hmark ((ht.marked h hh).mpr hmem)
    rw [if_neg hmark, if_neg hnot]
    constructor
    · refine ht.seen.trans ⟨⟨_, _, rfl, fun p hp => ?_⟩, ⟨_, rfl⟩⟩
      exact update_of_ne (ne_of_mem_of_not_mem hh hp).symm _ _
    · exact ht.mvisit
    · intro p hp
      change update Tw.1.visit h pass p ≤ pass
      by_cases hph : p = h
      · rw [hph, update_self]
        exact UInt32.le_refl pass
      · rw [update_of_ne hph]
        exact ht.le p hp
    · intro p hp
      change update Tw.1.visit h pass p = pass ↔ p ∈ insert h s.marked
      by_cases hph : p = h
      · rw [hph, update_self]
        exact ⟨fun _ => Finset.mem_insert_self .., fun _ => rfl⟩
      · rw [update_of_ne hph, ht.marked p hp, Finset.mem_insert, or_iff_right hph]
    · exact Finset.forall_mem_insert .. |>.mpr ⟨hh, ht.inside⟩
    · exact ht.work.push fun hmem => hnot (ht.pending h hmem)
    · exact forall_mem_cons.mpr
        ⟨Finset.mem_insert_self .., fun p hp => Finset.mem_insert_of_mem (ht.pending p hp)⟩

/-- The point taken off the worklist. -/
theorem Tracks.pop {M : Finset HeadRef} {rest : List HeadRef}
    (ht : Tracks T hs pass Tw ⟨M, h :: rest⟩) :
    Tw.2 = some h ∧ h ∈ hs ∧ Tracks T hs pass (Tw.1, Tw.1.work h) ⟨M, rest⟩ := by
  obtain ⟨hhead, htail⟩ := ht.work
  exact ⟨hhead, ht.inside h (ht.pending h mem_cons_self), ht.seen, ht.mvisit, ht.le, ht.marked,
    ht.inside, htail, fun p hp => ht.pending p (mem_cons_of_mem h hp)⟩

section Drain

variable {β : Type*} {out : HeadRef → List β} {hit : β → Bool} {ends : β → List HeadRef}
  (cscan : HeadRef → Table × Option HeadRef → Bool × Table × Option HeadRef)

/-- A loop whose scan follows a search's **follows the search**. -/
theorem drain_tracks (hscan : ∀ h ∈ hs, ∀ Tw s, Tracks T hs pass Tw s →
      ∃ Tw', cscan h Tw = ((scan hit ends (out h) s).1, Tw') ∧
      Tracks T hs pass Tw' (scan hit ends (out h) s).2)
    {fuel : ℕ} {found : Bool} {s' : State HeadRef} (ht : Tracks T hs pass Tw s)
    (hsearch : search out hit ends fuel s = some (found, s')) :
    ∃ Tw', drain cscan fuel Tw = some (found, Tw'.1) ∧ Tracks T hs pass Tw' s' := by
  fun_induction search out hit ends fuel s generalizing Tw with
  | case1 =>
    obtain ⟨T₁, w⟩ := Tw
    obtain rfl : w = none := ht.work
    cases hsearch
    exact ⟨(T₁, none), by rw [drain], ht⟩
  | case2 => cases hsearch
  | case3 fuel M h rest s₁ hres =>
    obtain ⟨hhead, hh, hpop⟩ := ht.pop
    obtain ⟨Tw', hc, ht'⟩ := hscan h hh _ _ hpop
    obtain ⟨T₁, w⟩ := Tw
    subst hhead
    rw [drain, hc]
    rw [hres] at ht' ⊢
    cases hsearch
    exact ⟨Tw', rfl, ht'⟩
  | case4 fuel M h rest s₁ hres ih =>
    obtain ⟨hhead, hh, hpop⟩ := ht.pop
    obtain ⟨Tw', hc, ht'⟩ := hscan h hh _ _ hpop
    obtain ⟨T₁, w⟩ := Tw
    subst hhead
    rw [drain, hc]
    rw [hres] at ht' ⊢
    exact ih ht' hsearch

end Drain

/-- A loop looks at no more points than there are. -/
theorem Rep.card_points_le (hrep : T.Rep es hs) : hs.toFinset.card ≤ fuel :=
  (toFinset_card_le hs).trans (hrep.pointsLe.trans (Nat.le_succ _))

/-- A pass begins with nothing marked. -/
theorem tracks_mvisitNext (hrep : T.Rep es hs) :
    Visited T T.mvisitNext hs ∧ T.mvisitNext.Rep es hs ∧
      Tracks T.mvisitNext hs T.mvisitNext.mvisit (T.mvisitNext, none) ⟨∅, []⟩ := by
  obtain ⟨hnext, hlt⟩ := mvisitNext_spec hrep
  have hle : ∀ h ∈ hs, T.mvisitNext.visit h ≤ T.mvisitNext.mvisit := fun h hh =>
    UInt32.le_of_lt (hlt h hh)
  exact ⟨hnext, hnext.rep hrep hle, .refl _ hs, rfl, hle,
    fun h hh => ⟨fun heq => absurd heq (UInt32.ne_of_lt (hlt h hh)), nofun⟩, nofun, rfl, nofun⟩

/-! ### The cycle check -/

section Cycle

variable (spoors : SpoorRef → Spoor) (T)

/-- An entry leads to the point of its source. -/
def cycleEnds (m : MountRef) : List HeadRef := (T.mheadFind (spoors (T.source m)).key).toList

def cycleHit (dst : MKey) (m : MountRef) : Bool := (spoors (T.source m)).key = dst

variable {spoors T} {dst src : MKey}

theorem mem_cycleEnds : h ∈ T.cycleEnds spoors m ↔ T.mheadFind (spoors (T.source m)).key = some h :=
  Option.mem_toList

theorem cycleHit_iff : T.cycleHit spoors dst m = true ↔ (spoors (T.source m)).key = dst :=
  decide_eq_true_iff

section

variable (hrep : T.Rep es hs)
include hrep

theorem cycleScan_tracks (ms : List MountRef) (ht : Tracks T hs pass Tw s) :
    ∃ Tw', cycleScan spoors pass dst ms Tw =
      ((scan (T.cycleHit spoors dst) (T.cycleEnds spoors) ms s).1, Tw') ∧
      Tracks T hs pass Tw' (scan (T.cycleHit spoors dst) (T.cycleEnds spoors) ms s).2 := by
  induction ms generalizing Tw s with
  | nil => exact ⟨Tw, rfl, ht⟩
  | cons m ms ih =>
    have hsource : Tw.1.source = T.source := ht.seen.congr (·.source) fun _ _ _ => rfl
    have hfind : Tw.1.mheadFind = T.mheadFind := ht.seen.congr mheadFind fun _ _ _ => rfl
    rw [cycleScan, scan, hsource, hfind]
    by_cases hdst : (spoors (T.source m)).key = dst
    · rw [if_pos hdst, if_pos (cycleHit_iff.mpr hdst)]
      exact ⟨Tw, rfl, ht⟩
    · rw [if_neg hdst, if_neg (hdst ∘ cycleHit_iff.mp)]
      cases hfind : T.mheadFind (spoors (T.source m)).key with
      | none =>
        have hends : T.cycleEnds spoors m = [] := by rw [cycleEnds, hfind, Option.toList_none]
        rw [hends]
        exact ih ht
      | some p =>
        have hends : T.cycleEnds spoors m = [p] := by rw [cycleEnds, hfind, Option.toList_some]
        rw [hends]
        exact ih (ht.enqueue (hrep.mheadFind_eq_some.mp hfind).1)

/-- The search reaches all that the mounts lead to. -/
theorem reach_of_path (hpath : ReflTransGen (Listing.Edge spoors (es.map T.entryOf)) src k) :
    ∀ p ∈ hs, T.key p = k →
      Reach T.members (T.cycleEnds spoors) (· ∈ (T.mheadFind src).toList) p := by
  induction hpath with
  | refl =>
    intro p hp hkey
    exact ⟨p, Option.mem_toList.mpr (hrep.mheadFind_eq_some.mpr ⟨hp, hkey⟩), .refl⟩
  | tail _ hedge ih =>
    intro p hp hkey
    obtain ⟨e, he, -, hek, hes⟩ := hedge
    obtain ⟨m, hm, rfl⟩ := mem_map.mp he
    obtain ⟨q, hq, hhead⟩ := hrep.headed m hm
    obtain ⟨h₀, hstart, hreach⟩ := ih q hq ((pointKey_of_head hhead).symm.trans hek)
    refine ⟨h₀, hstart, hreach.tail ⟨m, ?_, ?_⟩⟩
    · rw [hrep.members_eq hq]
      exact mem_membersIn.mpr ⟨hm, hhead⟩
    · exact mem_cycleEnds.mpr (hrep.mheadFind_eq_some.mpr ⟨hp, hkey.trans hes.symm⟩)

variable (hself : ∀ e ∈ es.map T.entryOf, e.covered = true → (spoors e.source).key = e.key)
include hself

/-- A member leads to its source; a covered one back to the point. -/
theorem path_of_member (hh : h ∈ hs) (hm : m ∈ T.members h)
    (hpath : ReflTransGen (Listing.Edge spoors (es.map T.entryOf)) src (T.key h)) :
    ReflTransGen (Listing.Edge spoors (es.map T.entryOf)) src (spoors (T.source m)).key := by
  rw [hrep.members_eq hh, mem_membersIn] at hm
  have hkey : T.pointKey m = T.key h := pointKey_of_head hm.2
  have hmem : T.entryOf m ∈ es.map T.entryOf := mem_map_of_mem hm.1
  cases hcov : (T.entryOf m).covered with
  | true =>
    have hback : (spoors (T.source m)).key = T.pointKey m := hself _ hmem hcov
    rw [hback, hkey]
    exact hpath
  | false => exact hpath.tail ⟨_, hmem, hcov, hkey, rfl⟩

/-- The mounts lead to all that the search reaches. -/
theorem path_of_reach
    (hreach : Reach T.members (T.cycleEnds spoors) (· ∈ (T.mheadFind src).toList) h) :
    h ∈ hs ∧ ReflTransGen (Listing.Edge spoors (es.map T.entryOf)) src (T.key h) := by
  obtain ⟨h₀, hstart, hpath⟩ := hreach
  induction hpath with
  | refl =>
    obtain ⟨hh₀, hkey⟩ := hrep.mheadFind_eq_some.mp (Option.mem_toList.mp hstart)
    exact ⟨hh₀, hkey ▸ .refl⟩
  | @tail p q _ hedge ih =>
    obtain ⟨hp, hpath⟩ := ih
    obtain ⟨m, hm, hq⟩ := hedge
    obtain ⟨hqs, hqkey⟩ := hrep.mheadFind_eq_some.mp (mem_cycleEnds.mp hq)
    rw [hqkey]
    exact ⟨hqs, path_of_member hrep hself hp hm hpath⟩

/-- A hit iff the source leads to the mount point. -/
theorem hit_iff_path (hne : src ≠ dst) :
    (∃ h m, Reach T.members (T.cycleEnds spoors) (· ∈ (T.mheadFind src).toList) h ∧ m ∈ T.members h ∧
      T.cycleHit spoors dst m = true) ↔
      ReflTransGen (Listing.Edge spoors (es.map T.entryOf)) src dst := by
  constructor
  · rintro ⟨h, m, hreach, hm, hhit⟩
    obtain ⟨hh, hpath⟩ := path_of_reach hrep hself hreach
    rw [← cycleHit_iff.mp hhit]
    exact path_of_member hrep hself hh hm hpath
  · intro hpath
    rcases ReflTransGen.cases_tail hpath with heq | ⟨k, hpath, e, he, -, hek, hes⟩
    · exact absurd heq.symm hne
    · obtain ⟨m, hm, rfl⟩ := mem_map.mp he
      obtain ⟨h, hh, hhead⟩ := hrep.headed m hm
      have hkey : T.key h = k := (pointKey_of_head hhead).symm.trans hek
      refine ⟨h, m, reach_of_path hrep hpath h hh hkey, ?_, cycleHit_iff.mpr hes⟩
      rw [hrep.members_eq hh]
      exact mem_membersIn.mpr ⟨hm, hhead⟩

end

/-- **The cycle check is exact**, and leaves all but the marks. -/
theorem wouldCreateMountCycle_spec (src dst : MKey) (hrep : T.Rep es hs)
    (hself : ∀ e ∈ es.map T.entryOf, e.covered = true → (spoors e.source).key = e.key) :
    ∃ found T', T.wouldCreateMountCycle spoors src dst = some (found, T') ∧ Visited T T' hs ∧
      T'.Rep es hs ∧
      (found = true ↔ ReflTransGen (Listing.Edge spoors (es.map T.entryOf)) src dst) := by
  rw [wouldCreateMountCycle]
  by_cases hne : src = dst
  · rw [if_pos hne]
    exact ⟨true, T, rfl, .refl T hs, hrep, fun _ => hne ▸ .refl, fun _ => rfl⟩
  rw [if_neg hne]
  obtain ⟨hnext, hrep₁, hempty⟩ := tracks_mvisitNext hrep
  obtain ⟨T₁, hT₁⟩ : ∃ T₁, T.mvisitNext = T₁ := ⟨_, rfl⟩
  rw [hT₁] at hnext hrep₁ hempty ⊢
  rw [← hnext.entryOf_eq] at hself ⊢
  have hstart : ∀ a ∈ (T₁.mheadFind src).toList, a ∈ hs.toFinset := fun a ha =>
    mem_toFinset.mpr (hrep₁.mheadFind_eq_some.mp (Option.mem_toList.mp ha)).1
  have hU : ∀ a ∈ hs.toFinset, ∀ x ∈ T₁.members a, ∀ b ∈ T₁.cycleEnds spoors x,
      b ∈ hs.toFinset := fun a _ x _ b hb =>
    mem_toFinset.mpr (hrep₁.mheadFind_eq_some.mp (mem_cycleEnds.mp hb)).1
  obtain ⟨found, s', hsearch, hfound, -⟩ :=
    search_from (T₁.cycleHit spoors dst) hstart hU hrep₁.card_points_le
  refine (drain_tracks (fun h Tw => cycleScan spoors T₁.mvisit dst (Tw.1.members h) Tw)
    (fun h _ Tw s ht => by
      rw [ht.seen.members_eq]
      exact cycleScan_tracks hrep₁ _ ht) ?_ hsearch).elim fun Tw' h =>
    ⟨found, Tw'.1, h.1, hnext.trans h.2.seen, h.2.rep hrep₁,
      hfound.trans (hit_iff_path hrep₁ hself hne)⟩
  -- the point of the source, if it is one, is marked without a look at its mark
  cases hfind : T₁.mheadFind src with
  | none => exact hempty
  | some h =>
    have hh := (hrep₁.mheadFind_eq_some.mp hfind).1
    have hmark : T₁.visit h ≠ T₁.mvisit := fun heq =>
      Finset.notMem_empty h ((hempty.marked h hh).mp heq)
    have hpush := hempty.enqueue hh
    rwa [enqueue, if_neg hmark] at hpush

end Cycle

/-! ### The marks of the shed -/

section Shed

variable (spoors : SpoorRef → Spoor) (T)

/-- The points in the device instance of `s`. -/
def instancePoints (s : Spoor) : List HeadRef := T.points.filter fun h => inInstance s (T.key h)

/-- An entry leads to the points in its source's instance. -/
def shedEnds (m : MountRef) : List HeadRef := T.instancePoints (spoors (T.source m))

/-- The points that the root leads to. -/
def shedStart (root : Spoor) : List HeadRef :=
  T.instancePoints root ++ (root.unionPoint.map fun p => T.instancePoints (spoors p)).getD []

variable {spoors T} {root : Spoor}

variable (hrep : T.Rep es hs)
include hrep

theorem Rep.mem_instancePoints {s : Spoor} :
    h ∈ T.instancePoints s ↔ h ∈ hs ∧ OnInstance s (T.key h).dc (T.key h).devno := by
  simp [instancePoints, hrep.mem_points, inInstance, OnInstance]

theorem shedReach_tracks (sp : Spoor) (ht : Tracks T hs pass Tw s) :
    Tracks T hs pass (shedReach pass sp Tw) (pushAll s (T.instancePoints sp)) := by
  have hgen : ∀ ps : List HeadRef, (∀ p ∈ ps, p ∈ hs) → ∀ Tw s, Tracks T hs pass Tw s →
      Tracks T hs pass
        (ps.foldl (fun Tw h => if inInstance sp (Tw.1.key h) then enqueue pass Tw h else Tw) Tw)
        (pushAll s (ps.filter fun h => inInstance sp (T.key h))) := by
    intro ps
    induction ps with
    | nil => exact fun _ _ _ ht => ht
    | cons p ps ih =>
      intro hps Tw s ht
      have hkey : Tw.1.key = T.key := ht.seen.congr (·.key) fun _ _ _ => rfl
      rw [foldl_cons, filter_cons, hkey]
      split_ifs with hin
      · exact ih (fun q hq => hps q (mem_cons_of_mem p hq)) _ _ (ht.enqueue (hps p mem_cons_self))
      · exact ih (fun q hq => hps q (mem_cons_of_mem p hq)) _ _ ht
  rw [shedReach, ht.seen.congr points fun _ _ _ => rfl]
  exact hgen _ (fun p hp => hrep.mem_points.mp hp) _ _ ht

theorem shedScan_tracks (ms : List MountRef) (ht : Tracks T hs pass Tw s) :
    ∃ Tw', (false, ms.foldl (fun Tw m => shedReach pass (spoors (Tw.1.source m)) Tw) Tw) =
      ((scan (fun _ => false) (T.shedEnds spoors) ms s).1, Tw') ∧
      Tracks T hs pass Tw' (scan (fun _ => false) (T.shedEnds spoors) ms s).2 := by
  induction ms generalizing Tw s with
  | nil => exact ⟨Tw, rfl, ht⟩
  | cons m ms ih =>
    have hsource : Tw.1.source = T.source := ht.seen.congr (·.source) fun _ _ _ => rfl
    rw [foldl_cons, scan, if_neg Bool.false_ne_true, hsource]
    exact ih (shedReach_tracks hrep _ ht)

/-- The search reaches the points **in the reachable instances**. -/
theorem reach_iff_generation (hh : h ∈ hs) :
    Reach T.members (T.shedEnds spoors) (· ∈ T.shedStart spoors root) h ↔
      Listing.Generation spoors (es.map T.entryOf) root (T.key h).dc (T.key h).devno := by
  constructor
  · rintro ⟨h₀, hstart, hpath⟩
    suffices hgen : h ∈ hs ∧
        Listing.Generation spoors (es.map T.entryOf) root (T.key h).dc (T.key h).devno from hgen.2
    clear hh
    induction hpath with
    | refl =>
      rcases mem_append.mp hstart with hin | hin
      · obtain ⟨hh₀, hon⟩ := hrep.mem_instancePoints.mp hin
        exact ⟨hh₀, .root hon⟩
      · cases hunion : root.unionPoint with
        | none =>
          rw [hunion] at hin
          cases hin
        | some p =>
          rw [hunion] at hin
          obtain ⟨hh₀, hon⟩ := hrep.mem_instancePoints.mp hin
          exact ⟨hh₀, .union hunion hon⟩
    | tail _ hedge ih =>
      obtain ⟨hp, hgen⟩ := ih
      obtain ⟨m, hm, hq⟩ := hedge
      obtain ⟨hqs, hon⟩ := hrep.mem_instancePoints.mp hq
      rw [hrep.members_eq hp, mem_membersIn] at hm
      have hkey := pointKey_of_head hm.2
      rw [← hkey] at hgen
      exact ⟨hqs, .entry (mem_map_of_mem hm.1) hgen hon⟩
  · intro hgen
    suffices hall : ∀ dc devno, Listing.Generation spoors (es.map T.entryOf) root dc devno →
        ∀ p ∈ hs, (T.key p).dc = dc → (T.key p).devno = devno →
          Reach T.members (T.shedEnds spoors) (· ∈ T.shedStart spoors root) p from
      hall _ _ hgen h hh rfl rfl
    intro dc devno hgen
    induction hgen with
    | root hon =>
      rintro p hp rfl rfl
      exact ⟨p, mem_append_left _ (hrep.mem_instancePoints.mpr ⟨hp, hon⟩), .refl⟩
    | union hunion hon =>
      rintro p hp rfl rfl
      refine ⟨p, mem_append_right _ ?_, .refl⟩
      rw [hunion]
      exact hrep.mem_instancePoints.mpr ⟨hp, hon⟩
    | entry he _ hon ih =>
      rintro p hp rfl rfl
      obtain ⟨m, hm, rfl⟩ := mem_map.mp he
      obtain ⟨q, hq, hhead⟩ := hrep.headed m hm
      have hkey : T.key q = (T.entryOf m).key := (pointKey_of_head hhead).symm
      obtain ⟨h₀, hstart, hreach⟩ := ih q hq (by rw [hkey]) (by rw [hkey])
      refine ⟨h₀, hstart, hreach.tail ⟨m, ?_, hrep.mem_instancePoints.mpr ⟨hp, hon⟩⟩⟩
      rw [hrep.members_eq hq]
      exact mem_membersIn.mpr ⟨hm, hhead⟩

end Shed

end Table

end Thylacine
