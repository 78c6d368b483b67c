import Thylacine.Territory.Binds
import Thylacine.Territory.CopySpec

/-!
# All Territories

The tables of all Territories stand in one memory. `Tables` says that each satisfies its
invariant, that no two share a node, and that the references held to Spoors and Paths are those of
the entries and of the roots. `Inv` adds the lifecycle.

## Main results

* `Tables.setTable`: a change of one table keeps this, as the specs of the table operations say
  that they do nothing to the nodes and references of others.
* `Inv.step`: no call of the namespace layer ends in an extinction or breaks the invariant.
-/

namespace Thylacine

open Function (update update_of_ne update_self)
open DoublyLinked List PointerChain Relation Worklist

namespace Table

/-- The references to a Spoor that a table holds. -/
def held (T : Table) (es : List MountRef) (s : SpoorRef) : ℤ :=
  (es.map T.source).count s + T.rootSpoor.toList.count s

/-- The references to a Path that a table holds. -/
def pathHeld (T : Table) (es : List MountRef) (x : PathRef) : ℤ := (es.map T.mpPath).count (some x)

variable {spoors : SpoorRef → Spoor} {T T' : Table} {es es' : List MountRef} {hs : List HeadRef}

theorem held_congr (hmap : es.map T'.entryOf = es.map T.entryOf) (hroot : T'.rootSpoor = T.rootSpoor)
    (s : SpoorRef) : T'.held es s = T.held es s := by
  have hsource := congrArg (map MountEntry.source) hmap
  rw [List.map_map, List.map_map] at hsource
  rw [held, held, hroot, show es.map T'.source = es.map T.source from hsource]

theorem pathHeld_congr (hmap : es.map T'.entryOf = es.map T.entryOf) (x : PathRef) :
    T'.pathHeld es x = T.pathHeld es x := by
  have hpath := congrArg (map MountEntry.path) hmap
  rw [List.map_map, List.map_map] at hpath
  rw [pathHeld, pathHeld, show es.map T'.mpPath = es.map T.mpPath from hpath]

theorem Settled.held (h : Settled T es T' es') (s : SpoorRef) :
    T'.spoorRefs s - T'.held es' s = T.spoorRefs s - T.held es s := by
  have := h.spoors s
  rw [owed, owed] at this
  rw [Table.held, Table.held]
  omega

theorem Settled.pathHeld (h : Settled T es T' es') (x : PathRef) :
    T'.pathRefs x - T'.pathHeld es' x = T.pathRefs x - T.pathHeld es x :=
  congrFun h.paths x

theorem Ok.releaseTable (hok : Ok spoors T es hs) :
    Ok spoors T.releaseTable [] [] ∧ Moves T es hs T.releaseTable [] [] ∧
      Settled T es T.releaseTable [] ∧ T.releaseTable.rootSpoor = none := by
  obtain ⟨howed, hpath, hsame, hml, hhl, hns⟩ := hok.rep.releaseTable
  have hroot : T.releaseTable.rootSpoor = none := congrArg NsTable.rootSpoor hns
  have hrep : T.releaseTable.Rep [] [] := (rep_empty T.releaseTable.toNsMem T.mvisit).congr
    (.refl _ [] []) hns nofun nofun
  refine ⟨⟨hrep, nofun, .nil⟩, ⟨nofun, nofun, fun m hm hnot => ⟨?_, not_mem_nil⟩,
    fun h hh hnot => ⟨(hhl h).mpr ⟨hh, hnot⟩, not_mem_nil⟩, [], [], hsame,
    fun _ _ _ => not_mem_nil, fun _ _ _ => not_mem_nil⟩, ⟨fun s => ?_, hpath⟩, hroot⟩
  · rw [hml, Finset.mem_sdiff, mem_toFinset]
    exact ⟨hm, hnot⟩
  · rw [howed, hroot, Option.toList_none, count_nil]
    omega

end Table

namespace Kernel

open Table

variable (spoors : SpoorRef → Spoor)

/-- All Territories' tables, with entries `es` and points `hs`. -/
structure Tables (k : Kernel) (es : TerritoryRef → List MountRef)
    (hs : TerritoryRef → List HeadRef) : Prop where
  ok : ∀ p, Ok spoors (k.table p) (es p) (hs p)
  entries : ∀ p, ∀ m ∈ es p, m ∈ k.mem.mountLive
  points : ∀ p, ∀ h ∈ hs p, h ∈ k.mem.headLive
  apart : ∀ p q, p ≠ q → ∀ m ∈ es p, m ∉ es q
  pointsApart : ∀ p q, p ≠ q → ∀ h ∈ hs p, h ∉ hs q
  spoorRefs : ∀ s, k.mem.spoorRefs s = ∑ p ∈ k.live, (k.table p).held (es p) s
  pathRefs : ∀ x, k.mem.pathRefs x = ∑ p ∈ k.live, (k.table p).pathHeld (es p) x

/-- The namespace layer's invariant; a Territory nobody holds is empty. -/
structure Inv (k : Kernel) (es : TerritoryRef → List MountRef) (hs : TerritoryRef → List HeadRef) :
    Prop where
  tables : Tables spoors k es hs
  binds : ∀ p, BindsOk (k.territories p).binds
  idle : ∀ p, k.strong p = false → es p = [] ∧ hs p = [] ∧ (k.territories p).ns.rootSpoor = none
  weak : ∀ p, k.strong p = true → 0 < (k.territories p).weak

variable {spoors} {k k' : Kernel} {es : TerritoryRef → List MountRef}
  {hs : TerritoryRef → List HeadRef} {p q : TerritoryRef} {f : Territory → Territory}

/-! ### Updates -/

section

variable (k : Kernel)

theorem setTable_self (p : TerritoryRef) (T : Table) :
    (k.setTable p T).territories p = { k.territories p with ns := T.toNsTable } :=
  update_self ..

theorem table_setTable_self (p : TerritoryRef) (T : Table) : (k.setTable p T).table p = T := by
  rw [table, setTable_self]
  rfl

theorem setTable_of_ne (T : Table) (hq : q ≠ p) :
    (k.setTable p T).territories q = k.territories q :=
  update_of_ne hq _ _

theorem modify_self (p : TerritoryRef) (f : Territory → Territory) :
    (k.modify p f).territories p = f (k.territories p) :=
  update_self ..

theorem modify_of_ne (f : Territory → Territory) (hq : q ≠ p) :
    (k.modify p f).territories q = k.territories q :=
  update_of_ne hq _ _

/-- An update of other fields keeps the tables. -/
theorem ns_modify (hns : (f (k.territories p)).ns = (k.territories p).ns) (q : TerritoryRef) :
    ((k.modify p f).territories q).ns = (k.territories q).ns := by
  by_cases hq : q = p
  · rw [hq, modify_self, hns]
  · rw [modify_of_ne k f hq]

end

theorem strong_iff : k.strong p = true ↔ p ∈ k.live ∧ 0 < (k.territories p).ref := by
  rw [strong, Bool.and_eq_true, decide_eq_true_iff, decide_eq_true_iff]

theorem strong_setTable (k : Kernel) (p q : TerritoryRef) (T : Table) :
    (k.setTable p T).strong q = k.strong q := by
  by_cases hq : q = p
  · rw [hq, strong, setTable_self]
    rfl
  · rw [strong, setTable_of_ne k T hq]
    rfl

/-! ### The tables -/

variable {T : Table} {es' : List MountRef} {hs' : List HeadRef}

/-- The table of another Territory is untouched. -/
theorem Tables.of_ne
    (ht : Tables spoors k es hs) (hmoves : Moves (k.table p) (es p) (hs p) T es' hs')
    (hq : q ≠ p) :
    Ok spoors ((k.setTable p T).table q) (es q) (hs q) ∧
      (es q).map ((k.setTable p T).table q).entryOf = (es q).map (k.table q).entryOf ∧
      ((k.setTable p T).table q).rootSpoor = (k.table q).rootSpoor := by
  obtain ⟨ms, ps, hsame, hms, hps⟩ := hmoves.same
  have hns : ((k.setTable p T).table q).toNsTable = (k.table q).toNsTable := by
    rw [table, table, setTable_of_ne k T hq]
  have hoff (m : MountRef) (hm : m ∈ es q) : m ∉ ms :=
    hms m (ht.entries q m hm) (ht.apart q p hq m hm)
  have hoffp (h : HeadRef) (hh : h ∈ hs q) : h ∉ ps :=
    hps h (ht.points q h hh) (ht.pointsApart q p hq h hh)
  exact ⟨(ht.ok q).congr hsame hns hoff hoffp, (ht.ok q).rep.map_entryOf_congr hsame hoff hoffp,
    congrArg NsTable.rootSpoor hns⟩

theorem apart_update {α : Type} {ls : TerritoryRef → List α} {l : List α}
    (h : ∀ p q, p ≠ q → ∀ a ∈ ls p, a ∉ ls q) (hl : ∀ q, q ≠ p → ∀ a ∈ ls q, a ∉ l) (q r : TerritoryRef)
    (hqr : q ≠ r) : ∀ a ∈ update ls p l q, a ∉ update ls p l r := by
  by_cases hq : q = p
  · subst hq
    rw [update_self, update_of_ne hqr.symm]
    exact fun a ha hr => hl r hqr.symm a hr ha
  · rw [update_of_ne hq]
    by_cases hr : r = p
    · subst hr
      rw [update_self]
      exact hl q hq
    · rw [update_of_ne hr]
      exact h q r hqr

section

variable (ht : Tables spoors k es hs) (hp : p ∈ k.live)
  (hmoves : Moves (k.table p) (es p) (hs p) T es' hs')
include ht hp hmoves

/-- What all tables hold changes as the one that changes. -/
theorem Tables.sum_setTable {w : Table → List MountRef → ℤ}
    (hw : ∀ T T' ms, ms.map T'.entryOf = ms.map T.entryOf → T'.rootSpoor = T.rootSpoor →
      w T' ms = w T ms) {n n' : ℤ} (hn : n = ∑ q ∈ k.live, w (k.table q) (es q))
    (hbal : n' - w T es' = n - w (k.table p) (es p)) :
    n' = ∑ q ∈ k.live, w ((k.setTable p T).table q) (update es p es' q) := by
  have hsum := CountedTable.sum_sub_of_ne hp (u := fun q => w (k.table q) (es q))
    (v := fun q => w ((k.setTable p T).table q) (update es p es' q)) fun q _ hq => by
      obtain ⟨-, hmap, hroot⟩ := ht.of_ne hmoves hq
      rw [update_of_ne hq]
      exact hw _ _ _ hmap hroot
  simp only [table_setTable_self, update_self] at hsum
  omega

/-- **One table changes**, and no other. -/
theorem Tables.setTable (hok : Ok spoors T es' hs') (hsettled : Settled (k.table p) (es p) T es') :
    Tables spoors (k.setTable p T) (update es p es') (update hs p hs') where
  ok := fun q => by
    by_cases hq : q = p
    · subst hq
      rw [table_setTable_self, update_self, update_self]
      exact hok
    · rw [update_of_ne hq, update_of_ne hq]
      exact (ht.of_ne hmoves hq).1
  entries := (Function.forall_update_iff es fun _ ms => ∀ m ∈ ms, m ∈ T.mountLive).mpr
    ⟨hmoves.entries, fun q hq m hm => (hmoves.entry m (ht.entries q m hm) (ht.apart q p hq m hm)).1⟩
  points := (Function.forall_update_iff hs fun _ ps => ∀ h ∈ ps, h ∈ T.headLive).mpr
    ⟨hmoves.points, fun q hq h hh =>
      (hmoves.point h (ht.points q h hh) (ht.pointsApart q p hq h hh)).1⟩
  apart := apart_update ht.apart fun q hq m hm =>
    (hmoves.entry m (ht.entries q m hm) (ht.apart q p hq m hm)).2
  pointsApart := apart_update ht.pointsApart fun q hq h hh =>
    (hmoves.point h (ht.points q h hh) (ht.pointsApart q p hq h hh)).2
  spoorRefs := fun s => ht.sum_setTable hp hmoves (fun _ _ _ hmap hroot => held_congr hmap hroot s)
    (ht.spoorRefs s) (hsettled.held s)
  pathRefs := fun x => ht.sum_setTable hp hmoves (fun _ _ _ hmap _ => pathHeld_congr hmap x)
    (ht.pathRefs x) (hsettled.pathHeld x)

end

/-- Blank tables hold no references, wherever counted. -/
theorem sum_congr_blank (w : Table → List MountRef → ℤ) (hw : ∀ T, T.rootSpoor = none → w T [] = 0)
    (h : ∀ q, k'.table q = k.table q ∧ (q ∈ k'.live ↔ q ∈ k.live) ∨
      es q = [] ∧ (k.table q).rootSpoor = none ∧ (k'.table q).rootSpoor = none) :
    ∑ q ∈ k'.live, w (k'.table q) (es q) = ∑ q ∈ k.live, w (k.table q) (es q) := by
  refine Finset.sum_congr_of_eq_on_inter (fun q hq hq' => ?_) (fun q hq hq' => ?_) fun q _ _ => ?_
  · obtain ⟨hes, -, hroot⟩ := (h q).resolve_left fun hsame => hq' (hsame.2.mp hq)
    rw [hes, hw _ hroot]
  · obtain ⟨hes, hroot, -⟩ := (h q).resolve_left fun hsame => hq' (hsame.2.mpr hq)
    rw [hes, hw _ hroot]
  · rcases h q with ⟨heq, -⟩ | ⟨hes, hroot, hroot'⟩
    · rw [heq]
    · rw [hes, hw _ hroot, hw _ hroot']

/-- Other fields and nodes change, where tables are blank. -/
theorem Tables.congr (ht : Tables spoors k es hs) (hmem : k'.mem = k.mem)
    (h : ∀ q, (k'.territories q).ns = (k.territories q).ns ∧ (q ∈ k'.live ↔ q ∈ k.live) ∨
      es q = [] ∧ hs q = [] ∧ (k.territories q).ns.rootSpoor = none ∧
      ((k'.territories q).ns = (k.territories q).ns ∨ (k'.territories q).ns = .empty)) :
    Tables spoors k' es hs := by
  have hsum : ∀ q, k'.table q = k.table q ∧ (q ∈ k'.live ↔ q ∈ k.live) ∨
      es q = [] ∧ (k.table q).rootSpoor = none ∧ (k'.table q).rootSpoor = none := by
    intro q
    rcases h q with ⟨hns, hlive⟩ | ⟨hes, -, hroot, hns | hns⟩
    · exact .inl ⟨by rw [table, table, hns, hmem], hlive⟩
    · exact .inr ⟨hes, hroot, (congrArg NsTable.rootSpoor hns).trans hroot⟩
    · exact .inr ⟨hes, hroot, congrArg NsTable.rootSpoor hns⟩
  refine ⟨fun q => ?_, hmem ▸ ht.entries, hmem ▸ ht.points, ht.apart, ht.pointsApart, fun s => ?_,
    fun x => ?_⟩
  · have hok := ht.ok q
    rcases h q with ⟨hns, -⟩ | ⟨hes, hhs, -, hns | hns⟩
    · rwa [table, hns, hmem]
    · rwa [table, hns, hmem]
    · rw [table, hns, hes, hhs]
      exact .empty k'.mem
  · rw [hmem, ht.spoorRefs s]
    refine (sum_congr_blank (fun T es => T.held es s) (fun T hroot => ?_) hsum).symm
    rw [held, hroot]
    rfl
  · rw [hmem, ht.pathRefs x]
    exact (sum_congr_blank (fun T es => T.pathHeld es x) (fun T _ => rfl) hsum).symm

/-! ### The lifecycle -/

section

variable (hinv : Inv spoors k es hs)
include hinv

/-- **One Territory changes**, and no other. -/
theorem Inv.edit {es' : TerritoryRef → List MountRef} {hs' : TerritoryRef → List HeadRef}
    (ht : Tables spoors k' es' hs')
    (hne : ∀ q, q ≠ p → k'.territories q = k.territories q ∧ (q ∈ k'.live ↔ q ∈ k.live) ∧
      es' q = es q ∧ hs' q = hs q)
    (hbinds : BindsOk (k'.territories p).binds)
    (hidle : k'.strong p = false → es' p = [] ∧ hs' p = [] ∧ (k'.territories p).ns.rootSpoor = none)
    (hweak : k'.strong p = true → 0 < (k'.territories p).weak) : Inv spoors k' es' hs' := by
  have hstrong {q : TerritoryRef} (hq : q ≠ p) : k'.strong q = k.strong q := by
    rw [Bool.eq_iff_iff, strong_iff, strong_iff, (hne q hq).1, (hne q hq).2.1]
  refine ⟨ht, fun q => ?_, fun q hq => ?_, fun q hq => ?_⟩
  · by_cases hqp : q = p
    · exact hqp ▸ hbinds
    · rw [(hne q hqp).1]
      exact hinv.binds q
  · by_cases hqp : q = p
    · exact hqp ▸ hidle (hqp ▸ hq)
    · obtain ⟨heq, -, hes, hhs⟩ := hne q hqp
      rw [heq, hes, hhs]
      exact hinv.idle q (hstrong hqp ▸ hq)
  · by_cases hqp : q = p
    · exact hqp ▸ hweak (hqp ▸ hq)
    · rw [(hne q hqp).1]
      exact hinv.weak q (hstrong hqp ▸ hq)

/-- A table operation by a strong holder. -/
theorem Inv.setTable (hp : k.strong p = true) (hok : Ok spoors T es' hs')
    (hmoves : Moves (k.table p) (es p) (hs p) T es' hs')
    (hsettled : Settled (k.table p) (es p) T es') :
    Inv spoors (k.setTable p T) (update es p es') (update hs p hs') := by
  obtain ⟨hlive, href⟩ := strong_iff.mp hp
  refine hinv.edit (hinv.tables.setTable hlive hmoves hok hsettled) (fun q hq =>
    ⟨setTable_of_ne k T hq, .rfl, update_of_ne hq .., update_of_ne hq ..⟩) ?_
    (fun hq => ?_) fun _ => ?_
  · rw [setTable_self]
    exact hinv.binds p
  · rw [strong_setTable, hp] at hq
    cases hq
  · rw [setTable_self]
    exact hinv.weak p hp

/-- An update of the other fields. -/
theorem Inv.modify (hns : (f (k.territories p)).ns = (k.territories p).ns)
    (href : 0 < (f (k.territories p)).ref ↔ 0 < (k.territories p).ref)
    (hweak : 0 < (f (k.territories p)).ref → 0 < (f (k.territories p)).weak)
    (hbinds : BindsOk (f (k.territories p)).binds) : Inv spoors (k.modify p f) es hs := by
  refine hinv.edit (hinv.tables.congr rfl fun q => .inl ⟨ns_modify k hns q, .rfl⟩)
    (fun q hq => ⟨modify_of_ne k f hq, .rfl, rfl, rfl⟩) ?_ (fun hp => ?_) fun hp => ?_
  · rwa [modify_self]
  · rw [ns_modify k hns]
    refine hinv.idle p (hp ▸ ?_)
    rw [Bool.eq_iff_iff, strong_iff, strong_iff, modify_self, href]
    rfl
  · have hpos := (strong_iff.mp hp).2
    rw [modify_self] at hpos ⊢
    exact hweak hpos

/-- A Territory nobody holds may be reset, or freed. -/
theorem Inv.reset (hp : k.strong p = false) (hmem : k'.mem = k.mem)
    (hne : ∀ q, q ≠ p → k'.territories q = k.territories q ∧ (q ∈ k'.live ↔ q ∈ k.live))
    (hns : (k'.territories p).ns = (k.territories p).ns ∨ (k'.territories p).ns = .empty)
    (hweak : 0 < (k'.territories p).ref → 0 < (k'.territories p).weak)
    (hbinds : BindsOk (k'.territories p).binds) : Inv spoors k' es hs := by
  obtain ⟨hes, hhs, hroot⟩ := hinv.idle p hp
  refine hinv.edit (hinv.tables.congr hmem fun q => ?_)
    (fun q hq => ⟨(hne q hq).1, (hne q hq).2, rfl, rfl⟩) hbinds
    (fun _ => ⟨hes, hhs, hns.elim (fun h => h ▸ hroot) fun h => h ▸ rfl⟩)
    fun hq => hweak (strong_iff.mp hq).2
  by_cases hqp : q = p
  · subst hqp
    exact .inr ⟨hes, hhs, hroot, hns⟩
  · exact .inl ⟨by rw [(hne q hqp).1], (hne q hqp).2⟩

theorem Inv.alloc (pick : Option TerritoryRef) : Inv spoors (k.territoryAlloc pick).1 es hs ∧
      ∀ p, (k.territoryAlloc pick).2 = some p → p ∉ k.live ∧
      (k.territoryAlloc pick).1.strong p = true ∧
      (k.territoryAlloc pick).1.territories p = .init ∧
      (∀ q, q ≠ p → (k.territoryAlloc pick).1.territories q = k.territories q) ∧
      (k.territoryAlloc pick).1.mem = k.mem := by
  cases pick with
  | none => exact ⟨hinv, nofun⟩
  | some p =>
    rw [territoryAlloc]
    by_cases hp : p ∈ k.live
    · simp only [if_pos hp]
      exact ⟨hinv, nofun⟩
    · simp only [if_neg hp]
      have hself := modify_self k p fun _ => .init
      have hne (q : TerritoryRef) (hq : q ≠ p) := modify_of_ne k (fun _ => .init) hq
      refine ⟨hinv.reset ?_ rfl (fun q hq => ⟨hne q hq, ?_⟩) (.inr ?_) (fun _ => ?_) ?_, ?_⟩
      · rw [strong, decide_eq_false hp]
        rfl
      · exact Finset.mem_insert.trans (or_iff_right hq)
      · exact congrArg Territory.ns hself
      · rw [hself]
        exact one_pos
      · rw [hself]
        exact .nil
      · rintro q ⟨⟩
        refine ⟨hp, strong_iff.mpr ⟨Finset.mem_insert_self .., ?_⟩, hself, hne, rfl⟩
        rw [hself]
        exact one_pos

theorem Inv.weakUnref (hp : k.weakHeld p = true) : Inv spoors (k.territoryWeakUnref p) es hs := by
  rw [weakHeld, Bool.and_eq_true, decide_eq_true_iff, decide_eq_true_iff] at hp
  rw [territoryWeakUnref]
  have hself := modify_self k p fun t => { t with weak := t.weak - 1 }
  have hne (q : TerritoryRef) (hq : q ≠ p) :=
    modify_of_ne k (fun t => { t with weak := t.weak - 1 }) hq
  by_cases hlast : (k.territories p).weak = 1
  · -- the strong references hold one as a set, so there is none
    have href : (k.territories p).ref = 0 := by
      by_contra hne
      rw [if_pos (Nat.pos_of_ne_zero hne)] at hp
      omega
    simp only [if_pos hlast]
    refine hinv.reset ?_ rfl (fun q hq => ⟨hne q hq, ?_⟩) (.inl ?_) (fun h => ?_) ?_
    · rw [strong, href]
      exact Bool.and_false _
    · exact Finset.mem_erase.trans (and_iff_right hq)
    · rw [hself]
    · rw [hself] at h
      exact absurd href (ne_of_gt h)
    · rw [hself]
      exact hinv.binds p
  · simp only [if_neg hlast]
    refine hinv.modify rfl .rfl (fun href => ?_) (hinv.binds p)
    rw [if_pos href] at hp
    exact Nat.sub_pos_of_lt hp.2

/-- What the last strong reference leaves to weak ones. -/
theorem Inv.release (k' : Kernel) (hp : p ∈ k.live)
    (hne : ∀ q, q ≠ p → k'.territories q = k.territories q) (hmem : k'.mem = k.mem)
    (hlive : k'.live = k.live) (hns : (k'.territories p).ns = (k.territories p).ns)
    (href : (k'.territories p).ref = 0) (hbinds : (k'.territories p).binds = (k.territories p).binds) :
    Inv spoors ((k'.setTable p (k'.table p).releaseTable).modify p fun t => { t with dotPath := none })
      (update es p []) (update hs p []) := by
  have ht' : Tables spoors k' es hs := hinv.tables.congr hmem fun q => by
    refine .inl ⟨?_, by rw [hlive]⟩
    by_cases hq : q = p
    · subst hq
      exact hns
    · rw [hne q hq]
  obtain ⟨hok, hmoves, hsettled, hroot⟩ := (ht'.ok p).releaseTable
  have ht₂ := ht'.setTable (hlive ▸ hp) hmoves hok hsettled
  generalize (k'.table p).releaseTable = T at hroot ht₂ ⊢
  have hself : ((k'.setTable p T).modify p fun t => { t with dotPath := none }).territories p =
      { k'.territories p with ns := T.toNsTable, dotPath := none } := by
    rw [modify_self, setTable_self]
  refine hinv.edit (ht₂.congr rfl fun q => .inl ⟨ns_modify _ rfl q, .rfl⟩)
    (fun q hq => ⟨?_, hlive ▸ .rfl, update_of_ne hq .., update_of_ne hq ..⟩) ?_
    (fun _ => ?_) fun hq => ?_
  · rw [modify_of_ne _ _ hq, setTable_of_ne k' _ hq, hne q hq]
  · rw [hself]
    exact hbinds ▸ hinv.binds p
  · rw [hself, update_self, update_self]
    exact ⟨rfl, rfl, hroot⟩
  · have hpos := (strong_iff.mp hq).2
    rw [hself] at hpos
    exact absurd href hpos.ne'

/-- The last strong reference releases the contents. -/
theorem Inv.unref (hp : k.strong p = true) :
    ∃ es' hs', Inv spoors (k.territoryUnref p) es' hs' := by
  obtain ⟨hlive, href⟩ := strong_iff.mp hp
  rw [territoryUnref]
  by_cases hlast : (k.territories p).ref = 1
  · simp only [if_pos hlast]
    have hself := modify_self k p fun t => { t with ref := t.ref - 1 }
    have hrelease := hinv.release (k.modify p fun t => { t with ref := t.ref - 1 }) hlive
      (fun q hq => modify_of_ne k _ hq) rfl rfl (by rw [hself]) (by rw [hself, hlast]) (by rw [hself])
    refine ⟨_, _, hrelease.weakUnref ?_⟩
    rw [weakHeld, Bool.and_eq_true, decide_eq_true_iff, decide_eq_true_iff, modify_self, setTable_self,
      modify_self, hlast]
    exact ⟨hlive, hinv.weak p hp⟩
  · simp only [if_neg hlast]
    refine ⟨es, hs, hinv.modify rfl ?_ (fun _ => hinv.weak p hp) (hinv.binds p)⟩
    change 0 < (k.territories p).ref - 1 ↔ _
    omega

end

/-! ### The copy -/

section

variable (hinv : Inv spoors k es hs)
include hinv

/-- The end of a copy keeps the tables. -/
theorem Inv.cloneDot (hp : k.strong p = true) (parent : TerritoryRef) (alloc : Bool) :
    ∃ k' r es' hs', k.cloneDot parent p alloc = (k', r) ∧ Inv spoors k' es' hs' ∧
      ∀ c, r = some c → c = p ∧ ∀ q, k'.table q = k.table q ∧
      (k'.territories q).binds = (k.territories q).binds := by
  rw [Kernel.cloneDot]
  cases (k.territories parent).dotPath with
  | none => exact ⟨k, some p, es, hs, rfl, hinv, fun c hc => ⟨(Option.some.inj hc).symm, fun q => ⟨rfl, rfl⟩⟩⟩
  | some =>
    cases alloc with
    | true =>
      refine ⟨_, _, es, hs, rfl, hinv.modify rfl .rfl (fun _ => hinv.weak p hp) (hinv.binds p),
        fun c hc => ⟨(Option.some.inj hc).symm, fun q => ?_⟩⟩
      by_cases hq : q = p
      · subst hq
        rw [table, modify_self]
        exact ⟨rfl, rfl⟩
      · rw [table, modify_of_ne k _ hq]
        exact ⟨rfl, rfl⟩
    | false =>
      obtain ⟨es', hs', hinv'⟩ := hinv.unref hp
      exact ⟨_, none, es', hs', rfl, hinv', nofun⟩

/-- What a copy takes over beside the table. -/
theorem Inv.inherit (hp : k.strong p = true) (parent : TerritoryRef)
    (alloc : Bool) (hf : (fun t => { t with
      binds := (k.territories parent).binds
      flags := (k.territories parent).flags }) = f) :
    ∃ k' r es' hs', (k.modify p f).cloneDot parent p alloc = (k', r) ∧ Inv spoors k' es' hs' ∧
      ∀ c, r = some c → c = p ∧ (k'.territories c).binds = (k.territories parent).binds ∧
        ∀ q, k'.table q = k.table q := by
  have hself : (k.modify p f).territories p = f (k.territories p) := modify_self ..
  have hinv₁ : Inv spoors (k.modify p f) es hs := by
    subst hf
    exact hinv.modify rfl .rfl (fun _ => hinv.weak p hp) (hinv.binds parent)
  have hstrong₁ : (k.modify p f).strong p = true := by
    subst hf
    rw [strong, hself]
    exact hp
  have htable (q : TerritoryRef) : (k.modify p f).table q = k.table q := by
    rw [table, ns_modify k (by rw [← hf]) q]
    rfl
  obtain ⟨k', r, es', hs', hdot, hinv', hsame⟩ := hinv₁.cloneDot hstrong₁ parent alloc
  refine ⟨k', r, es', hs', hdot, hinv', fun c hc => ?_⟩
  obtain ⟨rfl, hsame⟩ := hsame c hc
  refine ⟨rfl, ?_, fun q => (hsame q).1.trans (htable q)⟩
  subst hf
  rw [(hsame c).2, hself]

/-- **A copy** lists what its parent lists. -/
theorem Inv.clone {parent : TerritoryRef} (hparent : k.strong parent = true) (mem : CloneAlloc) :
    ∃ k' r es' hs', k.territoryClone parent mem = some (k', r) ∧ Inv spoors k' es' hs' ∧
      ∀ child, r = some child → child ∉ k.live ∧ (k'.table child).listing = (k.table parent).listing ∧
      (k'.table child).rootSpoor = (k.table parent).rootSpoor ∧
      (k'.territories child).binds = (k.territories parent).binds ∧
      ∀ q, q ≠ child → (k'.table q).listing = (k.table q).listing := by
  rw [territoryClone, if_neg (not_lt.mpr (hinv.binds parent).room)]
  obtain ⟨hinv₁, hnew⟩ := hinv.alloc mem.child
  obtain ⟨⟨k₁, r₁⟩, halloc⟩ : ∃ x, k.territoryAlloc mem.child = x := ⟨_, rfl⟩
  rw [halloc] at hinv₁ hnew ⊢
  cases r₁ with
  | none => exact ⟨k₁, none, es, hs, rfl, hinv₁, nofun⟩
  | some child =>
    obtain ⟨hfresh, hstrong, hself, hne, hmem⟩ := hnew child rfl
    have hpc : parent ≠ child := fun heq => hfresh (heq ▸ (strong_iff.mp hparent).1)
    obtain ⟨hes, hhs, -⟩ := hinv.idle child (by rw [strong, decide_eq_false hfresh]; rfl)
    have hok := hinv₁.tables.ok parent
    have hcounts : ¬ ((k₁.territories parent).ns.nmounts > pgrpMountCap ∨
        (k₁.territories parent).ns.npoints > (k₁.territories parent).ns.nmounts) := by
      have hle := hok.rep.entriesLe
      have hpts := hok.points_le
      have hn : (k₁.territories parent).ns.nmounts = (es parent).length := hok.rep.nmounts
      have hh : (k₁.territories parent).ns.npoints = (hs parent).length := hok.rep.npoints
      omega
    obtain ⟨T, copied, es', hs', hcopy, hok', hmoves, hsettled, hlist⟩ :=
      hok.copyTable (hinv₁.tables.entries parent) (hinv₁.tables.points parent) mem.table
    have hchild : k₁.table child = { k₁.mem with toNsTable := .empty } := by
      rw [table, hself]
      rfl
    rw [← hchild] at hcopy hmoves hsettled
    replace hmoves : Moves (k₁.table child) (es child) (hs child) T es' hs' := by rwa [hes, hhs]
    replace hsettled : Settled (k₁.table child) (es child) T es' := by rwa [hes]
    have htable {q : TerritoryRef} (hq : q ≠ child) : k₁.table q = k.table q := by
      rw [table, table, hne q hq, hmem]
    have hinv₂ := hinv₁.setTable hstrong hok' hmoves hsettled
    have hstrong₂ := (strong_setTable k₁ child child T).trans hstrong
    have hother (q : TerritoryRef) (hq : q ≠ child) :
        ((k₁.setTable child T).table q).listing = (k.table q).listing := by
      obtain ⟨hokq, hmap, -⟩ := hinv₁.tables.of_ne hmoves hq
      rw [← htable hq]
      rw [(hinv₁.tables.ok q).rep.listing_eq, hokq.rep.listing_eq, hmap]
    have hT := table_setTable_self k₁ child T
    have hbinds : ((k₁.setTable child T).territories parent).binds = (k.territories parent).binds := by
      rw [setTable_of_ne k₁ T hpc, hne parent hpc]
    simp only [if_neg hcounts, hcopy]
    cases copied with
    | false =>
      obtain ⟨es₃, hs₃, hinv₃⟩ := hinv₂.unref hstrong₂
      exact ⟨_, none, es₃, hs₃, rfl, hinv₃, nofun⟩
    | true =>
      obtain ⟨hlist, hroot⟩ := hlist rfl
      obtain ⟨k', r, es₃, hs₃, hend, hinv₃, hsame⟩ := hinv₂.inherit hstrong₂ parent mem.dot rfl
      refine ⟨k', r, es₃, hs₃, congrArg some hend, hinv₃, fun c hc => ?_⟩
      obtain ⟨rfl, hbinds', hsame⟩ := hsame c hc
      rw [hsame c, hT, hbinds', hbinds]
      refine ⟨hfresh, ?_, ?_, rfl, fun q hq => ?_⟩
      · rw [hok'.rep.listing_eq, hlist, ← htable hpc, hok.rep.listing_eq]
        rfl
      · rw [hroot, ← htable hpc]
        rfl
      · rw [hsame q, hother q hq]

/-! ### Calls and runs -/

/-- A call whose caller is checked; else nothing happens. -/
theorem Inv.guard {c : Prop} [Decidable c] {o : Option Kernel}
    (ho : c → ∃ k' es' hs', o = some k' ∧ Inv spoors k' es' hs') :
    ∃ k' es' hs', (if c then o else some k) = some k' ∧ Inv spoors k' es' hs' := by
  by_cases hc : c
  · rw [if_pos hc]
    exact ho hc
  · rw [if_neg hc]
    exact ⟨k, es, hs, rfl, hinv⟩

/-- A call that changes one table. -/
theorem Inv.onTable {f : Table → Option (Table × ℤ)}
    (hf : ∃ T rc es' hs', f (k.table p) = some (T, rc) ∧ Ok spoors T es' hs' ∧
      Moves (k.table p) (es p) (hs p) T es' hs' ∧ Settled (k.table p) (es p) T es') :
    ∃ k' es' hs', k.onTable p f = some k' ∧ Inv spoors k' es' hs' := by
  refine hinv.guard fun hp => ?_
  obtain ⟨T, rc, es', hs', hcall, hok, hmoves, hsettled⟩ := hf
  rw [hcall]
  exact ⟨_, _, _, rfl, hinv.setTable hp hok hmoves hsettled⟩

/-- **No call** breaks the invariant or is an extinction. -/
theorem Inv.step (op : Op) : ∃ k' es' hs', k.step spoors op = some k' ∧ Inv spoors k' es' hs' := by
  have htables := hinv.tables
  cases op with
  | alloc pick => exact ⟨_, es, hs, rfl, (hinv.alloc pick).1⟩
  | clone parent mem =>
    refine hinv.guard fun hp => ?_
    obtain ⟨k', r, es', hs', hclone, hinv', -⟩ := hinv.clone hp mem
    exact ⟨k', es', hs', by rw [hclone]; rfl, hinv'⟩
  | mount p mem source mountpoint flags =>
    refine hinv.guard fun hflags => hinv.onTable ?_
    rw [callerFlags, Bool.not_eq_true'] at hflags
    obtain ⟨T, rc, es', hs', hcall, hok, hmoves, hbal, hroot, -⟩ :=
      (htables.ok p).mount (htables.entries p) (htables.points p) hflags mem source mountpoint
    exact ⟨T, rc, es', hs', hcall, hok, hmoves, hbal.settled hroot⟩
  | unmount p mountpoint =>
    rw [Kernel.step]
    refine hinv.onTable ?_
    obtain ⟨T, rc, es', hs', hcall, hok, hmoves, hbal, hroot, -⟩ :=
      (htables.ok p).unmount (htables.entries p) (htables.points p) mountpoint
    exact ⟨T, rc, es', hs', hcall, hok, hmoves, hbal.settled hroot⟩
  | chroot p source =>
    rw [Kernel.step]
    refine hinv.onTable ?_
    exact (htables.ok p).territoryChroot (htables.entries p) (htables.points p) source
  | pivotRoot p source =>
    rw [Kernel.step]
    refine hinv.onTable ?_
    exact (htables.ok p).territoryPivotRoot (htables.entries p) (htables.points p) source
  | bind p src dst =>
    refine hinv.guard fun hp => ?_
    obtain ⟨binds, rc, hbind, hstep⟩ := (hinv.binds p).bind src dst
    rw [hbind]
    exact ⟨_, es, hs, rfl, hinv.modify rfl .rfl (fun _ => hinv.weak p hp) (hstep.ok (hinv.binds p))⟩
  | unbind p src dst =>
    refine hinv.guard fun hp => ⟨_, es, hs, rfl, ?_⟩
    exact hinv.modify rfl .rfl (fun _ => hinv.weak p hp) ((hinv.binds p).unbind src dst)
  | setdot p =>
    refine hinv.guard fun hp => ⟨_, es, hs, rfl, ?_⟩
    exact hinv.modify rfl .rfl (fun _ => hinv.weak p hp) (hinv.binds p)
  | ref p =>
    refine hinv.guard fun hp => ⟨_, es, hs, rfl, ?_⟩
    exact hinv.modify rfl ⟨fun _ => (strong_iff.mp hp).2, fun _ => Nat.succ_pos _⟩
      (fun _ => hinv.weak p hp) (hinv.binds p)
  | unref p =>
    refine hinv.guard fun hp => ?_
    obtain ⟨es', hs', hinv'⟩ := hinv.unref hp.1
    exact ⟨_, es', hs', rfl, hinv'⟩
  | weakRef p =>
    refine hinv.guard fun _ => ⟨_, es, hs, rfl, ?_⟩
    exact hinv.modify rfl .rfl (fun _ => Nat.succ_pos _) (hinv.binds p)
  | weakUnref p => exact hinv.guard fun hp => ⟨_, es, hs, rfl, hinv.weakUnref hp.1⟩

end

theorem Inv.init (spoors : SpoorRef → Spoor) (mem : NsMem) (kpgrp : TerritoryRef) :
    Inv spoors (Kernel.init mem kpgrp) (fun _ => []) fun _ => [] where
  tables :=
    { ok := fun _ => .empty _
      entries := nofun
      points := nofun
      apart := nofun
      pointsApart := nofun
      spoorRefs := fun _ => rfl
      pathRefs := fun _ => rfl }
  binds := fun _ => .nil
  idle := fun _ _ => ⟨rfl, rfl, rfl⟩
  weak := fun _ _ => one_pos

/-- The invariant holds after **every run**. -/
theorem Inv.run (hinv : Inv spoors k es hs) (ops : List Op) :
    ∃ k' es' hs', k.run spoors ops = some k' ∧ Inv spoors k' es' hs' := by
  induction ops generalizing k es hs with
  | nil => exact ⟨k, es, hs, rfl, hinv⟩
  | cons op ops ih =>
    obtain ⟨k₁, es₁, hs₁, hstep, hinv₁⟩ := hinv.step op
    obtain ⟨k', es', hs', hrun, hinv'⟩ := ih hinv₁
    refine ⟨k', es', hs', ?_, hinv'⟩
    rw [Kernel.run, foldlM_cons, hstep]
    exact hrun

end Kernel

end Thylacine
