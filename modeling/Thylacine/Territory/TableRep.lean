import Thylacine.Territory.Listing
import Thylacine.Territory.Territory

/-!
# The Table in Memory

`Rep T es hs` says that the table `T` in memory consists of the entries `es`, in table order,
and of the points `hs`. The members of a point are not listed apart: they are the entries with
that head, so the search order of a point is the order of the table by definition. The same
holds for a hash chain, which is the points with that hash.

Each primitive has one lemma for the lists it leaves and one for the fields it writes; nothing
later unfolds them.
-/

namespace Thylacine

open DoublyLinked List PointerChain

theorem mhashOf_lt (k : MKey) : mhashOf k < pgrpMountHash := by
  exact lt_of_le_of_lt Nat.and_le_right (by decide)

namespace Table

/-! ### The representation -/

/-- The entries with head `h`. -/
def membersIn (T : Table) (es : List MountRef) (h : HeadRef) : List MountRef :=
  es.filter fun m => T.head m = some h

/-- The table in memory consists of the entries `es` and the points `hs`. -/
structure Rep (T : Table) (es : List MountRef) (hs : List HeadRef) : Prop where
  table : T.tableList.Holds es
  chains : ∀ b, Chain T.hnext (T.mhash b) (hs.filter fun h => mhashOf (T.key h) = b)
  keys : (hs.map T.key).Nodup
  members : ∀ h ∈ hs, (T.memberList h).Holds (T.membersIn es h)
  nmembers : ∀ h ∈ hs, T.nmembers h = (T.membersIn es h).length
  headed : ∀ m ∈ es, ∃ h ∈ hs, T.head m = some h
  nmounts : T.nmounts = es.length
  npoints : T.npoints = hs.length
  visited : ∀ h ∈ hs, T.visit h ≤ T.mvisit
  entriesLe : es.length ≤ pgrpMountCap
  pointsLe : hs.length ≤ pgrpMountCap

variable {T T' : Table} {es : List MountRef} {hs : List HeadRef} {m : MountRef} {h : HeadRef}

theorem mem_membersIn : m ∈ T.membersIn es h ↔ m ∈ es ∧ T.head m = some h := by
  rw [membersIn, mem_filter, decide_eq_true_iff]

theorem length_membersIn_le (T : Table) (es : List MountRef) (h : HeadRef) :
    (T.membersIn es h).length ≤ es.length :=
  length_filter_le ..

namespace Rep

variable (hrep : T.Rep es hs)

include hrep

theorem headsNodup : hs.Nodup := hrep.keys.of_map

theorem entriesNodup : es.Nodup := hrep.table.nodup

theorem entries_eq : T.entries = es := walk_eq hrep.table.fwd (hrep.entriesLe.trans (Nat.le_succ _))

theorem chain_eq (b : ℕ) : T.chain b = hs.filter fun h => mhashOf (T.key h) = b :=
  walk_eq (hrep.chains b) ((length_filter_le ..).trans (hrep.pointsLe.trans (Nat.le_succ _)))

theorem members_eq (hh : h ∈ hs) : T.members h = T.membersIn es h :=
  walk_eq (hrep.members h hh).fwd
    ((length_membersIn_le ..).trans (hrep.entriesLe.trans (Nat.le_succ _)))

theorem mem_points : h ∈ T.points ↔ h ∈ hs := by
  simp only [points, mem_flatMap, mem_range, hrep.chain_eq, mem_filter, decide_eq_true_eq]
  exact ⟨fun ⟨_, _, hh, _⟩ => hh, fun hh => ⟨_, mhashOf_lt _, hh, rfl⟩⟩

/-- `mhead_find` finds the point with the key. -/
theorem mheadFind_eq_some {k : MKey} : T.mheadFind k = some h ↔ h ∈ hs ∧ T.key h = k := by
  rw [mheadFind, hrep.chain_eq]
  constructor
  · intro hfind
    have hmem := mem_of_find?_eq_some hfind
    exact ⟨(mem_filter.mp hmem).1, by simpa using find?_some hfind⟩
  · rintro ⟨hh, rfl⟩
    have hmem : h ∈ hs.filter fun h' => mhashOf (T.key h') = mhashOf (T.key h) :=
      mem_filter.mpr ⟨hh, decide_eq_true rfl⟩
    cases hfind : (hs.filter fun h' => mhashOf (T.key h') = mhashOf (T.key h)).find?
        fun h' => decide (T.key h' = T.key h) with
    | none => exact absurd (decide_eq_true rfl) (find?_eq_none.mp hfind h hmem)
    | some h' =>
      have hh' := (mem_filter.mp (mem_of_find?_eq_some hfind)).1
      have hkey : T.key h' = T.key h := by simpa using find?_some hfind
      rw [inj_on_of_nodup_map hrep.keys hh' hh hkey]

theorem mheadFind_eq_none {k : MKey} : T.mheadFind k = none ↔ ∀ h ∈ hs, T.key h ≠ k := by
  rw [Option.eq_none_iff_forall_ne_some]
  exact ⟨fun hnone h hh hkey => hnone h (hrep.mheadFind_eq_some.mpr ⟨hh, hkey⟩),
    fun hnone h hfind =>
      hnone h (hrep.mheadFind_eq_some.mp hfind).1 (hrep.mheadFind_eq_some.mp hfind).2⟩

theorem membersIn_nodup (h : HeadRef) : (T.membersIn es h).Nodup := hrep.entriesNodup.filter _

end Rep

/-! ### Frames -/

/-- The memories agree outside the entries `ms` and the points `hs`. -/
structure SameOff (M M' : NsMem) (ms : List MountRef) (hs : List HeadRef) : Prop where
  entry : ∀ m, m ∉ ms → M'.tnext m = M.tnext m ∧ M'.tprev m = M.tprev m ∧
    M'.next m = M.next m ∧ M'.prev m = M.prev m ∧ M'.head m = M.head m ∧
    M'.source m = M.source m ∧ M'.mpPath m = M.mpPath m ∧ M'.flags m = M.flags m
  point : ∀ h, h ∉ hs → M'.hnext h = M.hnext h ∧ M'.first h = M.first h ∧
    M'.last h = M.last h ∧ M'.key h = M.key h ∧ M'.nmembers h = M.nmembers h ∧
    M'.visit h = M.visit h

theorem SameOff.refl (M : NsMem) (ms : List MountRef) (hs : List HeadRef) : SameOff M M ms hs :=
  ⟨fun _ _ => ⟨rfl, rfl, rfl, rfl, rfl, rfl, rfl, rfl⟩, fun _ _ => ⟨rfl, rfl, rfl, rfl, rfl, rfl⟩⟩

theorem SameOff.trans {M M' M'' : NsMem} {ms : List MountRef} (h : SameOff M M' ms hs)
    (h' : SameOff M' M'' ms hs) : SameOff M M'' ms hs := by
  constructor
  · intro m hm
    obtain ⟨a1, a2, a3, a4, a5, a6, a7, a8⟩ := h.entry m hm
    obtain ⟨b1, b2, b3, b4, b5, b6, b7, b8⟩ := h'.entry m hm
    exact ⟨b1.trans a1, b2.trans a2, b3.trans a3, b4.trans a4, b5.trans a5, b6.trans a6,
      b7.trans a7, b8.trans a8⟩
  · intro p hp
    obtain ⟨a1, a2, a3, a4, a5, a6⟩ := h.point p hp
    obtain ⟨b1, b2, b3, b4, b5, b6⟩ := h'.point p hp
    exact ⟨b1.trans a1, b2.trans a2, b3.trans a3, b4.trans a4, b5.trans a5, b6.trans a6⟩

theorem SameOff.mono {M M' : NsMem} {ms ms' : List MountRef} {hs' : List HeadRef}
    (h : SameOff M M' ms hs) (hms : ms ⊆ ms') (hhs : hs ⊆ hs') : SameOff M M' ms' hs' :=
  ⟨fun m hm => h.entry m fun hmem => hm (hms hmem), fun p hp => h.point p fun hmem => hp (hhs hmem)⟩

/-- **The frame rule** for tables: none of its nodes is written. -/
theorem Rep.congr (hrep : T.Rep es hs) {ms : List MountRef} {ps : List HeadRef}
    (hsame : SameOff T.toNsMem T'.toNsMem ms ps) (hns : T'.toNsTable = T.toNsTable)
    (hms : ∀ m ∈ es, m ∉ ms) (hps : ∀ h ∈ hs, h ∉ ps) : T'.Rep es hs := by
  have hE := fun m hm => hsame.entry m (hms m hm)
  have hP := fun h hh => hsame.point h (hps h hh)
  have hhash : T'.mhash = T.mhash := congrArg NsTable.mhash hns
  have hmem (h : HeadRef) : T'.membersIn es h = T.membersIn es h :=
    filter_congr fun m hm => by rw [(hE m hm).2.2.2.2.1]
  have hchain (b : ℕ) : (hs.filter fun h => mhashOf (T'.key h) = b) =
      hs.filter fun h => mhashOf (T.key h) = b :=
    filter_congr fun h hh => by rw [(hP h hh).2.2.2.1]
  exact {
    table := ⟨by
        change Chain T'.tnext T'.mfirst es
        rw [show T'.mfirst = T.mfirst from congrArg NsTable.mfirst hns]
        exact hrep.table.fwd.congr fun m hm => (hE m hm).1, by
        change Chain T'.tprev T'.mlast es.reverse
        rw [show T'.mlast = T.mlast from congrArg NsTable.mlast hns]
        exact hrep.table.bwd.congr fun m hm => (hE m (mem_reverse.mp hm)).2.1,
      hrep.table.nodup⟩
    chains := fun b => by
      rw [hchain, hhash]
      exact (hrep.chains b).congr fun h hh => (hP h (mem_filter.mp hh).1).1
    keys := by
      rw [map_congr_left fun h hh => (hP h hh).2.2.2.1]
      exact hrep.keys
    members := fun h hh => by
      rw [hmem]
      have hin := hrep.members h hh
      refine ⟨?_, ?_, hin.nodup⟩
      · change Chain T'.next (T'.first h) _
        rw [(hP h hh).2.1]
        exact hin.fwd.congr fun m hm => (hE m (mem_membersIn.mp hm).1).2.2.1
      · change Chain T'.prev (T'.last h) _
        rw [(hP h hh).2.2.1]
        exact hin.bwd.congr fun m hm => (hE m (mem_membersIn.mp (mem_reverse.mp hm)).1).2.2.2.1
    nmembers := fun h hh => by rw [hmem, (hP h hh).2.2.2.2.1, hrep.nmembers h hh]
    headed := fun m hm => by
      rw [(hE m hm).2.2.2.2.1]
      exact hrep.headed m hm
    nmounts := (congrArg NsTable.nmounts hns).trans hrep.nmounts
    npoints := (congrArg NsTable.npoints hns).trans hrep.npoints
    visited := fun h hh => by
      rw [(hP h hh).2.2.2.2.2, show T'.mvisit = T.mvisit from congrArg NsTable.mvisit hns]
      exact hrep.visited h hh
    entriesLe := hrep.entriesLe
    pointsLe := hrep.pointsLe }

/-- A new or released Territory's table is empty. -/
theorem rep_empty (M : NsMem) (visit : UInt32) :
    Rep { M with toNsTable := { NsTable.empty with mvisit := visit } } [] [] where
  table := ⟨rfl, rfl, nodup_nil⟩
  chains := fun _ => rfl
  keys := nodup_nil
  members := nofun
  nmembers := nofun
  headed := nofun
  nmounts := rfl
  npoints := rfl
  visited := nofun
  entriesLe := Nat.zero_le _
  pointsLe := Nat.zero_le _

end Table

end Thylacine
