import Thylacine.Territory.KernelInv

/-!
# The Search Order of a Union

A walk that crosses a mount point searches its members in the order of `mount_members_snapshot`.
`Members` is that sequence as an abstract list of sources with their flags, and `Members.mount` and
`Members.unmount` are what the calls are for.

## Main results

* `unionOrder_of_run`: the tables of reachable Territories refine this. At the point of a call the
  sequence changes as these say, and at every other point not at all.
-/

namespace Thylacine

open List Listing

/-- A union's members in search order, with flags. -/
abbrev Members := List (SpoorRef × UInt32)

namespace Members

/-- A mount of `source` at a point with these members; `mountpoint` joins with its first neighbour. -/
def mount (old : Members) (isDir : Bool) (source mountpoint : SpoorRef) (flags : UInt32) : Members :=
  let others := old.filter fun x => x.1 ≠ source
  let host := if old.isEmpty && isDir then [(mountpoint, mcovered)] else others
  if hasFlag flags mrepl then [(source, flags)]
  else if hasFlag flags mbefore then (source, flags) :: host
  else if hasFlag flags mafter then host ++ [(source, flags)]
  else if old.any fun x => x.1 = source then
    old.map fun x => if x.1 = source then (source, flags) else x
  else old ++ [(source, flags)]

/-- The first uncovered member goes, with the last the covered one. -/
def unmount (old : Members) : Members :=
  let rest := old.eraseP fun x => !hasFlag x.2 mcovered
  if rest.any fun x => !hasFlag x.2 mcovered then rest else []

end Members

theorem hasFlag_or (flags a b : UInt32) :
    hasFlag flags (a ||| b) = (hasFlag flags a || hasFlag flags b) := by
  have hdistrib : flags &&& (a ||| b) = flags &&& a ||| flags &&& b := by
    rw [← UInt32.toNat_inj, UInt32.toNat_and, UInt32.toNat_or, UInt32.toNat_or, UInt32.toNat_and,
      UInt32.toNat_and, Nat.and_or_distrib_left]
  rw [Bool.eq_iff_iff, Bool.or_eq_true, hasFlag, hasFlag, hasFlag, bne_iff_ne, bne_iff_ne,
    bne_iff_ne, hdistrib, ne_eq, UInt32.or_eq_zero_iff, not_and_or]

namespace Listing

variable {spoors : SpoorRef → Spoor} {L : Listing} {k : MKey} {e : MountEntry}

/-- The members that a listing shows. -/
def members (L : Listing) : Members := L.map fun e => (e.source, e.flags)

/-- Among one point's entries, an entry goes first or last. -/
theorem put_of_forall (hL : ∀ x ∈ L, x.key = e.key) (before : Bool) :
    put L e before = if before then e :: L else L ++ [e] := by
  rw [put]
  cases L with
  | nil => rfl
  | cons x L => rw [placeAt, if_pos (decide_eq_true (hL x mem_cons_self))]

theorem isPair_of_key (source : SpoorRef) (he : e.key = k) :
    e.isPair k source = decide (e.source = source) := by
  rw [MountEntry.isPair, decide_eq_true he, Bool.true_and]

theorem any_isPair_of_forall (source : SpoorRef) (hL : ∀ e ∈ L, e.key = k) :
    L.any (·.isPair k source) = L.members.any fun x => x.1 = source := by
  rw [members, any_map, Bool.eq_iff_iff, any_eq_true, any_eq_true]
  refine exists_congr fun e => and_congr_right fun he => ?_
  rw [isPair_of_key source (hL e he)]
  rfl

theorem members_filter_isPair (source : SpoorRef) (hL : ∀ e ∈ L, e.key = k) :
    members (L.filter fun e => !e.isPair k source) = L.members.filter fun x => x.1 ≠ source := by
  rw [members, members, filter_map]
  congr 1
  refine filter_congr fun e he => ?_
  rw [isPair_of_key source (hL e he), Function.comp_apply, decide_not]

/-- A mount is one on the abstract sequence. -/
theorem members_mount (source mountpoint : SpoorRef) (flags : UInt32)
    (hL : ∀ e ∈ L, e.key = (spoors mountpoint).key) :
    members (L.mount spoors source mountpoint flags) =
      L.members.mount (spoors mountpoint).isDir source mountpoint flags := by
  have hseq : L.seq (spoors mountpoint).key = L :=
    filter_eq_self.mpr fun e he => decide_eq_true (hL e he)
  have hnone : L.filter (fun e => e.key ≠ (spoors mountpoint).key) = [] :=
    filter_eq_nil_iff.mpr fun e he hne => decide_eq_true_iff.mp hne (hL e he)
  have hothers := members_filter_isPair source hL
  have hempty : L.members.isEmpty = L.isEmpty := isEmpty_map
  rw [mount, Members.mount, any_isPair_of_forall source hL, hasFlag_or, hseq, hnone, hempty]
  by_cases hrepl : hasFlag flags mrepl = true
  · rw [if_pos hrepl, if_pos hrepl]
    rfl
  rw [if_neg hrepl, if_neg hrepl]
  by_cases hpair : (L.members.any fun x => x.1 = source) = true
  · -- the source is a member, so the point is not empty
    have hne : L.isEmpty = false := by
      cases L with
      | nil => cases hpair
      | cons => rfl
    rw [if_pos hpair, if_pos hpair, hne, Bool.false_and, put_of_forall fun x hx => hL x (mem_filter.mp hx).1]
    cases hasFlag flags mbefore with
    | true => exact congrArg _ hothers
    | false =>
      cases hasFlag flags mafter with
      | true => exact (map_append ..).trans (congrArg (· ++ _) hothers)
      | false =>
        change members (L.map _) = L.members.map _
        rw [members, members, map_map, map_map]
        refine map_congr_left fun e he => ?_
        rw [Function.comp_apply, Function.comp_apply, isPair_of_key source (hL e he)]
        by_cases hs : e.source = source
        · rw [if_pos (decide_eq_true hs), if_pos hs, hs]
        · rw [if_neg fun h => hs (decide_eq_true_iff.mp h), if_neg hs]
  · have hrest : (L.members.filter fun x => x.1 ≠ source) = L.members := by
      refine filter_eq_self.mpr fun x hx => decide_eq_true fun hs => hpair ?_
      exact any_eq_true.mpr ⟨x, hx, decide_eq_true hs⟩
    rw [if_neg hpair, if_neg hpair, hrest, put_of_forall fun x hx => hL x hx]
    cases L with
    | nil =>
      cases hasFlag flags mbefore <;> cases hasFlag flags mafter <;>
        cases (spoors mountpoint).isDir <;> rfl
    | cons x L =>
      rw [isEmpty_cons, Bool.and_false, Bool.false_and, if_neg Bool.false_ne_true]
      cases hasFlag flags mbefore with
      | true => rfl
      | false => cases hasFlag flags mafter <;> exact map_append ..

theorem members_unmount (L : Listing) (k : MKey) :
    members ((L.unmount k).seq k) = (members (L.seq k)).unmount := by
  have herase : members ((L.seq k).eraseP (!·.covered)) =
      (members (L.seq k)).eraseP fun x => !hasFlag x.2 mcovered := by
    rw [members, members, eraseP_map]
    rfl
  have hany (S : Listing) : (S.any (!·.covered)) = S.members.any fun x => !hasFlag x.2 mcovered := by
    rw [members, any_map]
    rfl
  rw [seq_unmount, Members.unmount, hany, herase]
  split
  · exact herase
  · rfl

end Listing

namespace Table

variable {spoors : SpoorRef → Spoor} {T T' : Table} {es es' : List MountRef} {hs hs' : List HeadRef}
  {mountpoint source : Option SpoorRef} {rc : ℤ} {flags : UInt32}

/-- The members of the point `probe`, by a snapshot with room. -/
def searchOrder (spoors : SpoorRef → Spoor) (T : Table) (probe : SpoorRef) : Members :=
  (T.mountMembersSnapshot spoors probe pgrpMountCap).2

/-- A snapshot shows what is listed at its point. -/
theorem Ok.searchOrder_eq (hok : Ok spoors T es hs) (probe : SpoorRef) :
    T.searchOrder spoors probe = Listing.members (seq (es.map T.entryOf) (spoors probe).key) := by
  rw [searchOrder, mountMembersSnapshot]
  cases hfind : T.mheadFind (spoors probe).key with
  | none =>
    rw [hok.rep.seq_eq_nil (hok.rep.mheadFind_eq_none.mp hfind)]
    rfl
  | some h =>
    obtain ⟨hh, hkey⟩ := hok.rep.mheadFind_eq_some.mp hfind
    have hle : T.nmembers h ≤ pgrpMountCap := by
      rw [hok.rep.nmembers h hh]
      exact (length_membersIn_le T es h).trans hok.rep.entriesLe
    simp only [if_pos hle]
    rw [hok.rep.nmembers h hh, hok.rep.members_eq hh, take_length, ← hkey,
      ← hok.rep.map_membersIn hh, Listing.members, map_map]
    rfl

/-- With the same listing a balanced account has the same references. -/
theorem Balanced.refs_eq (hbal : Balanced T es T' es') (hlist : es'.map T'.entryOf = es.map T.entryOf) :
    T'.spoorRefs = T.spoorRefs ∧ T'.pathRefs = T.pathRefs := by
  have hsource : es'.map T'.source = es.map T.source := by
    have := congrArg (map MountEntry.source) hlist
    rwa [map_map, map_map] at this
  have hpath : es'.map T'.mpPath = es.map T.mpPath := by
    have := congrArg (map MountEntry.path) hlist
    rwa [map_map, map_map] at this
  constructor
  · funext s
    have := congrFun hbal.spoors s
    rw [owed, owed, hsource] at this
    omega
  · funext x
    have := congrFun hbal.paths x
    rw [pathOwed, pathOwed, hpath] at this
    omega

/-- What `mount` does to the search orders: it mounts at its point only, or is refused and changes
no order and no count. -/
structure MountRefines (spoors : SpoorRef → Spoor) (T T' : Table) (source mountpoint : Option SpoorRef)
    (flags : UInt32) (rc : ℤ) : Prop where
  mounted : rc = 0 → ∃ s p, source = some s ∧ mountpoint = some p ∧
    T'.searchOrder spoors p = (T.searchOrder spoors p).mount (spoors p).isDir s p flags ∧
    ∀ q, (spoors q).key ≠ (spoors p).key → T'.searchOrder spoors q = T.searchOrder spoors q
  refused : rc ≠ 0 → rc < 0 ∧ (∀ q, T'.searchOrder spoors q = T.searchOrder spoors q) ∧
    T'.spoorRefs = T.spoorRefs ∧ T'.pathRefs = T.pathRefs

/-- What `unmount` does to the search orders. -/
structure UnmountRefines (spoors : SpoorRef → Spoor) (T T' : Table) (mountpoint : Option SpoorRef)
    (rc : ℤ) : Prop where
  unmounted : rc = 0 → ∃ p, mountpoint = some p ∧ T.searchOrder spoors p ≠ [] ∧
    T'.searchOrder spoors p = (T.searchOrder spoors p).unmount ∧
    ∀ q, (spoors q).key ≠ (spoors p).key → T'.searchOrder spoors q = T.searchOrder spoors q
  nothing : rc ≠ 0 → rc = -1 ∧ (∀ p, mountpoint = some p → T.searchOrder spoors p = []) ∧
    ∀ q, T'.searchOrder spoors q = T.searchOrder spoors q

theorem MountRefines.of_refused
    (hrc : rc < 0) (hsame : (∀ q, T'.searchOrder spoors q = T.searchOrder spoors q) ∧
      T'.spoorRefs = T.spoorRefs ∧ T'.pathRefs = T.pathRefs) :
    MountRefines spoors T T' source mountpoint flags rc :=
  ⟨fun h => absurd h hrc.ne, fun _ => ⟨hrc, hsame⟩⟩

theorem Ok.mountRefines
    (hok : Ok spoors T es hs) (hok' : Ok spoors T' es' hs') (hbal : Balanced T es T' es')
    (hcall : MountCall spoors (es.map T.entryOf) source mountpoint flags rc (es'.map T'.entryOf)) :
    MountRefines spoors T T' source mountpoint flags rc := by
  have hsame (hlist : es'.map T'.entryOf = es.map T.entryOf) :
      (∀ q, T'.searchOrder spoors q = T.searchOrder spoors q) ∧ T'.spoorRefs = T.spoorRefs ∧
        T'.pathRefs = T.pathRefs :=
    ⟨fun q => by rw [hok.searchOrder_eq, hok'.searchOrder_eq, hlist], hbal.refs_eq hlist⟩
  generalize hL' : es'.map T'.entryOf = L' at hcall
  cases hcall with
  | null | nomem => exact .of_refused (by decide) (hsame hL')
  | @locked s p rc _ hsource hpoint hstep =>
    cases hstep with
    | cycle | full => exact .of_refused (by decide) (hsame hL')
    | mounted =>
      refine ⟨fun _ => ⟨s, p, hsource, hpoint, ?_, fun q hq => ?_⟩, absurd rfl⟩
      · rw [hok'.searchOrder_eq, hok.searchOrder_eq, hL', seq_mount]
        exact members_mount s p flags fun e he => (mem_seq.mp he).2
      · rw [hok'.searchOrder_eq, hok.searchOrder_eq, hL', seq_mount_of_ne hq.symm]

theorem Ok.unmountRefines (hok : Ok spoors T es hs) (hok' : Ok spoors T' es' hs')
    (hcall : UnmountCall spoors (es.map T.entryOf) mountpoint rc (es'.map T'.entryOf)) :
    UnmountRefines spoors T T' mountpoint rc := by
  have hsame (hlist : es'.map T'.entryOf = es.map T.entryOf) (q : SpoorRef) :
      T'.searchOrder spoors q = T.searchOrder spoors q := by
    rw [hok.searchOrder_eq, hok'.searchOrder_eq, hlist]
  generalize hL' : es'.map T'.entryOf = L' at hcall
  cases hcall with
  | null hnull =>
    refine ⟨fun h => absurd h (by decide), fun _ => ⟨rfl, fun p hp => ?_, hsame hL'⟩⟩
    rw [hnull] at hp
    cases hp
  | @locked p rc _ hpoint hstep =>
    cases hstep with
    | nothing hnone =>
      refine ⟨fun h => absurd h (by decide), fun _ => ⟨rfl, fun q hq => ?_, hsame hL'⟩⟩
      cases hpoint.symm.trans hq
      rw [hok.searchOrder_eq, hnone]
      rfl
    | unmounted hsome =>
      refine ⟨fun _ => ⟨p, hpoint, ?_, ?_, fun q hq => ?_⟩, absurd rfl⟩
      · rw [hok.searchOrder_eq, Listing.members, ne_eq, map_eq_nil_iff]
        exact hsome
      · rw [hok'.searchOrder_eq, hok.searchOrder_eq, hL', members_unmount]
      · rw [hok'.searchOrder_eq, hok.searchOrder_eq, hL', seq_unmount_of_ne hq]

end Table

/-- **The search orders** of every Territory that a run of calls leads to follow the abstract
sequence, under each of the calls that may come next; a copy has those of its parent. -/
theorem unionOrder_of_run (spoors : SpoorRef → Spoor) (mem : NsMem) (kpgrp : TerritoryRef)
    (ops : List Kernel.Op) :
    ∃ k, (Kernel.init mem kpgrp).run spoors ops = some k ∧ ∀ p, k.strong p = true →
      (∀ alloc source mountpoint flags, Kernel.callerFlags flags = true →
        ∃ T' rc, (k.table p).mount spoors alloc source mountpoint flags = some (T', rc) ∧
          Table.MountRefines spoors (k.table p) T' source mountpoint flags rc) ∧
      (∀ mountpoint, ∃ T' rc, (k.table p).unmount spoors mountpoint = some (T', rc) ∧
        Table.UnmountRefines spoors (k.table p) T' mountpoint rc) ∧
      ∀ alloc, ∃ k' r, k.territoryClone p alloc = some (k', r) ∧
        ∀ child, r = some child → ∀ q, (k'.table child).searchOrder spoors q =
          (k.table p).searchOrder spoors q := by
  obtain ⟨k, es, hs, hrun, hinv⟩ := (Kernel.Inv.init spoors mem kpgrp).run ops
  have htables := hinv.tables
  refine ⟨k, hrun, fun p hp => ⟨fun alloc source mountpoint flags hflags => ?_, fun mountpoint => ?_,
    fun alloc => ?_⟩⟩
  · rw [Kernel.callerFlags, Bool.not_eq_true'] at hflags
    obtain ⟨T', rc, es', hs', hcall, hok', -, hbal, -, hstep⟩ :=
      (htables.ok p).mount (htables.entries p) (htables.points p) hflags alloc source mountpoint
    exact ⟨T', rc, hcall, (htables.ok p).mountRefines hok' hbal hstep⟩
  · obtain ⟨T', rc, es', hs', hcall, hok', -, -, -, hstep⟩ :=
      (htables.ok p).unmount (htables.entries p) (htables.points p) mountpoint
    exact ⟨T', rc, hcall, (htables.ok p).unmountRefines hok' hstep⟩
  · obtain ⟨k', r, es', hs', hclone, hinv', hchild⟩ := hinv.clone hp alloc
    refine ⟨k', r, hclone, fun child hr q => ?_⟩
    have hok := htables.ok p
    have hok' := hinv'.tables.ok child
    rw [hok'.searchOrder_eq, hok.searchOrder_eq, ← hok'.rep.listing_eq, ← hok.rep.listing_eq,
      (hchild child hr).2.1]

end Thylacine
