import Thylacine.Lib.ListFamily
import Thylacine.Territory.KernelInv

/-!
# The Structural Check

`territory_mount_check` reads a table and reports the first of nine rules that it finds broken.
Each loop of the check is followed along the list it reads, with what the loop has read so far as
the accumulator.

## Main results

* `mountCheck_of_run`: every table of every run passes.
-/

namespace Thylacine

open DoublyLinked List PointerChain

namespace Table

variable {spoors : SpoorRef → Spoor} {T : Table} {es ys zs : List MountRef} {hs ps : List HeadRef}
  {h : HeadRef}

/-! ### Counting by class -/

theorem Rep.points_perm (hrep : T.Rep es hs) : T.points.Perm hs := by
  rw [points, show T.chain = fun b => hs.filter fun h => mhashOf (T.key h) = b from
    funext hrep.chain_eq]
  exact ListFamily.flatMap_filter_perm (fun h => mhashOf (T.key h)) nodup_range hrep.headsNodup
    fun h _ => mem_range.mpr (mhashOf_lt (T.key h))

/-- Every entry is a member of one point. -/
theorem Rep.sum_members (hrep : T.Rep es hs) :
    (hs.map fun h => (T.membersIn es h).length).sum = es.length := by
  have hperm : ((hs.map some).flatMap fun o => es.filter fun m => T.head m = o).Perm es :=
    ListFamily.flatMap_filter_perm T.head (hrep.headsNodup.map (Option.some_injective _)) hrep.entriesNodup
      fun m hm => by
        obtain ⟨h, hh, heq⟩ := hrep.headed m hm
        exact heq ▸ mem_map_of_mem hh
  rw [← hperm.length_eq, flatMap_map, length_flatMap]
  rfl

/-! ### The loops -/

theorem Rep.checkTable (hrep : T.Rep (ys ++ zs) hs) :
    T.checkTable zs (ys.getLast?, ys.length) = .ok ((ys ++ zs).getLast?, (ys ++ zs).length) := by
  induction zs generalizing ys with
  | nil => rw [Table.checkTable, append_nil]
  | cons m zs ih =>
    have hprev : T.tprev m = ys.getLast? := hrep.table.prev_eq
    have hle : ys.length + 1 ≤ pgrpMountCap := by
      have := hrep.entriesLe
      rw [length_append, length_cons] at this
      omega
    rw [Table.checkTable, if_neg (not_not.mpr hprev), if_neg (not_lt.mpr hle)]
    rw [append_cons] at hrep ⊢
    have hnext := ih hrep
    rwa [getLast?_concat, length_append] at hnext

/-- The covered ones of some entries. -/
def coveredIn (T : Table) (ms : List MountRef) : List MountRef :=
  ms.filter fun m => hasFlag (T.flags m) mcovered

theorem length_coveredIn_cons (T : Table) (m : MountRef) (ms : List MountRef) :
    (T.coveredIn (m :: ms)).length =
      (if hasFlag (T.flags m) mcovered then 1 else 0) + (T.coveredIn ms).length := by
  rw [coveredIn, coveredIn, filter_cons]
  split
  · rw [length_cons, add_comm]
  · rw [zero_add]

theorem length_coveredIn_append (T : Table) (ms ms' : List MountRef) :
    (T.coveredIn (ms ++ ms')).length = (T.coveredIn ms).length + (T.coveredIn ms').length := by
  rw [coveredIn, filter_append, length_append]
  rfl

section

variable (hok : Ok spoors T es hs)
include hok

/-- A point has at most one covered member. -/
theorem Ok.covered_le (hh : h ∈ hs) : (T.coveredIn (T.membersIn es h)).length ≤ 1 := by
  have hle := hok.rules.coveredOnce (T.key h)
  rw [← hok.rep.map_membersIn hh, filter_map, length_map] at hle
  exact hle

/-- `ys` are the members read so far, `zs` those to read. -/
theorem Ok.checkMembers (hh : h ∈ hs) (hsplit : T.membersIn es h = ys ++ zs) :
    T.checkMembers spoors h zs (ys.getLast?, ys.length, (T.coveredIn ys).length) =
      .ok ((T.membersIn es h).getLast?, (T.membersIn es h).length,
      (T.coveredIn (T.membersIn es h)).length) := by
  induction zs generalizing ys with
  | nil => rw [Table.checkMembers, hsplit, append_nil]
  | cons m zs ih =>
    have hprev : T.prev m = ys.getLast? := (hsplit ▸ hok.rep.members h hh).prev_eq
    obtain ⟨hm, hhead⟩ : m ∈ es ∧ T.head m = some h := mem_membersIn.mp
      (hsplit ▸ mem_append_right ys mem_cons_self)
    have hlen : ys.length + 1 ≤ pgrpMountCap := by
      have hle := (length_membersIn_le T es h).trans hok.rep.entriesLe
      rw [hsplit, length_append, length_cons] at hle
      omega
    have hcount := hok.covered_le hh
    rw [hsplit, length_coveredIn_append, length_coveredIn_cons] at hcount
    have hrule : ¬ (hasFlag (T.flags m) mcovered && (T.flags m ≠ mcovered ||
        (T.coveredIn ys).length + 1 > 1 || (spoors (T.source m)).key ≠ T.key h)) = true := by
      intro hbroken
      rw [Bool.and_eq_true] at hbroken
      -- a covered member has no other flag, and is the directory of its point
      obtain ⟨hflags, hkey⟩ := hok.rules.covered (T.entryOf m) (mem_map_of_mem hm) hbroken.1
      replace hflags : T.flags m = mcovered := hflags
      replace hkey := hkey.trans (pointKey_of_head hhead)
      rw [if_pos hbroken.1] at hcount
      simp only [hflags, show (spoors (T.source m)).key = T.key h from hkey, ne_eq, not_true_eq_false, decide_false, Bool.false_or,
        Bool.or_false, decide_eq_true_eq] at hbroken
      omega
    rw [Table.checkMembers, if_neg (not_not.mpr hprev), if_neg (not_not.mpr hhead), if_neg hrule,
      if_neg (not_lt.mpr hlen)]
    rw [append_cons] at hsplit
    have hnext := ih hsplit
    rw [getLast?_concat, length_append, length_coveredIn_append, length_coveredIn_cons] at hnext
    rw [← hnext]
    congr 3
    split <;> rfl

/-- One chain's points, after `n` points with `k` members. -/
theorem Ok.checkChain (b : ℕ) (ps : List HeadRef) (hps : ∀ h ∈ ps, h ∈ hs ∧ mhashOf (T.key h) = b)
    (n k : ℕ) (hroom : n + ps.length ≤ pgrpMountCap) :
    T.checkChain spoors b ps (n, k) =
      .ok (n + ps.length, k + (ps.map fun h => (T.membersIn es h).length).sum) := by
  induction ps generalizing n k with
  | nil => rfl
  | cons h ps ih =>
    obtain ⟨hh, hb⟩ := hps h mem_cons_self
    have hfind : T.mheadFind (T.key h) = some h := hok.rep.mheadFind_eq_some.mpr ⟨hh, rfl⟩
    have hmembers : T.checkMembers spoors h (T.membersIn es h) (none, 0, 0) = _ :=
      hok.checkMembers hh (nil_append _).symm
    have hlast : T.last h = (T.membersIn es h).getLast? := (hok.rep.members h hh).last_eq
    have hne : (T.membersIn es h).length ≠ 0 := by
      have hhosts := hok.hosts h hh
      rw [← hok.rep.map_membersIn hh] at hhosts
      exact fun hzero => hhosts (by rw [length_eq_zero_iff.mp hzero, map_nil])
    rw [length_cons] at hroom
    rw [Table.checkChain, if_neg (by rw [hb, hfind]; simp), if_neg (by omega), hok.rep.members_eq hh]
    simp only [hmembers, Bind.bind, Except.bind]
    rw [if_neg (by rw [hlast, hok.rep.nmembers h hh]; simp [hne]),
      ih (fun q hq => hps q (mem_cons_of_mem h hq)) (n + 1) _ (by omega)]
    rw [length_cons, map_cons, sum_cons]
    congr 2 <;> omega

/-- The points of the chains `bs`. -/
theorem Ok.foldlM_checkChain (bs : List ℕ) (n k : ℕ)
    (hroom : n + (bs.flatMap T.chain).length ≤ pgrpMountCap) :
    bs.foldlM (fun acc b => T.checkChain spoors b (T.chain b) acc) (n, k) =
      .ok (n + (bs.flatMap T.chain).length,
      k + ((bs.flatMap T.chain).map fun h => (T.membersIn es h).length).sum) := by
  induction bs generalizing n k with
  | nil => rfl
  | cons b bs ih =>
    rw [flatMap_cons, length_append] at hroom
    have hchain := hok.checkChain b (T.chain b) (fun h hh => by
      rw [hok.rep.chain_eq] at hh
      exact ⟨(mem_filter.mp hh).1, decide_eq_true_iff.mp (mem_filter.mp hh).2⟩)
      n k (by omega)
    rw [foldlM_cons, hchain]
    refine (ih _ _ (by omega)).trans ?_
    rw [flatMap_cons, length_append, map_append, sum_append]
    congr 2 <;> omega

end

/-- A point's members are in the order of the table. -/
theorem Ok.checkOrder (ys : List MountRef) (hok : Ok spoors T (ys ++ zs) hs) (hh : h ∈ hs) :
    T.checkOrder h zs (T.membersIn zs h).head? = .ok () := by
  induction zs generalizing ys with
  | nil => rfl
  | cons m zs ih =>
    have hrest := hok
    rw [append_cons] at hrest
    rw [Table.checkOrder]
    by_cases hhead : T.head m = some h
    · have hcons : T.membersIn (m :: zs) h = m :: T.membersIn zs h :=
        filter_cons_of_pos (decide_eq_true hhead)
      have hnext : T.next m = (T.membersIn zs h).head? := by
        have hlist := hok.rep.members h hh
        rw [membersIn, filter_append] at hlist
        rw [membersIn] at hcons
        rw [hcons] at hlist
        exact hlist.next_eq
      rw [hcons, if_neg (not_not.mpr hhead), head?_cons, if_neg (not_not.mpr rfl), hnext]
      exact ih _ hrest
    · rw [if_pos hhead, show T.membersIn (m :: zs) h = T.membersIn zs h from
        filter_cons_of_neg fun heq => hhead (decide_eq_true_iff.mp heq)]
      exact ih _ hrest

/-- **The check** finds no rule broken. -/
theorem Ok.check_eq_zero (hok : Ok spoors T es hs) : T.territoryMountCheck spoors = 0 := by
  have hrep := hok.rep
  have htable : T.checkTable es (none, 0) = .ok (es.getLast?, es.length) :=
    Rep.checkTable ((nil_append es).symm ▸ hrep)
  have hlast : T.mlast = es.getLast? := hrep.table.last_eq
  have hpoints : (T.points.map fun h => (T.membersIn es h).length).sum = es.length :=
    (hrep.points_perm.map _).sum_eq.trans hrep.sum_members
  have hlen : T.points.length = hs.length := hrep.points_perm.length_eq
  have hchains := hok.foldlM_checkChain (range pgrpMountHash) 0 0 (by
    rw [zero_add, ← points, hlen]
    exact hrep.pointsLe)
  rw [← points, zero_add, zero_add, hpoints, hlen] at hchains
  have horder : (T.points.forM fun h => T.checkOrder h es (T.first h)) = .ok () := by
    have hall : ∀ ps : List HeadRef, (∀ h ∈ ps, h ∈ hs) →
        (ps.forM fun h => T.checkOrder h es (T.first h)) = .ok () := by
      intro ps hps
      induction ps with
      | nil => rfl
      | cons h ps ih =>
        have hh := hps h mem_cons_self
        have hone := checkOrder [] hok hh
        change (T.checkOrder h es (T.first h) >>= fun _ => ps.forM _) = _
        rw [show T.first h = (T.membersIn es h).head? from (hrep.members h hh).first_eq, hone]
        exact ih fun q hq => hps q (mem_cons_of_mem h hq)
    exact hall T.points fun h hh => hrep.mem_points.mp hh
  rw [territoryMountCheck, checkRules, hrep.entries_eq]
  simp only [htable, hlast, hchains, horder, Bind.bind, Except.bind, hrep.nmounts, hrep.npoints, ne_eq,
    not_true_eq_false, if_false]

/-! ### Beyond the check -/

/-- A hashed point hosts a mount. -/
theorem Ok.exists_mounted (hok : Ok spoors T es hs) (hh : h ∈ hs) :
    ∃ m ∈ T.members h, hasFlag (T.flags m) mcovered = false := by
  obtain ⟨e, he⟩ := exists_mem_of_ne_nil _ (hok.hosts h hh)
  obtain ⟨he, hkey⟩ := Listing.mem_seq.mp he
  obtain ⟨x, hx, hxkey, hcov⟩ := hok.rules.mounted e he
  obtain ⟨m, hm, rfl⟩ := mem_map.mp hx
  refine ⟨m, ?_, hcov⟩
  rw [hok.rep.members_eq hh, mem_membersIn]
  exact ⟨hm, (hok.rep.head_iff hm hh).mpr (hxkey.trans hkey)⟩

/-- No source is mounted twice at one point. -/
theorem Ok.pairs_nodup (hok : Ok spoors T es hs) :
    (T.entries.map fun m => (T.head m, T.source m)).Nodup := by
  have hpairs := hok.rules.pairs
  rw [map_map] at hpairs
  rw [hok.rep.entries_eq]
  refine Nodup.of_map (fun x => (x.1.elim ⟨0, 0, 0⟩ T.key, x.2)) ?_
  rw [map_map]
  exact hpairs

end Table

/-- **The mount tables** of all Territories pass the check after every run of calls, whatever
allocations fail; and every point hosts a mount that is not its covered directory, and no source
twice. -/
theorem mountCheck_of_run (spoors : SpoorRef → Spoor) (mem : NsMem) (kpgrp : TerritoryRef)
    (ops : List Kernel.Op) :
    ∃ k, (Kernel.init mem kpgrp).run spoors ops = some k ∧ ∀ p, k.strong p = true →
      (k.table p).territoryMountCheck spoors = 0 ∧
      (∀ h ∈ (k.table p).points,
        ∃ m ∈ (k.table p).members h, hasFlag ((k.table p).flags m) mcovered = false) ∧
      ((k.table p).entries.map fun m => ((k.table p).head m, (k.table p).source m)).Nodup := by
  obtain ⟨k, es, hs, hrun, hinv⟩ := (Kernel.Inv.init spoors mem kpgrp).run ops
  refine ⟨k, hrun, fun p _ => ?_⟩
  have hok := hinv.tables.ok p
  exact ⟨hok.check_eq_zero, fun h hh => hok.exists_mounted (hok.rep.mem_points.mp hh), hok.pairs_nodup⟩

end Thylacine
