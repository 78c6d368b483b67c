import Mathlib.Algebra.BigOperators.Ring.Finset
import Thylacine.Territory.KernelInv

/-!
# Namespaces over Whole Runs

What the invariant of `KernelInv` says about a walker.

## Main results

* `acyclic_of_run`: no chain of binds or of mounts leads back to where it came from.
* `rootSwap_of_run`: a new root keeps what can be reached from it and nothing else.
* `refs_of_run`: the references to Spoors and Paths are those that the tables hold.
-/

namespace Thylacine

open Relation Worklist

namespace Table

variable {spoors : SpoorRef → Spoor} {T T' : Table} {es : List MountRef} {hs : List HeadRef}

/-- What a new root `source` leaves: the entries whose point is in its generation, in their order,
in the table and at every point. -/
structure RootSwap (spoors : SpoorRef → Spoor) (T : Table) (source : SpoorRef) (T' : Table) :
    Prop where
  root : T'.rootSpoor = some source
  reasserted : T.rootSpoor = some source → T' = T
  survivors : T.rootSpoor ≠ some source → T'.listing = T.listing.shed spoors (spoors source)
  order : ∀ k, (T'.listing.seq k).Sublist (T.listing.seq k)

theorem Ok.rootSwap (hok : Ok spoors T es hs) (hentries : ∀ m ∈ es, m ∈ T.mountLive)
    (hpoints : ∀ h ∈ hs, h ∈ T.headLive) (source : SpoorRef) :
    ∃ T', T.swapRoot spoors source = some (T', 0) ∧ RootSwap spoors T source T' := by
  obtain ⟨T', es', hs', hswap, hok', -, -, hroot, hsame, hshed⟩ := hok.swapRoot hentries hpoints source
  have hlist (hne : T.rootSpoor ≠ some source) : T'.listing = T.listing.shed spoors (spoors source) := by
    rw [hok'.rep.listing_eq, hok.rep.listing_eq, hshed hne]
  refine ⟨T', hswap, hroot, hsame, hlist, fun k => ?_⟩
  by_cases hne : T.rootSpoor = some source
  · rw [hsame hne]
  · rw [hlist hne]
    exact List.filter_sublist.filter _

end Table

namespace Kernel

variable {spoors : SpoorRef → Spoor} {k : Kernel} {es : TerritoryRef → List MountRef}
  {hs : TerritoryRef → List HeadRef}

/-- The Territories that somebody holds. -/
def holders (k : Kernel) : Finset TerritoryRef := k.live.filter fun p => k.strong p

/-- Nothing is counted for a Territory nobody holds. -/
theorem Inv.sum_holders (hinv : Inv spoors k es hs) (w : Table → List MountRef → ℤ)
    (hw : ∀ T, T.rootSpoor = none → w T [] = 0) :
    ∑ p ∈ k.live, w (k.table p) (es p) = ∑ p ∈ k.holders, w (k.table p) (k.table p).entries := by
  rw [← Finset.sum_filter_of_ne (p := fun p => k.strong p = true)]
  · refine Finset.sum_congr rfl fun p _ => ?_
    rw [(hinv.tables.ok p).rep.entries_eq]
  · intro p _ hne
    by_contra hp
    obtain ⟨hes, -, hroot⟩ := hinv.idle p (Bool.not_eq_true _ ▸ hp)
    exact hne (by rw [hes, hw _ hroot])

theorem sum_roots (k : Kernel) (s : SpoorRef) :
    ∑ p ∈ k.holders, ((k.table p).rootSpoor.toList.count s : ℤ) =
      (k.holders.filter fun p => (k.table p).rootSpoor = some s).card := by
  rw [Finset.card_filter, Nat.cast_sum]
  refine Finset.sum_congr rfl fun p _ => ?_
  cases (k.table p).rootSpoor with
  | none => rfl
  | some r => simp [List.count_singleton]

end Kernel

/-- **Acyclic namespaces**: after every run of calls the binds and the mounts of a Territory form no
cycle, and the checks refuse exactly what would close one. -/
theorem acyclic_of_run (spoors : SpoorRef → Spoor) (mem : NsMem) (kpgrp : TerritoryRef)
    (ops : List Kernel.Op) :
    ∃ k, (Kernel.init mem kpgrp).run spoors ops = some k ∧ ∀ p, k.strong p = true →
      (Acyclic (BindEdge (k.territories p).binds) ∧ ∀ src dst, src ≠ dst →
        ∃ binds' rc, bind (k.territories p).binds src dst = some (binds', rc) ∧
          (rc = -1 ↔ ¬ Acyclic (addEdge (BindEdge (k.territories p).binds) dst src))) ∧
      Acyclic (Listing.Edge spoors (k.table p).listing) ∧ ∀ source mountpoint : MKey,
        ∃ found T', (k.table p).wouldCreateMountCycle spoors source mountpoint = some (found, T') ∧
          (found = true ↔
            ¬ Acyclic (addEdge (Listing.Edge spoors (k.table p).listing) mountpoint source)) := by
  obtain ⟨k, es, hs, hrun, hinv⟩ := (Kernel.Inv.init spoors mem kpgrp).run ops
  refine ⟨k, hrun, fun p _ => ?_⟩
  have hok := hinv.tables.ok p
  refine ⟨⟨(hinv.binds p).acyclic, fun src dst hne => ?_⟩, hok.rep.listing_eq ▸ hok.rules.acyclic,
    fun source mountpoint => ?_⟩
  · obtain ⟨binds', rc, hbind, hstep⟩ := (hinv.binds p).bind src dst
    exact ⟨binds', rc, hbind, hstep.refused_iff hne⟩
  · obtain ⟨found, T', hcall, -, -, hfound⟩ := Table.wouldCreateMountCycle_spec source mountpoint
      hok.rep fun e he hcov => (hok.rules.covered e he hcov).2
    refine ⟨found, T', hcall, hfound.trans ?_⟩
    rw [hok.rep.listing_eq, acyclic_addEdge hok.rules.acyclic, not_not]

/-- **A new root** keeps exactly the generation that is reachable from it, whether by
`territory_chroot` or by `territory_pivot_root`. -/
theorem rootSwap_of_run (spoors : SpoorRef → Spoor) (mem : NsMem) (kpgrp : TerritoryRef)
    (ops : List Kernel.Op) :
    ∃ k, (Kernel.init mem kpgrp).run spoors ops = some k ∧ ∀ p, k.strong p = true → ∀ source,
      (∃ T', (k.table p).territoryChroot spoors (some source) = some (T', 0) ∧
        Table.RootSwap spoors (k.table p) source T') ∧
      ((k.table p).rootSpoor ≠ none →
        ∃ T', (k.table p).territoryPivotRoot spoors (some source) = some (T', 0) ∧
          Table.RootSwap spoors (k.table p) source T') := by
  obtain ⟨k, es, hs, hrun, hinv⟩ := (Kernel.Inv.init spoors mem kpgrp).run ops
  refine ⟨k, hrun, fun p _ source => ?_⟩
  have htables := hinv.tables
  obtain ⟨T', hswap, hroot⟩ := (htables.ok p).rootSwap (htables.entries p) (htables.points p) source
  refine ⟨⟨T', hswap, hroot⟩, fun hne => ⟨T', ?_, hroot⟩⟩
  exact (if_neg hne).trans hswap

/-- **References are conserved**: after every run of calls, the references held to a Spoor are those
of the entries and the roots of the Territories that somebody holds, and the references to a Path
those of the entries. -/
theorem refs_of_run (spoors : SpoorRef → Spoor) (mem : NsMem) (kpgrp : TerritoryRef)
    (ops : List Kernel.Op) :
    ∃ k, (Kernel.init mem kpgrp).run spoors ops = some k ∧ (∀ s, k.mem.spoorRefs s =
        ∑ p ∈ k.holders, (((k.table p).entries.map (k.table p).source).count s : ℤ) +
          (k.holders.filter fun p => (k.table p).rootSpoor = some s).card) ∧
      ∀ x, k.mem.pathRefs x =
        ∑ p ∈ k.holders, (((k.table p).entries.map (k.table p).mpPath).count (some x) : ℤ) := by
  obtain ⟨k, es, hs, hrun, hinv⟩ := (Kernel.Inv.init spoors mem kpgrp).run ops
  refine ⟨k, hrun, fun s => ?_, fun x => ?_⟩
  · rw [hinv.tables.spoorRefs s, hinv.sum_holders (fun T es => T.held es s) fun T hroot => by
      rw [Table.held, hroot]
      rfl]
    simp only [Table.held]
    rw [Finset.sum_add_distrib, Kernel.sum_roots]
  · rw [hinv.tables.pathRefs x]
    exact hinv.sum_holders (fun T es => T.pathHeld es x) fun T _ => rfl

end Thylacine
