import Thylacine.Lib.CountedTable
import Thylacine.Lib.Worklist
import Thylacine.Territory.Territory

/-!
# Binds

The binds of a Territory are a graph of path ids, with an edge from the `dst` of a bind to its
`src`. The check before a bind collects what is reachable in an array of `PGRP_MAX_BINDS + 1`
places and gives up a round when the array is full. The graph stays acyclic under `bind` and
`unbind`.

## Main results

* `Reached.length_le`: the array never fills, as every place but the first is taken by the `src`
  of another bind.
* `wouldCreateCycle_spec`: so the search is exact.
-/

namespace Thylacine

open List Relation Worklist

/-- The graph of the binds. -/
def BindEdge (binds : List PgrpBind) (a b : PathId) : Prop := ⟨b, a⟩ ∈ binds

/-- The invariant of a table of binds. -/
structure BindsOk (binds : List PgrpBind) : Prop where
  room : binds.length ≤ pgrpMaxBinds
  nodup : binds.Nodup
  acyclic : Acyclic (BindEdge binds)

theorem BindsOk.nil : BindsOk [] :=
  ⟨Nat.zero_le _, nodup_nil, fun _ hcycle => by cases hcycle with
    | single h => exact not_mem_nil h
    | tail _ h => exact not_mem_nil h⟩

theorem BindsOk.sub {binds binds' : List PgrpBind} (hok : BindsOk binds) (hnd : binds'.Nodup)
    (hsub : binds' ⊆ binds) : BindsOk binds' :=
  ⟨((subperm_of_subset hnd hsub).length_le).trans hok.room, hnd,
    hok.acyclic.mono fun _ _ hmem => hsub hmem⟩

variable {binds es : List PgrpBind} {src dst : PathId} {reached : List PathId}

/-! ### The search -/

/-- The search's array: the start and only what is reachable, each later place the `src` of a bind. -/
structure Reached (binds : List PgrpBind) (src : PathId) (reached : List PathId) : Prop where
  start : src ∈ reached
  nodup : reached.Nodup
  places : reached ⊆ src :: binds.map PgrpBind.src
  sound : ∀ x ∈ reached, ReflTransGen (BindEdge binds) src x

theorem Reached.singleton (binds : List PgrpBind) (src : PathId) : Reached binds src [src] where
  start := mem_singleton_self src
  nodup := nodup_singleton src
  places := fun _ hx => mem_cons.mpr (.inl (mem_singleton.mp hx))
  sound := fun _ hx => mem_singleton.mp hx ▸ .refl

section

variable (hr : Reached binds src reached)
include hr

/-- The array is long enough. -/
theorem Reached.length_le (hroom : binds.length ≤ pgrpMaxBinds) :
    reached.length ≤ pgrpMaxBinds + 1 := by
  have hle := (subperm_of_subset hr.nodup hr.places).length_le
  rw [length_cons, length_map] at hle
  omega

/-- One more place. -/
theorem Reached.push {e : PgrpBind} (he : e ∈ binds)
    (hdst : e.dst ∈ reached) (hsrc : e.src ∉ reached) : Reached binds src (reached ++ [e.src]) where
  start := mem_append_left _ hr.start
  nodup := by
    rw [← concat_eq_append]
    exact hr.nodup.concat hsrc
  places := append_subset.mpr
    ⟨hr.places, forall_mem_singleton.mpr (mem_cons_of_mem _ (mem_map_of_mem he))⟩
  sound := forall_mem_append.mpr
    ⟨hr.sound, forall_mem_singleton.mpr ((hr.sound e.dst hdst).tail he)⟩

/-- A round finds something new, or the array is closed. -/
theorem reachRound_spec (hroom : binds.length ≤ pgrpMaxBinds) (hsub : es ⊆ binds) (changed : Bool) :
    ∃ reached' changed', reachRound es reached changed = (reached', changed') ∧
      Reached binds src reached' ∧ reached.length ≤ reached'.length ∧
      (changed' = true → changed = true ∨ reached.length < reached'.length) ∧
      (changed' = false → changed = false ∧ reached' = reached ∧
      ∀ e ∈ es, e.dst ∈ reached → e.src ∈ reached) := by
  induction es generalizing reached changed with
  | nil => exact ⟨reached, changed, rfl, hr, le_rfl, .inl, fun h => ⟨h, rfl, nofun⟩⟩
  | cons e es ih =>
    have he := hsub mem_cons_self
    replace hsub : es ⊆ binds := fun x hx => hsub (mem_cons_of_mem e hx)
    rw [reachRound]
    by_cases hnew : e.dst ∈ reached ∧ e.src ∉ reached
    · have hpush := hr.push he hnew.1 hnew.2
      have hlen := hpush.length_le hroom
      rw [length_append, length_singleton] at hlen
      -- the array with one more place still fits, so it was not full
      rw [if_pos hnew, if_neg (by omega)]
      obtain ⟨reached', changed', heq, hr', hle, hgrow, hstop⟩ := ih hpush hsub true
      rw [length_append, length_singleton] at hle
      exact ⟨reached', changed', heq, hr', by omega, fun _ => .inr (by omega),
        fun h => absurd (hstop h).1 nofun⟩
    · rw [if_neg hnew]
      obtain ⟨reached', changed', heq, hr', hle, hgrow, hstop⟩ := ih hr hsub changed
      refine ⟨reached', changed', heq, hr', hle, hgrow, fun h => ?_⟩
      obtain ⟨hc, hsame, hclosed⟩ := hstop h
      refine ⟨hc, hsame, forall_mem_cons.mpr ⟨fun hdst => ?_, hclosed⟩⟩
      by_contra hsrc
      exact hnew ⟨hdst, hsrc⟩

/-- An array closed under the binds holds all reachable. -/
theorem Reached.complete (hclosed : ∀ e ∈ binds, e.dst ∈ reached → e.src ∈ reached) (x : PathId) :
    x ∈ reached ↔ ReflTransGen (BindEdge binds) src x := by
  refine ⟨hr.sound x, fun hpath => ?_⟩
  induction hpath with
  | refl => exact hr.start
  | tail _ hedge ih => exact hclosed _ hedge ih

/-- Each round but the last takes a place left. -/
theorem reachLoop_spec (hroom : binds.length ≤ pgrpMaxBinds) (fuel : ℕ)
    (hfuel : pgrpMaxBinds + 2 ≤ fuel + reached.length) :
    ∃ reached', reachLoop binds fuel reached = some reached' ∧
      ∀ x, x ∈ reached' ↔ ReflTransGen (BindEdge binds) src x := by
  induction fuel generalizing reached with
  | zero =>
    have hle := hr.length_le hroom
    omega
  | succ fuel ih =>
    obtain ⟨reached', changed, hround, hr', -, hgrow, hstop⟩ :=
      reachRound_spec hr hroom (.refl binds) false
    rw [reachLoop, hround]
    cases changed with
    | true =>
      have hlt := (hgrow rfl).resolve_left nofun
      exact ih hr' (by omega)
    | false =>
      obtain ⟨-, rfl, hclosed⟩ := hstop rfl
      exact ⟨reached', rfl, hr.complete hclosed⟩

end

/-- **The search is exact.** -/
theorem wouldCreateCycle_spec (hroom : binds.length ≤ pgrpMaxBinds) (src dst : PathId) :
    ∃ found, wouldCreateCycle binds src dst = some found ∧
      (found = true ↔ ReflTransGen (BindEdge binds) src dst) := by
  rw [wouldCreateCycle]
  by_cases heq : src = dst
  · rw [if_pos heq]
    exact ⟨true, rfl, fun _ => heq ▸ .refl, fun _ => rfl⟩
  · obtain ⟨reached, hloop, hreach⟩ := reachLoop_spec (.singleton binds src) hroom
      (pgrpMaxBinds + 2) (Nat.le_add_right ..)
    rw [if_neg heq, hloop]
    exact ⟨decide (dst ∈ reached), rfl, decide_eq_true_iff.trans (hreach dst)⟩

/-! ### The operations -/

theorem bindEdge_append (binds : List PgrpBind) (src dst : PathId) :
    BindEdge (binds ++ [⟨src, dst⟩]) = addEdge (BindEdge binds) dst src := by
  funext x y
  rw [BindEdge, mem_append, mem_singleton, PgrpBind.mk.injEq, addEdge, BindEdge, and_comm]

theorem acyclic_append (hok : BindsOk binds) (src dst : PathId) :
    Acyclic (BindEdge (binds ++ [⟨src, dst⟩])) ↔ ¬ ReflTransGen (BindEdge binds) src dst := by
  rw [bindEdge_append]
  exact acyclic_addEdge hok.acyclic

/-- `bind` adds the bind, or refuses it for the first of these reasons to hold. -/
inductive BindStep (binds : List PgrpBind) (src dst : PathId) : List PgrpBind → ℤ → Prop
  | self (h : src = dst) : BindStep binds src dst binds (-4)
  | cycle (h : src ≠ dst) (hcycle : ¬ Acyclic (BindEdge (binds ++ [⟨src, dst⟩]))) :
      BindStep binds src dst binds (-1)
  | exist (h : src ≠ dst) (hacyclic : Acyclic (BindEdge (binds ++ [⟨src, dst⟩])))
      (hmem : ⟨src, dst⟩ ∈ binds) : BindStep binds src dst binds (-2)
  | full (h : src ≠ dst) (hacyclic : Acyclic (BindEdge (binds ++ [⟨src, dst⟩])))
      (hmem : ⟨src, dst⟩ ∉ binds) (hfull : binds.length = pgrpMaxBinds) :
      BindStep binds src dst binds (-3)
  | added (h : src ≠ dst) (hacyclic : Acyclic (BindEdge (binds ++ [⟨src, dst⟩])))
      (hmem : ⟨src, dst⟩ ∉ binds) (hroom : binds.length < pgrpMaxBinds) :
      BindStep binds src dst (binds ++ [⟨src, dst⟩]) 0

theorem BindsOk.bind (hok : BindsOk binds) (src dst : PathId) :
    ∃ binds' rc, Thylacine.bind binds src dst = some (binds', rc) ∧
      BindStep binds src dst binds' rc := by
  rw [Thylacine.bind]
  by_cases heq : src = dst
  · rw [if_pos heq]
    exact ⟨_, _, rfl, .self heq⟩
  obtain ⟨found, hfound, hreach⟩ := wouldCreateCycle_spec hok.room src dst
  simp only [if_neg heq, hfound, Option.bind_eq_bind, Option.bind_some]
  cases found with
  | true =>
    exact ⟨_, _, if_pos rfl, .cycle heq fun h => (acyclic_append hok src dst).mp h (hreach.mp rfl)⟩
  | false =>
    have hacyclic := (acyclic_append hok src dst).mpr fun h => nomatch hreach.mpr h
    by_cases hmem : ⟨src, dst⟩ ∈ binds
    · exact ⟨_, _, if_pos hmem, .exist heq hacyclic hmem⟩
    rw [if_neg hmem]
    by_cases hfull : binds.length ≥ pgrpMaxBinds
    · exact ⟨_, _, if_pos hfull, .full heq hacyclic hmem (le_antisymm hok.room hfull)⟩
    · exact ⟨_, _, if_neg hfull, .added heq hacyclic hmem (by omega)⟩

theorem BindStep.ok {binds' : List PgrpBind} {rc : ℤ} (hstep : BindStep binds src dst binds' rc)
    (hok : BindsOk binds) : BindsOk binds' := by
  cases hstep with
  | self | cycle | exist | full => exact hok
  | added h hacyclic hmem hroom =>
    refine ⟨?_, ?_, hacyclic⟩
    · rw [length_append, length_singleton]
      omega
    · rw [← concat_eq_append]
      exact hok.nodup.concat hmem

/-- The refusal with -1 is that of a cycle. -/
theorem BindStep.refused_iff {binds' : List PgrpBind} {rc : ℤ}
    (hstep : BindStep binds src dst binds' rc) (hne : src ≠ dst) :
    rc = -1 ↔ ¬ Acyclic (addEdge (BindEdge binds) dst src) := by
  rw [← bindEdge_append]
  cases hstep with
  | self h => exact absurd h hne
  | cycle _ hcycle => exact iff_of_true rfl hcycle
  | exist _ hacyclic | full _ hacyclic | added _ hacyclic =>
    exact iff_of_false (by decide) (not_not.mpr hacyclic)

/-- `unbind` takes out the bind, if there is one. -/
theorem unbind_perm (binds : List PgrpBind) (src dst : PathId) :
    (unbind binds src dst).1.Perm (binds.erase ⟨src, dst⟩) := by
  rw [unbind]
  cases hidx : binds.idxOf? ⟨src, dst⟩ with
  | none =>
    rw [idxOf?_eq_none_iff] at hidx
    rw [erase_of_not_mem hidx]
  | some i => exact CountedTable.swapRemove_perm_erase hidx _

theorem BindsOk.unbind (hok : BindsOk binds) (src dst : PathId) :
    BindsOk (Thylacine.unbind binds src dst).1 := by
  have hperm := unbind_perm binds src dst
  exact hok.sub (hperm.nodup_iff.mpr (hok.nodup.erase _)) fun x hx =>
    mem_of_mem_erase (hperm.subset hx)

end Thylacine
