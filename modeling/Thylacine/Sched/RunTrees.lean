import Mathlib.Data.List.FinRange
import Thylacine.Lib.DoublyLinked
import Thylacine.Sched.Dispatch

/-!
# Taking a Thread off the Run Trees

`sched_remove_if_runnable` asks the CPUs in turn, and unlinks the thread at the first one whose
run tree seems to hold it. `in_run_tree` goes by the links of the thread, which do not say whose
tree it is in.

## Main results

* `schedRemoveIfRunnable_exact_iff`: that is no matter for a thread with a predecessor, but the
  first of several threads is unlinked at the first CPU, whose own list is lost.
-/

namespace Thylacine

open Function (update update_of_ne update_self)
open List DoublyLinked

abbrev dtbMaxCpus : ℕ := 8

/-- A run tree is given by its CPU and its band. -/
abbrev TreeId := Fin dtbMaxCpus × Fin 3

/-- The run trees' first threads, and the threads' fields. -/
structure RunTrees (T : Type) where
  initialized : Fin dtbMaxCpus → Bool
  runTree : TreeId → Option T
  runnableNext : T → Option T
  runnablePrev : T → Option T
  band : T → Fin 3
  state : T → ThreadState

namespace RunTrees

variable {T : Type} {s : RunTrees T} {L : TreeId → List T} {c : Fin dtbMaxCpus} {t : T}

def list (s : RunTrees T) (k : TreeId) (last : Option T) : DList T :=
  ⟨s.runTree k, last, s.runnableNext, s.runnablePrev⟩

/-- The run trees hold the lists `L`. -/
def Holds (s : RunTrees T) (L : TreeId → List T) : Prop :=
  ∀ k, (s.list k (L k).getLast?).Holds (L k)

variable [DecidableEq T]

section

variable (s : RunTrees T) (i : Fin dtbMaxCpus) (t : T)

def inRunTree : Bool :=
  (s.runnableNext t).isSome || (s.runnablePrev t).isSome || s.runTree (i, s.band t) == some t

def unlink : RunTrees T :=
  let l := (s.list (i, s.band t) none).unlink t
  { s with
    runTree := update s.runTree (i, s.band t) l.first
    runnableNext := l.next
    runnablePrev := l.prev }

def schedRemoveIfRunnable : RunTrees T :=
  if s.state t ≠ .runnable then s
  else
    match (finRange dtbMaxCpus).find? fun i => s.initialized i && s.inRunTree i t with
    | some i => s.unlink i t
    | none => s

end

/-- With a predecessor, no tree's head is written. -/
theorem unlink_eq_of_prev {a : T} (ha : s.runnablePrev t = some a) (i j : Fin dtbMaxCpus) :
    s.unlink i t = s.unlink j t := by
  simp only [unlink, list, DList.unlink, DList.setNext, ha]
  cases update s.runnableNext a (s.runnableNext t) t <;> simp [DList.setPrev]

variable (h : s.Holds L) (ht : ∀ k, t ∈ L k ↔ k = (c, s.band t))
include h ht

/-- Unlinked at its own CPU, a thread leaves its list alone. -/
theorem Holds.unlink_own :
    (s.unlink c t).Holds (update L (c, s.band t) ((L (c, s.band t)).erase t)) := by
  obtain ⟨ys, zs, -, hys, herase⟩ := exists_erase_eq ((ht _).2 rfl)
  have hlist := h (c, s.band t)
  rw [hys] at hlist
  have hup : DList.UpToLast (s.list _ (ys ++ t :: zs).getLast?) (s.list (c, s.band t) none) :=
    ⟨rfl, rfl, rfl⟩
  have hl := hup.unlink t
  intro k
  by_cases hk : k = (c, s.band t)
  · subst hk
    simp only [list, unlink, update_self, herase]
    exact hlist.unlink.upToLast hl
  · simp only [list, unlink, update_of_ne hk]
    refine (h k).congr (S := ys ++ t :: zs) (fun u hu => ?_) (fun u hu hmem => ?_) rfl rfl
    · obtain ⟨hnext, hprev⟩ := hlist.sameLinks_unlink u hu
      exact ⟨(congrFun hl.next u).trans hnext, (congrFun hl.prev u).trans hprev⟩
    · have heq := (h k).eq_of_mem hlist hu hmem
      exact hk ((ht k).1 (heq ▸ mem_append_right ys mem_cons_self))

theorem Holds.in_own : s.inRunTree c t := by
  obtain ⟨ys, zs, hys⟩ := append_of_mem ((ht _).2 rfl)
  have hlist := h (c, s.band t)
  rw [hys] at hlist
  have hprev : s.runnablePrev t = ys.getLast? := hlist.prev_eq
  cases ys with
  | nil =>
    have hfirst : s.runTree (c, s.band t) = some t := hlist.first_eq
    simp [inRunTree, hfirst]
  | cons => simp [inRunTree, hprev]

variable (hinit : s.initialized c) (hstate : s.state t = .runnable)
include hinit hstate

/-- The thread is unlinked at the first CPU that seems to have it. -/
theorem Holds.exists_unlink : ∃ j, s.schedRemoveIfRunnable t = s.unlink j t ∧
    s.inRunTree j t ∧ s.initialized j ∧ ∀ i, s.initialized i → s.inRunTree i t → j ≤ i := by
  simp only [schedRemoveIfRunnable, hstate]
  cases hfind : (finRange dtbMaxCpus).find? fun i => s.initialized i && s.inRunTree i t with
  | none =>
    have hno := find?_eq_none.1 hfind c (mem_finRange c)
    simp [hinit, h.in_own ht] at hno
  | some j =>
    rw [← Fin.find?_eq_find?_finRange, Fin.find?_eq_some_iff, Bool.and_eq_true] at hfind
    obtain ⟨⟨hj, hin⟩, hfirst⟩ := hfind
    refine ⟨j, rfl, hin, hj, fun i hi hini => le_of_not_gt fun hlt => ?_⟩
    simpa [hi, hini] using hfirst i hlt

/-- **Taking a thread off its list** fails exactly for the first of several threads on a CPU that
is not the first. -/
theorem schedRemoveIfRunnable_exact_iff :
    ((s.schedRemoveIfRunnable t).Holds (update L (c, s.band t) ((L (c, s.band t)).erase t)) ∧
      (s.schedRemoveIfRunnable t).runnableNext t = none ∧
      (s.schedRemoveIfRunnable t).runnablePrev t = none) ↔
    (s.runnablePrev t = none → s.runnableNext t ≠ none → ∀ i < c, s.initialized i = false) := by
  obtain ⟨j, heq, hj, hinitj, hfirst⟩ := h.exists_unlink ht hinit hstate
  rw [heq]
  refine ⟨fun ⟨hnew, _⟩ hprev hnext i hi => ?_, fun hhead => ⟨?_, update_self .., update_self ..⟩⟩
  · -- The CPU found would have the successor for its first thread.
    obtain ⟨u, hu⟩ := Option.ne_none_iff_exists'.1 hnext
    obtain ⟨ys, zs, hys⟩ := append_of_mem ((ht _).2 rfl)
    have hlist := hys ▸ h (c, s.band t)
    have hzs : s.runnableNext t = zs.head? := hlist.next_eq
    have huk : u ∈ ys ++ t :: zs := by simp [mem_of_head? (hzs.symm.trans hu)]
    rw [← Bool.not_eq_true]
    intro hi'
    have hne : (j, s.band t) ≠ (c, s.band t) := by
      have hle := hfirst i hi' (by simp [inRunTree, hu])
      simp [(hle.trans_lt hi).ne]
    have hhead : (s.unlink j t).runTree (j, s.band t) = some u := by
      simp [unlink, list, DList.unlink, DList.setNext, hprev, hu]
    have huj := (hnew (j, s.band t)).first_eq.symm.trans hhead
    rw [update_of_ne hne] at huj
    have hall := (h _).eq_of_mem hlist (mem_of_head? huj) huk
    exact hne ((ht _).1 (hall ▸ mem_append_right ys mem_cons_self))
  · suffices hown : s.unlink j t = s.unlink c t from hown ▸ h.unlink_own ht
    cases hprev : s.runnablePrev t with
    | some a => exact unlink_eq_of_prev hprev j c
    | none =>
      congr 1
      cases hnext : s.runnableNext t with
      | none =>
        have hhd : s.runTree (j, s.band t) = some t := by simpa [inRunTree, hnext, hprev] using hj
        simpa using (ht _).1 (mem_of_head? ((h _).first_eq.symm.trans hhd))
      | some u =>
        refine (hfirst c hinit (h.in_own ht)).eq_of_not_lt fun hlt => ?_
        simp [hhead hprev (by simp [hnext]) j hlt] at hinitj

omit h ht hinit hstate

/-- Two threads, in one list. -/
def pair (c : TreeId) : RunTrees Bool where
  initialized _ := true
  runTree k := if k = c then some false else none
  runnableNext t := if t then none else some true
  runnablePrev t := if t then some false else none
  band _ := c.2
  state _ := .runnable

def pairLists (c k : TreeId) : List Bool := if k = c then [false, true] else []

theorem pair_holds (c : TreeId) : (pair c).Holds (pairLists c) := by
  intro k
  simp only [list, pair, pairLists]
  by_cases hk : k = c
  · simp only [if_pos hk]
    exact ⟨⟨rfl, rfl, rfl⟩, ⟨rfl, rfl, rfl⟩, by decide⟩
  · simp only [if_neg hk]
    exact ⟨rfl, rfl, nodup_nil⟩

theorem schedRemoveIfRunnable_exact_zero :
    ((pair (0, 0)).schedRemoveIfRunnable false).Holds (update (pairLists (0, 0)) (0, 0) [true]) :=
  ((schedRemoveIfRunnable_exact_iff (pair_holds (0, 0)) (by decide) rfl rfl).2 (by decide)).1

/-- On the second CPU, the first of the two is taken off the list of the first CPU. -/
theorem schedRemoveIfRunnable_pair_one :
    (pair (1, 0)).Holds (pairLists (1, 0)) ∧ (∀ k, false ∈ pairLists (1, 0) k ↔ k = (1, 0)) ∧
    ¬((pair (1, 0)).schedRemoveIfRunnable false).Holds
      (update (pairLists (1, 0)) (1, 0) [true]) := by
  refine ⟨pair_holds (1, 0), by decide, fun hno => ?_⟩
  exact absurd (hno (0, 0)).first_eq (by decide)

end RunTrees

end Thylacine
