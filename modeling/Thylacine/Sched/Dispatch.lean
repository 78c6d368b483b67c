import Mathlib.Data.Set.Card
import Mathlib.Tactic.FinCases

/-!
# Dispatch on One CPU

The run trees of `kernel/sched.c` and what the running thread does to them: it readies another
thread, and it yields or blocks. The lists of the bands are kept as one, band after band, so that
`pick_next` takes its first thread. There is no other CPU to steal from.

A yield gives the thread the clock of the CPU as its key, behind all that wait. A thread that
blocks keeps its key, and `ready_on` puts it back with it: the clamp only lowers a key.

## Main results

* `sleepers_starve_a_yielder`: two threads that take turns in waking each other pass a third one
  for ever.
* `starves_iff_sleepers_pass`: a thread is passed for ever in no other way.
-/

namespace Thylacine

open Function (update update_apply update_of_ne update_self)
open List

inductive ThreadState
  | runnable
  | running
  | sleeping
  | exiting
  deriving DecidableEq, Repr

/-- A CPU: its run trees, by band from `SCHED_BAND_INTERACTIVE` to `SCHED_BAND_IDLE`, its clock, the
threads, and the running one. The keys are `s64` in the source; the clock counts yields and stays
far below the bound. -/
@[ext] structure Cpu (T : Type) where
  runTree : List T
  vdCounter : ℤ
  band : T → Fin 3
  state : T → ThreadState
  vdT : T → ℤ
  current : T

namespace Cpu

variable {T : Type} {c d : Cpu T} {t u v : T} {k : ℤ}

def key (c : Cpu T) (t : T) : Fin 3 ×ₗ ℤ := toLex (c.band t, c.vdT t)

variable [DecidableEq T]

/-- `insert_sorted` of `t` with key `k`, behind all not after it. -/
def place (c : Cpu T) (t : T) (k : ℤ) : Cpu T :=
  let c := { c with vdT := update c.vdT t k }
  { c with runTree := c.runTree.orderedInsert (fun t u => c.key t < c.key u) t }

/-- `ready_on`, with `none` for an extinction. -/
def readyOn (c : Cpu T) (t : T) : Option (Cpu T) :=
  if c.state t ≠ .runnable ∨ t ∈ c.runTree then none
  else some (c.place t (min (c.vdT t) c.vdCounter))

/-- `sched`, with `none` for an extinction. -/
def sched (c : Cpu T) : Option (Cpu T) :=
  if c.state c.current = .runnable then none
  else
    match c.runTree with
    | [] => if c.state c.current = .running then some c else none
    | next :: rest =>
      if c.state next ≠ .runnable ∨ next = c.current then none
      else
        let d := { c with runTree := rest }
        let d :=
          if c.state c.current = .running then
            { d.place c.current c.vdCounter with
              vdCounter := c.vdCounter + 1, state := update c.state c.current .runnable }
          else d
        some { d with state := update d.state next .running, current := next }

/-- What the running thread may do. -/
inductive Op (T : Type)
  | ready (t : T)
  | yield
  | block

/-- A sleeper is made runnable before it is readied, as by `wakeup`; a thread that blocks sets its
state before `sched`. -/
def step (c : Cpu T) : Op T → Option (Cpu T)
  | .ready t =>
    let woken := if c.state t = .sleeping then .runnable else c.state t
    readyOn { c with state := update c.state t woken } t
  | .yield => c.sched
  | .block => sched { c with state := update c.state c.current .sleeping }

/-- A run from boot: no thread of a higher band than `t` runs, the running thread calls `sched` in
the end, and sleepers are readied again. -/
structure Run (t : T) where
  cpu : ℕ → Cpu T
  op : ℕ → Op T
  boot : (cpu 0).runTree = []
  running : (cpu 0).state (cpu 0).current = .running
  step : ∀ n, (cpu n).step (op n) = some (cpu (n + 1))
  sched : ∀ n, ∃ m ≥ n, op m = .yield ∨ op m = .block
  woken : ∀ n u, (cpu n).state u = .sleeping → ∃ m ≥ n, op m = .ready u
  band : ∀ n, (cpu n).band t ≤ (cpu n).band (cpu n).current

/-! ### The run trees in order -/

/-- A stable insertion: what comes behind is greater. -/
theorem pairwise_orderedInsert {α β : Type*} [LinearOrder β] {f : α → β} {a : α} {l : List α}
    (h : l.Pairwise fun x y => f x ≤ f y) (ha : a ∉ l) :
    (l.orderedInsert (fun x y => f x < f y) a).Pairwise fun x y =>
      f x ≤ f y ∧ (x = a → f x < f y) := by
  induction l with
  | nil => exact pairwise_singleton ..
  | cons b l ih =>
    obtain ⟨hb, hl⟩ := pairwise_cons.mp h
    obtain ⟨hab, hal⟩ := not_or.mp (mem_cons.not.mp ha)
    have hold : (b :: l).Pairwise fun x y => f x ≤ f y ∧ (x = a → f x < f y) :=
      h.imp_of_mem fun hx _ hle => ⟨hle, fun hxa => absurd (hxa ▸ hx) ha⟩
    rw [orderedInsert]
    split_ifs with hlt
    · have hall : ∀ x ∈ b :: l, f a < f x := forall_mem_cons.mpr ⟨hlt, fun x hx =>
        hlt.trans_le (hb x hx)⟩
      exact pairwise_cons.mpr ⟨fun x hx => ⟨(hall x hx).le, fun _ => hall x hx⟩, hold⟩
    · refine pairwise_cons.mpr ⟨fun x hx => ⟨?_, fun hba => absurd hba.symm hab⟩, ih hl hal⟩
      rcases (mem_orderedInsert _).mp hx with rfl | hx
      · exact not_lt.mp hlt
      · exact hb x hx

theorem mem_place : v ∈ (c.place t k).runTree ↔ v = t ∨ v ∈ c.runTree := mem_orderedInsert _

theorem key_place_of_ne (hv : v ≠ t) : (c.place t k).key v = c.key v := by
  simp [place, key, update_of_ne hv]

theorem key_place_self : (c.place t k).key t = toLex (c.band t, k) := by simp [place, key]

/-- The run trees are sorted, without duplicates or keys ahead of the clock. -/
structure Ordered (c : Cpu T) : Prop where
  sorted : c.runTree.Pairwise fun t u => c.key t ≤ c.key u
  nodup : c.runTree.Nodup
  clock : ∀ t ∈ c.runTree, c.vdT t ≤ c.vdCounter

/-- A thread is put only before those with a greater key. -/
theorem Ordered.pairwise_place (h : c.Ordered) (ht : t ∉ c.runTree) (k : ℤ) :
    (c.place t k).runTree.Pairwise fun u v => (c.place t k).key u ≤ (c.place t k).key v ∧
      (u = t → (c.place t k).key u < (c.place t k).key v) := by
  refine pairwise_orderedInsert (h.sorted.imp_of_mem fun hu hv hle => ?_) ht
  have hne {v} (hv : v ∈ c.runTree) : v ≠ t := ne_of_mem_of_not_mem hv ht
  exact (key_place_of_ne (hne hu)).trans_le (hle.trans_eq (key_place_of_ne (hne hv)).symm)

theorem Ordered.place (h : c.Ordered) (ht : t ∉ c.runTree) (hk : k ≤ c.vdCounter) :
    (c.place t k).Ordered := by
  refine ⟨(h.pairwise_place ht k).imp And.left, ?_, fun u hu => ?_⟩
  · exact (perm_orderedInsert _ t c.runTree).nodup_iff.mpr (nodup_cons.mpr ⟨ht, h.nodup⟩)
  · rcases mem_place.mp hu with rfl | hu
    · simpa [Cpu.place] using hk
    · simpa [Cpu.place, ne_of_mem_of_not_mem hu ht] using h.clock u hu

/-- The run trees are in order; the current thread runs, in none. -/
structure Inv (c : Cpu T) : Prop extends c.Ordered where
  running : c.state c.current = .running
  unlisted : c.current ∉ c.runTree

/-- A step puts a thread in, or takes the first out, for which a yielding thread goes in. -/
theorem Inv.step_cases {op : Op T} (h : c.Inv) (hstep : c.step op = some d) :
    (∃ u st, op = .ready u ∧ u ∉ c.runTree ∧ u ≠ c.current ∧ st c.current = .running ∧
      d = { c.place u (min (c.vdT u) c.vdCounter) with state := st }) ∨
    op = .yield ∧ c.runTree = [] ∧ d = c ∨
    ∃ u us st, c.runTree = u :: us ∧ st u = .running ∧
      (op = .block ∧ d = { c with runTree := us, state := st, current := u } ∨
        op = .yield ∧ d = { place { c with runTree := us } c.current c.vdCounter with
          vdCounter := c.vdCounter + 1, state := st, current := u }) := by
  cases op with
  | ready u =>
    obtain ⟨hno, heq⟩ := Option.ite_none_left_eq_some.mp hstep
    obtain ⟨hstate, hu⟩ := not_or.mp hno
    have hne : u ≠ c.current := by
      rintro rfl
      simp [h.running] at hstate
    refine .inl ⟨u, _, rfl, hu, hne, ?_, (Option.some.inj heq).symm⟩
    exact (update_of_ne hne.symm ..).trans h.running
  | yield =>
    rw [step, sched, if_neg (by simp [h.running])] at hstep
    split at hstep
    case h_1 hnil =>
      rw [if_pos h.running] at hstep
      exact .inr (.inl ⟨rfl, hnil, (Option.some.inj hstep).symm⟩)
    case h_2 u us hus =>
      split_ifs at hstep
      · exact .inr (.inr ⟨u, us, _, hus, update_self .., .inr ⟨rfl, (Option.some.inj hstep).symm⟩⟩)
      · exact absurd h.running ‹_›
  | block =>
    rw [step, sched, if_neg (by simp)] at hstep
    split at hstep
    case h_1 => simp at hstep
    case h_2 u us hus =>
      simp only [update_self, reduceCtorEq, if_false] at hstep
      split_ifs at hstep
      exact .inr (.inr ⟨u, us, _, hus, update_self .., .inl ⟨rfl, (Option.some.inj hstep).symm⟩⟩)

omit [DecidableEq T] in
theorem Inv.tail {us : List T} (h : c.Inv) (hus : c.runTree = u :: us) :
    Ordered { c with runTree := us } ∧ u ∉ us ∧ c.current ≠ u ∧ c.current ∉ us := by
  obtain ⟨⟨hsorted, hnodup, hclock⟩, -, hcur⟩ := h
  rw [hus] at hsorted hnodup hclock hcur
  obtain ⟨hu, hnodup⟩ := nodup_cons.mp hnodup
  exact ⟨⟨hsorted.tail, hnodup, fun t ht => hclock t (.tail u ht)⟩, hu,
    not_or.mp (mem_cons.not.mp hcur)⟩

theorem Inv.step {op : Op T} (h : c.Inv) (hstep : c.step op = some d) : d.Inv := by
  rcases h.step_cases hstep with ⟨u, st, -, hu, hne, hst, rfl⟩ | ⟨-, -, rfl⟩ |
    ⟨u, us, st, hus, hst, ⟨-, rfl⟩ | ⟨-, rfl⟩⟩
  · exact ⟨{ h.place hu (min_le_right ..) with }, hst, fun hmem =>
      (mem_place.mp hmem).elim hne.symm h.unlisted⟩
  · exact h
  · exact ⟨{ (h.tail hus).1 with }, hst, (h.tail hus).2.1⟩
  · obtain ⟨htail, hu, hne, hcur⟩ := h.tail hus
    have hplace := htail.place hcur le_rfl
    exact ⟨⟨hplace.sorted, hplace.nodup, fun t ht => Int.le_add_one (hplace.clock t ht)⟩, hst,
      fun hmem => (mem_place.mp hmem).elim hne.symm hu⟩

/-! ### A thread that waits -/

/-- The threads that can be picked before `t`: before it in the run trees, or to be put there. -/
def ahead (c : Cpu T) (t : T) : Set T :=
  {u | u ≠ c.current ∧ ([u, t] <+ c.runTree ∨ u ∉ c.runTree ∧ c.key u < c.key t)}

theorem Ordered.ahead_place (h : c.Ordered) (ht : t ∈ c.runTree) (hu : u ∉ c.runTree)
    (hv : v ∈ (c.place u k).ahead t) :
    v ≠ u ∧ v ∈ c.ahead t ∨ v = u ∧ toLex (c.band u, k) < c.key t := by
  have htu : t ≠ u := ne_of_mem_of_not_mem ht hu
  obtain ⟨hcur, hv⟩ := hv
  by_cases hvu : v = u
  · subst hvu
    have hlt : (c.place v k).key v < (c.place v k).key t := by
      rcases hv with hsub | ⟨-, hlt⟩
      · exact (pairwise_pair.mp ((h.pairwise_place hu k).sublist hsub)).2 rfl
      · exact hlt
    rw [key_place_self, key_place_of_ne htu] at hlt
    exact .inr ⟨rfl, hlt⟩
  · refine .inl ⟨hvu, hcur, hv.imp (fun hsub => ?_) fun ⟨hnot, hlt⟩ => ⟨?_, ?_⟩⟩
    · have herase := hsub.erase u
      rwa [erase_of_not_mem (by simp [Ne.symm hvu, htu.symm]), Cpu.place,
        erase_orderedInsert_of_notMem hu] at herase
    · exact fun hmem => hnot (mem_place.mpr (.inr hmem))
    · rwa [key_place_of_ne hvu, key_place_of_ne htu] at hlt

/-- While `t` waits, more come ahead only if one of them blocks, and `sched` takes one away. -/
theorem Inv.waits {op : Op T} (h : c.Inv) (hstep : c.step op = some d) (ht : t ∈ c.runTree)
    (hnot : d.current ≠ t) (hband : c.band t ≤ c.band c.current) :
    t ∈ d.runTree ∧ ((op = .block → ¬c.key c.current < c.key t) → d.ahead t ⊆ c.ahead t ∧
      (op = .yield ∨ op = .block → d.current ∈ c.ahead t)) := by
  have hclock := h.clock t ht
  rcases h.step_cases hstep with ⟨u, st, rfl, hu, hne, hst, rfl⟩ | ⟨-, hnil, -⟩ |
    ⟨u, us, st, hus, hst, hop⟩
  · refine ⟨mem_place.mpr (.inr ht), fun _ => ⟨fun v hv => ?_, by simp⟩⟩
    rcases h.ahead_place ht hu hv with ⟨-, hv⟩ | ⟨rfl, hlt⟩
    · exact hv
    · refine ⟨hne, .inr ⟨hu, Prod.Lex.toLex_lt_toLex.mpr ?_⟩⟩
      refine (Prod.Lex.toLex_lt_toLex.mp hlt).imp_right fun ⟨hb, hlt⟩ => ⟨hb, ?_⟩
      exact (min_lt_iff.mp hlt).resolve_right hclock.not_gt
  · simp [hnil] at ht
  · obtain ⟨htail, hu, hcu, hcur⟩ := h.tail hus
    have hut : u ≠ t := by rcases hop with ⟨-, rfl⟩ | ⟨-, rfl⟩ <;> exact hnot
    have htus : t ∈ us := (mem_cons.mp (hus ▸ ht)).resolve_left hut.symm
    have hfirst : u ∈ c.ahead t := ⟨hcu.symm, .inl (hus ▸ (singleton_sublist.mpr htus).cons_cons u)⟩
    have hpop {v : T} (hv : v ∈ ahead { c with runTree := us, current := u } t)
        (hvc : v ≠ c.current) : v ∈ c.ahead t := by
      refine ⟨hvc, hv.2.imp (fun hsub => hus ▸ hsub.cons u) fun ⟨hnot, hlt⟩ => ⟨?_, hlt⟩⟩
      rw [hus, mem_cons, not_or]
      exact ⟨hv.1, hnot⟩
    rcases hop with ⟨rfl, rfl⟩ | ⟨rfl, rfl⟩
    · refine ⟨htus, fun hblock => ⟨fun v hv => hpop hv ?_, fun _ => hfirst⟩⟩
      rintro rfl
      have hlt := hv.2.resolve_left fun hsub => hcur (hsub.subset mem_cons_self)
      exact hblock rfl hlt.2
    · refine ⟨mem_place.mpr (.inr htus), fun _ => ⟨fun v hv => ?_, fun _ => hfirst⟩⟩
      have htail : Ordered { c with runTree := us, current := u } := { htail with }
      rcases htail.ahead_place htus hcur hv with ⟨hvc, hv⟩ | ⟨-, hlt⟩
      · exact hpop hv hvc
      · -- its new key is the clock
        rcases Prod.Lex.toLex_lt_toLex.mp hlt with hlt | ⟨-, hlt⟩
        · exact absurd hlt hband.not_gt
        · exact absurd hlt hclock.not_gt

/-- A step does not pick a waiting thread iff it is no `sched`, or finds one before it. -/
theorem Inv.current_ne_iff {op : Op T} (h : c.Inv) (hstep : c.step op = some d)
    (ht : t ∈ c.runTree) :
    d.current ≠ t ↔ (op = .yield ∨ op = .block → ∃ u, [u, t] <+ c.runTree) := by
  rcases h.step_cases hstep with ⟨u, st, rfl, -, -, -, rfl⟩ | ⟨-, hnil, -⟩ |
    ⟨u, us, st, hus, -, hop⟩
  · exact iff_of_true (ne_of_mem_of_not_mem ht h.unlisted).symm (by simp)
  · simp [hnil] at ht
  · have hpicked : d.current = u ∧ (op = .yield ∨ op = .block) := by
      rcases hop with ⟨rfl, rfl⟩ | ⟨rfl, rfl⟩
      · exact ⟨rfl, .inr rfl⟩
      · exact ⟨rfl, .inl rfl⟩
    rw [hus] at ht ⊢
    rw [hpicked.1]
    refine ⟨fun hut _ => ⟨u, ?_⟩, ?_⟩
    · exact (singleton_sublist.mpr ((mem_cons.mp ht).resolve_left hut.symm)).cons_cons u
    · rintro hbefore rfl
      obtain ⟨v, hsub⟩ := hbefore hpicked.2
      exact (h.tail hus).2.1 (singleton_sublist.mp hsub.tail)

namespace Run

theorem inv (r : Run t) (n : ℕ) : (r.cpu n).Inv := by
  induction n with
  | zero => refine ⟨⟨?_, ?_, ?_⟩, r.running, ?_⟩ <;> simp [r.boot]
  | succ n ih => exact ih.step (r.step n)

variable {n : ℕ}

/-- A thread not picked stays in the run trees. -/
theorem waits (r : Run t) (ht : t ∈ (r.cpu n).runTree) {m : ℕ} (hm : n ≤ m)
    (hnever : ∀ k > n, k ≤ m → (r.cpu k).current ≠ t) : t ∈ (r.cpu m).runTree := by
  induction m, hm using Nat.le_induction with
  | base => exact ht
  | succ m hm ih =>
    have hwaits := ih fun k hk hkm => hnever k hk (by omega)
    exact ((r.inv m).waits (r.step m) hwaits (hnever _ (by omega) le_rfl) (r.band m)).1

/-- A thread never picked is **passed by sleepers**: time and again one with a smaller key blocks. -/
theorem sleepers_pass [Fintype T] (r : Run t) (ht : t ∈ (r.cpu n).runTree)
    (hnever : ∀ m > n, (r.cpu m).current ≠ t) (N : ℕ) :
    ∃ m ≥ N, r.op m = .block ∧ (r.cpu m).key (r.cpu m).current < (r.cpu m).key t := by
  by_contra hno
  push Not at hno
  have hstep (m) (hm : max N n ≤ m) := ((r.inv m).waits (r.step m)
    (r.waits ht (by omega) fun k hk _ => hnever k hk) (hnever _ (by omega)) (r.band m)).2
      fun hop => not_lt.mpr (hno m (by omega) hop)
  have hanti (m) (hm : max N n ≤ m) (k) (hk : m ≤ k) : (r.cpu k).ahead t ⊆ (r.cpu m).ahead t := by
    induction k, hk using Nat.le_induction with
    | base => exact subset_rfl
    | succ k hk ih => exact (hstep k (by omega)).1.trans ih
  -- the threads ahead are finitely many, and every call of `sched` leaves fewer
  have hfewer (k : ℕ) (m) (hm : max N n ≤ m) : ((r.cpu m).ahead t).ncard ≠ k := by
    induction k using Nat.strong_induction_on generalizing m with
    | _ k ih =>
      rintro rfl
      obtain ⟨l, hl, hop⟩ := r.sched m
      obtain ⟨hsub, hnext⟩ := hstep l (by omega)
      have hlt := Set.ncard_lt_ncard ((Set.ssubset_iff_exists.mpr ⟨hsub, _, hnext hop,
        fun hmem => hmem.1 rfl⟩).trans_subset (hanti m hm l hl)) (Set.toFinite _)
      exact ih _ hlt (l + 1) (by omega) rfl
  exact hfewer _ _ le_rfl rfl

/-- **Who starves, and why.** A waiting thread is never picked exactly if every later call of
`sched` finds another one before it, and then again and again a thread with a smaller key blocks. -/
theorem starves_iff_sleepers_pass [Fintype T] (r : Run t) (n : ℕ) (ht : t ∈ (r.cpu n).runTree) :
    ((∀ m > n, (r.cpu m).current ≠ t) ↔ ∀ m ≥ n, r.op m = .yield ∨ r.op m = .block →
      ∃ u, [u, t] <+ (r.cpu m).runTree) ∧
    ((∀ m > n, (r.cpu m).current ≠ t) → ∀ N, ∃ m ≥ N, r.op m = .block ∧
      (r.cpu m).key (r.cpu m).current < (r.cpu m).key t) := by
  refine ⟨⟨fun hnever m hm => ?_, fun hbefore => ?_⟩, r.sleepers_pass ht⟩
  · have hwaits := r.waits ht hm fun k hk _ => hnever k hk
    exact ((r.inv m).current_ne_iff (r.step m) hwaits).mp (hnever (m + 1) (by omega))
  · -- it stays in the run trees, and the thread that runs is in none
    have hwaits (m) (hm : n ≤ m) : t ∈ (r.cpu m).runTree := by
      induction m, hm using Nat.le_induction with
      | base => exact ht
      | succ m hm ih =>
        have hne := ((r.inv m).current_ne_iff (r.step m) ih).mpr (hbefore m hm)
        exact ((r.inv m).waits (r.step m) ih hne (r.band m)).1
    exact fun m hm => (ne_of_mem_of_not_mem (hwaits m (by omega)) (r.inv m).unlisted).symm

end Run

/-! ### Two sleepers and a yielder -/

/-- Thread 2 yields once; then 0 and 1 take turns: each readies the other and blocks. -/
def passOp : ℕ → Op (Fin 3)
  | 0 => .ready 2
  | 1 => .yield
  | 2 => .yield
  | n + 3 => if n % 2 = 1 then .block else .ready (if n % 4 = 0 then 1 else 0)

/-- The clock starts at one, as `sched_init` sets it. -/
def pass : ℕ → Cpu (Fin 3)
  | 0 => ⟨[], 1, fun _ => 1, fun t => if t = 0 then .running else .runnable, fun _ => 0, 0⟩
  | n + 1 => ((pass n).step (passOp n)).getD (pass n)

theorem passOp_add (n : ℕ) : passOp (n + 8) = passOp (n + 4) := by
  have h₂ : (n + 5) % 2 = (n + 1) % 2 := by omega
  have h₄ : (n + 5) % 4 = (n + 1) % 4 := by omega
  simp only [passOp, h₂, h₄]

theorem pass_add (n : ℕ) : pass (n + 8) = pass (n + 4) := by
  induction n with
  | zero =>
    have h : (pass 8).runTree = (pass 4).runTree ∧ (pass 8).vdCounter = (pass 4).vdCounter ∧
        (∀ t, (pass 8).band t = (pass 4).band t) ∧ (∀ t, (pass 8).state t = (pass 4).state t) ∧
          (∀ t, (pass 8).vdT t = (pass 4).vdT t) ∧ (pass 8).current = (pass 4).current := by
      decide +kernel
    obtain ⟨htree, hclock, hband, hstate, hkey, hcur⟩ := h
    exact Cpu.ext htree hclock (funext hband) (funext hstate) (funext hkey) hcur
  | succ n ih =>
    calc pass (n + 9) = ((pass (n + 8)).step (passOp (n + 8))).getD (pass (n + 8)) := rfl
      _ = pass (n + 5) := by
        rw [ih, passOp_add]
        rfl

theorem exists_pass_eq (n : ℕ) :
    ∃ m < 8, (4 ≤ n → 4 ≤ m) ∧ pass n = pass m ∧ passOp n = passOp m := by
  induction n using Nat.strong_induction_on with
  | _ n ih =>
    rcases lt_or_ge n 8 with hn | hn
    · exact ⟨n, hn, id, rfl, rfl⟩
    · obtain ⟨k, rfl⟩ := Nat.exists_eq_add_of_le' hn
      rw [pass_add, passOp_add]
      obtain ⟨m, hm, h4, heq⟩ := ih (k + 4) (by omega)
      exact ⟨m, hm, fun _ => h4 (by omega), heq⟩

theorem pass_spec (n : ℕ) : ((pass n).step (passOp n)).isSome ∧ (pass n).state 2 ≠ .sleeping ∧
    (∀ t u, (pass n).band t = (pass n).band u) ∧ (4 ≤ n → (pass n).current ≠ 2) := by
  obtain ⟨m, hm, h4, hpass, hop⟩ := exists_pass_eq n
  rw [hpass, hop]
  have h : ∀ m < 8, ((pass m).step (passOp m)).isSome ∧ (pass m).state 2 ≠ .sleeping ∧
      (∀ t u, (pass m).band t = (pass m).band u) ∧ (4 ≤ m → (pass m).current ≠ 2) := by
    decide +kernel
  obtain ⟨hstep, hstate, hband, hcur⟩ := h m hm
  exact ⟨hstep, hstate, hband, fun hn => hcur (h4 hn)⟩

def passRun : Run (2 : Fin 3) where
  cpu := pass
  op := passOp
  boot := rfl
  running := rfl
  step n := by
    obtain ⟨d, hd⟩ := Option.isSome_iff_exists.mp (pass_spec n).1
    rw [pass, hd, Option.getD_some]
  sched n := ⟨2 * n + 4, by omega, .inr (if_pos (by omega))⟩
  woken n u hu := by
    fin_cases u
    · exact ⟨4 * n + 5, by omega, by simp [passOp]; omega⟩
    · exact ⟨4 * n + 3, by omega, by simp [passOp]; omega⟩
    · exact absurd hu (pass_spec n).2.1
  band n := ((pass_spec n).2.2.1 ..).le

theorem sleepers_starve_a_yielder : ∃ r : Run (2 : Fin 3),
    (∀ n t u, (r.cpu n).band t = (r.cpu n).band u) ∧
      2 ∈ (r.cpu 4).runTree ∧ ∀ m > 4, (r.cpu m).current ≠ 2 := by
  have hqueued : 2 ∈ (pass 4).runTree := by decide +kernel
  exact ⟨passRun, fun n => (pass_spec n).2.2.1, hqueued, fun m hm => (pass_spec m).2.2.2 hm.le⟩

theorem starves_iff_sleepers_pass_yielder : 2 ∈ (passRun.cpu 4).runTree ∧
    (∀ m ≥ 4, passRun.op m = .yield ∨ passRun.op m = .block →
      ∃ u, [u, 2] <+ (passRun.cpu m).runTree) ∧
    ∀ N, ∃ m ≥ N, passRun.op m = .block ∧
      (passRun.cpu m).key (passRun.cpu m).current < (passRun.cpu m).key 2 := by
  have hqueued : 2 ∈ (passRun.cpu 4).runTree := by decide +kernel
  have hnever (m) (hm : m > 4) : (passRun.cpu m).current ≠ 2 := (pass_spec m).2.2.2 (le_of_lt hm)
  have h := passRun.starves_iff_sleepers_pass 4 hqueued
  exact ⟨hqueued, h.1.mp hnever, h.2 hnever⟩

end Cpu

end Thylacine
