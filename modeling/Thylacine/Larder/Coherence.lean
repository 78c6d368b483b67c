import Thylacine.Larder.LarderSpec
import Mathlib.Data.List.Infix
import Mathlib.Logic.Relation

/-!
# The Cache Never Resurrects a Stale Value

A server whose files change only through this client, and any number of fills, mutations and
serves in any order. The server's states are numbered: a mutation makes the next one. A mutation
is applied at the server first and answered by the matching invalidation later; a fill takes a
sequence number first, fetches what it wants later, and installs it later still. Mode, owner and
group are a key of their own: a mutation that is answered by a downgrade does not touch them.

## Main results

* `World.no_stale_serve`: what a serve returns was the server's value at a moment not before the
  last mutation of that key whose invalidation has returned.
* `stale_mode_and_stale_after_wrap`: not so for the mode after a downgrade, nor once the 64-bit
  sequence number has wrapped around.
-/

namespace Thylacine

open ClockTable Larder List Relation SeqLog
open Function (update update_of_ne)

/-! ### The server -/

structure Server where
  attr : UInt64 → Stat
  binding : UInt64 → Name → Option UInt64
  page : UInt64 → ℕ → List UInt8

inductive Key where
  | attr (q : UInt64)
  | perm (q : UInt64)
  | name (parent : UInt64) (n : Name)
  | page (q : UInt64) (idx : ℕ)
  deriving DecidableEq

/-- The server says the same of key `k`. -/
def Key.SameAt : Key → Server → Server → Prop
  | .attr q, s, t => s.attr q = t.attr q
  | .perm q, s, t => (s.attr q).perm = (t.attr q).perm
  | .name p n, s, t => s.binding p n = t.binding p n
  | .page q i, s, t => s.page q i = t.page q i

/-- The file whose invalidations guard the fills of a key. -/
def Key.guard : Key → UInt64
  | .attr q | .perm q | .name q _ | .page q _ => q

/-- A mutation, by the call that answers it. -/
inductive Change where
  | attr (q : UInt64)
  | attrSoft (q : UInt64)
  | name (parent : UInt64) (n : Name)
  | pages (q : UInt64)
  | pageRange (q : UInt64) (first last : ℕ)

namespace Change

/-- The keys that a mutation may change. -/
def touches : Change → Key → Bool
  | .attr q, k => k = .attr q ∨ k = .perm q
  | .attrSoft q, k => k = .attr q
  | .name p n, k => k = .name p n
  | .pages q, .page q' _ => q' = q
  | .pages _, _ => false
  | .pageRange q first last, .page q' i => q' = q ∧ first ≤ i ∧ i ≤ last
  | .pageRange _ _ _, _ => false

/-- The matching call. -/
def call (l : Larder) : Change → Larder
  | .attr q => l.attrInvalidate q
  | .attrSoft q => l.attrDowngrade q
  | .name p n => l.dentryInvalidateName p n
  | .pages q => l.pageInvalidate q
  | .pageRange q first last => l.pageInvalidateRange q first last

def guard : Change → UInt64
  | .attr q | .attrSoft q | .name q _ | .pages q | .pageRange q _ _ => q

theorem guard_eq {c : Change} {k : Key} (h : c.touches k = true) : k.guard = c.guard := by
  cases c <;> cases k <;> simp_all [touches, Key.guard, guard]

theorem call_log (l : Larder) (c : Change) :
    (c.call l).log = l.log.push invalShape c.guard ∧ (c.call l).epoch = l.epoch := by
  cases c with
  | attr | pages | pageRange => exact ⟨rfl, rfl⟩
  | attrSoft =>
    rw [call]
    fun_cases attrDowngrade <;> exact ⟨rfl, rfl⟩
  | name =>
    rw [call, dentryInvalidateName]
    split <;> exact ⟨rfl, rfl⟩

end Change

/-- What a cached binding says. -/
def DentryEnt.binding (e : DentryEnt) : Option UInt64 := if e.negative then none else some e.child

/-! ### Fills -/

/-- What a fill asks for. A read may return less than the page. -/
inductive Target where
  | attr (q : UInt64) (cvers : ℕ) (gen : Option ℕ)
  | name (parent : UInt64) (n : Name)
  | page (q : UInt64) (idx cvers len : ℕ)

namespace Target

def guard : Target → UInt64
  | .attr q _ _ | .name q _ | .page q _ _ _ => q

/-- The keys that a fill learns. -/
def covers : Target → Key → Prop
  | .attr q _ _, k => k = .attr q ∨ k = .perm q
  | .name p n, k => k = .name p n
  | .page q i _ _, k => k = .page q i

theorem guard_eq {t : Target} {k : Key} (h : t.covers k) : k.guard = t.guard := by
  cases t <;> simp only [covers] at h
  · obtain rfl | rfl := h <;> rfl
  · obtain rfl := h
    rfl
  · obtain rfl := h
    rfl

/-- Install what the server `s` answered. -/
def install (t : Target) (s : Server) (seq0 : ℕ) (oom oom' : Bool) (l : Larder) : Larder :=
  match t with
  | .attr q cvers gen => l.attrInstall seq0 q cvers (s.attr q) gen oom
  | .name p n => l.dentryInstall seq0 p n ((s.binding p n).getD 0) (s.binding p n).isNone oom
  | .page q idx cvers len => l.pageInstall seq0 q idx cvers ((s.page q idx).take len) oom oom'

theorem install_sameLog (t : Target) (s : Server) (seq0 : ℕ) (oom oom' : Bool) (l : Larder) :
    l.SameLog (t.install s seq0 oom oom' l) := by
  cases t with
  | attr =>
    rw [install]
    fun_cases attrInstall <;> exact ⟨rfl, rfl⟩
  | name =>
    rw [install]
    fun_cases dentryInstall <;> exact ⟨rfl, rfl⟩
  | page =>
    rw [install]
    fun_cases pageInstall <;> exact ⟨rfl, rfl⟩

end Target

/-- A fill with its answer, from the server at `moment`. -/
structure Fill where
  target : Target
  seq0 : ℕ
  moment : ℕ

/-! ### Runs -/

/-- The cache and the server. `server m` is the server at moment `m ≤ now`, made by the mutation
`change m`; `done` are the mutations whose invalidation has returned, `seqs` the sequence numbers
handed out, `fills` the server's answers; `events` counts the moves of the sequence number. -/
structure World where
  larder : Larder
  now : ℕ
  server : ℕ → Server
  change : ℕ → Change
  done : List ℕ
  seqs : List ℕ
  fills : List Fill
  events : ℕ

/-- The sequence numbers handed out after a serve. -/
def Served.seqs {α : Type} (seqs : List ℕ) : Served α → List ℕ
  | .miss seq0 => seq0 :: seqs
  | _ => seqs

namespace World

/-- An empty cache in front of any server. -/
def init (s : Server) : World where
  larder := Larder.init
  now := 0
  server _ := s
  change _ := .attr 0
  done := []
  seqs := []
  fills := []
  events := 0

/-- One critical section of the cache, one fetch, or one mutation at the server. Installs evict; an
answer may be installed at any time, any number of times. -/
inductive Step : World → World → Prop
  | snapshot (w : World) : Step w { w with seqs := w.larder.genSnapshot :: w.seqs }
  | attrServe (w : World) (q : UInt64) :
      Step w { w with
        larder := (w.larder.attrServe q).1, seqs := (w.larder.attrServe q).2.seqs w.seqs }
  | walkServe (w : World) (base : UInt64) (names : List Name) (leafOk : Bool) :
      Step w { w with larder := (w.larder.walkServe base names leafOk).1 }
  | pageServe (w : World) (q : UInt64) (idx off want cvers : ℕ) :
      Step w { w with
        larder := (w.larder.pageServe q idx off want cvers).1
        seqs := (w.larder.pageServe q idx off want cvers).2.seqs w.seqs }
  | pagesSnapshot (w : World) (q : UInt64) (cvers size seq0 : ℕ) :
      Step w { w with larder := (w.larder.pagesSnapshot q cvers size seq0).1 }
  | fetch (w : World) (t : Target) (seq0 : ℕ) (h : seq0 ∈ w.seqs) :
      Step w { w with fills := ⟨t, seq0, w.now⟩ :: w.fills }
  | install (w : World) (f : Fill) (oom oom' : Bool) (h : f ∈ w.fills) :
      Step w { w with
        larder := f.target.install (w.server f.moment) f.seq0 oom oom' w.larder }
  | mutate (w : World) (c : Change) (s : Server)
      (h : ∀ k, c.touches k = false → k.SameAt (w.server w.now) s) :
      Step w { w with
        now := w.now + 1
        server := update w.server (w.now + 1) s
        change := update w.change (w.now + 1) c }
  | settle (w : World) (i : ℕ) (h : 0 < i ∧ i ≤ w.now) :
      Step w { w with
        larder := (w.change i).call w.larder, done := i :: w.done, events := w.events + 1 }
  | unrelated (w : World) (c : Change) :
      Step w { w with larder := c.call w.larder, events := w.events + 1 }
  | forgetAll (w : World) :
      Step w { w with
        larder := w.larder.forgetAll, events := w.events + (larderInvalRing + 1) }

/-- The states of all runs. -/
def Reachable (w : World) : Prop := ∃ s, ReflTransGen Step (init s) w

/-- `m` is **not before** the last mutation of `k` whose invalidation has returned. -/
def NotBefore (w : World) (k : Key) (m : ℕ) : Prop :=
  m ≤ w.now ∧ ∀ i ∈ w.done, (w.change i).touches k = true → i ≤ m

/-! ### The invariant -/

variable {w w' : World} {k : Key} {m mode mtime mtime' : ℕ} {l : Larder} {c : Change} {seqs : List ℕ} {f : Fill}

/-- Every entry was the server's value **late enough** for its key. -/
def facts (w : World) : Facts where
  attr q e :=
    (e.permOnly = false → ∃ m, w.NotBefore (.attr q) m ∧ (w.server m).attr q = e.attr) ∧
      ∃ m, w.NotBefore (.perm q) m ∧ ((w.server m).attr q).perm = e.attr.perm
  dentry p n e := ∃ m, w.NotBefore (.name p n) m ∧ (w.server m).binding p n = e.binding
  page q i e := ∃ m, w.NotBefore (.page q i) m ∧ e.bytes <+: (w.server m).page q i

/-- The guard **stops** a fill, or its answer is late enough. -/
structure FillOk (w : World) (f : Fill) : Prop where
  seq0_le : f.seq0 ≤ w.larder.gen
  moment_le : f.moment ≤ w.now
  guarded : w.larder.invalHits f.seq0 f.target.guard = true ∨
    ∀ k, f.target.covers k → w.NotBefore k f.moment

structure Inv (w : World) : Prop where
  keeps : w.larder.Keeps w.facts
  gen_eq : w.larder.gen = w.events
  epoch_le : w.larder.epoch ≤ w.events
  done_le : ∀ i ∈ w.done, i ≤ w.now
  seqs_le : ∀ seq0 ∈ w.seqs, seq0 ≤ w.larder.gen
  fills : ∀ f ∈ w.fills, w.FillOk f

theorem init_inv (s : Server) : (init s).Inv where
  keeps := init_keeps
  gen_eq := rfl
  epoch_le := Nat.le_refl 0
  done_le _ h := absurd h not_mem_nil
  seqs_le _ h := absurd h not_mem_nil
  fills _ h := absurd h not_mem_nil

/-- A critical section that logs nothing, if the tables keep the facts. -/
theorem Inv.quiet (h : w.Inv) (hkeeps : l.Keeps w.facts) (hsame : w.larder.SameLog l)
    (hseqs : ∀ seq0 ∈ seqs, seq0 ∈ w.seqs ∨ seq0 = w.larder.gen) :
    Inv { w with larder := l, seqs := seqs } := by
  obtain ⟨hlog, hepoch⟩ := hsame
  have hgen : l.gen = w.larder.gen := congrArg Log.gen hlog
  refine ⟨hkeeps, hgen.trans h.gen_eq, hepoch ▸ h.epoch_le, h.done_le, fun seq0 hs => ?_,
    fun f hf => ?_⟩
  · rw [hgen]
    obtain hold | rfl := hseqs seq0 hs
    · exact h.seqs_le seq0 hold
    · exact le_rfl
  · obtain ⟨hseq, hm, hguard⟩ := h.fills f hf
    refine ⟨hgen ▸ hseq, hm, ?_⟩
    have hhits : l.invalHits f.seq0 f.target.guard = w.larder.invalHits f.seq0 f.target.guard := by
      rw [invalHits, invalHits, hlog]
    rw [hhits]
    exact hguard

theorem Inv.served (h : w.Inv) (ht : w.larder.Touched l)
    (hseqs : ∀ seq0 ∈ seqs, seq0 ∈ w.seqs ∨ seq0 = w.larder.gen) :
    Inv { w with larder := l, seqs := seqs } :=
  h.quiet (h.keeps.touched ht) ht.sameLog hseqs

/-- An answer is installed only if it is late enough. -/
theorem Inv.install_keeps (h : w.Inv) (hf : f ∈ w.fills) (oom oom' : Bool) :
    (f.target.install (w.server f.moment) f.seq0 oom oom' w.larder).Keeps w.facts := by
  have hguard := (h.fills f hf).guarded
  have hlate (hits : w.larder.invalHits f.seq0 f.target.guard = false) {k : Key}
      (hk : f.target.covers k) : w.NotBefore k f.moment := by
    rw [hits] at hguard
    exact hguard.resolve_left Bool.false_ne_true k hk
  cases htarget : f.target with
  | attr =>
    rw [htarget] at hlate
    refine h.keeps.attrInstall fun hits => ⟨fun _ => ?_, ?_⟩
    · exact ⟨f.moment, hlate hits (.inl rfl), rfl⟩
    · exact ⟨f.moment, hlate hits (.inr rfl), rfl⟩
  | name p n =>
    rw [htarget] at hlate
    refine h.keeps.dentryInstall fun hits => ⟨f.moment, hlate hits rfl, ?_⟩
    cases (w.server f.moment).binding p n with
    | none | some => rfl
  | page =>
    rw [htarget] at hlate
    refine h.keeps.pageInstall fun hits => ⟨f.moment, hlate hits rfl, ?_⟩
    exact (List.take_prefix _ _).trans (List.take_prefix _ _)

/-- An invalidation stops its file's fills, and no others. -/
theorem FillOk.call (h : w.FillOk f)
    (hgen : w.larder.gen + 1 < 2 ^ 64) (hlarder : w'.larder = c.call w.larder)
    (hnow : w'.now = w.now)
    (hlate : ∀ k, c.touches k = false → w.NotBefore k f.moment → w'.NotBefore k f.moment) :
    w'.FillOk f := by
  have hlog : w'.larder.log = w.larder.log.push invalShape c.guard :=
    hlarder ▸ (c.call_log w.larder).1
  have hgen' : w'.larder.gen = w.larder.gen + 1 := by
    rw [gen, hlog]
    exact Log.push_gen hgen
  refine ⟨hgen' ▸ Nat.le_succ_of_le h.seq0_le, hnow ▸ h.moment_le, ?_⟩
  rw [invalHits, hlog]
  by_cases hname : c.guard = f.target.guard
  · rw [hname]
    exact .inl (Log.hits_push_self h.seq0_le hgen)
  · obtain hits | hold := h.guarded
    · exact .inl (Log.hits_push h.seq0_le hgen hits)
    · refine .inr fun k hk => hlate k ?_ (hold k hk)
      by_contra htouch
      rw [Bool.not_eq_false] at htouch
      exact hname ((Change.guard_eq htouch).symm.trans (Target.guard_eq hk))

/-- What was late enough for `k` still is, and the server of that moment is the same. -/
def Carries (w w' : World) (k : Key) : Prop :=
  ∀ m, w.NotBefore k m → w'.NotBefore k m ∧ w'.server m = w.server m

section

variable {q : UInt64} {n : Name} {i : ℕ}

theorem Carries.attr {e : AttrEnt} (h : Carries w w' (.attr q)) (h' : Carries w w' (.perm q)) :
    w.facts.attr q e → w'.facts.attr q e := by
  rintro ⟨hfull, m, hm, hperm⟩
  refine ⟨fun hno => ?_, m, (h' m hm).1, (h' m hm).2 ▸ hperm⟩
  obtain ⟨m', hm', hst⟩ := hfull hno
  exact ⟨m', (h m' hm').1, (h m' hm').2 ▸ hst⟩

theorem Carries.dentry {e : DentryEnt} (h : Carries w w' (.name q n)) :
    w.facts.dentry q n e → w'.facts.dentry q n e := by
  rintro ⟨m, hm, hb⟩
  exact ⟨m, (h m hm).1, (h m hm).2 ▸ hb⟩

theorem Carries.page {e : PageEnt} (h : Carries w w' (.page q i)) :
    w.facts.page q i e → w'.facts.page q i e := by
  rintro ⟨m, hm, hb⟩
  exact ⟨m, (h m hm).1, (h m hm).2 ▸ hb⟩

end

/-- The matching call **removes what its mutation made stale**. -/
theorem call_keeps {w : World} (h : l.Keeps w.facts) (c : Change) (hserver : w'.server = w.server)
    (hlate : ∀ k m, c.touches k = false → w.NotBefore k m → w'.NotBefore k m) :
    (c.call l).Keeps w'.facts := by
  have hc {k : Key} (hk : c.touches k = false) : Carries w w' k := fun m hm =>
    ⟨hlate k m hk hm, by rw [hserver]⟩
  cases c with
  | attr q =>
    refine h.attrInvalidate (fun q' e hne => (hc ?_).attr (hc ?_)) (fun p n e => (hc ?_).dentry)
      (fun q i e => (hc ?_).page) <;> simp_all [Change.touches]
  | attrSoft q =>
    refine h.attrDowngrade (fun q' e hne => (hc ?_).attr (hc ?_)) (fun p n e => (hc ?_).dentry)
      (fun q i e => (hc ?_).page) fun e => ?_
    · simp [Change.touches, hne]
    · simp [Change.touches]
    · simp [Change.touches]
    · simp [Change.touches]
    · -- The permissions are no part of what the mutation changed.
      rintro ⟨-, m, hm, hperm⟩
      rw [← hserver] at hperm
      exact ⟨nofun, m, hlate _ m (by simp [Change.touches]) hm, hperm⟩
  | name p n =>
    refine h.dentryInvalidateName (fun q e => (hc ?_).attr (hc ?_))
      (fun p' n' e hne => (hc ?_).dentry) (fun q i e => (hc ?_).page) <;> simp_all [Change.touches]
  | pages q | pageRange q first last =>
    refine h.pageDrop (fun q e => (hc ?_).attr (hc ?_)) (fun p n e => (hc ?_).dentry)
      (fun q' i e hne => (hc ?_).page)
    · rfl
    · rfl
    · rfl
    · simpa [Change.touches] using hne

/-- An invalidation, whether it answers a mutation or not. -/
theorem Inv.call (h : w.Inv) (hw : w.events + 1 < 2 ^ 64)
    (hlarder : w'.larder = c.call w.larder) (hserver : w'.server = w.server)
    (hnow : w'.now = w.now) (hseqs : w'.seqs = w.seqs) (hfills : w'.fills = w.fills)
    (hevents : w'.events = w.events + 1) (hdone : ∀ i ∈ w'.done, i ≤ w.now)
    (hlate : ∀ k m, c.touches k = false → w.NotBefore k m → w'.NotBefore k m) : w'.Inv := by
  obtain ⟨hlog, hepoch⟩ := c.call_log w.larder
  have hgen : w'.larder.gen = w.larder.gen + 1 := by
    rw [gen, hlarder, hlog]
    refine Log.push_gen ?_
    have heq : w.larder.log.gen = w.events := h.gen_eq
    rw [heq]
    exact hw
  refine ⟨?_, ?_, ?_, ?_, ?_, ?_⟩
  · rw [hlarder]
    exact call_keeps h.keeps c hserver hlate
  · rw [hgen, h.gen_eq, hevents]
  · rw [hlarder, hepoch, hevents]
    exact Nat.le_succ_of_le h.epoch_le
  · rw [hnow]
    exact hdone
  · rw [hseqs, hgen]
    exact fun seq0 hs => Nat.le_succ_of_le (h.seqs_le seq0 hs)
  · rw [hfills]
    exact fun f hf => (h.fills f hf).call (h.gen_eq ▸ hw) hlarder hnow fun k => hlate k f.moment

theorem Inv.mutate (h : w.Inv) (c : Change) (s : Server) : Inv { w with
      now := w.now + 1
      server := update w.server (w.now + 1) s
      change := update w.change (w.now + 1) c } := by
  have hc (k : Key) : Carries w { w with
      now := w.now + 1
      server := update w.server (w.now + 1) s
      change := update w.change (w.now + 1) c } k := by
    -- the moments that the entries go back to are over
    intro m hm
    refine ⟨⟨Nat.le_succ_of_le hm.1, fun i hi htouch => hm.2 i hi ?_⟩,
      update_of_ne (Nat.lt_succ_of_le hm.1).ne _ _⟩
    have hne : i ≠ w.now + 1 := by
      have := h.done_le i hi
      omega
    simpa only [update_of_ne hne] using htouch
  refine ⟨h.keeps.imp ⟨fun _ _ => (hc _).attr (hc _), fun _ _ _ => (hc _).dentry,
    fun _ _ _ => (hc _).page⟩, h.gen_eq, h.epoch_le,
    fun i hi => Nat.le_succ_of_le (h.done_le i hi), h.seqs_le, fun f hf => ?_⟩
  obtain ⟨hseq, hm, hguard⟩ := h.fills f hf
  exact ⟨hseq, Nat.le_succ_of_le hm, hguard.imp_right fun hold k hk => (hc k _ (hold k hk)).1⟩

theorem Inv.forgetAll (h : w.Inv) (hw : w.events + (larderInvalRing + 1) < 2 ^ 64) : Inv { w with
      larder := w.larder.forgetAll, events := w.events + (larderInvalRing + 1) } := by
  have hgen : w.larder.log.gen = w.events := h.gen_eq
  have hgen' : w.larder.forgetAll.gen = w.larder.gen + (larderInvalRing + 1) :=
    Log.skip_gen (by rw [hgen]; exact hw)
  have hepoch : w.larder.epoch + 1 < 2 ^ 64 := by
    have := h.epoch_le
    omega
  refine ⟨h.keeps.forgetAll hepoch, ?_, ?_, h.done_le, fun seq0 hs => ?_, fun f hf => ?_⟩
  · rw [hgen', h.gen_eq]
  · have hep : w.larder.forgetAll.epoch = w.larder.epoch + 1 := Nat.mod_eq_of_lt hepoch
    have := h.epoch_le
    dsimp only
    omega
  · have := h.seqs_le seq0 hs
    dsimp only
    omega
  · obtain ⟨hseq, hm, -⟩ := h.fills f hf
    refine ⟨?_, hm, .inl (Log.hits_skip hseq (by rw [hgen]; exact hw))⟩
    dsimp only
    omega

/-- **Step lemma.** -/
theorem Inv.step (h : w.Inv) (hstep : Step w w') (hw : w'.events + 1 < 2 ^ 64) : w'.Inv := by
  have hold (seq0 : ℕ) (hs : seq0 ∈ w.seqs) : seq0 ∈ w.seqs ∨ seq0 = w.larder.gen := .inl hs
  cases hstep with
  | snapshot =>
    refine h.quiet h.keeps ⟨rfl, rfl⟩ fun seq0 hs => ?_
    exact (mem_cons.mp hs).symm
  | attrServe q =>
    refine h.served (attrServe_touched _ q) fun seq0 => ?_
    fun_cases attrServe w.larder q with
    | case1 | case2 => exact fun hs => (mem_cons.mp hs).symm
    | case3 => exact .inl
  | walkServe base names leafOk => exact h.served (walkServe_touched _ base names leafOk) hold
  | pageServe q idx off want cvers =>
    refine h.served (pageServe_touched _ q idx off want cvers) fun seq0 => ?_
    fun_cases pageServe w.larder q idx off want cvers with
    | case1 | case3 => exact .inl
    | case2 | case4 => exact fun hs => (mem_cons.mp hs).symm
  | pagesSnapshot q cvers size seq0 =>
    exact h.served (pagesSnapshot_touched _ q cvers size seq0) hold
  | fetch t seq0 hs =>
    refine ⟨h.keeps, h.gen_eq, h.epoch_le, h.done_le, h.seqs_le, fun f hf => ?_⟩
    obtain rfl | hf := mem_cons.mp hf
    · exact ⟨h.seqs_le seq0 hs, le_rfl, .inr fun k _ => ⟨le_rfl, fun i hi _ => h.done_le i hi⟩⟩
    · obtain ⟨hseq, hm, hguard⟩ := h.fills f hf
      exact ⟨hseq, hm, hguard⟩
  | install f oom oom' hf =>
    exact h.quiet (h.install_keeps hf oom oom') (Target.install_sameLog ..) hold
  | mutate c s => exact h.mutate c s
  | settle i hi =>
    refine h.call (Nat.lt_of_succ_lt hw) rfl rfl rfl rfl rfl rfl
      (fun j hj => ?_) fun k m htouch hm => ⟨hm.1, fun j hj hjk => ?_⟩
    · obtain rfl | hj := mem_cons.mp hj
      · exact hi.2
      · exact h.done_le j hj
    · obtain rfl | hj := mem_cons.mp hj
      · rw [htouch] at hjk
        cases hjk
      · exact hm.2 j hj hjk
  | unrelated =>
    exact h.call (Nat.lt_of_succ_lt hw) rfl rfl rfl rfl rfl rfl h.done_le fun k m _ hm => hm
  | forgetAll => exact h.forgetAll (Nat.lt_of_succ_lt hw)

theorem Step.events_le (h : Step w w') : w.events ≤ w'.events := by
  cases h <;> first | exact le_rfl | exact Nat.le_add_right _ _

/-- **Run lemma.** -/
theorem Reachable.inv (h : w.Reachable) (hw : w.events + 1 < 2 ^ 64) : w.Inv := by
  obtain ⟨s, hrun⟩ := h
  induction hrun with
  | refl => exact init_inv s
  | tail _ hstep ih =>
    refine (ih ?_).step hstep hw
    have := hstep.events_le
    omega

/-! ### What the serves return -/

/-- A walk was served **nothing stale**: the bindings, the components' permissions and, unless the
reply says otherwise, the last one's attributes are the server's, late enough. -/
def Walked (w : World) : UInt64 → List Name → Larder.WalkReply → Prop
  | _, [], r => r = ⟨[], false, false⟩
  | cur, name :: rest, r =>
    (r = ⟨[], true, false⟩ ∧
      ∃ m, w.NotBefore (.name cur name) m ∧ (w.server m).binding cur name = none) ∨
    ∃ child st r', r.sts = st :: r'.sts ∧ r.isMiss = r'.isMiss ∧
      (rest ≠ [] → r'.leafPermOnly = r.leafPermOnly) ∧
      (∃ m, w.NotBefore (.name cur name) m ∧ (w.server m).binding cur name = some child) ∧
      (∃ m, w.NotBefore (.perm child) m ∧ ((w.server m).attr child).perm = st.perm) ∧
      (rest = [] → r.leafPermOnly = false →
        ∃ m, w.NotBefore (.attr child) m ∧ (w.server m).attr child = st) ∧
      w.Walked child rest r'

theorem walkFrom_walked (h : l.Keeps w.facts) {leafOk : Bool} {cur : UInt64}
    {names : List Name} {r : WalkReply}
    (hr : (walkFrom leafOk l cur names).2 = some r) :
    w.Walked cur names r ∧ (leafOk = false → r.leafPermOnly = false) := by
  fun_induction walkFrom leafOk l cur names generalizing r with
  | case1 =>
    cases hr
    exact ⟨rfl, fun _ => rfl⟩
  | case2 | case4 | case5 => cases hr
  | case3 l cur name rest d hd hneg =>
    obtain ⟨m, hm, hbind⟩ := h.dentryFind hd
    cases hr
    rw [DentryEnt.binding, if_pos hneg] at hbind
    exact ⟨.inl ⟨rfl, m, hm, hbind⟩, fun _ => rfl⟩
  | case6 l cur name rest d hd hneg a ha hleaf next ih =>
    obtain ⟨m, hm, hbind⟩ := h.dentryFind hd
    rw [DentryEnt.binding, if_neg hneg] at hbind
    obtain ⟨hfull, hperm⟩ := h.attr _ _ (h.attrOk.entry_of_find ha)
    obtain ⟨r', hr', rfl⟩ := Option.map_eq_some_iff.mp hr
    obtain ⟨hwalk, hok⟩ := ih ((h.touchAttr a).touchDentry d) hr'
    refine ⟨.inr ⟨_, _, r', rfl, rfl, fun hne => ?_, ⟨m, hm, hbind⟩, hperm, ?_, hwalk⟩,
      fun hno => ?_⟩
    · exact (if_neg (by simpa using hne)).symm
    · rintro rfl hp
      exact hfull hp
    · cases rest with
      | nil => simpa [hno] using hleaf
      | cons => exact hok hno

/-- **No serve returns a stale value.** In every run in which the sequence number did not wrap
around, what any of the four serves returns was the server's value at a moment not before the
last mutation of its key whose invalidation has returned. -/
theorem no_stale_serve (h : w.Reachable) (hw : w.events + 1 < 2 ^ 64) :
    (∀ q st, (w.larder.attrServe q).2 = .hit st →
      ∃ m, w.NotBefore (.attr q) m ∧ (w.server m).attr q = st) ∧
    (∀ base names leafOk r, (w.larder.walkServe base names leafOk).2 = some r →
      w.Walked base names r ∧ (leafOk = false → r.leafPermOnly = false)) ∧
    (∀ q idx off want cvers bs, (w.larder.pageServe q idx off want cvers).2 = .hit bs →
      ∃ m, w.NotBefore (.page q idx) m ∧ bs <+: ((w.server m).page q idx).drop off) ∧
    (∀ q cvers size seq0 pieces, (w.larder.pagesSnapshot q cvers size seq0).2 = some pieces →
      pieces.length = npages size ∧ ∀ j piece, pieces[j]? = some piece →
        piece.length = min larderPageSize (size - j * larderPageSize) ∧
        ∃ m, w.NotBefore (.page q j) m ∧ piece <+: (w.server m).page q j) := by
  have hinv := h.inv hw
  refine ⟨fun q st hs => ?_, fun base names leafOk r hr => ?_,
    fun q idx off want cvers bs hs => ?_, fun q cvers size seq0 pieces hs => ?_⟩
  · obtain ⟨e, ⟨hfull, -⟩, hno, rfl⟩ := hinv.keeps.attrServe_hit hs
    exact hfull hno
  · rw [walkServe] at hr
    split at hr
    · cases hr
    · exact walkFrom_walked hinv.keeps hr
  · obtain ⟨e, ⟨m, hm, hpre⟩, rfl⟩ := hinv.keeps.pageServe_hit hs
    exact ⟨m, hm, (List.take_prefix _ _).trans (List.IsPrefix.drop hpre off)⟩
  · rw [pagesSnapshot] at hs
    split at hs
    · cases hs
    · obtain ⟨hlen, hpieces⟩ := hinv.keeps.pagesCover_some hs
      refine ⟨hlen, fun j piece hj => ?_⟩
      obtain ⟨hl, e, he, hpiece⟩ := hpieces j piece hj
      rw [Nat.zero_add] at hl he
      obtain ⟨m, hm, hpre⟩ := he
      rw [hpiece]
      refine ⟨by rw [← hpiece, hl], m, hm, (List.take_prefix _ _).trans hpre⟩

/-! ### Two runs that show the limits -/

section Runs

/-- A server with a path `a/b`; mode and modification time of `a` are given. -/
def demoServer (mode mtime : ℕ) : Server where
  attr q := if q = 1 then { (default : Stat) with mode := mode, mtimeSec := mtime } else default
  binding p n := if p = 0 ∧ n = [97] then some 1 else if p = 1 ∧ n = [98] then some 2 else none
  page _ _ := []

/-- A new mode and time of `a` mutate its attributes. -/
theorem demoServer_attr {mode' : ℕ} (k : Key) (hk : (Change.attr 1).touches k = false) :
    k.SameAt (demoServer mode mtime) (demoServer mode' mtime') := by
  cases k with
  | attr q =>
    have hq : q ≠ 1 := by simpa [Change.touches] using hk
    exact (if_neg hq).trans (if_neg hq).symm
  | perm q =>
    have hq : q ≠ 1 := by simpa [Change.touches] using hk
    exact congrArg Stat.perm ((if_neg hq).trans (if_neg hq).symm)
  | name | page => rfl

/-- A new time alone leaves the permissions. -/
theorem demoServer_attrSoft (k : Key) (hk : (Change.attrSoft 1).touches k = false) :
    k.SameAt (demoServer mode mtime) (demoServer mode mtime') := by
  cases k with
  | attr q => exact demoServer_attr (.attr q) (by simpa [Change.touches] using hk)
  | perm q =>
    by_cases hq : q = 1
    · subst hq
      rfl
    · exact demoServer_attr (.perm q) (by simpa [Change.touches] using hq)
  | name | page => rfl

/-- One fill from start to end. -/
def fill (w : World) (t : Target) : World :=
  { w with
    seqs := w.larder.genSnapshot :: w.seqs
    fills := ⟨t, w.larder.genSnapshot, w.now⟩ :: w.fills
    larder := t.install (w.server w.now) w.larder.genSnapshot false false w.larder }

theorem fill_run (w : World) (t : Target) : ReflTransGen Step w (w.fill t) :=
  ((ReflTransGen.single (.snapshot w)).tail
    (.fetch _ t w.larder.genSnapshot mem_cons_self)).tail
      (.install _ ⟨t, w.larder.genSnapshot, w.now⟩ false false mem_cons_self)

/-- The path `a/b` is cached. -/
def demoCached : World :=
  ((((init (demoServer 1 0)).fill (.name 0 [97])).fill (.attr 1 0 none)).fill (.name 1 [98])).fill
    (.attr 2 0 none)

theorem demoCached_reachable : demoCached.Reachable :=
  ⟨demoServer 1 0, (((fill_run _ _).trans (fill_run _ _)).trans (fill_run _ _)).trans
    (fill_run _ _)⟩

def demoReply : Larder.WalkReply where
  sts := [(demoServer 1 0).attr 1, default]
  isMiss := false
  leafPermOnly := false

theorem no_stale_serve_cached :
    (demoCached.larder.walkServe 0 [[97], [98]] false).2 = some demoReply ∧
      demoCached.Walked 0 [[97], [98]] demoReply := by
  have hserve : (demoCached.larder.walkServe 0 [[97], [98]] false).2 = some demoReply := by
    decide +kernel
  exact ⟨hserve,
    ((no_stale_serve demoCached_reachable (by decide)).2.1 0 [[97], [98]] false _ hserve).1⟩

/-- The directory `a` gets a new mode, then a new file; only the second is answered yet. -/
def demoDowngraded : World :=
  { demoCached with
    now := 2
    server := update (update demoCached.server 1 (demoServer 2 0)) 2 (demoServer 2 1)
    change := update (update demoCached.change 1 (.attr 1)) 2 (.attrSoft 1)
    larder := demoCached.larder.attrDowngrade 1
    done := [2]
    events := 1 }

theorem demoDowngraded_reachable : demoDowngraded.Reachable := by
  obtain ⟨s, hrun⟩ := demoCached_reachable
  refine ⟨s, hrun.trans ?_⟩
  refine ((ReflTransGen.single (Step.mutate _ (.attr 1) (demoServer 2 0) ?_)).tail
    (Step.mutate _ (.attrSoft 1) (demoServer 2 1) ?_)).tail (Step.settle _ 2 ⟨?_, ?_⟩)
  · exact demoServer_attr
  · exact demoServer_attrSoft
  · exact Nat.zero_lt_two
  · exact Nat.le_refl 2

/-- A fill took number and answer; then the file changed, which was answered, and `n` unrelated
invalidations came. -/
def demoWrapped : ℕ → World
  | 0 =>
    { init (demoServer 1 0) with
      seqs := [0]
      fills := [⟨.attr 1 0 none, 0, 0⟩]
      now := 1
      server := update (fun _ => demoServer 1 0) 1 (demoServer 2 0)
      change := update (fun _ => .attr 0) 1 (.attr 1)
      larder := Larder.init.attrInvalidate 1
      done := [1]
      events := 1 }
  | n + 1 =>
    { demoWrapped n with
      larder := (demoWrapped n).larder.attrInvalidate 9
      events := (demoWrapped n).events + 1 }

theorem demoWrapped_reachable (n : ℕ) : (demoWrapped n).Reachable := by
  induction n with
  | zero =>
    exact ⟨demoServer 1 0, (((ReflTransGen.single (.snapshot _)).tail
      (.fetch _ (.attr 1 0 none) 0 mem_cons_self)).tail
      (.mutate _ (.attr 1) (demoServer 2 0) demoServer_attr)).tail
      (.settle _ 1 ⟨Nat.one_pos, Nat.le_refl 1⟩)⟩
  | succ n ih =>
    obtain ⟨s, hrun⟩ := ih
    exact ⟨s, hrun.tail (.unrelated _ (.attr 9))⟩

/-- Unrelated invalidations move only the sequence number. -/
structure WrappedSpec (n : ℕ) (w : World) : Prop where
  attr : w.larder.attr = .blank false
  epoch : w.larder.epoch = 0
  gen : w.larder.gen = (n + 1) % 2 ^ 64
  fills : ⟨.attr 1 0 none, 0, 0⟩ ∈ w.fills
  server : w.server = update (fun _ => demoServer 1 0) 1 (demoServer 2 0)
  late : ∀ m, w.NotBefore (.attr 1) m → m = 1

theorem demoWrapped_spec (n : ℕ) : WrappedSpec n (demoWrapped n) := by
  induction n with
  | zero =>
    refine ⟨rfl, rfl, rfl, mem_cons_self, rfl, fun m hm => ?_⟩
    have hle : m ≤ 1 := hm.1
    have hge : 1 ≤ m := hm.2 1 mem_cons_self rfl
    omega
  | succ n ih =>
    obtain ⟨hattr, hepoch, hgen, hfills, hserver, hlate⟩ := ih
    refine ⟨?_, hepoch, ?_, hfills, hserver, hlate⟩
    · have hdrop : (demoWrapped (n + 1)).larder.attr =
          (demoWrapped n).larder.attr.dropKey attrShape (demoWrapped n).larder.epoch 9 := rfl
      rw [hdrop, hattr]
      rfl
    · have hpush : (demoWrapped (n + 1)).larder.gen =
          ((demoWrapped n).larder.gen + 1) % 2 ^ 64 := rfl
      omega

/-- After `2 ^ 64` events the guard takes the old number for the present. -/
theorem stale_after_wrap (n : ℕ) (hn : (n + 1) % 2 ^ 64 = 0) :
    ∃ (w : World) (st : Stat), w.Reachable ∧ (w.larder.attrServe 1).2 = .hit st ∧
      ∀ m, w.NotBefore (.attr 1) m → (w.server m).attr 1 ≠ st := by
  obtain ⟨hattr, hepoch, hgen, hfills, hserver, hlate⟩ := demoWrapped_spec n
  obtain ⟨s, hrun⟩ := demoWrapped_reachable n
  generalize demoWrapped n = w at *
  have hguard : w.larder.invalHits 0 1 = false := by
    have h0 : w.larder.log.gen = 0 := hgen.trans hn
    rw [invalHits, Log.hits, h0]
    rfl
  refine ⟨_, (demoServer 1 0).attr 1, ⟨s, hrun.tail (.install w _ false false hfills)⟩, ?_,
    fun m hm => ?_⟩
  · rw [hserver, Target.install, attrInstall, hguard, hattr, hepoch]
    rfl
  · have hm1 : m = 1 := hlate m ⟨hm.1, hm.2⟩
    rw [hserver, hm1, Function.update_self]
    decide

/-- Both conditions are needed. While a change of the mode is on its way, a **completed downgrade**
leaves the older mode to be served at an earlier component, although the mode was different at every
moment since the mutation that the downgrade answered. And a fill in flight while the sequence
number goes **all the way round** brings a dead value back. -/
theorem stale_mode_and_stale_after_wrap :
    (demoDowngraded.Reachable ∧ demoDowngraded.events + 1 < 2 ^ 64 ∧
      (demoDowngraded.larder.walkServe 0 [[97], [98]] false).2 = some demoReply ∧
      ∀ st ∈ demoReply.sts.head?, ∀ m, demoDowngraded.NotBefore (.attr 1) m →
        ((demoDowngraded.server m).attr 1).perm ≠ st.perm) ∧
    ∃ (w : World) (st : Stat), w.Reachable ∧ (w.larder.attrServe 1).2 = .hit st ∧
      ∀ m, w.NotBefore (.attr 1) m → (w.server m).attr 1 ≠ st := by
  refine ⟨⟨demoDowngraded_reachable, by decide, by decide +kernel, fun st hst m hm => ?_⟩,
    stale_after_wrap (2 ^ 64 - 1) rfl⟩
  obtain rfl : (demoServer 1 0).attr 1 = st := Option.some.inj hst
  have hle : m ≤ 2 := hm.1
  have hge : 2 ≤ m := hm.2 2 mem_cons_self rfl
  obtain rfl : m = 2 := by omega
  decide

end Runs

end World

end Thylacine
