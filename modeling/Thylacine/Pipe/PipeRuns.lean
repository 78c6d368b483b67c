import Mathlib.Logic.Relation
import Thylacine.Pipe.PipeInvariant

/-!
# Runs of a Pipe

Every step keeps the invariant, and so does every run.

## Main results

* `pipe_stream`: the reads return what the writes accepted, in order and whole.
* `pipe_no_lost_wakeup`: a call that is blocked has nothing to do or will be woken.
-/

namespace Thylacine

open List RingBuffer
open Function (update update_of_ne update_self)

namespace Pipe

variable {s s' : Pipe} {t : ℕ} {p p' : Poll} {i : ℕ} {hook final : Bool}

/-! ### Poll calls -/

theorem Poll.Ok.mem_held (hp : p.Ok) (hpos : ∀ k, p.pos ≠ .unlocking k) {k : ℕ}
    (hk : k ∈ p.listed) : k ∈ p.held :=
  (hp.kept k hk).resolve_right (hpos k)

section

variable (h : Inv s)
include h

theorem Inv.poll (hpc : s.pc t = .idle) (fds : List PipeEnd) (hook : Bool) :
    Inv (s.goto t (.polling ⟨fds, [], [], .scan 0 hook⟩)) := by
  have hl := h.call hpc
  refine h.goto hpc id (fun _ => False.elim)
    (hl.free ⟨id, fun _ => id⟩ ⟨id, fun _ => not_mem_nil⟩ ?_ (fun _ => False.elim) ?_)
  · rintro e (⟨i, hi, -⟩ | hno)
    · cases hi
    · exact hno.elim
  · exact ⟨.nil, nofun, nofun, trivial⟩

/-- A poll call goes on without the lock, keeping its hooks. -/
theorem Inv.pollGo (hpc : s.pc t = .polling p) (hlock : ¬(Pc.polling p).Locked)
    (hlock' : ¬(Pc.polling p').Locked) (hlisted : p'.listed = p.listed)
    (huses : ∀ e, (Pc.polling p').Uses e → (Pc.polling p).Uses e) (hok : p.Ok → p'.Ok) :
    Inv (s.goto t (.polling p')) := by
  have hl := h.call hpc
  refine h.goto hpc id (fun _ => False.elim)
    ⟨iff_of_false hlock' fun hl' => hlock (hl.lock.mpr hl'), fun i => ?_,
      fun e he => hl.uses e (huses e he), fun _ => False.elim, hok hl.safe⟩
  exact (hl.hooks i).trans (iff_of_eq (congrArg (i ∈ ·) hlisted.symm))

/-- The scan goes on, without a hook for this entry. -/
theorem Inv.pollSkip (hpc : s.pc t = .polling { p with pos := .scan i hook }) :
    Inv (s.goto t (.polling { p with pos := .scan (i + 1) hook })) := by
  refine h.pollGo hpc id id rfl (fun _ => id) fun hok =>
    ⟨hok.nodup, fun _ hk => .inl (hok.mem_held nofun hk), fun k hk => ?_, trivial⟩
  exact ⟨(hok.bound k hk).1, Nat.lt_succ_of_lt (hok.bound k hk).2⟩

/-- `devpipe_poll` samples under the lock, with a hook. -/
theorem Inv.pollLock (hpc : s.pc t = .polling { p with pos := .scan i true }) {e : PipeEnd}
    (hi : p.fds[i]? = some e) (hopen : s.ends e = .opened) (hlock : s.lock = none) :
    Inv { s.goto t (.polling { p with pos := .registering i }) with lock := some t } := by
  have hl := h.call hpc
  obtain ⟨hnodup, hkept, hbound, -⟩ := hl.safe
  refine h.moved hpc id (fun u hu => lock_iff_of_ne hu (.inl hlock) (.inr rfl)) (fun _ _ _ => .rfl)
    (fun _ _ _ hr => hr) h.nodup (fun _ => False.elim)
    ⟨iff_of_true trivial rfl, hl.hooks, ?_, fun _ => False.elim, hnodup,
      fun _ hk => .inl (hl.safe.mem_held nofun hk), hbound, ?_⟩
  · rintro e' (hheld | hhere)
    · exact hl.uses e' (.inl hheld)
    · have hhere' : p.fds[i]? = some e' := hhere
      rw [hi] at hhere'
      cases hhere'
      exact hopen
  · exact (List.getElem?_eq_some_iff.mp hi).1

theorem Inv.pollRegister (hpc : s.pc t = .polling { p with pos := .registering i })
    (hi : i ∉ p.listed) :
    Inv ((s.register t i).goto t
      (.polling { p with listed := i :: p.listed, pos := .unlocking i })) := by
  have hl := h.call hpc
  obtain ⟨hnodup, hkept, hbound, hhere⟩ := hl.safe
  refine h.register hpc id (fun hm => hi ((hl.hooks i).mp hm)) (fun _ => id)
    ⟨iff_of_true trivial (hl.lock.mp trivial), fun k => ?_, hl.uses, fun _ => False.elim,
      nodup_cons.mpr ⟨hi, hnodup⟩,
      forall_mem_cons.mpr ⟨.inr rfl, fun _ hk => .inl (hl.safe.mem_held nofun hk)⟩,
      forall_mem_cons.mpr ⟨⟨hhere, Nat.le_refl i⟩, fun k hk => ?_⟩, hhere⟩
  · refine mem_cons.trans (Iff.trans (or_congr ?_ (hl.hooks k)) mem_cons.symm)
    exact ⟨congrArg Prod.snd, fun hk => congrArg (Prod.mk t) hk⟩
  · exact ⟨(hbound k hk).1, Nat.le_of_lt (hbound k hk).2⟩

theorem Inv.pollUnlock (hpc : s.pc t = .polling { p with pos := .unlocking i }) :
    Inv { s.goto t (.polling { p with held := i :: p.held, pos := .scan (i + 1) true }) with
      lock := none } := by
  have hl := h.call hpc
  obtain ⟨hnodup, hkept, hbound, -⟩ := hl.safe
  refine h.moved hpc id (fun u hu => lock_iff_of_ne hu (.inr (hl.lock.mp trivial)) (.inl rfl))
    (fun _ _ _ => .rfl) (fun _ _ _ hr => hr) h.nodup (fun _ => False.elim)
    ⟨iff_of_false id nofun, hl.hooks, ?_, fun _ => False.elim, hnodup, fun k hk => .inl ?_,
      fun k hk => ?_, trivial⟩
  · rintro e (⟨k, hk, he⟩ | hno)
    · rcases mem_cons.mp hk with rfl | hk
      · exact hl.uses e (.inr he)
      · exact hl.uses e (.inl ⟨k, hk, he⟩)
    · exact hno.elim
  · rcases hkept k hk with hheld | hpos
    · exact mem_cons_of_mem i hheld
    · cases hpos
      exact mem_cons_self
  · exact ⟨(hbound k hk).1, Nat.lt_succ_of_le (hbound k hk).2⟩

theorem Inv.pollEnd (hpc : s.pc t = .polling { p with pos := .scan i hook }) (final : Bool) :
    Inv (s.goto t (.polling { p with pos := .unhook 0 final })) := by
  refine h.pollGo hpc id id rfl (fun _ => id) fun hok =>
    ⟨hok.nodup, fun _ hk => .inl (hok.mem_held nofun hk), fun k hk => ?_, trivial⟩
  · exact ⟨(hok.bound k hk).1, Nat.zero_le k⟩

section

variable (hpc : s.pc t = .polling { p with pos := .unhook i final })
include hpc

theorem Inv.pollUnhook (hi : i ∈ p.listed) : Inv ((s.unregister t i).goto t
      (.polling { p with listed := p.listed.erase i, pos := .unhook (i + 1) final })) := by
  have hl := h.call hpc
  obtain ⟨hnodup, hkept, hbound, -⟩ := hl.safe
  refine h.unregister hpc id ((hl.hooks i).mpr hi) (fun _ => id)
    ⟨iff_of_false id hl.lock.mpr, fun k => ?_, hl.uses, fun _ => False.elim,
      hnodup.erase i, fun _ hk => .inl (hl.safe.mem_held nofun (mem_of_mem_erase hk)),
      fun k hk => ?_, trivial⟩
  · refine (h.nodup.mem_erase_iff.trans (and_congr (not_congr ?_) (hl.hooks k))).trans
      hnodup.mem_erase_iff.symm
    exact ⟨congrArg Prod.snd, fun hk => congrArg (Prod.mk t) hk⟩
  · have hk' := hnodup.mem_erase_iff.mp hk
    have hle : i ≤ k := (hbound k hk'.2).2
    exact ⟨(hbound k hk'.2).1, by have := hk'.1; omega⟩

theorem Inv.pollUnhookSkip (hi : i ∉ p.listed) :
    Inv (s.goto t (.polling { p with pos := .unhook (i + 1) final })) := by
  refine h.pollGo hpc id id rfl (fun _ => id) fun hok =>
    ⟨hok.nodup, fun _ hk => .inl (hok.mem_held nofun hk), fun k hk => ?_, trivial⟩
  · have hle : i ≤ k := (hok.bound k hk).2
    have hne : k ≠ i := fun heq => hi (heq ▸ hk)
    exact ⟨(hok.bound k hk).1, by omega⟩

/-- After the sweep no hook is on the list. -/
theorem Inv.listed_nil (hi : p.fds.length ≤ i) : p.listed = [] := by
  have hl := h.call hpc
  refine eq_nil_iff_forall_not_mem.mpr fun k hk => ?_
  obtain ⟨hlt, hle⟩ := hl.safe.bound k hk
  have hlt' : k < p.fds.length := hlt
  omega

end

theorem Inv.pollAgain (hpc : s.pc t = .polling { p with pos := .unhook i false })
    (hi : p.fds.length ≤ i) {pos : PollAt}
    (hpos : (∃ hook, pos = .scan 0 hook) ∨ pos = .unhook 0 true) :
    Inv { s.goto t (.polling { p with held := [], pos := pos }) with
      ready := fun h => s.ready h && h.1 != t } := by
  have hnil := h.listed_nil hpc hi
  have hl := h.call hpc
  have hready (u : ℕ) (hu : u ≠ t) (j : ℕ) (hr : s.ready (u, j) = true) :
      (s.ready (u, j) && (u, j).1 != t) = true := by
    rw [hr]
    exact bne_iff_ne.mpr hu
  have hok : Poll.Ok { p with held := [], pos := pos } := by
    refine ⟨?_, fun k hk => ?_, fun k hk => ?_, ?_⟩
    · exact hl.safe.nodup
    iterate 2
      rw [hnil] at hk
      cases hk
    · rcases hpos with ⟨hook, rfl⟩ | rfl <;> trivial
  have hlock : ¬(Pc.polling { p with held := [], pos := pos }).Locked := by
    rcases hpos with ⟨hook, rfl⟩ | rfl <;> exact id
  refine h.moved hpc id (fun _ _ => .rfl) (fun _ _ _ => .rfl) hready h.nodup (fun _ => False.elim)
    ⟨iff_of_false hlock hl.lock.mpr, hl.hooks, ?_, fun _ => False.elim, hok⟩
  rintro e (⟨k, hk, -⟩ | hno)
  · cases hk
  · rcases hpos with ⟨hook, rfl⟩ | rfl <;> exact hno.elim

theorem Inv.pollReturn (hpc : s.pc t = .polling { p with pos := .unhook i true })
    (hi : p.fds.length ≤ i) : Inv (s.goto t .idle) := by
  have hnil := h.listed_nil hpc hi
  have hfree : (Pc.polling { p with pos := .unhook i true }).Free := by
    refine ⟨id, fun k hk => ?_⟩
    have hk' : k ∈ p.listed := hk
    rw [hnil] at hk'
    cases hk'
  exact h.goto hpc id (fun _ => False.elim)
    ((h.call hpc).free hfree ⟨id, fun _ => id⟩ (fun _ => False.elim) (fun _ => False.elim) trivial)

end

/-! ### The freed ring -/

/-- A poll call holds the Spoor of a hook on the list. -/
theorem Poll.Ok.uses (hp : p.Ok) {k : ℕ} (hk : k ∈ p.listed) : ∃ e, (Pc.polling p).Uses e := by
  obtain ⟨hlt, -⟩ := hp.bound k hk
  have he : p.fds[k]? = some (p.fds.get ⟨k, hlt⟩) := getElem?_eq_getElem hlt
  rcases hp.kept k hk with hheld | hpos
  · exact ⟨_, .inl ⟨k, hheld, he⟩⟩
  · refine ⟨p.fds.get ⟨k, hlt⟩, .inr ?_⟩
    rw [hpos]
    exact he

/-- A call that touches the ring has an end not closed. -/
theorem Inv.exists_end (h : Inv s) (htouch : Touches (s.pc t)) : ∃ e, s.ends e ≠ .closed := by
  have hl := h.calls t
  have of_uses (hu : ∃ e, (s.pc t).Uses e) : ∃ e, s.ends e ≠ .closed := by
    obtain ⟨e, he⟩ := hu
    exact ⟨e, by rw [hl.uses e he]; nofun⟩
  have of_closes (hc : ∃ e, (s.pc t).Closes e) : ∃ e, s.ends e ≠ .closed := by
    obtain ⟨e, he⟩ := hc
    exact ⟨e, by rw [hl.closes e he]; nofun⟩
  cases hpc : s.pc t with
  | idle | asleep q =>
    rw [hpc] at htouch
    exact htouch.elim
  | sampling q | registering q | unlocking q | unregistering q rc =>
    exact of_uses ⟨q.on, by rw [hpc]; rfl⟩
  | walking e => exact of_uses ⟨e, by rw [hpc]; rfl⟩
  | closing e | dropping e => exact of_closes ⟨e, by rw [hpc]; rfl⟩
  | polling p =>
    refine of_uses ?_
    rw [hpc] at hl htouch ⊢
    obtain ⟨fds, listed, held, pos⟩ := p
    have hok := hl.safe
    cases pos with
    | scan => exact htouch.elim
    | unhook => exact hok.uses htouch
    | registering k | unlocking k => exact ⟨_, .inr (getElem?_eq_getElem hok.here)⟩

/-! ### Steps and runs -/

/-- **Every step keeps the invariant.** -/
theorem Step.inv (hstep : Step s s') (h : Inv s) : Inv s' := by
  cases hstep with
  | read t e n buf now hpc hopen =>
    exact h.enter hpc (fun q hq => (on_of_readEntry hq).symm ▸ hopen) _
  | write t e n buf frame hpc hopen =>
    exact h.enter hpc (fun q hq => (on_of_writeEntry hq).symm ▸ hopen) _
  | hangup t hpc hopen hlock => exact h.hangup hpc hopen hlock
  | close t e hpc hopen hunused hlock => exact h.close hpc hopen hunused hlock
  | sample t q nonblock hpc hlock => exact h.sampled hpc hlock nonblock
  | register t q hpc => exact h.register_blocked hpc
  | unlock t q hpc => exact h.unlock hpc
  | wakeup t q rc hpc => exact h.wakeup hpc rc
  | unregister t q rc hpc => exact h.unregister_blocked hpc
  | walk t e ev hpc =>
    exact (h.walk (p := .idle) hpc ⟨id, fun _ => id⟩
      ⟨id, fun _ => id⟩ (fun _ => False.elim) (fun _ => id) fun _ => trivial).log _
  | closeWalk t e hpc =>
    exact h.walk hpc ⟨id, fun _ => id⟩ ⟨id, fun _ => id⟩ (fun _ he => he) (fun _ => id)
      fun _ => trivial
  | drop t e hpc => exact h.dropRef hpc
  | poll t fds hook hpc => exact h.poll hpc fds hook
  | pollSkip t p i hook hpc | pollSample t p i e hpc => exact h.pollSkip hpc
  | pollLock t p i e hpc hi hopen hlock => exact h.pollLock hpc hi hopen hlock
  | pollRegister t p i hpc hi => exact h.pollRegister hpc hi
  | pollRegisterTwice t p i hpc hi =>
    have hl := h.call hpc
    exact absurd (hl.safe.bound i hi).2 (Nat.lt_irrefl i)
  | pollUnlock t p i hpc => exact h.pollUnlock hpc
  | pollEnd t p i hook final hpc => exact h.pollEnd hpc final
  | pollUnhook t p i final hpc hi hlisted => exact h.pollUnhook hpc hlisted
  | pollUnhookSkip t p i final hpc hi hlisted => exact h.pollUnhookSkip hpc hlisted
  | pollAgain t p i pos hpc hi hpos => exact h.pollAgain hpc hi hpos
  | pollReturn t p i hpc hi => exact h.pollReturn hpc hi
  | useAfterFree t htouch hfreed =>
    obtain ⟨e, he⟩ := h.exists_end htouch
    exact absurd (h.not_freed he) hfreed
  | openAfterFree e hopen hfreed => exact absurd (h.not_freed (by rw [hopen]; nofun)) hfreed

theorem create_inv : Inv create where
  ring := ⟨by decide, by decide, rfl⟩
  stream := rfl
  nodup := .nil
  closer := fun _ _ _ => False.elim
  ref := rfl
  freed := rfl
  alive := rfl
  calls := fun _ => ⟨iff_of_false id nofun, fun _ => iff_of_false not_mem_nil id,
    fun _ => False.elim, fun _ => False.elim, trivial⟩

/-- The runs of a pipe. -/
abbrev Steps : Pipe → Pipe → Prop := Relation.ReflTransGen Step

theorem Steps.inv (hrun : Steps s s') (h : Inv s) : Inv s' := by
  induction hrun with
  | refl => exact h
  | tail _ hstep ih => exact hstep.inv ih

/-! ### The stream -/

/-- What a step that is **no sample** leaves: the bytes, and who has bytes to return. A read of `n >
0` bytes that returns is not at end of file, and returns what it had. -/
structure Rests (s s' : Pipe) : Prop where
  accepted : s'.accepted = s.accepted
  returned : s'.returned = s.returned
  eof : s.r.readEof = true ∨ s.r.writeEof = true → s'.r.readEof = true ∨ s'.r.writeEof = true
  reading : ∀ t ev, s'.pc t = .walking .read ev → s.pc t = .walking .read ev
  log : ∃ evs, s'.log = s.log ++ evs ∧ ∀ t n rc, .read t n rc ∈ evs → 0 < n →
    rc ≠ 0 ∧ (0 < rc → s.pc t = .walking .read (some (.read t n rc)))

/-- A call moves, though not to a read's return. -/
theorem reading_of_update {p : Pc} (hpc : s'.pc = update s.pc t p)
    (hp : ∀ ev, p ≠ .walking .read ev) (u : ℕ) (ev : Option Event)
    (hu : s'.pc u = .walking .read ev) : s.pc u = .walking .read ev := by
  rw [hpc] at hu
  by_cases hut : u = t
  · subst hut
    rw [update_self] at hu
    exact absurd hu (hp ev)
  · rwa [update_of_ne hut] at hu

/-- A move of one call, with nothing logged. -/
theorem Rests.move {p : Pc} (hacc : s'.accepted = s.accepted) (hret : s'.returned = s.returned)
    (heof : s.r.readEof = true ∨ s.r.writeEof = true → s'.r.readEof = true ∨ s'.r.writeEof = true)
    (hlog : s'.log = s.log) (hpc : s'.pc = update s.pc t p) (hp : ∀ ev, p ≠ .walking .read ev) :
    Rests s s' where
  accepted := hacc
  returned := hret
  eof := heof
  reading := reading_of_update hpc hp
  log := ⟨[], hlog.trans (append_nil _).symm, nofun⟩

/-- A call returns: a read with an error, with 0 asked for, or with what it had. -/
theorem Rests.returns {ev : Option Event} (hev : ∀ u n rc, ev = some (.read u n rc) → 0 < n →
      rc ≠ 0 ∧ (0 < rc → s.pc u = .walking .read (some (.read u n rc)))) :
    Rests s (s.returns t ev) := by
  refine ⟨rfl, rfl, id, reading_of_update rfl nofun, ev.toList, rfl, fun u n rc hm => hev u n rc ?_⟩
  exact Option.mem_toList.mp hm

theorem eq_zero_of_readEntry {e : PipeEnd} {n rc : ℤ} {buf now : Bool}
    (h : readEntry e n buf now = .error rc) : rc < 0 ∨ n = 0 := by
  unfold readEntry at h
  split_ifs at h with he hbad hzero
  · cases h
    exact .inl (by decide)
  · cases h
    exact .inl (by decide)
  · exact .inr hzero

theorem event_eq_read {q : Req} {t' : ℕ} {n rc rc' : ℤ} (h : q.event t rc = .read t' n rc') :
    q.on = .read ∧ q.n = n ∧ rc = rc' := by
  unfold Req.event at h
  split at h
  next hon =>
    cases h
    exact ⟨hon, rfl, rfl⟩
  next => cases h

/-- `poll_waiter_list_unregister` writes the list, or is an extinction. -/
theorem unregister_eq (s : Pipe) (t i : ℕ) :
    ∃ hooks extinct, s.unregister t i = { s with hooks := hooks, extinct := extinct } := by
  unfold unregister
  split_ifs
  · exact ⟨s.hooks.erase (t, i), s.extinct, rfl⟩
  · exact ⟨s.hooks, true, rfl⟩

/-- **What a step does**: it samples, or it rests. -/
theorem Step.rests_or_sampled (hstep : Step s s') (h : Inv s) :
    Rests s s' ∨ ∃ t q nonblock, s.pc t = .sampling q ∧ s' = s.sampled t q nonblock := by
  have hsame : Rests s { s with extinct := true } :=
    ⟨rfl, rfl, id, fun _ _ => id, [], (append_nil _).symm, nofun⟩
  cases hstep with
  | sample t q nonblock hpc => exact .inr ⟨t, q, nonblock, hpc, rfl⟩
  | read t e n buf now =>
    left
    unfold enter
    split
    next rc hentry =>
      refine .returns ?_
      rintro u n' rc' ⟨⟩ hn
      have hneg := (eq_zero_of_readEntry hentry).resolve_right (Int.ne_of_gt hn)
      exact ⟨Int.ne_of_lt hneg, fun hpos => by omega⟩
    next => exact .move rfl rfl id rfl rfl nofun
  | write =>
    left
    unfold enter
    split
    next => exact .returns nofun
    next => exact .move rfl rfl id rfl rfl nofun
  | hangup => exact .inl (.move rfl rfl (fun _ => .inr rfl) rfl rfl nofun)
  | close t e =>
    cases e
    · exact .inl (.move rfl rfl (fun _ => .inl rfl) rfl rfl nofun)
    · exact .inl (.move rfl rfl (fun _ => .inr rfl) rfl rfl nofun)
  | unregister t q rc hpc =>
    obtain ⟨hooks, extinct, heq⟩ := s.unregister_eq t 0
    rw [heq]
    have hret (rc' : ℤ) (hneg : rc' < 0) :
        Rests s (returns { s with hooks := hooks, extinct := extinct } t (some (q.event t rc'))) := by
      have hrests : Rests s (s.returns t (some (q.event t rc'))) := by
        refine .returns fun u n rc hev _ => ?_
        obtain ⟨-, -, rfl⟩ := event_eq_read (Option.some.inj hev)
        exact ⟨Int.ne_of_lt hneg, fun hpos => by omega⟩
      exact ⟨rfl, rfl, id, hrests.reading, hrests.log⟩
    cases rc with
    | ok => exact .inl (.move rfl rfl id rfl rfl nofun)
    | intr | noteintr => exact .inl (hret _ (by decide))
  | walk t e ev hpc =>
    have hrests : Rests s (s.returns t ev) := by
      refine .returns fun u n rc hev _ => ?_
      obtain ⟨rfl, rfl, hpos⟩ := (h.call hpc).safe u n rc hev
      exact ⟨Int.ne_of_gt hpos, fun _ => hev ▸ hpc⟩
    exact .inl ⟨rfl, rfl, id, hrests.reading, hrests.log⟩
  | drop =>
    unfold dropRef
    split_ifs
    · exact .inl hsame
    all_goals exact .inl (.move rfl rfl id rfl rfl nofun)
  | pollUnhook t p i =>
    obtain ⟨hooks, extinct, heq⟩ := s.unregister_eq t i
    rw [heq]
    exact .inl (.move rfl rfl id rfl rfl nofun)
  | useAfterFree | openAfterFree | pollRegisterTwice => exact .inl hsame
  | _ => exact .inl (.move rfl rfl id rfl rfl nofun)

/-- A call accepts a block of its buffer, all of it if no larger than the ring, and goes on to
return its length. -/
structure Accepts (s s' : Pipe) : Prop where
  open_read : s.r.readEof = false
  open_write : s.r.writeEof = false
  block : ∃ t q buf k, s.pc t = .sampling q ∧ q.kind.WritesFrom buf ∧
    s'.accepted = s.accepted ++ slice buf k ∧ (q.n ≤ pipeBufSize → k = q.n) ∧
      s'.pc t = .walking .write (some (.write t q.n k))

/-- The read `t` of `n` bytes takes `k` off the ring, `0 < k ≤ n`, to return `k`. -/
structure Delivers (s s' : Pipe) (t : ℕ) (n k : ℤ) : Prop where
  pos : 0 < k
  le : k ≤ n
  call : ∃ q, s.pc t = .sampling q ∧ q.on = .read ∧ q.n = n
  bytes : ∃ took : List UInt8, took.length = k ∧ s'.returned = s.returned ++ took
  pc : s'.pc = update s.pc t (.walking .read (some (.read t n k)))

/-- A hold of the ring lock moves what the sample says. -/
theorem sampled_streams (q : Req) (nonblock : Bool) :
    (s.sampled t q nonblock).accepted = s.accepted ++ (q.sample s.r nonblock).put ∧
      (s.sampled t q nonblock).returned = s.returned ++ (q.sample s.r nonblock).took ∧
      (s.sampled t q nonblock).r = (q.sample s.r nonblock).r := by
  unfold sampled
  generalize q.sample s.r nonblock = a
  obtain ⟨r, took, put, out⟩ := a
  cases out <;> exact ⟨rfl, rfl, rfl⟩

/-- Where a hold of the lock leads the call. -/
def Outcome.pc (q : Req) (t : ℕ) : Outcome → Pc
  | .ret _ => .idle
  | .wake rc => .walking q.on (some (q.event t rc))
  | .block => .registering q

theorem sampled_pc (q : Req) (nonblock : Bool) : (s.sampled t q nonblock).pc =
    update s.pc t ((q.sample s.r nonblock).out.pc q t) := by
  unfold sampled
  generalize q.sample s.r nonblock = a
  obtain ⟨r, took, put, out⟩ := a
  cases out <;> rfl

theorem Step.accepted (hstep : Step s s') (h : Inv s) :
    s'.accepted = s.accepted ∨ Accepts s s' := by
  rcases hstep.rests_or_sampled h with hrests | ⟨t, q, nonblock, hpc, rfl⟩
  · exact .inl hrests.accepted
  have hacc := (sampled_streams (s := s) (t := t) q nonblock).1
  by_cases hput : (q.sample s.r nonblock).put = []
  · rw [hacc, hput, append_nil]
    exact .inl rfl
  obtain ⟨hr, hw, buf, hq, hslice, hall, hout⟩ := (q.sample_spec h.ring nonblock).put hput
  refine .inr ⟨hr, hw, t, q, buf, _, hpc, hq, ?_, hall, ?_⟩
  · rw [hacc, ← hslice]
  · rw [sampled_pc, hout, update_self, Outcome.pc, Req.event, on_eq_write hq]

/-- **A read returns what it took.** A step delivers, or brings no call to return bytes. -/
theorem Step.returned (hstep : Step s s') (h : Inv s) :
    (∃ t n k, Delivers s s' t n k) ∨ s'.returned = s.returned ∧
      ∀ t ev, s'.pc t = .walking .read ev → s.pc t = .walking .read ev := by
  rcases hstep.rests_or_sampled h with hrests | ⟨t, q, nonblock, hpc, rfl⟩
  · exact .inr ⟨hrests.returned, hrests.reading⟩
  have ha := q.sample_spec h.ring nonblock
  have hret := (sampled_streams (s := s) (t := t) q nonblock).2.1
  have hpc' := sampled_pc (s := s) (t := t) q nonblock
  -- without a walk nothing was taken, and a write takes nothing off the ring
  have hrest (htook : (q.sample s.r nonblock).took = [])
      (hno : ∀ ev, (q.sample s.r nonblock).out.pc q t ≠ .walking .read ev) :
      (s.sampled t q nonblock).returned = s.returned ∧ ∀ u ev,
        (s.sampled t q nonblock).pc u = .walking .read ev → s.pc u = .walking .read ev := by
    rw [hret, htook, append_nil]
    exact ⟨rfl, reading_of_update hpc' hno⟩
  cases hout : (q.sample s.r nonblock).out with
  | ret | block => exact .inr (hrest (ha.still (by rw [hout]; nofun)).2.1 (by rw [hout]; nofun))
  | wake rc =>
    cases hon : q.on with
    | read =>
      obtain ⟨hlen, hle⟩ := ha.took hon rc hout
      refine .inl ⟨t, q.n, rc, ha.wake rc hout, hle, ⟨q, hpc, hon, rfl⟩, ⟨_, hlen, hret⟩, ?_⟩
      rw [hpc', hout, Outcome.pc, Req.event, hon]
    | write => exact .inr (hrest (ha.kept hon) (by rw [hout, Outcome.pc, hon]; nofun))

/-- End of file is final. -/
theorem Step.eof (hstep : Step s s') (h : Inv s) (heof : s.r.readEof = true ∨ s.r.writeEof = true) :
    s'.r.readEof = true ∨ s'.r.writeEof = true := by
  rcases hstep.rests_or_sampled h with hrests | ⟨t, q, nonblock, hpc, rfl⟩
  · exact hrests.eof heof
  have ha := q.sample_spec h.ring nonblock
  rwa [(sampled_streams q nonblock).2.2, ha.readEof, ha.writeEof]

/-- After end of file no write accepts a byte. -/
theorem Steps.accepted_of_eof (hrun : Steps s s') (h : Inv s)
    (heof : s.r.readEof = true ∨ s.r.writeEof = true) : s'.accepted = s.accepted := by
  -- the flag that is set stays set along the run
  have hall : s'.accepted = s.accepted ∧ (s'.r.readEof = true ∨ s'.r.writeEof = true) ∧ Inv s' := by
    induction hrun with
    | refl => exact ⟨rfl, heof, h⟩
    | tail _ hstep ih =>
      obtain ⟨hacc, heof', hinv⟩ := ih
      refine ⟨?_, hstep.eof hinv heof', hstep.inv hinv⟩
      rcases hstep.accepted hinv with hsame | haccepts
      · exact hsame.trans hacc
      · rw [haccepts.open_read, haccepts.open_write] at heof'
        rcases heof' with hf | hf <;> cases hf
  exact hall.1

theorem Step.log (hstep : Step s s') (h : Inv s) {n rc : ℤ} (hn : 0 < n)
    (hlog : s'.log = s.log ++ [.read t n rc]) :
    (rc = 0 → s.r.ring.count = 0 ∧ s.r.writeEof = true) ∧
      (0 < rc → s.pc t = .walking .read (some (.read t n rc))) := by
  rcases hstep.rests_or_sampled h with hrests | ⟨u, q, nonblock, hpc, rfl⟩
  · obtain ⟨evs, hevs, hread⟩ := hrests.log
    obtain rfl : evs = [.read t n rc] := append_cancel_left (hevs.symm.trans hlog)
    obtain ⟨hne, hhad⟩ := hread t n rc (mem_singleton_self _) hn
    exact ⟨fun hzero => absurd hzero hne, hhad⟩
  have ha := q.sample_spec h.ring nonblock
  unfold sampled at hlog
  generalize q.sample s.r nonblock = a at ha hlog
  obtain ⟨r, took, put, out⟩ := a
  cases out with
  | ret rc' =>
    have hev : q.event u rc' = .read t n rc := singleton_inj.mp (append_cancel_left hlog)
    obtain ⟨hon, -, rfl⟩ := event_eq_read hev
    obtain ⟨hle, hzero⟩ := ha.ret hon rc' rfl
    exact ⟨hzero, fun hpos => absurd hpos (Int.not_lt.mpr hle)⟩
  | wake | block => exact absurd (self_eq_append_right.mp hlog) (cons_ne_nil _ _)

/-- The ring is freed once, with the second end. -/
theorem Inv.freed_iff (h : Inv s) : s.freed = 1 ↔ ∀ e, s.ends e = .closed := by
  constructor
  · intro hfreed e
    by_contra he
    rw [h.not_freed he] at hfreed
    cases hfreed
  · intro hall
    rw [h.freed, h.ref, refs, hall, hall]
    rfl

/-- **Pipe stream semantics**, in every state `s` of every run. The reads returned a prefix of what
the writes accepted, and the rest is in the ring. A step accepts nothing, or one block, the whole of
a write of at most `PIPE_BUF_SIZE` bytes. A step returns nothing, or the `k` bytes, `0 < k ≤ n`,
that a read of `n` bytes takes off the ring; and a read returns a positive `k` only if it took `k`
bytes. After end of file nothing is accepted. A read of `n > 0` bytes returns 0 only at the end of
file. The ring is freed once, after both ends have closed, and not touched then. -/
theorem pipe_stream (s : Pipe) (hrun : Steps create s) :
    (s.accepted = s.returned ++ s.r.ring.contents pipeBufSize ∧
      s.accepted.length = s.returned.length + s.r.ring.count ∧ s.r.ring.count ≤ pipeBufSize) ∧
    (∀ s', Step s s' → s'.accepted = s.accepted ∨ Accepts s s') ∧
    (∀ s', Step s s' → (∃ t n k, Delivers s s' t n k) ∨ s'.returned = s.returned ∧
      ∀ t ev, s'.pc t = .walking .read ev → s.pc t = .walking .read ev) ∧
    (∀ s' t n k, Step s s' → 0 < n → 0 < k → s'.log = s.log ++ [.read t n k] →
      s.pc t = .walking .read (some (.read t n k))) ∧
    (s.r.readEof = true ∨ s.r.writeEof = true → ∀ s', Steps s s' → s'.accepted = s.accepted) ∧
    (∀ s' t n, Step s s' → 0 < n → s'.log = s.log ++ [.read t n 0] →
      s.r.ring.count = 0 ∧ s.r.writeEof = true) ∧
    (s.freed ≤ 1 ∧ (s.freed = 1 ↔ ∀ e, s.ends e = .closed)) ∧ s.extinct = false := by
  have h := hrun.inv create_inv
  refine ⟨⟨h.stream, ?_, h.ring.count_le⟩, fun s' hstep => hstep.accepted h,
    fun s' hstep => hstep.returned h, fun s' t n k hstep hn hk hlog => (hstep.log h hn hlog).2 hk,
    fun heof s' hrun' => hrun'.accepted_of_eof h heof,
    fun s' t n hstep hn hlog => (hstep.log h hn hlog).1 rfl, ⟨?_, h.freed_iff⟩, h.alive⟩
  · rw [h.stream, length_append, RingBuffer.Ring.length_contents]
  · rw [h.freed]
    split_ifs <;> omega

/-! ### Wakeups -/

/-- The call is about to sleep, or sleeps. -/
def Blocked (s : Pipe) (t : ℕ) (q : Req) : Prop := s.pc t = .unlocking q ∨ s.pc t = .asleep q

/-- A thread that changed the ring has the list to walk. -/
def WalkOwed (s : Pipe) : Prop := ∃ u, (s.pc u).OwesWalk

theorem Inv.waits (h : Inv s) {q : Req} (hb : s.Blocked t q) (hready : s.ready (t, 0) = false) :
    q.Waits s.r ∨ s.WalkOwed := by
  have hl := h.calls t
  rcases hb with hpc | hpc
  · rw [hpc] at hl
    exact .inl hl.safe
  · rw [hpc] at hl
    rcases hl.safe with hw | hr | ho
    · exact .inl hw
    · rw [hready] at hr
      cases hr
    · exact .inr ho

/-- **No lost wakeup**, in every state of every run. A blocked reader whose hook is not ready finds
the ring empty and the write end open, or a walk of the list is to come. A blocked writer finds the
ring too full and both ends open, or a walk is to come. A call that has returned has no hook on the
list. -/
theorem pipe_no_lost_wakeup (s : Pipe) (hrun : Steps create s) :
    (∀ t n hn now, s.Blocked t ⟨n, hn, .read now⟩ → (t, 0) ∈ s.hooks → s.ready (t, 0) = false →
      (s.r.ring.count = 0 ∧ s.r.writeEof = false) ∨ s.WalkOwed) ∧
    (∀ t n hn buf, s.Blocked t ⟨n, hn, .write buf⟩ → (t, 0) ∈ s.hooks →
      s.ready (t, 0) = false →
      (Full s.r n ∧ s.r.readEof = false ∧ s.r.writeEof = false) ∨ s.WalkOwed) ∧
    (∀ t q, s.Blocked t q → (t, 0) ∈ s.hooks) ∧
    (∀ t i, s.pc t = .idle → (t, i) ∉ s.hooks) ∧ s.extinct = false := by
  have h := hrun.inv create_inv
  refine ⟨fun t n hn now hb _ hr => h.waits hb hr, fun t n hn buf hb _ hr => h.waits hb hr,
    fun t q hb => ?_, fun t i hpc hm => ?_, h.alive⟩
  · have hl := h.calls t
    rcases hb with hpc | hpc <;> rw [hpc] at hl <;> exact (hl.hooks 0).mpr rfl
  · have hl := h.calls t
    rw [hpc] at hl
    exact (hl.hooks i).mp hm

/-! ### A blocked reader and a writer -/

/-- A read of one byte. -/
def readOne : Req := ⟨1, Nat.one_pos, .read false⟩

/-- A write of one byte. -/
def writeOne : Req := ⟨1, Nat.one_pos, .write fun _ => 65⟩

/-- Call 0 reads from the empty pipe, and sleeps. -/
def readerAsleep : Pipe :=
  { (((((create.enter 0 (readEntry .read 1 true false) (.read 0 1)).sampled 0 readOne false).register
      0 0).goto 0 (.unlocking readOne)).goto 0 (.asleep readOne)) with lock := none }

/-- Call 1 writes a byte, and has the list to walk. -/
def writerWalks : Pipe :=
  (readerAsleep.enter 1 (writeEntry .write 1 (some fun _ => 65) false) (.write 1 1)).sampled 1
    writeOne false

theorem readerAsleep_run : Steps create readerAsleep :=
  .tail (.tail (.tail (.tail .refl (.read 0 .read 1 true false rfl rfl))
    (.sample 0 readOne false rfl rfl)) (.register 0 readOne rfl)) (.unlock 0 readOne rfl)

theorem writerWalks_run : Steps create writerWalks :=
  .tail (.tail readerAsleep_run (.write 1 .write 1 (some fun _ => 65) false rfl rfl))
    (.sample 1 writeOne false rfl rfl)

/-- Call 1 has returned, and call 0 is about to sample again. -/
def readerWoken : Pipe :=
  (((writerWalks.wake.returns 1 (some (.write 1 1 1))).goto 0 (.unregistering readOne .ok)).unregister
    0 0).resumed 0 readOne .ok

/-- Call 0 has the byte, and the list to walk. -/
def readerWalks : Pipe := readerWoken.sampled 0 readOne false

theorem readerWoken_run : Steps create readerWoken :=
  .tail (.tail (.tail writerWalks_run (.walk 1 .write _ rfl)) (.wakeup 0 readOne .ok rfl fun _ => rfl))
    (.unregister 0 readOne .ok rfl)

theorem readerWalks_step : Step readerWoken readerWalks := .sample 0 readOne false rfl rfl

/-- The byte that call 1 wrote is delivered to call 0, which returns 1. -/
theorem pipe_stream_one_byte :
    readerWalks.accepted = [65] ∧ readerWalks.returned = [65] ∧
      (∃ t n k, Delivers readerWoken readerWalks t n k) ∧
      readerWalks.pc 0 = .walking .read (some (.read 0 1 1)) := by
  have hwalk : Step readerWalks (readerWalks.wake.returns 0 (some (.read 0 1 1))) :=
    .walk 0 .read _ rfl
  refine ⟨rfl, rfl, ?_, ?_⟩
  · rcases (pipe_stream readerWoken readerWoken_run).2.2.1 readerWalks readerWalks_step with
      hdelivers | ⟨hnone, -⟩
    · exact hdelivers
    · exact absurd hnone (cons_ne_nil 65 [])
  · exact (pipe_stream readerWalks (readerWoken_run.tail readerWalks_step)).2.2.2.1 _ 0 1 1 hwalk
      (by decide) (by decide) rfl

theorem pipe_no_lost_wakeup_reader :
    writerWalks.Blocked 0 readOne ∧ writerWalks.ready (0, 0) = false ∧ writerWalks.WalkOwed := by
  have hb : writerWalks.Blocked 0 readOne := .inr rfl
  refine ⟨hb, rfl, ?_⟩
  rcases (pipe_no_lost_wakeup writerWalks writerWalks_run).1 0 1 Nat.one_pos false hb
    mem_cons_self rfl with ⟨hempty, -⟩ | howed
  · exact absurd hempty (by decide)
  · exact howed

end Pipe

end Thylacine
