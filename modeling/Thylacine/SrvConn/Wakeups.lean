import Thylacine.SrvConn.Stream

/-!
# The Wakeups of a Connection

A call that is asleep waits for a condition of the channel, and one of the four kinds of queue
stands for it: the waiter of `rendez` or `wrendez`, the contenders for a role, and the pollers.
The invariant says for each call by itself (`Local`) that it is in the queues where its program
counter says, and that if it is asleep then its condition is false, or another call still owes the
wake of its queue. A step that makes a condition true owes the wake, and a wake that is delivered
finds the sleeper in its queue.

## Main results

* `srvconn_no_lost_wakeup`: nobody sleeps past its condition, in every run of all the calls.
-/

namespace Thylacine

open List RingBuffer TaggedStream

namespace SrvConn

open Function (update update_apply update_eq_self update_of_ne update_self)

variable {cap : ℕ} {ok : Op → Prop} {s s' : SrvConn} {t u : ℕ}

/-! ### The invariant -/

/-- The call still has the wake to deliver. -/
def Pc.Owes (w : Wake) : Pc → Prop
  | .waking ws _ => w ∈ ws
  | _ => False

/-- A wake is **owed** by a running call. -/
def Owed (s : SrvConn) (w : Wake) : Prop := ∃ u, (s.pc u).Owes w

/-- The call's hook is on the contenders' list of `c`. -/
def Pc.RoleListed (c : Dir) : Pc → Prop
  | .tsleep (.role q) => q.dir = c
  | .asleep (.role q) => q.dir = c
  | .roleLeave q _ => q.dir = c
  | _ => False

/-- The part of the invariant that is about call `t`. -/
structure Local (cap : ℕ) (s : SrvConn) (t : ℕ) : Prop where
  waiter : ∀ c w, s.waiter c w = some t ↔
    (∃ z, s.pc t = .asleep z ∧ z.rendez = some (c, w)) ∧ s.woken t = false
  roleHooks : ∀ c, t ∈ s.roleHooks c ↔ (s.pc t).RoleListed c
  pollHooks : t ∈ s.pollHooks ↔ (s.pc t).asks.isSome
  /-- A poller asleep has no flag. -/
  quiet : ∀ p, s.pc t = .asleep (.poll p) → s.woken t = false → s.ready t = false
  rose : (s.pc t).asks.isSome → s.rose t = true → s.ready t = true ∨ Owed s .poll
  blocked : ∀ z, s.pc t = .asleep z → s.woken t = false → s.cond cap t z = false ∨ Owed s z.queue

/-- The **invariant** of the wakeups. -/
structure Wakes (cap : ℕ) (s : SrvConn) : Prop where
  base : Base cap s
  alive : s.extinct = false
  roleNodup : ∀ c, (s.roleHooks c).Nodup
  pollNodup : s.pollHooks.Nodup
  calls : ∀ t, Local cap s t

/-! ### One call -/

variable {p : Pc} {c : Dir} {z : Sleep} {next : Next} {x : Hold} {w : Wake} {hooks : Dir → List ℕ}
  {l : List ℕ} {q : Blocking} {r : PollReq}

/-- The wake of the waiter of a channel's rendez. -/
def waiterWake (c : Dir) (w : Bool) : Wake := if w then .wrendez c else .rendez c

/-- The call is in the queue that the wake walks. -/
def queued (s : SrvConn) (u : ℕ) : Wake → Bool
  | .rendez c => s.waiter c false = some u
  | .wrendez c => s.waiter c true = some u
  | .role c => (s.roleHooks c).contains u
  | .poll => s.pollHooks.contains u

theorem Sleep.queue_of_rendez {b : Bool} : z.rendez = some (c, b) ↔ z.queue = waiterWake c b := by
  cases z with
  | role q | poll p => cases b <;> exact iff_of_false nofun nofun
  | body q =>
    change some (q.dir, q.writer) = some (c, b) ↔ waiterWake q.dir q.writer = waiterWake c b
    cases hw : q.writer <;> cases b <;> simp [waiterWake]

/-- A sleeper is in its sleep's queue, and in **no other**. -/
theorem Local.queued_iff (hl : Local cap s u) (hz : s.pc u = .asleep z)
    (hasleep : s.woken u = false) (w : Wake) : s.queued u w = true ↔ z.queue = w := by
  have hwaiter (c : Dir) (b : Bool) : s.waiter c b = some u ↔ z.queue = waiterWake c b := by
    rw [hl.waiter, ← Sleep.queue_of_rendez]
    constructor
    · rintro ⟨⟨z', hz', hr⟩, -⟩
      cases hz.symm.trans hz'
      exact hr
    · exact fun hr => ⟨⟨z, hz, hr⟩, hasleep⟩
  cases w with
  | rendez c => exact decide_eq_true_iff.trans (hwaiter c false)
  | wrendez c => exact decide_eq_true_iff.trans (hwaiter c true)
  | role c =>
    refine contains_iff_mem.trans ((hl.roleHooks c).trans ?_)
    rw [hz]
    cases z with
    | role => exact ⟨congrArg Wake.role, fun h => by cases h; rfl⟩
    | body q =>
      refine iff_of_false id ?_
      change waiterWake q.dir q.writer ≠ _
      cases q.writer <;> nofun
    | poll => exact iff_of_false id nofun
  | poll =>
    refine contains_iff_mem.trans (hl.pollHooks.trans ?_)
    rw [hz]
    cases z with
    | role => exact iff_of_false Bool.false_ne_true nofun
    | body q =>
      refine iff_of_false Bool.false_ne_true ?_
      change waiterWake q.dir q.writer ≠ _
      cases q.writer <;> nofun
    | poll => exact iff_of_true rfl rfl

theorem Local.listed (hl : Local cap s t) (hpc : s.pc t = p) :
    (∀ c, t ∈ s.roleHooks c ↔ p.RoleListed c) ∧ (t ∈ s.pollHooks ↔ p.asks.isSome) :=
  hpc ▸ ⟨hl.roleHooks, hl.pollHooks⟩

/-- A call that the step is not about. -/
theorem Local.frame (hl : Local cap s u) (hpc : s'.pc u = s.pc u)
    (hwoken : s'.woken u = s.woken u) (hready : s'.ready u = s.ready u)
    (hwaiter : ∀ c w, s'.waiter c w = some u ↔ s.waiter c w = some u)
    (hrole : ∀ c, u ∈ s'.roleHooks c ↔ u ∈ s.roleHooks c)
    (hpoll : u ∈ s'.pollHooks ↔ u ∈ s.pollHooks)
    (hrose : s'.rose u = true → s.rose u = true ∨ Owed s' .poll)
    (hcond : ∀ z, s.cond cap u z = false → s'.cond cap u z = false ∨ Owed s' z.queue)
    (howed : ∀ w, s.queued u w = true → Owed s w → Owed s' w) : Local cap s' u where
  waiter := fun c w => by
    rw [hpc, hwoken]
    exact (hwaiter c w).trans (hl.waiter c w)
  roleHooks := fun c => by
    rw [hpc]
    exact (hrole c).trans (hl.roleHooks c)
  pollHooks := by
    rw [hpc]
    exact hpoll.trans hl.pollHooks
  quiet := fun p hp hw => by
    rw [hpc] at hp
    rw [hwoken] at hw
    rw [hready]
    exact hl.quiet p hp hw
  rose := fun ha hr => by
    rw [hpc] at ha
    rw [hready]
    rcases hrose hr with hr | ho
    · exact (hl.rose ha hr).imp_right (howed .poll (contains_iff_mem.mpr (hl.pollHooks.mpr ha)))
    · exact .inr ho
  blocked := fun z hz hw => by
    rw [hpc] at hz
    rw [hwoken] at hw
    rcases hl.blocked z hz hw with hc | ho
    · exact hcond z hc
    · exact .inr (howed _ ((hl.queued_iff hz hw _).mpr rfl) ho)

/-- A call that is **awake**, or has been woken. -/
theorem Local.ofAwake (hself : s'.pc t = p) (hafter : ∀ z, p = .asleep z → s'.woken t = true)
    (hwaiter : ∀ c w, s'.waiter c w ≠ some t) (hrole : ∀ c, t ∈ s'.roleHooks c ↔ p.RoleListed c)
    (hpoll : t ∈ s'.pollHooks ↔ p.asks.isSome)
    (hrose : p.asks.isSome → s'.rose t = true → s'.ready t = true ∨ Owed s' .poll) :
    Local cap s' t := by
  subst hself
  have hwoken (z : Sleep) (hz : s'.pc t = .asleep z) : s'.woken t ≠ false := by
    rw [hafter z hz]
    nofun
  refine ⟨fun c w => iff_of_false (hwaiter c w) ?_, hrole, hpoll,
    fun p hp hw => absurd hw (hwoken _ hp), hrose, fun z hz hw => absurd hw (hwoken z hz)⟩
  rintro ⟨⟨z, hz, -⟩, hw⟩
  exact hwoken z hz hw

/-- A call awake or woken is nobody's waiter. -/
theorem Local.not_waiter (hl : Local cap s t) (hpc : s.pc t = p)
    (ht : ∀ z, p = .asleep z → s.woken t = true) (c : Dir) (w : Bool) :
    s.waiter c w ≠ some t := by
  intro hw
  obtain ⟨⟨z, hz, -⟩, hwoken⟩ := (hl.waiter c w).mp hw
  rw [ht z (hpc.symm.trans hz)] at hwoken
  cases hwoken

/-- A wake owed is still owed by its call, or by `t`. -/
theorem owed_of_update (hpc : s'.pc = update s.pc t p)
    (ht : (s.pc t).Owes w → p.Owes w) (h : Owed s w) : Owed s' w := by
  obtain ⟨u, hu⟩ := h
  refine ⟨u, ?_⟩
  rw [hpc]
  by_cases hut : u = t
  · subst hut
    rw [update_self]
    exact ht hu
  · rwa [update_of_ne hut]

/-- A step of a call awake before and after, which owes the wakes for what it makes true. -/
theorem Wakes.step (h : Wakes cap s) {x : Pc} (hx : s.pc t = x) (hbase : Base cap s')
    (hpc : s'.pc = update s.pc t p) (howes : ∀ w, x.Owes w → p.Owes w)
    (hrose : ∀ u, s'.rose u = true → s.rose u = true ∨ p.Owes .poll)
    (hcond : ∀ u z, s.cond cap u z = false → s'.cond cap u z = false ∨ p.Owes z.queue)
    (hafter : ∀ z, p ≠ .asleep z := by exact fun _ => nofun)
    (hlisted : ∀ c, p.RoleListed c ↔ x.RoleListed c := by exact fun _ => .rfl)
    (hasks : p.asks.isSome = x.asks.isSome := by rfl)
    (hbefore : ∀ z, x = .asleep z → s.woken t = true := by exact fun _ => nofun)
    (hqueues : s'.waiter = s.waiter ∧ s'.roleHooks = s.roleHooks ∧ s'.pollHooks = s.pollHooks :=
      by exact ⟨rfl, rfl, rfl⟩)
    (hflags : s'.ready = s.ready ∧ s'.woken = s.woken ∧ s'.extinct = s.extinct :=
      by exact ⟨rfl, rfl, rfl⟩) : Wakes cap s' := by
  subst hx
  obtain ⟨hwaiter, hrole, hpoll⟩ := hqueues
  obtain ⟨hready, hwoken, hext⟩ := hflags
  have hself : s'.pc t = p := by rw [hpc, update_self]
  have hmine (w : Wake) (hw : p.Owes w) : Owed s' w := ⟨t, by rwa [hself]⟩
  have howed (w : Wake) : Owed s w → Owed s' w := owed_of_update hpc (howes w)
  refine ⟨hbase, hext.trans h.alive, fun c => hrole ▸ h.roleNodup c, hpoll ▸ h.pollNodup,
    fun u => ?_⟩
  by_cases hut : u = t
  · subst hut
    have hl := h.calls u
    refine .ofAwake hself (fun z hz => absurd hz (hafter z)) (fun c w => ?_) (fun c => ?_) ?_
      fun ha hr => ?_
    · rw [hwaiter]
      exact hl.not_waiter rfl hbefore c w
    · rw [hrole]
      exact (hl.roleHooks c).trans (hlisted c).symm
    · rw [hpoll, hasks]
      exact hl.pollHooks
    · rw [hready]
      rcases hrose u hr with hr | ho
      · exact (hl.rose (hasks ▸ ha) hr).imp_right (howed .poll)
      · exact .inr (hmine .poll ho)
  · refine (h.calls u).frame (by rw [hpc, update_of_ne hut]) (by rw [hwoken])
      (by rw [hready]) (fun c w => by rw [hwaiter]) (fun c => by rw [hrole]) (by rw [hpoll])
      (fun hr => ?_) (fun z hz => ?_) fun w _ => howed w
    · exact (hrose u hr).imp_right (hmine .poll)
    · exact (hcond u z hz).imp_right (hmine _)

/-- A step that only moves a call. -/
theorem Wakes.goto (h : Wakes cap s) {x : Pc} (hx : s.pc t = x) (hbase : Base cap (s.goto t p))
    (hafter : ∀ z, p ≠ .asleep z := by exact fun _ => nofun)
    (hlisted : ∀ c, p.RoleListed c ↔ x.RoleListed c := by exact fun _ => .rfl)
    (hasks : p.asks.isSome = x.asks.isSome := by rfl)
    (hbefore : ∀ z, x = .asleep z → s.woken t = true := by exact fun _ => nofun)
    (howes : ∀ w, ¬x.Owes w := by exact fun _ => id) : Wakes cap (s.goto t p) :=
  h.step hx hbase rfl (fun w hw => absurd hw (howes w)) (fun _ => .inl)
    (fun _ z hz => .inl (by cases z <;> exact hz)) hafter hlisted hasks hbefore
    ⟨rfl, rfl, rfl⟩ ⟨rfl, rfl, rfl⟩

/-! ### Conditions -/

theorem rises_self (chan : Dir → Chan) (p : PollReq) : rises cap chan chan p = false := by
  refine any_eq_false.mpr fun e _ => ?_
  cases srvconnPoll cap chan p e <;> exact Bool.false_ne_true

/-- No events rise if the channels are as they were. -/
theorem rose_of_chan_eq {chan : Dir → Chan} (h : chan = s.chan)
    (hr : (s.setChans cap chan).rose u = true) : s.rose u = true := by
  subst h
  have hr' : (s.rose u || (s.pc u).asks.any (rises cap s.chan s.chan)) = true := hr
  have hnone : (s.pc u).asks.any (rises cap s.chan s.chan) = false := by
    cases (s.pc u).asks with
    | none => rfl
    | some p => exact rises_self s.chan p
  rwa [hnone, Bool.or_false] at hr'

/-- A hold makes a condition true only if it **owes** the wake. -/
theorem Hold.Ok.cond (h : x.Ok cap c (s.chan c)) (z : Sleep) (hz : s.cond cap u z = false) :
    (s.held cap t c x next).cond cap u z = false ∨ z.queue ∈ x.wakes := by
  set s' := s.held cap t c x next
  have hchan (c' : Dir) (hc : c' ≠ c) : s'.chan c' = s.chan c' := update_of_ne hc ..
  have hself : s'.chan c = x.ch := update_self ..
  have hcount := h.flow.count
  cases z with
  | role q =>
    left
    change (!(s'.chan q.dir).role q.writer) = false
    by_cases hc : q.dir = c
    · subst hc
      rw [hself, h.flow.role]
      exact hz
    · rw [hchan _ hc]
      exact hz
  | body q done =>
    by_cases hc : q.dir = c
    · subst hc
      cases q with
      | send c buf n =>
        -- the ring was full; it has room only if bytes came out
        have hz' : chanCondWritable cap (s.chan c) = false := hz
        change chanCondWritable cap (s'.chan c) = false ∨ Wake.wrendez c ∈ _
        by_cases htook : x.took = []
        · left
          rw [htook] at hcount
          rw [show s'.chan c = x.ch from hself]
          simp only [chanCondWritable, Bool.or_eq_false_iff, decide_eq_false_iff_not] at hz' ⊢
          refine ⟨?_, h.flow.eof.trans hz'.2⟩
          have hcount' : (s.chan c).ring.count + x.put.length = 0 + x.ch.ring.count := hcount
          omega
        · exact .inr (h.drain htook).1
      | recv c n =>
        have hz' : chanCondReadable (s.chan c) = false := hz
        change chanCondReadable (s'.chan c) = false ∨ Wake.rendez c ∈ _
        by_cases hput : x.put = []
        · left
          rw [hput] at hcount
          rw [show s'.chan c = x.ch from hself]
          simp only [chanCondReadable, Bool.or_eq_false_iff, decide_eq_false_iff_not] at hz' ⊢
          refine ⟨?_, h.flow.eof.trans hz'.2⟩
          have hcount' : (s.chan c).ring.count + 0 = x.took.length + x.ch.ring.count := hcount
          omega
        · exact .inr (h.fill hput).1
    · left
      simp only [SrvConn.cond, hchan _ hc] at hz ⊢
      exact hz
  | poll => exact .inl hz

/-- A hold makes events true only if it owes the pollers. -/
theorem Hold.Ok.rose (h : x.Ok cap c (s.chan c))
    (hr : (s.held cap t c x next).rose u = true) : s.rose u = true ∨ .poll ∈ x.wakes := by
  by_cases hput : x.put = []
  · by_cases htook : x.took = []
    · left
      refine rose_of_chan_eq ?_ hr
      rw [h.flow.still hput htook, update_eq_self]
    · exact .inr (h.drain htook).2
  · exact .inr (h.fill hput).2

theorem Wakes.held (h : Wakes cap s) {c : Dir} {x : Hold} {next : Next} {y : Pc} (hy : s.pc t = y)
    (hbase : Base cap (s.held cap t c x next)) (hx : x.Ok cap c (s.chan c))
    (hbefore : ∀ z, y ≠ .asleep z := by nofun)
    (hlisted : ∀ c, ¬y.RoleListed c := by exact fun _ => id)
    (hasks : y.asks = none := by rfl) (howes : ∀ w, ¬y.Owes w := by exact fun _ => id) :
    Wakes cap (s.held cap t c x next) :=
  h.step hy hbase (p := .waking x.wakes next) rfl (fun w hw => absurd hw (howes w))
    (fun _ hr => hx.rose hr) (fun _ z hz => hx.cond z hz) (fun _ => nofun)
    (fun c' => iff_of_false id (hlisted c')) (by rw [hasks]; rfl)
    (fun z hz => absurd hz (hbefore z)) ⟨rfl, rfl, rfl⟩ ⟨rfl, rfl, rfl⟩

/-- A role taken frees nobody; one released owes a wake. -/
theorem cond_setRole {w held : Bool} (z : Sleep) (hz : s.cond cap u z = false) :
    ((s.setRole c w held).goto t p).cond cap u z = false ∨ held = false ∧ z.queue = .role c := by
  cases z with
  | role q =>
    change (!((s.setRole c w held).chan q.dir).role q.writer) = false ∨ _
    rw [role_setRole_chan]
    split
    next hcw =>
      cases held with
      | true => exact .inl rfl
      | false => exact .inr ⟨rfl, congrArg Wake.role hcw.1⟩
    next => exact .inl hz
  | body q done =>
    obtain ⟨⟨hring, -⟩, heof⟩ := sameCounts_setRole s c q.dir w held
    left
    have hsame : ((s.setRole c w held).goto t p).cond cap u (.body q done) =
        s.cond cap u (.body q done) := by
      change (if q.writer then chanCondWritable cap ((s.setRole c w held).chan q.dir)
        else chanCondReadable ((s.setRole c w held).chan q.dir)) = _
      unfold chanCondWritable chanCondReadable
      rw [hring, heof]
      rfl
    rw [hsame]
    exact hz
  | poll => exact .inl hz

/-! ### Queues -/

/-- Call `t` goes to `p`, and the channels stay; `hself` is about its place in the queues. -/
theorem Wakes.turn (h : Wakes cap s) {x : Pc} (hx : s.pc t = x) (hbase : Base cap s')
    (hpc : s'.pc = update s.pc t p) (howes : ∀ w, x.Owes w → p.Owes w)
    (hchan : s'.chan = s.chan) (hext : s'.extinct = s.extinct)
    (hrole : ∀ c, (s'.roleHooks c).Nodup) (hpoll : s'.pollHooks.Nodup) (hself : Local cap s' t)
    (hflags : ∀ u, u ≠ t → s'.woken u = s.woken u ∧ s'.ready u = s.ready u ∧ s'.rose u = s.rose u)
    (hwaiter : ∀ u, u ≠ t → ∀ c w, s'.waiter c w = some u ↔ s.waiter c w = some u)
    (hhooks : ∀ u, u ≠ t → (∀ c, u ∈ s'.roleHooks c ↔ u ∈ s.roleHooks c) ∧
      (u ∈ s'.pollHooks ↔ u ∈ s.pollHooks)) : Wakes cap s' := by
  refine ⟨hbase, hext.trans h.alive, hrole, hpoll, fun u => ?_⟩
  by_cases hut : u = t
  · rwa [hut]
  obtain ⟨hwoken, hready, hrose⟩ := hflags u hut
  refine (h.calls u).frame (by rw [hpc, update_of_ne hut]) hwoken hready (hwaiter u hut)
    (hhooks u hut).1 (hhooks u hut).2 (fun hr => .inl (hrose ▸ hr)) (fun z hz => .inl ?_)
    fun w _ => owed_of_update hpc (hx ▸ howes w)
  cases z with
  | role q | body q done | poll p =>
    simp only [cond, hchan, hready] at hz ⊢
    exact hz

/-- One contenders' list changes, at call `t` alone. -/
theorem mem_update_hooks (h : u ∈ l ↔ u ∈ hooks c)
    (c' : Dir) : u ∈ update hooks c l c' ↔ u ∈ hooks c' := by
  by_cases hc : c' = c
  · subst hc
    rwa [update_self]
  · rw [update_of_ne hc]

theorem nodup_update_hooks (h : ∀ c, (hooks c).Nodup) (hl : l.Nodup) (c' : Dir) :
    (update hooks c l c').Nodup :=
  (Function.forall_update_iff hooks fun _ l => l.Nodup).mpr ⟨hl, fun c _ => h c⟩ c'

/-- A contender registers its hook. -/
theorem Wakes.contend (h : Wakes cap s) (hpc : s.pc t = .acquire q)
    (hbase : Base cap { s.goto t (.tsleep (.role q)) with
      roleHooks := update s.roleHooks q.dir (t :: s.roleHooks q.dir) }) :
    Wakes cap { s.goto t (.tsleep (.role q)) with
      roleHooks := update s.roleHooks q.dir (t :: s.roleHooks q.dir) } := by
  have hl := h.calls t
  obtain ⟨hrole, hpoll⟩ := hl.listed hpc
  refine h.turn hpc hbase rfl (fun _ => False.elim) rfl rfl
    (nodup_update_hooks h.roleNodup (nodup_cons.mpr ⟨(hrole _).mp, h.roleNodup _⟩)) h.pollNodup
    ?_ (fun _ _ => ⟨rfl, rfl, rfl⟩) (fun _ _ _ _ => .rfl)
    fun u hut => ⟨mem_update_hooks (mem_cons.trans (or_iff_right hut)), .rfl⟩
  refine .ofAwake (update_self ..) (fun _ => nofun)
    (hl.not_waiter hpc fun _ => nofun) (fun c => ?_) hpoll nofun
  change t ∈ update s.roleHooks q.dir (t :: s.roleHooks q.dir) c ↔ q.dir = c
  by_cases hc : c = q.dir
  · subst hc
    rw [update_self]
    exact iff_of_true mem_cons_self rfl
  · rw [update_of_ne hc]
    exact iff_of_false (hrole c).mp (Ne.symm hc)

section

variable (hafter : ∀ z, p ≠ .asleep z)
include hafter

/-- A contender takes its hook off the list. -/
theorem Wakes.roleLeave (h : Wakes cap s) {awoken : Bool} (hpc : s.pc t = .roleLeave q awoken)
    (hlisted : ∀ c, ¬p.RoleListed c) (hasks : p.asks = none)
    (hbase : Base cap ((s.unregisterRole t q.dir).goto t p)) :
    Wakes cap ((s.unregisterRole t q.dir).goto t p) := by
  have hl := h.calls t
  obtain ⟨hrole, hpoll⟩ := hl.listed hpc
  have heq : s.unregisterRole t q.dir =
      { s with roleHooks := update s.roleHooks q.dir ((s.roleHooks q.dir).erase t) } :=
    if_pos ((hrole q.dir).mpr rfl)
  rw [heq] at hbase ⊢
  refine h.turn hpc hbase rfl (fun _ => False.elim) rfl rfl
    (nodup_update_hooks h.roleNodup ((h.roleNodup _).erase t)) h.pollNodup ?_
    (fun _ _ => ⟨rfl, rfl, rfl⟩) (fun _ _ _ _ => .rfl)
    fun u hut => ⟨mem_update_hooks (mem_erase_of_ne hut), .rfl⟩
  refine .ofAwake (update_self ..) (fun z hz => absurd hz (hafter z))
    (hl.not_waiter hpc fun _ => nofun) (fun c => iff_of_false ?_ (hlisted c))
    (by rw [hasks]; exact hpoll) (by rw [hasks]; nofun)
  change t ∉ update s.roleHooks q.dir ((s.roleHooks q.dir).erase t) c
  by_cases hc : c = q.dir
  · subst hc
    rw [update_self]
    exact (h.roleNodup _).not_mem_erase
  · rw [update_of_ne hc, hrole]
    exact Ne.symm hc

/-- A poller registers its hook: nothing has risen since. -/
theorem Wakes.pollHook (h : Wakes cap s) (hpc : s.pc t = .polling r)
    (hlisted : ∀ c, ¬p.RoleListed c) (hasks : p.asks.isSome)
    (hbase : Base cap { s.goto t p with
      pollHooks := t :: s.pollHooks, rose := update s.rose t false }) :
    Wakes cap { s.goto t p with
      pollHooks := t :: s.pollHooks, rose := update s.rose t false } := by
  have hl := h.calls t
  obtain ⟨hrole, hpoll⟩ := hl.listed hpc
  refine h.turn hpc hbase rfl (fun _ => False.elim) rfl rfl h.roleNodup
    (nodup_cons.mpr ⟨fun hm => (nomatch hpoll.mp hm), h.pollNodup⟩) ?_
    (fun u hut => ⟨rfl, rfl, update_of_ne hut ..⟩) (fun _ _ _ _ => .rfl)
    fun u hut => ⟨fun _ => .rfl, mem_cons.trans (or_iff_right hut)⟩
  refine .ofAwake (update_self ..) (fun z hz => absurd hz (hafter z))
    (hl.not_waiter hpc fun _ => nofun) (fun c => iff_of_false (hrole c).mp (hlisted c))
    (iff_of_true mem_cons_self hasks) fun _ hr => ?_
  have hr' : update s.rose t false t = true := hr
  rw [update_self] at hr'
  cases hr'

/-- A poller takes its hook off the list. -/
theorem Wakes.pollLeave (h : Wakes cap s) (hpc : s.pc t = .pollLeave r)
    (hlisted : ∀ c, ¬p.RoleListed c) (hasks : p.asks = none)
    (hbase : Base cap ((s.unhookPoll t).goto t p)) : Wakes cap ((s.unhookPoll t).goto t p) := by
  have hl := h.calls t
  obtain ⟨hrole, hpoll⟩ := hl.listed hpc
  have heq : s.unhookPoll t =
      { s with pollHooks := s.pollHooks.erase t, ready := update s.ready t false } :=
    if_pos (hpoll.mpr rfl)
  rw [heq] at hbase ⊢
  refine h.turn hpc hbase rfl (fun _ => False.elim) rfl rfl h.roleNodup
    (h.pollNodup.erase t) ?_ (fun u hut => ⟨rfl, update_of_ne hut .., rfl⟩)
    (fun _ _ _ _ => .rfl) fun u hut => ⟨fun _ => .rfl, mem_erase_of_ne hut⟩
  refine .ofAwake (update_self ..) (fun z hz => absurd hz (hafter z))
    (hl.not_waiter hpc fun _ => nofun) (fun c => iff_of_false (hrole c).mp (hlisted c)) ?_
    (by rw [hasks]; nofun)
  rw [hasks]
  exact iff_of_false h.pollNodup.not_mem_erase Bool.false_ne_true

end

/-! ### Sleeping -/

theorem update_waiter (f : Dir → Bool → Option ℕ) (c c' : Dir) (w w' : Bool) (x : Option ℕ) :
    update f c (update (f c) w x) c' w' = if c' = c ∧ w' = w then x else f c' w' := by
  by_cases hc : c' = c
  · subst hc
    rw [update_self, update_apply]
    exact if_congr (by simp) rfl rfl
  · rw [update_of_ne hc, if_neg fun h => hc h.1]

theorem setWaiter_eq (s : SrvConn) (z : Sleep) (x : Option ℕ) : s.setWaiter z x =
      { s with waiter := fun c w => if z.rendez = some (c, w) then x else s.waiter c w } := by
  unfold setWaiter
  split
  next c' w' hz =>
    congr 1
    funext c w
    rw [update_waiter, hz]
    exact if_congr (by simp [eq_comm]) rfl rfl
  next hz => simp [hz]

theorem cond_congr (hchan : s'.chan = s.chan) (hready : s'.ready = s.ready) :
    s'.cond cap t z = s.cond cap t z := by
  cases z <;> simp only [cond, hchan, hready]

/-- A sleep's rendez changes between nobody and `t`. -/
theorem waiter_iff_of_ne {f : Dir → Bool → Option ℕ} {x : Option ℕ}
    (hold : ∀ c w, z.rendez = some (c, w) → f c w ≠ some u) (hnew : x ≠ some u) (c : Dir)
    (w : Bool) : (if z.rendez = some (c, w) then x else f c w) = some u ↔ f c w = some u := by
  split
  next hz => exact iff_of_false hnew (hold c w hz)
  next => exact .rfl

/-- `tsleep` finds its condition false, and **sleeps**. -/
theorem Wakes.tsleepBlocks (h : Wakes cap s) (hpc : s.pc t = .tsleep z)
    (hcond : s.cond cap t z = false) (hwaiter : s.waiterOf z = none)
    (hbase : Base cap { (s.setWaiter z (some t)).goto t (.asleep z) with
      woken := update s.woken t false }) :
    Wakes cap { (s.setWaiter z (some t)).goto t (.asleep z) with
      woken := update s.woken t false } := by
  rw [setWaiter_eq] at hbase ⊢
  have hl := h.calls t
  obtain ⟨hrole, hpoll⟩ := hl.listed hpc
  have hself : update s.pc t (.asleep z) t = .asleep z := update_self ..
  refine h.turn hpc hbase rfl (fun _ => id) rfl rfl h.roleNodup h.pollNodup ?_
    (fun u hut => ⟨update_of_ne hut .., rfl, rfl⟩)
    (fun u hut => waiter_iff_of_ne (fun c w hz => ?_) fun heq => hut (Option.some.inj heq).symm)
    fun _ _ => ⟨fun _ => .rfl, .rfl⟩
  · refine ⟨fun c w => ?_, fun c => ?_, ?_, fun p hp _ => ?_, fun ha hr => ?_, fun z' hz _ => ?_⟩
    · change (if z.rendez = some (c, w) then some t else s.waiter c w) = some t ↔
        (∃ z', update s.pc t (.asleep z) t = .asleep z' ∧ _) ∧ update s.woken t false t = false
      rw [hself, update_self]
      constructor
      · intro hw
        split at hw
        next hz => exact ⟨⟨z, rfl, hz⟩, rfl⟩
        next => exact absurd hw (hl.not_waiter hpc (fun _ => nofun) c w)
      · rintro ⟨⟨z', hz, hr⟩, -⟩
        cases hz
        rw [if_pos hr]
    · change _ ↔ (update s.pc t (.asleep z) t).RoleListed c
      rw [hself]
      cases z <;> exact hrole c
    · change _ ↔ (update s.pc t (.asleep z) t).asks.isSome
      rw [hself]
      cases z <;> exact hpoll
    · cases hself.symm.trans hp
      exact hcond
    · have ha' : (update s.pc t (.asleep z) t).asks.isSome := ha
      rw [hself] at ha'
      refine (hl.rose ?_ hr).imp_right (owed_of_update rfl (by rw [hpc]; exact id))
      rw [hpc]
      cases z <;> exact ha'
    · cases hself.symm.trans hz
      exact .inl ((cond_congr rfl rfl).trans hcond)
  · rw [waiterOf, hz] at hwaiter
    rw [show s.waiter c w = none from hwaiter]
    nofun

/-- The timer, or a note, wakes a call that is asleep. -/
theorem Wakes.interrupt (h : Wakes cap s) (hpc : s.pc t = .asleep z) (hasleep : s.woken t = false)
    (hbase : Base cap { s.setWaiter z none with woken := update s.woken t true }) :
    Wakes cap { s.setWaiter z none with woken := update s.woken t true } := by
  rw [setWaiter_eq] at hbase ⊢
  have hl := h.calls t
  have hpc' : s.pc = update s.pc t (.asleep z) := by rw [← hpc, update_eq_self]
  refine h.turn hpc hbase hpc' (fun _ => id) rfl rfl h.roleNodup h.pollNodup ?_
    (fun u hut => ⟨update_of_ne hut .., rfl, rfl⟩)
    (fun u hut => waiter_iff_of_ne (fun c w hz => ?_) nofun) fun _ _ => ⟨fun _ => .rfl, .rfl⟩
  · refine .ofAwake rfl (fun _ _ => update_self ..) (fun c w => ?_) hl.roleHooks hl.pollHooks
      fun ha hr => (hl.rose ha hr).imp_right (owed_of_update hpc' (by rw [hpc]; exact id))
    change (if z.rendez = some (c, w) then none else s.waiter c w) ≠ some t
    split
    next => nofun
    next hz =>
      intro hw
      obtain ⟨⟨z', hz', hr⟩, -⟩ := (hl.waiter c w).mp hw
      cases hpc.symm.trans hz'
      exact hz hr
  · rw [(hl.waiter c w).mpr ⟨⟨z, hpc, hz⟩, hasleep⟩]
    exact fun heq => hut (Option.some.inj heq).symm

/-- A rendez **never** has a second waiter: its waiter has the role. -/
theorem Wakes.waiterOf_eq_none (h : Wakes cap s) (hpc : s.pc t = .tsleep z) :
    s.waiterOf z = none := by
  cases z with
  | role | poll => rfl
  | body q =>
    by_contra hne
    obtain ⟨u, hu⟩ := Option.ne_none_iff_exists'.mp hne
    obtain ⟨⟨z, hz, hr⟩, -⟩ := ((h.calls u).waiter _ _).mp hu
    have hholds : (s.pc u).Holds q.dir q.writer := by
      rw [hz]
      cases z with
      | role q' | poll p => cases hr
      | body => exact Prod.mk.inj (Option.some.inj hr)
    have hmine : (s.pc t).Holds q.dir q.writer := by
      rw [hpc]
      exact ⟨rfl, rfl⟩
    have hut := h.base.roles.unique _ _ u t hholds hmine
    subst hut
    exact nomatch hpc.symm.trans hz

/-! ### Waking -/

theorem wakeWaiter_eq (s : SrvConn) (c : Dir) (b : Bool) : s.wakeWaiter c b = { s with
      waiter := fun c' b' => if c' = c ∧ b' = b then none else s.waiter c' b'
      woken := fun u => s.woken u || decide (s.waiter c b = some u) } := by
  unfold wakeWaiter
  split
  next v hv =>
    congr 1
    · funext c' b'
      exact update_waiter ..
    · funext u
      rw [hv]
      by_cases huv : u = v
      · simp [huv]
      · simp [huv, Ne.symm huv]
  next hnone =>
    have hwaiter : (fun c' b' => if c' = c ∧ b' = b then none else s.waiter c' b') = s.waiter := by
      funext c' b'
      split
      next hcb => rw [hcb.1, hcb.2, hnone]
      next => rfl
    simp [hwaiter, hnone]

theorem deliver_eq (s : SrvConn) (w : Wake) : s.deliver w = { s with
      waiter := fun c b => if w = waiterWake c b then none else s.waiter c b
      woken := fun u => s.woken u || s.queued u w
      ready := fun u => s.ready u || (decide (w = .poll) && s.queued u w) } := by
  cases w with
  | rendez c | wrendez c =>
    rw [deliver, wakeWaiter_eq]
    congr 1
    · funext c' b'
      refine if_congr ?_ rfl rfl
      cases b' <;> simp [waiterWake, eq_comm]
    · funext u
      simp
  | role c | poll =>
    rw [deliver]
    congr 1
    · funext c' b'
      cases b' <;> rfl
    all_goals
      funext u
      simp

/-- A wake is **delivered**: a sleeper of its queue is awake, the other wakes are owed. -/
theorem Wakes.wake (h : Wakes cap s) {ws : List Wake} (hpc : s.pc t = .waking (w :: ws) next)
    (hbase : Base cap ((s.deliver w).goto t (.waking ws next))) :
    Wakes cap ((s.deliver w).goto t (.waking ws next)) := by
  rw [deliver_eq] at hbase ⊢
  refine ⟨hbase, h.alive, h.roleNodup, h.pollNodup, fun u => ?_⟩
  have howed {s' : SrvConn} (hs' : s'.pc = update s.pc t (.waking ws next)) (w' : Wake)
      (hne : w' ≠ w) : Owed s w' → Owed s' w' :=
    owed_of_update hs' (by rw [hpc]; exact fun hm => (mem_cons.mp hm).resolve_left hne)
  have hl := h.calls u
  by_cases hut : u = t
  · subst hut
    obtain ⟨hrole, hpoll⟩ := hl.listed hpc
    refine .ofAwake (update_self ..) (fun _ => nofun) (fun c b => ?_) hrole hpoll nofun
    change (if w = waiterWake c b then none else s.waiter c b) ≠ some u
    split
    · nofun
    · exact hl.not_waiter hpc (fun _ => nofun) c b
  by_cases hq : s.queued u w = true
  · refine .ofAwake (update_of_ne hut ..) (fun _ _ => ?_) (fun c b hb => ?_) hl.roleHooks
      hl.pollHooks fun ha hr => ?_
    · change (s.woken u || s.queued u w) = true
      rw [hq, Bool.or_true]
    · change (if w = waiterWake c b then none else s.waiter c b) = some u at hb
      split at hb
      · cases hb
      next hne =>
        obtain ⟨⟨z, hz, hr⟩, hasleep⟩ := (hl.waiter c b).mp hb
        exact hne (((hl.queued_iff hz hasleep w).mp hq).symm.trans (Sleep.queue_of_rendez.mp hr))
    · change (s.ready u || (decide (w = .poll) && s.queued u w)) = true ∨ _
      by_cases hw : w = .poll
      · exact .inl (by simp [hw, hw ▸ hq])
      · exact (hl.rose ha hr).imp (fun hready => by simp [hready]) (howed rfl .poll (Ne.symm hw))
  · -- nothing of the call changes
    have hready : (s.ready u || (decide (w = .poll) && s.queued u w)) = s.ready u := by simp [hq]
    refine hl.frame (update_of_ne hut ..) (by simp [SrvConn.goto, hq]) hready (fun c b => ?_)
      (fun _ => .rfl) .rfl .inl (fun z hz => .inl ?_) fun w' hw' => howed rfl w' ?_
    · change (if w = waiterWake c b then none else s.waiter c b) = some u ↔ _
      split
      next heq =>
        refine iff_of_false nofun fun hb => hq ?_
        cases b <;> simpa [heq, waiterWake, queued] using hb
      next => exact .rfl
    · cases z with
      | role q | body q done => exact hz
      | poll => exact hready.trans hz
    · rintro rfl
      exact hq hw'

/-! ### Steps and runs -/

/-- `tsleep` returns: the call is awake, its hook as it was. -/
theorem Sleep.resume_awake (z : Sleep) (b : Bool) (z' : Sleep) : z.resume b ≠ .asleep z' := by
  cases z with
  | role | poll => nofun
  | body => cases b <;> nofun

theorem Sleep.roleListed_resume (z : Sleep) (b : Bool) (c : Dir) :
    (z.resume b).RoleListed c ↔ (Pc.tsleep z).RoleListed c := by
  cases z with
  | role | poll => exact .rfl
  | body => cases b <;> exact .rfl

theorem Sleep.asks_resume (z : Sleep) (b : Bool) : (z.resume b).asks = (Pc.tsleep z).asks := by
  cases z with
  | role | poll => rfl
  | body => cases b <;> rfl

/-- A call begins, or is refused. -/
theorem Wakes.enter (h : Wakes cap s) (hpc : s.pc t = .idle) {op : Op} {rc : Option ℤ}
    (hafter : ∀ z, p ≠ .asleep z) (hlisted : ∀ c, ¬p.RoleListed c) (hasks : p.asks = none)
    (hbase : Base cap (s.enter t op rc p)) : Wakes cap (s.enter t op rc p) := by
  cases rc with
  | none =>
    exact h.goto hpc hbase hafter (fun c => iff_of_false (hlisted c) id) (by rw [hasks]; rfl)
  | some => exact h.goto hpc hbase

/-- **Every step keeps the invariant.** -/
theorem Step.wakes (hstep : Step cap ok s s') (h : Wakes cap s) : Wakes cap s' := by
  have hbase := hstep.effect.base h.base
  cases hstep with
  | blocking t q hasBuf hpc hok | instant t q hasBuf hpc hok =>
    exact h.enter hpc (fun _ => nofun) (fun _ => id) rfl hbase
  | attempt t q hpc => exact h.held hpc hbase (q.hold_ok (h.base.ring _))
  | body t q done hpc => exact h.held hpc hbase (q.turn_ok (h.base.ring _) done)
  | acquire t q hpc =>
    refine h.step hpc hbase rfl (fun _ => id) (fun _ => .inl) fun u z hz => ?_
    exact (cond_setRole z hz).imp_right fun h => nomatch h.1
  | release t q ret hpc =>
    refine h.step hpc hbase rfl (fun _ => False.elim) (fun _ => .inl) fun u z hz => ?_
    exact (cond_setRole z hz).imp_right fun h => mem_singleton.mpr h.2
  | contend t q hpc => exact h.contend hpc hbase
  | tsleepReturns t z hpc =>
    exact h.goto hpc hbase (z.resume_awake true) (z.roleListed_resume true) (by rw [z.asks_resume])
  | tsleepInterrupted t z hpc =>
    exact h.goto hpc hbase (z.resume_awake false) (z.roleListed_resume false)
      (by rw [z.asks_resume])
  | tsleepBlocks t z hpc hcond hwaiter => exact h.tsleepBlocks hpc hcond hwaiter hbase
  | tsleepTaken t u z hpc hcond hwaiter =>
    rw [h.waiterOf_eq_none hpc] at hwaiter
    cases hwaiter
  | resumes t z hpc hwoken =>
    refine h.goto hpc hbase (fun _ => nofun) ?_ ?_ fun _ _ => hwoken
    · cases z <;> exact fun _ => .rfl
    · cases z <;> rfl
  | interrupt t z hpc hasleep => exact h.interrupt hpc hasleep hbase
  | roleLeave t q awoken hpc =>
    refine h.roleLeave ?_ hpc ?_ ?_ hbase <;> cases awoken
    all_goals first | exact fun _ => nofun | exact fun _ => id | rfl
  | wake t w ws next hpc => exact h.wake hpc hbase
  | woke t next hpc =>
    cases next <;> exact h.goto hpc hbase (fun _ => nofun) (fun _ => .rfl) rfl (fun _ => nofun)
      fun _ => not_mem_nil
  | teardown t hpc =>
    refine h.step hpc hbase rfl (fun _ => id) (fun _ => .inl) fun u z hz => .inl ?_
    rw [← hz]
    exact cond_congr rfl rfl
  | teardownAgain t hpc htorn | poll t p hpc | pollSample t p hpc => exact h.goto hpc hbase
  | latch t hpc =>
    refine h.step hpc hbase rfl (fun _ => False.elim) (fun _ _ => .inr ?_) fun u z hz => ?_
    · change Wake.poll ∈ teardownWakes
      decide
    · -- the latch makes the conditions of data and room true, and walks every queue
      cases z with
      | role | poll => exact .inl hz
      | body q done =>
        right
        change waiterWake q.dir q.writer ∈ teardownWakes
        cases q.writer <;> cases q.dir <;> decide
  | pollHook t p hpc leave hleave =>
    refine h.pollHook ?_ hpc ?_ ?_ hbase <;> cases leave
    all_goals first | exact fun _ => nofun | exact fun _ => id | rfl
  | pollLeave t p again hpc =>
    refine h.pollLeave ?_ hpc ?_ ?_ hbase <;> cases again
    all_goals first | exact fun _ => nofun | exact fun _ => id | rfl

theorem create_wakes (hcap : 0 < cap) : Wakes cap create where
  base := create_base hcap
  alive := rfl
  roleNodup := fun _ => .nil
  pollNodup := .nil
  calls := fun _ => .ofAwake rfl (fun _ => nofun) (fun _ _ => nofun)
    (fun _ => iff_of_false not_mem_nil id) (iff_of_false not_mem_nil Bool.false_ne_true)
    nofun

theorem Steps.wakes (hrun : Steps cap ok s s') (h : Wakes cap s) : Wakes cap s' := by
  induction hrun with
  | refl => exact h
  | tail _ hstep ih => exact hstep.wakes ih

/-! ### The result -/

/-- The call is asleep, and nobody has woken it. -/
def Asleep (s : SrvConn) (t : ℕ) (z : Sleep) : Prop := s.pc t = .asleep z ∧ s.woken t = false

/-- **No lost wakeup**, in every state of every run of all the calls.

* A rendez of a channel has one sleeper at most, and no call finds it taken.
* A reader asleep finds the ring empty and no end of file; a writer asleep finds it full and no end
  of file; a contender asleep finds the role held; for a poller asleep no event that it asked for
  has become true since it put its hook on the list. Or else another call is running that still
  owes the wake. -/
theorem srvconn_no_lost_wakeup (m : Msize) (s : SrvConn)
    (hrun : Steps m.cap (fun _ => True) create s) :
    (∀ t u z z' c w, s.Asleep t z → s.Asleep u z' → z.rendez = some (c, w) →
      z'.rendez = some (c, w) → t = u) ∧ s.extinct = false ∧
    (∀ t c n done, s.Asleep t (.body (.recv c n) done) →
      ((s.chan c).ring.count = 0 ∧ (s.chan c).eof = false) ∨ Owed s (.rendez c)) ∧
    (∀ t c buf n done, s.Asleep t (.body (.send c buf n) done) →
      ((s.chan c).ring.count = m.cap ∧ (s.chan c).eof = false) ∨ Owed s (.wrendez c)) ∧
    (∀ t q, s.Asleep t (.role q) → (s.chan q.dir).role q.writer = true ∨ Owed s (.role q.dir)) ∧
    ∀ t p, s.Asleep t (.poll p) → s.rose t = false ∨ Owed s .poll := by
  have h := hrun.wakes (create_wakes m.cap_pos)
  refine ⟨fun t u z z' c w hz hz' hr hr' => ?_, h.alive, ?_, ?_, ?_, ?_⟩
  · have ht := ((h.calls t).waiter c w).mpr ⟨⟨z, hz.1, hr⟩, hz.2⟩
    have hu := ((h.calls u).waiter c w).mpr ⟨⟨z', hz'.1, hr'⟩, hz'.2⟩
    exact Option.some.inj (ht.symm.trans hu)
  · intro t c n done hz
    refine ((h.calls t).blocked _ hz.1 hz.2).imp_left fun hc => ?_
    have hc' : chanCondReadable (s.chan c) = false := hc
    simp only [chanCondReadable, Bool.or_eq_false_iff, decide_eq_false_iff_not] at hc'
    exact ⟨Nat.eq_zero_of_not_pos hc'.1, hc'.2⟩
  · intro t c buf n done hz
    refine ((h.calls t).blocked _ hz.1 hz.2).imp_left fun hc => ?_
    have hc' : chanCondWritable m.cap (s.chan c) = false := hc
    simp only [chanCondWritable, Bool.or_eq_false_iff, decide_eq_false_iff_not] at hc'
    have hle := (h.base.ring c).count_le
    exact ⟨Nat.le_antisymm hle (Nat.le_of_not_lt hc'.1), hc'.2⟩
  · intro t q hz
    refine ((h.calls t).blocked _ hz.1 hz.2).imp_left fun hc => ?_
    have hc' : (!(s.chan q.dir).role q.writer) = false := hc
    rwa [Bool.not_eq_false'] at hc'
  · intro t p hz
    have hl := h.calls t
    cases hr : s.rose t with
    | false => exact .inl rfl
    | true =>
      right
      refine (hl.rose ?_ hr).resolve_left fun hready => ?_
      · rw [hz.1]
        rfl
      · rw [hl.quiet p hz.1 hz.2] at hready
        cases hready

/-- A client waits for a byte. -/
def recvOne : Blocking := .recv .s2c 1

/-- A server sends a byte. -/
def sendOne : Instant := .send .s2c (fun _ => 65) 1

/-- The client is asleep when the byte is in the ring. -/
theorem recvOne_run : ∃ s, Steps Msize.default.cap (fun _ => True) create s ∧
    s.Asleep 0 (.body recvOne 0) ∧ (s.chan .s2c).ring.count = 1 := by
  refine ⟨_, .tail (.tail (.tail (.tail (.tail (.tail (.tail .refl
    (.blocking 0 recvOne true rfl trivial))
    (.acquire 0 recvOne rfl rfl))
    (.body 0 recvOne 0 rfl))
    (.woke 0 (.sleep recvOne 0) rfl))
    (.tsleepBlocks 0 (.body recvOne 0) rfl rfl rfl))
    (.instant 1 sendOne true rfl trivial))
    (.attempt 1 sendOne rfl), ⟨rfl, rfl⟩, rfl⟩

theorem srvconn_no_lost_wakeup_recv : ∃ s, Steps Msize.default.cap (fun _ => True) create s ∧
    s.Asleep 0 (.body recvOne 0) ∧ (s.chan .s2c).ring.count = 1 ∧ Owed s (.rendez .s2c) := by
  obtain ⟨s, hrun, hz, hcount⟩ := recvOne_run
  refine ⟨s, hrun, hz, hcount, ?_⟩
  rcases (srvconn_no_lost_wakeup .default s hrun).2.2.1 0 .s2c 1 0 hz with ⟨hempty, -⟩ | howed
  · rw [hcount] at hempty
    cases hempty
  · exact howed

end SrvConn

end Thylacine
