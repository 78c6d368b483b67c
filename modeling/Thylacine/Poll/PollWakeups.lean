import Thylacine.Poll.PollBalance

/-!
# Poll Sleeps Through Nothing

One call of poll over local descriptors, together with the objects it polls: each object has its
**level**, the events that are true of it, and a list of hooks, which other pollers share. A device
samples and hooks in one step. A producer that makes an event true **owes** the walk of the list.
An entry whose waiter is listed has heard of every event it asks for: its sample shows it, its flag
is set, or the walk is still owed (`Entry.Heard`).

## Main results

* `poll_hears`: a call that is asleep has a flag or is owed a walk while an event it asks for is
  true, and a flag sends it round to hook again, never home.
-/

namespace Thylacine

open Function (update update_apply)

namespace Poll

open Custody PollCall

variable {a : Args} {c c' : PollCall} {act : Act} {i j : ℕ}

/-! ### The objects -/

/-- A hook: of the call's descriptor `i`, or of another poller. -/
inductive Hook
  | mine (i : ℕ)
  | other (k : ℕ)
  deriving DecidableEq

/-- A call, and the objects around it. -/
structure Sys where
  call : PollCall
  level : ℕ → Events := fun _ => 0
  hooks : ℕ → List Hook := fun _ => []
  /-- The number of walks that producers have still to make. -/
  owed : ℕ → ℕ := fun _ => 0

/-- The waiters of the call among the hooks. -/
def mineOf (l : List Hook) : List ℕ :=
  l.filterMap fun
    | .mine i => some i
    | .other _ => none

/-- The events that a poll of descriptor `i` reports. -/
def asked (a : Args) (i : ℕ) : Events := a.events i ||| outputOnly

/-- A step of the call, a producer or another poller. -/
inductive SysStep (a : Args) (s : Sys) : Sys → Prop
  | call {c : PollCall} (h : Step a s.call .tau c) : SysStep a s { s with call := c }
  /-- The device samples the level, and hooks the waiter unless the pass began past the deadline. -/
  | sample {i o : ℕ} {hook : Bool} {c : PollCall}
      (h : Step a s.call (.sample i o hook (s.level o &&& asked a i)) c)
      (hhook : hook = !s.call.expired) :
      SysStep a s { s with
        call := c
        hooks := if hook then update s.hooks o (.mine i :: s.hooks o) else s.hooks }
  /-- `poll_waiter_list_unregister`. -/
  | unlist {i : ℕ} {c : PollCall} (h : Step a s.call (.unlist i) c) :
      SysStep a s { s with call := c, hooks := fun o => (s.hooks o).erase (.mine i) }
  | change (o : ℕ) (lvl : Events) :
      SysStep a s { s with
        level := update s.level o lvl
        owed := if lvl &&& ~~~s.level o = 0 then s.owed
          else update s.owed o (s.owed o + 1) }
  /-- `poll_waiter_list_wake`. -/
  | wake {c : PollCall} (o : ℕ) (h : Step a s.call (.wake (mineOf (s.hooks o))) c) :
      SysStep a s { s with call := c, owed := update s.owed o (s.owed o - 1) }
  | join (o k : ℕ) (h : .other k ∉ s.hooks o) :
      SysStep a s { s with hooks := update s.hooks o (.other k :: s.hooks o) }
  | leave (o k : ℕ) :
      SysStep a s { s with hooks := update s.hooks o ((s.hooks o).erase (.other k)) }

/-- A **run** of the call among the others. -/
def SysSteps (a : Args) : Sys → Sys → Prop := Relation.ReflTransGen (SysStep a)

/-! ### What an entry has heard -/

/-- The sample shows every event asked for. -/
def Sees (level req rev : Events) : Prop :=
  ∀ b, level.getLsbD b = true → req.getLsbD b = true → rev.getLsbD b = true

/-- A listed waiter has **heard** of every event asked for, or will. -/
def Entry.Heard (s : Sys) (req : Events) (e : Entry) : Prop :=
  ∀ o, e.list = some o → e.ready = true ∨ 0 < s.owed o ∨ Sees (s.level o) req e.revents

/-- The waiter is on the sampled object's list; without one there is an event, or none asked for. -/
@[grind =]
def Entry.Placed (req : Events) (expired : Bool) (e : Entry) : Prop :=
  (∀ o, e.polled = some o → expired = false → e.list = some o) ∧
    (e.polled = none → e.revents = 0 → req &&& requestable = 0)

/-- The place of entry `j`, by the program counter. -/
@[grind =]
def Entry.In (req : Events) (expired : Bool) (j : ℕ) (e : Entry) : Pc → Prop
  | .scan i => j < i → e.Placed req expired
  | .polling i => (j < i → e.Placed req expired) ∧ (j = i → e.polled = none)
  | .keep i => j ≤ i → e.Placed req expired
  | .releasing none _ | .collect | .verdict => e.Placed req expired
  | .park | .asleep => e.Placed req expired ∧ e.revents = 0 ∧ expired = false
  | .pass | .between => e.ready = false
  | _ => True

variable {s s' : Sys} {req : Events} {now : ℕ}

/-- A flag is set while the waiter is listed; no place says that it is clear. -/
theorem Entry.In.flagged {cur : Option Ref} {x : Bool} {e : Entry} {pc : Pc}
    (h : e.In req x j pc) (hat : e.At cur x j pc) (hlist : e.list ≠ none) :
    ({ e with ready := true } : Entry).In req x j pc := by
  cases pc with
  | releasing sweep i => cases sweep <;> grind
  | _ => grind

/-- Where a call without remote descriptors can be. -/
@[grind =]
def Pc.Local : Pc → Prop
  | .settleTop | .settle _ _ | .expiring _ _ | .settleSleep | .arm _ => False
  | _ => True

namespace PollCall

/-- A call over **local** descriptors, and its entries' places. -/
structure Quiet (a : Args) (c : PollCall) : Prop where
  snap : ∀ j, (c.ent j).snap = {}
  noRemote : c.anyRemote = false
  pc : c.pc.Local
  late : c.expired = true → pollExpired a.timeoutMs c.deadline c.now = true
  places : ∀ j < a.nfds, (c.ent j).In (a.events j) c.expired j c.pc

theorem pollNval_ne : pollNval ≠ 0 := by decide

/-- Entry `i` of the places is written to. -/
theorem Quiet.write (h : Quiet a c) {x : Entry} (hent : c'.ent = (c.set i x).ent)
    (hx : x.snap = {}) (hself : i < a.nfds → (c.ent i).In (a.events i) c.expired i c.pc →
      x.In (a.events i) c'.expired i c'.pc)
    (hne : ∀ (e : Entry) (j : ℕ), j ≠ i → e.In (a.events j) c.expired j c.pc →
      e.In (a.events j) c'.expired j c'.pc)
    (hany : c'.anyRemote = c.anyRemote) (hpc : c'.pc.Local) (hexp : c'.expired = c.expired)
    (hdl : c'.deadline = c.deadline) (hnow : c'.now = c.now) : Quiet a c' := by
  refine ⟨fun j => ?_, hany.trans h.noRemote, hpc, ?_, fun j hj => ?_⟩
  · rw [hent]
    rcases eq_or_ne j i with rfl | hji
    · rwa [ent_set_self]
    · rw [ent_set_of_ne x hji]
      exact h.snap j
  · rw [hexp, hdl, hnow]
    exact h.late
  · rw [hent]
    rcases eq_or_ne j i with rfl | hji
    · rw [ent_set_self]
      exact hself hj (h.places j hj)
    · rw [ent_set_of_ne x hji]
      exact hne _ j hji (h.places j hj)

/-- The call moves, and its arrays stay. -/
theorem Quiet.move (h : Quiet a c) (hent : c'.ent = c.ent) (hany : c'.anyRemote = c.anyRemote)
    (hpc : c'.pc.Local) (hexp : c'.expired = c.expired) (hdl : c'.deadline = c.deadline)
    (hnow : c'.now = c.now) (hmove : ∀ j < a.nfds, (c.ent j).In (a.events j) c.expired j c.pc →
      (c.ent j).In (a.events j) c'.expired j c'.pc) : Quiet a c' := by
  refine ⟨by rw [hent]; exact h.snap, hany.trans h.noRemote, hpc, ?_, fun j hj => ?_⟩
  · rw [hexp, hdl, hnow]
    exact h.late
  · rw [hent]
    exact hmove j hj (h.places j hj)

end PollCall

open PollCall

/-- A **step** over local descriptors keeps the places. -/
theorem Step.quiet (hstep : Step a c act c') (h : Quiet a c) (hinv : Inv a c)
    (hact : act ≠ .remote) (hhook : ∀ i o hook ev, act = .sample i o hook ev → hook = !c.expired) :
    Quiet a c' := by
  have hlocal := h.pc
  have hno := h.noRemote
  cases hstep
  case pass hpc => exact ⟨h.snap, rfl, trivial, id, fun j hj => nofun⟩
  case outlived hpc hi hop => grind [h.snap]
  case invalid i hpc hi hop =>
    exact h.write rfl rfl (by grind [pollNval_ne]) (by grind) rfl trivial rfl rfl rfl
  case get i r hpc hi hop hfd hnew =>
    exact h.write rfl rfl (by grind) (by grind) rfl trivial rfl rfl rfl
  case malformed i r hpc hcur hkind | noReadiness i r k hpc hcur hkind =>
    exact h.write rfl (h.snap i) (by grind [pollNval_ne]) (by grind) rfl trivial rfl rfl rfl
  case regular i r hpc hcur hkind | unlist l i hpc hi =>
    exact h.write rfl (h.snap i) (by grind) (by grind) rfl trivial rfl rfl rfl
  case snapshot => exact absurd rfl hact
  case sample i r ev hpc hcur hkind =>
    exact h.write rfl (h.snap i) (by grind) (by grind) rfl trivial rfl rfl rfl
  case hook i r ev hpc hcur hkind hexp =>
    have hent := hinv.entries i (by grind [hinv.books.hand])
    have hnone : (c.ent i).list = none := by grind
    rw [register_of_unlisted (by rw [ent_set_self]; exact hnone), ent_set_self, set_set]
    exact h.write rfl (h.snap i) (by grind) (by grind) rfl trivial rfl rfl rfl
  case keep i r hpc hcur =>
    unfold keepOrPut
    split
    · exact h.write rfl (h.snap i) (by grind) (by grind) (by grind [h.snap i]) trivial rfl rfl rfl
    · exact h.move rfl (by grind) trivial rfl rfl rfl (by grind)
  case scanned hpc => exact h.move rfl rfl (by grind) rfl rfl rfl (by grind)
  case release sweep i hpc hi =>
    have hself : c.release i = c := by
      unfold PollCall.release
      rw [h.snap i]
      rfl
    rw [hself]
    exact h.move rfl rfl trivial rfl rfl rfl (by cases sweep <;> grind)
  case released hpc | blocks hpc hflag | awoken hpc hflag | timedOut hpc hdl |
      interrupted hpc hdie | dies hpc hdie | noteIntr hpc hflag hnote | sweep r hpc |
      unlisted l hpc | allPut l hpc | goesRound hpc hdie =>
    exact h.move rfl rfl trivial rfl rfl rfl (by grind)
  case collect hpc =>
    have hself (j : ℕ) : (c.ent j).collected = c.ent j := by grind [h.snap j]
    simp only [hself]
    exact h.move rfl rfl trivial rfl rfl rfl (by grind)
  case verdict hpc =>
    have hctl := hinv.ctl
    have hzero (hz : countReady a c.ent = 0) (j : ℕ) (hj : j < a.nfds) : (c.ent j).revents = 0 := by
      simpa using List.countP_eq_zero.mp hz j (List.mem_range.mpr hj)
    have hlate := h.late
    unfold PollCall.decide
    split_ifs
    · exact h.move rfl rfl trivial rfl rfl rfl (by grind)
    · exact h.move rfl rfl trivial rfl rfl rfl (by grind)
    · exact h.move rfl rfl trivial rfl rfl rfl (by grind)
    · grind
    · exact h.move rfl rfl trivial rfl rfl rfl (by grind)
  case put l i hpc hi =>
    unfold handlePut
    split
    · exact h.move rfl rfl trivial rfl rfl rfl (by grind)
    · exact h.write rfl (h.snap i) (by grind) (by grind) rfl trivial rfl rfl rfl
  case clear l hpc =>
    refine ⟨fun j => by grind [h.snap j], hno, by cases l <;> trivial, h.late, fun j hj => ?_⟩
    cases l <;> grind
  case answer i ev hi hop hsent => grind [h.snap i]
  case wake l hl =>
    refine ⟨fun j => by grind [h.snap j], hno, hlocal, h.late, fun j hj => ?_⟩
    dsimp only
    split
    · next hjl => exact (h.places j hj).flagged (hinv.entries j hj) (hl j hjl)
    · exact h.places j hj
  case tick now hnow =>
    exact ⟨h.snap, hno, hlocal, fun hexp => pollExpired_mono hnow (h.late hexp), h.places⟩
  case signals => exact ⟨h.snap, hno, hlocal, h.late, h.places⟩
  all_goals grind

/-! ### The call among the objects -/

/-- The call leaves the lists, and a listed entry's flag. -/
theorem Step.listed_tau (hstep : Step a c .tau c') (h : Quiet a c) (hinv : Inv a c) (j : ℕ) :
    (c'.ent j).list = (c.ent j).list ∧ ((c.ent j).list = none ∨
      ((c'.ent j).ready = (c.ent j).ready ∧ (c'.ent j).revents = (c.ent j).revents)) := by
  have hself (i : ℕ) (x : Entry) (hx : x.list = (c.ent i).list)
      (hr : (c.ent i).list = none ∨ (x.ready = (c.ent i).ready ∧ x.revents = (c.ent i).revents)) :
      ((c.set i x).ent j).list = (c.ent j).list ∧ ((c.ent j).list = none ∨
        (((c.set i x).ent j).ready = (c.ent j).ready ∧
          ((c.set i x).ent j).revents = (c.ent j).revents)) := by
    rcases eq_or_ne j i with rfl | hji
    · rw [ent_set_self]
      exact ⟨hx, hr⟩
    · rw [ent_set_of_ne x hji]
      exact ⟨rfl, .inr ⟨rfl, rfl⟩⟩
  have hsnap := h.snap
  cases hstep
  case invalid i hpc hi hop | get i r hpc hi hop _ _ =>
    exact hself i _ rfl (.inl (by grind [hinv.entries i hi]))
  case malformed i r hpc _ _ | regular i r hpc _ _ | noReadiness i r k hpc _ _ =>
    have hi : i < a.nfds := by grind [hinv.books.hand]
    exact hself i _ rfl (.inl (by grind [hinv.entries i hi]))
  case keep i r hpc hcur =>
    unfold keepOrPut
    split
    · exact hself i _ rfl (.inr ⟨rfl, rfl⟩)
    · exact ⟨rfl, .inr ⟨rfl, rfl⟩⟩
  case settleLate | settleExpire => grind
  case release sweep i hpc hi =>
    unfold PollCall.release
    rw [hsnap i]
    exact ⟨rfl, .inr ⟨rfl, rfl⟩⟩
  case collect hpc => grind
  case verdict hpc =>
    unfold PollCall.decide
    split_ifs <;> exact ⟨rfl, .inr ⟨rfl, rfl⟩⟩
  case put l i hpc hi =>
    unfold handlePut
    split
    · exact ⟨rfl, .inr ⟨rfl, rfl⟩⟩
    · exact hself i _ rfl (.inr ⟨rfl, rfl⟩)
  case clear l hpc =>
    have hent := hinv.entries j
    grind
  case answer i ev hi hop hsent => grind
  all_goals exact ⟨rfl, .inr ⟨rfl, rfl⟩⟩

/-- The **invariant** of the call among the objects. -/
structure SysInv (a : Args) (s : Sys) : Prop where
  inv : Inv a s.call
  quiet : Quiet a s.call
  links : ∀ i o, .mine i ∈ s.hooks o ↔ (s.call.ent i).list = some o
  nodup : ∀ o, (s.hooks o).Nodup
  heard : ∀ j < a.nfds, (s.call.ent j).Heard s (asked a j)

theorem mem_mineOf {l : List Hook} : i ∈ mineOf l ↔ .mine i ∈ l := by
  unfold mineOf
  rw [List.mem_filterMap]
  constructor
  · rintro ⟨h, hl, hi⟩
    cases h with
    | mine k => cases hi; exact hl
    | other k => cases hi
  · exact fun hl => ⟨_, hl, rfl⟩

/-- What was true stays seen when nothing **rises**. -/
theorem Sees.of_not_rising {level level' rev : Events} (h : Sees level req rev)
    (hrise : level' &&& ~~~level = 0) : Sees level' req rev := by
  intro b hb hr
  have hbit : (level' &&& ~~~level).getLsbD b = false := by
    rw [hrise]
    exact BitVec.getLsbD_zero
  rw [BitVec.getLsbD_and, BitVec.getLsbD_not, hb, Bool.true_and,
    decide_eq_true (BitVec.lt_of_getLsbD hb), Bool.true_and, Bool.not_eq_false'] at hbit
  exact h b hbit hr

/-- Entry `i` is written, and its hook where it says. -/
theorem SysInv.write (h : SysInv a s) {x : Entry}
    (hent : s'.call.ent = (s.call.set i x).ent) (hinv : Inv a s'.call) (hquiet : Quiet a s'.call)
    (hlevel : s'.level = s.level) (howed : s'.owed = s.owed) (hnodup : ∀ o, (s'.hooks o).Nodup)
    (hother : ∀ j, j ≠ i → ∀ o, .mine j ∈ s'.hooks o ↔ .mine j ∈ s.hooks o)
    (hself : ∀ o, .mine i ∈ s'.hooks o ↔ x.list = some o) (hheard : x.Heard s (asked a i)) :
    SysInv a s' := by
  refine ⟨hinv, hquiet, fun j o => ?_, hnodup, fun j hj => ?_⟩
  · rw [hent]
    rcases eq_or_ne j i with rfl | hji
    · rw [ent_set_self]
      exact hself o
    · rw [ent_set_of_ne x hji]
      exact (hother j hji o).trans (h.links j o)
  · rw [hent]
    unfold Entry.Heard
    rw [hlevel, howed]
    rcases eq_or_ne j i with rfl | hji
    · rw [ent_set_self]
      exact hheard
    · rw [ent_set_of_ne x hji]
      exact h.heard j hj

/-- **Every step keeps the invariant.** -/
theorem SysStep.inv (hstep : SysStep a s s') (h : SysInv a s) : SysInv a s' := by
  have hlinks := h.links
  have hnodup := h.nodup
  cases hstep
  case call c hc =>
    have hframe := hc.listed_tau h.quiet h.inv
    refine ⟨hc.inv h.inv, hc.quiet h.quiet h.inv nofun nofun, fun i o => ?_, hnodup,
      fun j hj o ho => ?_⟩
    · exact (hlinks i o).trans (by rw [(hframe i).1])
    · have hold := h.heard j hj o ((hframe j).1 ▸ ho)
      grind
  case sample i o hook c hc hhook =>
    have hinv := hc.inv h.inv
    have hquiet := hc.quiet h.quiet h.inv nofun (by grind)
    have hi : i < a.nfds := by
      have := h.inv.books.hand
      cases hc <;> grind
    have hnone : (s.call.ent i).list = none := by
      have := h.inv.entries i hi
      cases hc <;> grind
    cases hc
    case sample r hpc hcur hkind =>
      exact h.write rfl hinv hquiet rfl rfl hnodup (fun _ _ _ => .rfl) (hlinks i)
        fun o ho => nomatch hnone.symm.trans ho
    case hook r hpc hcur hkind hexp =>
      rw [register_of_unlisted (by rw [ent_set_self]; exact hnone), ent_set_self, set_set]
        at hinv hquiet ⊢
      refine h.write rfl hinv hquiet rfl rfl (fun o => ?_) (fun j hji o => ?_) (fun o => ?_) ?_
      · grind
      · grind
      · grind
      · rintro o ⟨⟩
        exact .inr (.inr fun b hl hr => by rw [BitVec.getLsbD_and, hl, hr]; rfl)
  case unlist i c hc =>
    have hinv := hc.inv h.inv
    have hquiet := hc.quiet h.quiet h.inv nofun nofun
    cases hc
    case unlist l hpc hi =>
      refine h.write rfl hinv hquiet rfl rfl (fun o => (hnodup o).erase _) (fun j hji o => ?_)
        (fun o => ?_) nofun
      · exact List.mem_erase_of_ne fun heq => hji (Hook.mine.inj heq)
      · exact iff_of_false (hnodup o).not_mem_erase nofun
  case change o lvl =>
    refine ⟨h.inv, h.quiet, hlinks, hnodup, fun j hj o' ho => ?_⟩
    have hold := h.heard j hj o' ho
    have hrise (h0 : lvl &&& ~~~s.level o = 0)
        (hs : Sees (s.level o) (asked a j) (s.call.ent j).revents) := hs.of_not_rising h0
    grind
  case wake c o hc =>
    have hinv := hc.inv h.inv
    have hquiet := hc.quiet h.quiet h.inv nofun nofun
    cases hc
    case wake hl =>
      refine ⟨hinv, hquiet, fun j o' => ?_, hnodup, fun j hj o' ho => ?_⟩
      · grind
      · have hold := h.heard j hj o'
        grind [mem_mineOf]
  case join o k hk =>
    refine ⟨h.inv, h.quiet, fun i o' => ?_, fun o' => ?_, h.heard⟩
    · grind
    · grind
  case leave o k =>
    refine ⟨h.inv, h.quiet, fun i o' => ?_, fun o' => ?_, h.heard⟩
    · grind
    · grind

/-- The call enters the kernel, among events and other pollers. -/
structure Sys.Start (a : Args) (now : ℕ) (s : Sys) : Prop where
  call : s.call = sysPoll a now
  nodup : ∀ o, (s.hooks o).Nodup
  others : ∀ i o, .mine i ∉ s.hooks o

theorem Sys.Start.inv (h : s.Start a now) : SysInv a s := by
  have hent (j : ℕ) : s.call.ent j = { revents := a.revents j } := by rw [h.call]; rfl
  refine ⟨h.call ▸ inv_sysPoll a now, ?_, fun i o => ?_, h.nodup, fun j _ o ho => ?_⟩
  · rw [h.call]
    refine ⟨fun _ => rfl, rfl, ?_, nofun, fun j _ => ?_⟩ <;>
      · unfold sysPoll
        split <;> trivial
  · rw [hent]
    exact iff_of_false (h.others i o) nofun
  · rw [hent] at ho
    cases ho

theorem SysSteps.inv {s₀ : Sys} (h₀ : s₀.Start a now) (hrun : SysSteps a s₀ s) : SysInv a s := by
  induction hrun with
  | refl => exact h₀.inv
  | tail _ hstep ih => exact hstep.inv ih

/-! ### The result -/

theorem Sees.and_eq_zero {level : Events} (h : Sees level req 0) : level &&& req = 0 := by
  refine BitVec.eq_of_getLsbD_eq fun b _ => ?_
  rw [BitVec.getLsbD_and]
  by_contra hne
  have hb := Bool.eq_true_of_not_eq_false (hne ∘ fun h0 => h0.trans BitVec.getLsbD_zero.symm)
  obtain ⟨hl, hr⟩ := Bool.and_eq_true_iff.mp hb
  exact nomatch (h b hl hr).symm.trans BitVec.getLsbD_zero

/-- On the way **round**, from wakeup to the next pass. -/
@[grind =]
def Pc.GoingRound : Pc → Prop
  | .unlist .again _ | .putting .again _ | .clear .again | .between | .pass => True
  | _ => False

/-- A flagged call goes **round**, unless its thread is to die. -/
theorem SysStep.round (hstep : SysStep a s s') (hq : Quiet a s.call)
    (h : (s.call.pc = .asleep ∧ s.call.anyFlagged a = true) ∨ s.call.pc.GoingRound) :
    (s'.call.pc = .asleep ∧ s'.call.anyFlagged a = true) ∨ s'.call.pc.GoingRound ∨
      s'.call.sawDeath = true ∨ s.call.pc = .pass := by
  have hflag : s.call.anyFlagged a = true ↔ ∃ i < a.nfds, (s.call.ent i).ready = true := by
    unfold anyFlagged
    simp
  cases hstep
  case call c hc =>
    cases hc
    case put l i hpc hi | unlisted l hpc | allPut l hpc | clear l hpc => cases l <;> grind
    case answer i ev hi hop hsent => grind [hq.snap i]
    case tick | signals => exact h.imp_right .inl
    all_goals grind
  case sample c hc hhook => cases hc <;> grind
  case unlist c hc =>
    cases hc
    case unlist l hpc hi => cases l <;> grind
  case wake c o hc =>
    have hflag' : c.anyFlagged a = true ↔ ∃ i < a.nfds, (c.ent i).ready = true := by
      unfold anyFlagged
      simp
    cases hc
    grind
  all_goals grind

/-- **Poll sleeps through nothing.** In every state of every run: while the call is asleep, each
descriptor has its hook on the list of the object it sampled, and if an event that it asks for is
true, its waiter is flagged or a walk of the list is owed; the other descriptors ask for nothing. A
flag lets the call go on, whatever became of the event. From there it goes round and scans again,
unless its thread is to die, and a zero is returned only past the deadline or on a death. -/
theorem poll_hears {s₀ : Sys} (h₀ : s₀.Start a now) (hrun : SysSteps a s₀ s) :
    (s.call.pc = .asleep → ∀ i < a.nfds,
      (∃ o, (s.call.ent i).polled = some o ∧ .mine i ∈ s.hooks o ∧
        (s.level o &&& asked a i ≠ 0 → (s.call.ent i).ready = true ∨ 0 < s.owed o)) ∨
      ((s.call.ent i).polled = none ∧ a.events i &&& requestable = 0)) ∧
    (s.call.pc = .asleep → s.call.anyFlagged a = true →
      SysStep a s { s with call := s.call.goto (.unlist .again 0) }) ∧
    (∀ s', SysStep a s s' →
      (s.call.pc = .asleep ∧ s.call.anyFlagged a = true) ∨ s.call.pc.GoingRound →
      (s'.call.pc = .asleep ∧ s'.call.anyFlagged a = true) ∨ s'.call.pc.GoingRound ∨
        s'.call.sawDeath = true ∨ s.call.pc = .pass) ∧
    (s.call.pc = .done 0 →
      pollExpired a.timeoutMs s.call.deadline s.call.now = true ∨ s.call.sawDeath = true) := by
  have h := hrun.inv h₀
  refine ⟨fun hpc i hi => ?_, fun hpc hflag => .call (.awoken (.inr hpc) hflag),
    fun s' hstep => hstep.round h.quiet, fun hpc => ?_⟩
  · obtain ⟨⟨hlist, hasks⟩, hrev, hexp⟩ : (s.call.ent i).Placed (a.events i) s.call.expired ∧
        (s.call.ent i).revents = 0 ∧ s.call.expired = false := by
      have := h.quiet.places i hi
      rwa [hpc] at this
    cases hpolled : (s.call.ent i).polled with
    | none => exact .inr ⟨rfl, hasks hpolled hrev⟩
    | some o =>
      have hl := hlist o hpolled hexp
      refine .inl ⟨o, rfl, (h.links i o).mpr hl, fun hlevel => ?_⟩
      rcases h.heard i hi o hl with hready | howed | hsees
      · exact .inl hready
      · exact .inr howed
      · rw [hrev] at hsees
        exact absurd hsees.and_eq_zero hlevel
  · have := h.inv.ctl
    rw [hpc] at this
    exact this.2 rfl

/-- A poller asleep on object `7`, which becomes readable: the walk is still to come. -/
theorem poll_hears_readable : ∃ s, SysSteps pollOne { call := sysPoll pollOne 0 } s ∧
    s.call.pc = .asleep ∧ s.level 7 = 1 ∧ ∃ o, (s.call.ent 0).polled = some o ∧
      ((s.call.ent 0).ready = true ∨ 0 < s.owed o) := by
  have hstart : Sys.Start pollOne 0 { call := sysPoll pollOne 0 } :=
    ⟨rfl, fun _ => List.nodup_nil, fun _ _ => List.not_mem_nil⟩
  have hrun : ∃ s, SysSteps pollOne { call := sysPoll pollOne 0 } s ∧ s.call.pc = .asleep ∧
      (s.call.ent 0).polled = some 7 ∧ s.level 7 = 1 :=
    ⟨_, .head (.call (.pass rfl)) <| .head (.call (.get ⟨0, .loom, 7⟩ rfl (by decide) rfl (by decide)
      ⟨List.not_mem_nil, fun p => by cases p <;> exact (Option.some_ne_none _).symm⟩)) <|
      .head (.sample (.hook _ rfl rfl nofun rfl) rfl) <| .head (.call (.keep rfl rfl)) <|
      .head (.call (.scanned rfl)) <| .head (.call (.release rfl (by decide))) <|
      .head (.call (.released rfl)) <| .head (.call (.collect rfl)) <| .head (.call (.verdict rfl)) <|
      .head (.call (.blocks rfl rfl)) <| .head (.change 7 1) .refl, rfl, rfl, rfl⟩
  obtain ⟨s, hrun, hpc, hpolled, hlevel⟩ := hrun
  refine ⟨s, hrun, hpc, hlevel, ?_⟩
  rcases (poll_hears hstart hrun).1 hpc 0 (by decide) with ⟨o, ho, -, hears⟩ | ⟨hnone, -⟩
  · cases hpolled.symm.trans ho
    exact ⟨7, ho, hears (by rw [hlevel]; decide)⟩
  · exact nomatch hpolled.symm.trans hnone

end Poll

end Thylacine
