import Mathlib.Algebra.Group.Nat.Defs
import Thylacine.SrvConn.Holds

/-!
# The Streams of a Connection

What a step does to the channels and to the bytes that have gone through them is said once
(`Step.effect`): it moves a program counter and nothing else, it holds a channel's lock, it takes
or releases a role, or it latches end of file. Every invariant of this module comes from that.

## Main results

* `srvconn_stream`: each direction hands out what it accepted, in order; what a call has put in is
  the first bytes of its buffer, in one block. For the calls that are `Mixed`.
-/

namespace Thylacine

open List RingBuffer TaggedStream

namespace SrvConn

open Function (forall_update_iff update update_eq_self update_of_ne update_self)

variable {cap : ℕ} {ok : Op → Prop} {s s' : SrvConn} {t : ℕ}

/-! ### Effects -/

def Next.op : Next → Option Op
  | .ret op _ => some op
  | .release q _ => some (.blocking q)
  | .sleep q _ => some (.blocking q)
  | .finished => none

/-- The transfer that a call at `p` makes. -/
def Pc.op : Pc → Option Op
  | .trying q => some (.instant q)
  | .acquire q => some (.blocking q)
  | .tsleep (.role q) => some (.blocking q)
  | .tsleep (.body q _) => some (.blocking q)
  | .asleep (.role q) => some (.blocking q)
  | .asleep (.body q _) => some (.blocking q)
  | .roleLeave q _ => some (.blocking q)
  | .body q _ => some (.blocking q)
  | .release q _ => some (.blocking q)
  | .waking _ next => next.op
  | .ret op _ => some op
  | _ => none

/-- Call `t` goes to `p`; the channels and the streams stay. -/
structure Moves (s s' : SrvConn) (t : ℕ) (p : Pc) : Prop where
  chan : s'.chan = s.chan
  accepted : s'.accepted = s.accepted
  returned : s'.returned = s.returned
  pc : s'.pc = Function.update s.pc t p

/-- At `p'` the call has the transfer and the bytes it had at `p`, and holds no more. -/
structure Quiet (p p' : Pc) : Prop where
  op : p'.op = p.op
  bytes : ∀ c, p'.bytes c = p.bytes c
  holds : ∀ c w, p'.Holds c w → p.Holds c w

/-- Why a call may put bytes in: it holds the writing role; or it has put in nothing, and nobody
holds the role or it does not ask. -/
def Permit (ch : Chan) (c : Dir) (p : Pc) : Prop :=
  p.Holds c true ∨ p.bytes c = [] ∧
    (ch.writing = false ∨ (∃ buf n, p.op = some (.instant (.send c buf n))) ∨
      ∃ buf n, c = .c2s ∧ p.op = some (.instant (.frame buf n)))

/-- A hold of the lock of channel `c` by call `t`. -/
structure Holding (cap : ℕ) (s s' : SrvConn) (t : ℕ) (c : Dir) (h : Hold) (next : Next) : Prop where
  chan : s'.chan = Function.update s.chan c h.ch
  accepted : s'.accepted = Function.update s.accepted c (s.accepted c ++ tagged t h.put)
  returned : s'.returned = Function.update s.returned c (s.returned c ++ h.took)
  pc : s'.pc = Function.update s.pc t (.waking h.wakes next)
  ok : (s.chan c).ring.Ok cap → h.Ok cap c (s.chan c)
  op : next.op = (s.pc t).op
  holds : ∀ c' w, next.Holds c' w → (s.pc t).Holds c' w
  bytes : ∀ c', (s.pc t).bytes c' ++ (if c' = c then h.put else []) = next.bytes c'
  permit : h.put ≠ [] → Permit (s.chan c) c (s.pc t)
  whole : (s.chan c).ring.Ok cap → ∀ buf n, next.op = some (.instant (.frame buf n)) →
    next.bytes .c2s = [] ∨ next.bytes .c2s = slice buf n.toNat

/-- What a step does to the channels and the streams. -/
inductive Effect (cap : ℕ) (ok : Op → Prop) (s s' : SrvConn) : Prop
  | quiet (t : ℕ) (p : Pc) (hmove : Moves s s' t p) (hquiet : Quiet (s.pc t) p)
  /-- A transfer begins, or is refused. -/
  | start (t : ℕ) (p : Pc) (op : Op) (hmove : Moves s s' t p) (hidle : s.pc t = .idle)
      (hop : p.op = some op) (hok : ok op) (hbytes : ∀ c, p.bytes c = [])
      (hholds : ∀ c w, ¬p.Holds c w)
  | hold (t : ℕ) (c : Dir) (h : Hold) (next : Next) (hhold : Holding cap s s' t c h next)
  | acquire (t : ℕ) (q : Blocking) (hpc : s.pc t = .acquire q)
      (hfree : (s.chan q.dir).role q.writer = false)
      (hmove : Moves (s.setRole q.dir q.writer true) s' t (.body q 0))
  | release (t : ℕ) (q : Blocking) (ret : ℤ) (hpc : s.pc t = .release q ret)
      (hmove : Moves (s.setRole q.dir q.writer false) s' t
        (.waking [.role q.dir] (.ret (.blocking q) ret)))
  | latch (t : ℕ) (hpc : s.pc t = .latching)
      (hchan : s'.chan = fun c => { s.chan c with eof := true })
      (hmove : Moves s { s' with chan := s.chan } t (.waking teardownWakes .finished))

theorem moves_goto (s : SrvConn) (t : ℕ) (p : Pc) : Moves s (s.goto t p) t p := ⟨rfl, rfl, rfl, rfl⟩

variable {p p' : Pc} {c : Dir} {frames hasBuf w : Bool} {rc n : ℤ} {q : Blocking} {ch : Chan} {u : ℕ}
  {x : Hold} {next : Next}

/-- The lists of waiters may change in between. -/
theorem Moves.of_eq {s₀ : SrvConn} (h : Moves s₀ s' t p) (hchan : s₀.chan = s.chan)
    (hacc : s₀.accepted = s.accepted) (hret : s₀.returned = s.returned) (hpc : s₀.pc = s.pc) :
    Moves s s' t p :=
  ⟨h.chan.trans hchan, h.accepted.trans hacc, h.returned.trans hret, hpc ▸ h.pc⟩

/-- Wakes and hooks leave channels, streams and calls. -/
def SameData (s s' : SrvConn) : Prop :=
  s'.chan = s.chan ∧ s'.accepted = s.accepted ∧ s'.returned = s.returned ∧ s'.pc = s.pc

theorem sameData_setWaiter (s : SrvConn) (z : Sleep) (w : Option ℕ) :
    SameData s (s.setWaiter z w) := by
  unfold setWaiter
  split <;> exact ⟨rfl, rfl, rfl, rfl⟩

theorem sameData_deliver (s : SrvConn) (w : Wake) : SameData s (s.deliver w) := by
  have hwake (c : Dir) (writer : Bool) : SameData s (s.wakeWaiter c writer) := by
    unfold wakeWaiter
    split <;> exact ⟨rfl, rfl, rfl, rfl⟩
  cases w with
  | rendez c => exact hwake c false
  | wrendez c => exact hwake c true
  | role | poll => exact ⟨rfl, rfl, rfl, rfl⟩

theorem sameData_unregisterRole (s : SrvConn) (t : ℕ) (c : Dir) :
    SameData s (s.unregisterRole t c) := by
  unfold unregisterRole
  split <;> exact ⟨rfl, rfl, rfl, rfl⟩

theorem sameData_unhookPoll (s : SrvConn) (t : ℕ) : SameData s (s.unhookPoll t) := by
  unfold unhookPoll
  split <;> exact ⟨rfl, rfl, rfl, rfl⟩

theorem SameData.moves (h : SameData s s') (p : Pc) : Moves s (s'.goto t p) t p :=
  (moves_goto s' t p).of_eq h.1 h.2.1 h.2.2.1 h.2.2.2

/-! ### Every step has an effect -/

/-- A call at `p` goes to `p'`, and nothing else happens. -/
theorem Effect.goto (hpc : s.pc t = p) (hmove : Moves s s' t p')
    (hq : Quiet p p' := by exact ⟨rfl, fun _ => rfl, fun _ _ => id⟩) : Effect cap ok s s' :=
  .quiet t p' hmove (hpc ▸ hq)

theorem Quiet.refl (p : Pc) : Quiet p p := ⟨rfl, fun _ => rfl, fun _ _ => id⟩

/-- A call that moves nothing before or after. -/
theorem Quiet.none (hop : p'.op = p.op) (hp : ∀ c, p.bytes c = [])
    (hp' : ∀ c, p'.bytes c = []) (hholds : ∀ c w, ¬p'.Holds c w) : Quiet p p' :=
  ⟨hop, fun c => (hp' c).trans (hp c).symm, fun c w h => absurd h (hholds c w)⟩

theorem entry_nonpos (h : entry hasBuf n = some rc) : rc ≤ 0 := by
  unfold entry at h
  split_ifs at h <;> cases h <;> decide

theorem entryIo_nonpos (h : entryIo hasBuf n = some rc) : rc ≤ 0 := by
  unfold entryIo at h
  split_ifs at h <;> cases h <;> decide

theorem Blocking.entry_nonpos (h : q.entry hasBuf = some rc) : rc ≤ 0 := by
  cases q with
  | send | recv => exact SrvConn.entry_nonpos h

theorem Instant.entry_nonpos {q : Instant} (h : q.entry cap hasBuf = some rc) : rc ≤ 0 := by
  cases q with
  | send | recvNow | recv => exact SrvConn.entry_nonpos h
  | frame buf n =>
    rcases Option.or_eq_some_iff.mp h with h | ⟨-, h⟩
    · exact SrvConn.entry_nonpos h
    · split_ifs at h
      cases h
      decide
  | ioWrite | ioRead => exact entryIo_nonpos h

/-- A call begins: refused, or with nothing put in. -/
theorem Effect.enter (hpc : s.pc t = .idle) {op : Op} (hok : ok op) {rc : Option ℤ}
    (hrc : ∀ r, rc = some r → r ≤ 0) (hop : p.op = some op)
    (hbytes : ∀ c, p.bytes c = []) (hholds : ∀ c w, ¬p.Holds c w) :
    Effect cap ok s (s.enter t op rc p) := by
  cases rc with
  | none => exact .start t p op (moves_goto s t p) hpc hop hok hbytes hholds
  | some r =>
    exact .start t (.ret op r) op (moves_goto s t _) hpc rfl hok
      (fun c => op.bytes_of_nonpos c (hrc r rfl)) fun _ _ => id

/-- A frame is accepted **whole** or not at all. -/
theorem sendFrame_whole (h : ch.ring.Ok cap) (buf : ℕ → UInt8) (n : ℤ) :
    (sendFrame cap ch buf n).put = [] ∨ (sendFrame cap ch buf n).put = slice buf n.toNat := by
  obtain ⟨k, hk, -, hmin⟩ := chanRingWrite_spec h buf n
  unfold sendFrame
  split
  · exact .inl rfl
  · split
    · exact .inl rfl
    · right
      dsimp only
      have hall : k = n.toNat := by omega
      rw [hk, Int.toNat_natCast, hall]

theorem Instant.hold_permit {q : Instant} (h : (q.hold cap ch).put ≠ []) :
    Permit ch q.dir (.trying q) := by
  cases q with
  | send c buf n => exact .inr ⟨rfl, .inr (.inl ⟨buf, n, rfl⟩)⟩
  | frame buf n => exact .inr ⟨rfl, .inr (.inr ⟨buf, n, rfl, rfl⟩)⟩
  | ioWrite c buf n =>
    refine .inr ⟨rfl, .inl ?_⟩
    have hput : (ioNonblockWrite cap c ch buf n).put ≠ [] := h
    unfold ioNonblockWrite at hput
    by_contra hw
    rw [Bool.not_eq_false] at hw
    split at hput
    · exact hput rfl
    · exact hput rfl
  | ioRead c n => exact absurd (ioNonblockRead_put c ch n) h
  | recvNow n => exact absurd (ioNonblockRead_put .s2c ch n) h
  | recv n => exact absurd (chanConsumeNonblock_put .c2s ch n) h

theorem Effect.attempt {q : Instant} (hpc : s.pc t = .trying q) :
    Effect cap ok s (s.held cap t q.dir (q.hold cap (s.chan q.dir))
      (.ret (.instant q) (q.hold cap (s.chan q.dir)).rc)) := by
  have hbytes (c : Dir) : ([] : List UInt8) ++ (if c = q.dir then (q.hold cap (s.chan q.dir)).put
      else []) = q.bytes c (q.hold cap (s.chan q.dir)).rc.toNat :=
    q.hold_bytes (s.chan q.dir) c
  refine .hold t q.dir _ _ ⟨rfl, rfl, rfl, rfl, q.hold_ok, ?_, fun _ _ => False.elim, ?_, ?_, ?_⟩
  · rw [hpc]
    rfl
  · rw [hpc]
    exact hbytes
  · rw [hpc]
    exact Instant.hold_permit
  · intro hring buf n hop
    cases hop
    change slice buf (sendFrame cap (s.chan .c2s) buf n).rc.toNat = [] ∨
      slice buf (sendFrame cap (s.chan .c2s) buf n).rc.toNat = slice buf n.toNat
    rw [← sendFrame_put]
    exact sendFrame_whole hring buf n

theorem Effect.body {done : ℕ} (hpc : s.pc t = .body q done) :
    Effect cap ok s (s.held cap t q.dir (q.turn cap (s.chan q.dir) done).1
      ((q.turn cap (s.chan q.dir) done).2.next q)) := by
  have hop (x : Turn) : (x.next q).op = some (.blocking q) := by cases x <;> rfl
  refine .hold t q.dir _ _ ⟨rfl, rfl, rfl, rfl, fun h => q.turn_ok h done, ?_, ?_, ?_, ?_, ?_⟩
  · rw [hpc, hop]
    rfl
  · intro c w
    rw [hpc]
    cases (q.turn cap (s.chan q.dir) done).2 <;> exact id
  · intro c
    rw [hpc]
    exact q.turn_bytes (s.chan q.dir) done c
  · intro hput
    rw [hpc]
    cases q with
    | send => exact .inl ⟨rfl, rfl⟩
    | recv c n =>
      refine absurd ?_ hput
      change (recvTurn cap c (s.chan c) n).1.put = []
      unfold recvTurn
      split
      · rfl
      · split <;> rfl
  · intro _ buf n hframe
    rw [hop] at hframe
    cases hframe

/-- An interrupted sender has put in what it returns. -/
theorem Blocking.bytes_interrupted (q : Blocking) (c : Dir) (done : ℕ) :
    q.bytes c (q.interrupted done).toNat = q.bytes c done := by
  cases q with
  | send c' buf n =>
    change bytes c (if 0 < done then (done : ℤ) else -1).toNat _ = _
    congr 1
    split <;> omega
  | recv => rfl

theorem Sleep.quiet_resume (z : Sleep) (awoken : Bool) : Quiet (.tsleep z) (z.resume awoken) := by
  cases z with
  | role | poll => exact ⟨rfl, fun _ => rfl, fun _ _ => id⟩
  | body q done =>
    cases awoken with
    | true => exact ⟨rfl, fun _ => rfl, fun _ _ => id⟩
    | false => exact ⟨rfl, fun c => q.bytes_interrupted c done, fun _ _ => id⟩

theorem Step.effect (hstep : Step cap ok s s') : Effect cap ok s s' := by
  cases hstep with
  | blocking t q hasBuf hpc hok =>
    exact .enter hpc hok (fun _ => Blocking.entry_nonpos) rfl (fun _ => rfl) fun _ _ => id
  | instant t q hasBuf hpc hok =>
    exact .enter hpc hok (fun _ => Instant.entry_nonpos) rfl (fun _ => rfl) fun _ _ => id
  | attempt t q hpc => exact .attempt hpc
  | acquire t q hpc hfree => exact .acquire t q hpc hfree (moves_goto _ t _)
  | contend t q hpc => exact .goto hpc ⟨rfl, rfl, rfl, rfl⟩
  | tsleepReturns t z hpc => exact .goto hpc (moves_goto s t _) (z.quiet_resume true)
  | tsleepBlocks t z hpc =>
    obtain ⟨h1, h2, h3, h4⟩ := (sameData_setWaiter s z (some t)).moves (.asleep z)
    refine .goto hpc ⟨h1, h2, h3, h4⟩ ?_
    cases z <;> exact ⟨rfl, fun _ => rfl, fun _ _ => id⟩
  | tsleepTaken t => exact .quiet t (s.pc t) ⟨rfl, rfl, rfl, (update_eq_self t s.pc).symm⟩ (.refl _)
  | tsleepInterrupted t z hpc => exact .goto hpc (moves_goto s t _) (z.quiet_resume false)
  | resumes t z hpc =>
    refine .goto hpc (moves_goto s t _) ?_
    cases z <;> exact ⟨rfl, fun _ => rfl, fun _ _ => id⟩
  | interrupt t z =>
    obtain ⟨h1, h2, h3, h4⟩ := sameData_setWaiter s z none
    exact .quiet t (s.pc t) ⟨h1, h2, h3, h4.trans (update_eq_self t s.pc).symm⟩ (.refl _)
  | roleLeave t q awoken hpc =>
    refine .goto hpc ((sameData_unregisterRole s t q.dir).moves _) ?_
    cases awoken with
    | true => exact ⟨rfl, fun _ => rfl, fun _ _ => id⟩
    | false => exact .none rfl (fun _ => rfl) q.bytes_zero fun _ _ => id
  | body t q done hpc => exact .body hpc
  | release t q ret hpc => exact .release t q ret hpc (moves_goto _ t _)
  | wake t w ws next hpc => exact .goto hpc ((sameData_deliver s w).moves _)
  | woke t next hpc => cases next <;> exact .goto hpc (moves_goto s t _)
  | teardown t hpc => exact .goto hpc (show Moves s _ t .latching from ⟨rfl, rfl, rfl, rfl⟩)
  | teardownAgain t hpc | poll t p hpc | pollSample t p hpc => exact .goto hpc (moves_goto s t _)
  | latch t hpc => exact .latch t hpc rfl ⟨rfl, rfl, rfl, rfl⟩
  | pollHook t p hpc leave =>
    refine .goto hpc ⟨rfl, rfl, rfl, rfl⟩ ?_
    cases leave <;> exact ⟨rfl, fun _ => rfl, fun _ _ => id⟩
  | pollLeave t p again hpc =>
    refine .goto hpc ((sameData_unhookPoll s t).moves _) ?_
    cases again <;> exact ⟨rfl, fun _ => rfl, fun _ _ => id⟩

/-! ### The roles -/

/-- The rings are well formed, each role held once at most. -/
structure Base (cap : ℕ) (s : SrvConn) : Prop where
  ring : ∀ c, (s.chan c).ring.Ok cap
  roles : Roles s

theorem role_setRole_chan (s : SrvConn) (c c' : Dir) (w w' held : Bool) :
    ((s.setRole c w held).chan c').role w' =
      if c' = c ∧ w' = w then held else (s.chan c').role w' := by
  change (update s.chan c ((s.chan c).setRole w held) c').role w' = _
  by_cases hc : c' = c
  · subst hc
    rw [update_self, role_setRole]
    exact if_congr (by simp) rfl rfl
  · rw [update_of_ne hc, if_neg fun h => hc h.1]

theorem sameCounts_setRole (s : SrvConn) (c c' : Dir) (w held : Bool) :
    (((s.setRole c w held).chan c').ring = (s.chan c').ring ∧
      ((s.setRole c w held).chan c').produced = (s.chan c').produced ∧
      ((s.setRole c w held).chan c').consumed = (s.chan c').consumed) ∧
      ((s.setRole c w held).chan c').eof = (s.chan c').eof := by
  refine (forall_update_iff s.chan fun c' ch => (ch.ring = (s.chan c').ring ∧
    ch.produced = (s.chan c').produced ∧ ch.consumed = (s.chan c').consumed) ∧
    ch.eof = (s.chan c').eof).mpr ⟨?_, fun _ _ => ⟨⟨rfl, rfl, rfl⟩, rfl⟩⟩ c'
  cases w <;> exact ⟨⟨rfl, rfl, rfl⟩, rfl⟩

/-- Taking or releasing a role leaves the bytes. -/
theorem Moves.sameCounts {held : Bool} (h : Moves (s.setRole c w held) s' t p) (c' : Dir) :
    ((s'.chan c').ring = (s.chan c').ring ∧ (s'.chan c').produced = (s.chan c').produced ∧
      (s'.chan c').consumed = (s.chan c').consumed) ∧ (s'.chan c').eof = (s.chan c').eof := by
  rw [h.chan]
  exact sameCounts_setRole s c c' w held

/-- Who holds a role after call `t` has moved. -/
theorem holds_cases (hpc : s'.pc = update s.pc t p) (h : (s'.pc u).Holds c w) :
    (u = t ∧ p.Holds c w) ∨ (u ≠ t ∧ (s.pc u).Holds c w) := by
  rw [hpc] at h
  by_cases hu : u = t
  · subst hu
    rw [update_self] at h
    exact .inl ⟨rfl, h⟩
  · rw [update_of_ne hu] at h
    exact .inr ⟨hu, h⟩

/-- The other calls hold what they held. -/
theorem holds_update (hpc : s'.pc = update s.pc t p) (ht : p.Holds c w → (s.pc t).Holds c w)
    (h : (s'.pc u).Holds c w) : (s.pc u).Holds c w :=
  (holds_cases hpc h).elim (fun hp => hp.1 ▸ ht hp.2) And.right

theorem Base.acquire (h : Base cap s) (hfree : (s.chan q.dir).role q.writer = false)
    (hmove : Moves (s.setRole q.dir q.writer true) s' t (.body q 0)) : Base cap s' := by
  -- nobody held the role, so a holder of it now is `t`
  have hnone (u : ℕ) : ¬(s.pc u).Holds q.dir q.writer := fun hu => by
    rw [h.roles.flag _ _ u hu] at hfree
    cases hfree
  refine ⟨fun c => ?_, fun c w u hu => ?_, fun c w u v hu hv => ?_⟩
  · rw [(hmove.sameCounts c).1.1]
    exact h.ring c
  · rw [hmove.chan, role_setRole_chan]
    rcases holds_cases hmove.pc hu with ⟨-, hc, hw⟩ | ⟨-, hold⟩
    · rw [if_pos ⟨hc.symm, hw.symm⟩]
    · split
      · rfl
      · exact h.roles.flag c w u hold
  · rcases holds_cases hmove.pc hu with ⟨hut, hc, hw⟩ | ⟨-, hold⟩ <;>
      rcases holds_cases hmove.pc hv with ⟨hvt, hc', hw'⟩ | ⟨-, hold'⟩
    · rw [hut, hvt]
    · subst hc hw
      exact absurd hold' (hnone v)
    · subst hc' hw'
      exact absurd hold (hnone u)
    · exact h.roles.unique c w u v hold hold'

theorem Base.release (h : Base cap s) {ret : ℤ} (hpc : s.pc t = .release q ret)
    (hmove : Moves (s.setRole q.dir q.writer false) s' t
      (.waking [.role q.dir] (.ret (.blocking q) ret))) : Base cap s' := by
  have hwho {c : Dir} {w : Bool} {u : ℕ} (hu : (s'.pc u).Holds c w) :
      u ≠ t ∧ (s.pc u).Holds c w :=
    (holds_cases hmove.pc hu).resolve_left And.right
  refine ⟨fun c => ?_, fun c w u hu => ?_, fun c w u v hu hv => ?_⟩
  · rw [(hmove.sameCounts c).1.1]
    exact h.ring c
  · obtain ⟨hut, hold⟩ := hwho hu
    rw [hmove.chan, role_setRole_chan, if_neg]
    · exact h.roles.flag c w u hold
    · rintro ⟨rfl, rfl⟩
      exact hut (h.roles.unique _ _ u t hold (by rw [hpc]; exact ⟨rfl, rfl⟩))
  · exact h.roles.unique c w u v (hwho hu).2 (hwho hv).2

/-- A call moves that holds no more; rings and roles stay. -/
theorem Base.move (h : Base cap s) (hring : ∀ c, (s'.chan c).ring = (s.chan c).ring)
    (hrole : ∀ c w, (s'.chan c).role w = (s.chan c).role w) (hpc : s'.pc = update s.pc t p)
    (hholds : ∀ c w, p.Holds c w → (s.pc t).Holds c w) : Base cap s' :=
  ⟨fun c => hring c ▸ h.ring c, h.roles.of_le hrole fun c w _ => holds_update hpc (hholds c w)⟩

theorem Effect.base (he : Effect cap ok s s') (h : Base cap s) : Base cap s' := by
  cases he with
  | quiet t p hmove hquiet =>
    exact h.move (fun c => by rw [hmove.chan]) (fun c w => by rw [hmove.chan]) hmove.pc hquiet.holds
  | start t p op hmove hidle hop hok hbytes hholds =>
    exact h.move (fun c => by rw [hmove.chan]) (fun c w => by rw [hmove.chan]) hmove.pc
      fun c w hp => absurd hp (hholds c w)
  | hold t c x next hhold =>
    have hflow := (hhold.ok (h.ring c)).flow
    refine ⟨?_, h.roles.of_le ?_ fun c' w _ => holds_update hhold.pc (hhold.holds c' w)⟩
    · rw [hhold.chan]
      exact (forall_update_iff s.chan fun _ ch => ch.ring.Ok cap).mpr
        ⟨hflow.ok, fun c' _ => h.ring c'⟩
    · rw [hhold.chan]
      exact (forall_update_iff s.chan fun c' ch => ∀ w, ch.role w = (s.chan c').role w).mpr
        ⟨hflow.role, fun _ _ _ => rfl⟩
  | acquire t q hpc hfree hmove => exact h.acquire hfree hmove
  | release t q ret hpc hmove => exact h.release hpc hmove
  | latch t hpc hchan hmove =>
    exact h.move (fun c => by rw [hchan]) (fun c w => by rw [hchan]; rfl) hmove.pc
      fun _ _ => False.elim

theorem create_base (hcap : 0 < cap) : Base cap create where
  ring := fun _ => ⟨Nat.zero_le cap, hcap, (Nat.zero_mod cap).symm⟩
  roles := ⟨fun _ _ _ => False.elim, fun _ _ _ _ => False.elim⟩

/-! ### The streams -/

/-- Blocking and nonblocking transfers, where the client's writers are those or only
`srvconn_client_send_frame`. -/
def Mixed (frames : Bool) : Op → Prop
  | .blocking (.send c _ _) => ¬(frames = true ∧ c = .c2s)
  | .blocking (.recv _ _) => True
  | .instant (.send _ _ _) => False
  | .instant (.frame _ _) => frames = true
  | .instant (.ioWrite c _ _) => ¬(frames = true ∧ c = .c2s)
  | .instant _ => True

/-- The **invariant** of the streams. -/
structure Stream (cap : ℕ) (ok : Op → Prop) (s : SrvConn) : Prop where
  base : Base cap s
  /-- What was accepted was handed out, or is in the ring. -/
  flow : ∀ c, (s.accepted c).map Prod.snd = s.returned c ++ (s.chan c).ring.contents cap
  produced : ∀ c, (s.chan c).produced = UInt64.ofNat (s.accepted c).length
  consumed : ∀ c, (s.chan c).consumed = UInt64.ofNat (s.returned c).length
  bytes : ∀ c t, elemsOf t (s.accepted c) = (s.pc t).bytes c
  block : ∀ c t, OneBlock t (s.accepted c)
  tail : ∀ c t, (s.pc t).Holds c true → AtEnd t (s.accepted c)
  allowed : ∀ t op, (s.pc t).op = some op → ok op
  whole : ∀ t buf n, (s.pc t).op = some (.instant (.frame buf n)) →
    (s.pc t).bytes .c2s = [] ∨ (s.pc t).bytes .c2s = slice buf n.toNat
  eof : (s.chan .c2s).eof = (s.chan .s2c).eof

/-- The writing role's holder is a blocking sender. -/
theorem Pc.Holds.op (h : p.Holds c true) : ∃ buf n, p.op = some (.blocking (.send c buf n)) := by
  have hsome (q : Blocking) (hq : q.dir = c ∧ q.writer = true) :
      ∃ buf n, some (Op.blocking q) = some (.blocking (.send c buf n)) := by
    cases q with
    | send c' buf n => exact ⟨buf, n, by rw [← hq.1]; rfl⟩
    | recv => cases hq.2
  cases p with
  | tsleep z | asleep z =>
    cases z with
    | body q => exact hsome q h
    | role q | poll p => exact h.elim
  | body q | release q => exact hsome q h
  | waking ws next =>
    cases next with
    | release q | sleep q => exact hsome q h
    | ret op rc | finished => exact h.elim
  | _ => exact h.elim

/-- While the writing role is held, **no other** puts bytes in. -/
theorem Stream.put_eq_nil (h : Stream cap (Mixed frames) s) (hhold : Holding cap s s' t c x next) (hu : u ≠ t)
    (hholds : (s.pc u).Holds c true) : x.put = [] := by
  by_contra hput
  obtain ⟨buf, n, hop⟩ := hholds.op
  rcases hhold.permit hput with hmine | ⟨-, hfree | ⟨buf', n', hsend⟩ | ⟨buf', n', rfl, hframe⟩⟩
  · exact hu (h.base.roles.unique c true u t hholds hmine)
  · have hflag : (s.chan c).writing = true := h.base.roles.flag c true u hholds
    rw [hfree] at hflag
    cases hflag
  · exact h.allowed t _ hsend
  · have hmode : frames = true := h.allowed t _ hframe
    exact h.allowed u _ hop ⟨hmode, rfl⟩

/-- The counters follow a hold. -/
theorem ofNat_length_append {α : Type} (l l' : List α) (x : UInt64)
    (h : x = UInt64.ofNat l.length) :
    x + UInt64.ofNat l'.length = UInt64.ofNat (l ++ l').length := by
  rw [h, length_append, UInt64.ofNat_add]

/-- A hold leaves the other direction. -/
theorem Stream.hold (h : Stream cap (Mixed frames) s) (hhold : Holding cap s s' t c x next) (hbase : Base cap s') :
    Stream cap (Mixed frames) s' := by
  have hflow := (hhold.ok (h.base.ring c)).flow
  have hpc (u : ℕ) (hu : u ≠ t) : s'.pc u = s.pc u := by rw [hhold.pc, update_of_ne hu]
  have hpct : s'.pc t = .waking x.wakes next := by rw [hhold.pc, update_self]
  have hop (u : ℕ) : (s'.pc u).op = (s.pc u).op := by
    by_cases hu : u = t
    · rw [hu, hpct]
      exact hhold.op
    · rw [hpc u hu]
  have hacc : s'.accepted c = s.accepted c ++ tagged t x.put := by rw [hhold.accepted, update_self]
  have hother (c' : Dir) (hc : c' ≠ c) : s'.accepted c' = s.accepted c' := by
    rw [hhold.accepted, update_of_ne hc]
  -- what `t` has put in is at the end of the stream whenever it puts in more
  have hend : AtEnd t (s.accepted c) ∨ x.put = [] := by
    by_cases hput : x.put = []
    · exact .inr hput
    · refine .inl ?_
      rcases hhold.permit hput with hmine | ⟨hnone, -⟩
      · exact h.tail c t hmine
      · exact atEnd_of_elemsOf ((h.bytes c t).trans hnone)
  have hside (c' : Dir) : (s'.accepted c').map Prod.snd =
        s'.returned c' ++ (s'.chan c').ring.contents cap ∧
      (s'.chan c').produced = UInt64.ofNat (s'.accepted c').length ∧
      (s'.chan c').consumed = UInt64.ofNat (s'.returned c').length ∧
      (s'.chan c').eof = (s.chan c').eof := by
    by_cases hc : c' = c
    · subst hc
      have hlen : (tagged t x.put).length = x.put.length := length_map _
      rw [hhold.chan, hhold.returned, hacc, update_self, update_self, map_append, map_snd_tagged,
        h.flow, append_assoc, append_assoc, hflow.contents, hflow.produced, hflow.consumed,
        h.produced, h.consumed, ← hlen]
      exact ⟨rfl, ofNat_length_append _ _ _ rfl, ofNat_length_append _ _ _ rfl, hflow.eof⟩
    · rw [hhold.chan, hhold.returned, hother c' hc, update_of_ne hc, update_of_ne hc]
      exact ⟨h.flow c', h.produced c', h.consumed c', rfl⟩
  refine ⟨hbase, fun c' => (hside c').1, fun c' => (hside c').2.1, fun c' => (hside c').2.2.1,
    fun c' u => ?_, fun c' u => ?_, fun c' u hu => ?_,
    fun u op hu => h.allowed u op (hop u ▸ hu), fun u buf n hu => ?_, ?_⟩
  · by_cases hu : u = t
    · subst hu
      rw [hpct]
      change _ = next.bytes c'
      rw [← hhold.bytes c', ← h.bytes]
      by_cases hc : c' = c
      · subst hc
        rw [hacc, elemsOf_append, elemsOf_tagged, if_pos rfl]
      · rw [hother c' hc, if_neg hc, append_nil]
    · rw [hpc u hu, ← h.bytes]
      by_cases hc : c' = c
      · subst hc
        rw [hacc, elemsOf_append, elemsOf_tagged_of_ne (Ne.symm hu), append_nil]
      · rw [hother c' hc]
  · by_cases hc : c' = c
    · subst hc
      rw [hacc]
      by_cases hu : u = t
      · subst hu
        rcases hend with hend | hnil
        · exact (hend.append x.put).oneBlock
        · rw [hnil, tagged_nil, append_nil]
          exact h.block c' u
      · exact (h.block c' u).append (Ne.symm hu) x.put
    · rw [hother c' hc]
      exact h.block c' u
  · have hold := holds_update hhold.pc (hhold.holds c' true) hu
    have htail := h.tail c' u hold
    by_cases hc : c' = c
    · subst hc
      rw [hacc]
      by_cases hut : u = t
      · subst hut
        exact htail.append x.put
      · rw [h.put_eq_nil hhold hut hold, tagged_nil, append_nil]
        exact htail
    · rw [hother c' hc]
      exact htail
  · by_cases hut : u = t
    · subst hut
      rw [hpct] at hu ⊢
      exact hhold.whole (h.base.ring c) buf n hu
    · rw [hpc u hut] at hu ⊢
      exact h.whole u buf n hu
  · rw [(hside _).2.2.2, (hside _).2.2.2]
    exact h.eof

/-- A step that only moves call `t`, with nothing put in. -/
theorem Stream.move (h : Stream cap ok s) (hbase : Base cap s')
    (hring : ∀ c, (s'.chan c).ring = (s.chan c).ring ∧
      (s'.chan c).produced = (s.chan c).produced ∧ (s'.chan c).consumed = (s.chan c).consumed)
    (heof : (s'.chan .c2s).eof = (s'.chan .s2c).eof)
    (hacc : s'.accepted = s.accepted) (hret : s'.returned = s.returned)
    (hpc : s'.pc = update s.pc t p) (hbytes : ∀ c, p.bytes c = (s.pc t).bytes c)
    (htail : ∀ c, p.Holds c true → AtEnd t (s.accepted c))
    (hop : ∀ op, p.op = some op → ok op)
    (hwhole : ∀ buf n, p.op = some (.instant (.frame buf n)) →
      p.bytes .c2s = [] ∨ p.bytes .c2s = slice buf n.toNat) : Stream cap ok s' := by
  have hother (u : ℕ) (hu : u ≠ t) : s'.pc u = s.pc u := by rw [hpc, update_of_ne hu]
  have hself : s'.pc t = p := by rw [hpc, update_self]
  refine ⟨hbase, fun c => ?_, fun c => ?_, fun c => ?_, fun c u => ?_, fun c u => ?_,
    fun c u hu => ?_, fun u op hu => ?_, fun u buf n hu => ?_, heof⟩
  · rw [hacc, hret, (hring c).1]
    exact h.flow c
  · rw [hacc, (hring c).2.1]
    exact h.produced c
  · rw [hret, (hring c).2.2]
    exact h.consumed c
  · rw [hacc, h.bytes]
    by_cases hu : u = t
    · subst hu
      rw [hself, hbytes]
    · rw [hother u hu]
  · rw [hacc]
    exact h.block c u
  · rw [hacc]
    by_cases hut : u = t
    · subst hut
      exact htail c (hself ▸ hu)
    · exact h.tail c u (hother u hut ▸ hu)
  · by_cases hut : u = t
    · subst hut
      exact hop op (hself ▸ hu)
    · exact h.allowed u op (hother u hut ▸ hu)
  · by_cases hut : u = t
    · subst hut
      rw [hself] at hu ⊢
      exact hwhole buf n hu
    · rw [hother u hut] at hu ⊢
      exact h.whole u buf n hu

theorem Effect.stream (he : Effect cap (Mixed frames) s s')
    (h : Stream cap (Mixed frames) s) : Stream cap (Mixed frames) s' := by
  have hbase := he.base h.base
  cases he with
  | quiet t p hmove hquiet =>
    refine h.move hbase (fun c => by rw [hmove.chan]; exact ⟨rfl, rfl, rfl⟩)
      (by rw [hmove.chan]; exact h.eof) hmove.accepted hmove.returned hmove.pc hquiet.bytes
      (fun c hp => h.tail c t (hquiet.holds c true hp))
      (fun op hp => h.allowed t op (hquiet.op.symm.trans hp)) fun buf n hp => ?_
    rw [hquiet.bytes]
    exact h.whole t buf n (hquiet.op.symm.trans hp)
  | start t p op hmove hidle hop hok hbytes hholds =>
    refine h.move hbase (fun c => by rw [hmove.chan]; exact ⟨rfl, rfl, rfl⟩)
      (by rw [hmove.chan]; exact h.eof) hmove.accepted hmove.returned hmove.pc
      (fun c => by rw [hbytes, hidle]; rfl) (fun c hp => absurd hp (hholds c true)) ?_
      fun _ _ _ => .inl (hbytes _)
    intro op' hp
    rw [hop] at hp
    cases hp
    exact hok
  | hold t c x next hhold => exact h.hold hhold hbase
  | acquire t q hpc hfree hmove =>
    have hcounts := hmove.sameCounts
    have hnone (c : Dir) : (Pc.body q 0).bytes c = [] := q.bytes_zero c
    refine h.move hbase (fun c => (hcounts c).1) (by rw [(hcounts _).2, (hcounts _).2, h.eof])
      hmove.accepted hmove.returned hmove.pc (fun c => ?_) (fun c _ => ?_) (fun op hp => ?_)
      fun _ _ _ => .inl (hnone _)
    · rw [hnone, hpc]
      rfl
    · refine atEnd_of_elemsOf ?_
      rw [h.bytes, hpc]
      rfl
    · exact h.allowed t op (by rw [hpc]; exact hp)
  | release t q ret hpc hmove =>
    have hcounts := hmove.sameCounts
    refine h.move hbase (fun c => (hcounts c).1) (by rw [(hcounts _).2, (hcounts _).2, h.eof])
      hmove.accepted hmove.returned hmove.pc (fun c => ?_) (fun c => False.elim) (fun op hp => ?_)
      fun _ _ hp => nomatch hp
    · rw [hpc]
      rfl
    · exact h.allowed t op (by rw [hpc]; exact hp)
  | latch t hpc hchan hmove =>
    refine h.move hbase (fun c => by rw [hchan]; exact ⟨rfl, rfl, rfl⟩) (by rw [hchan])
      hmove.accepted hmove.returned hmove.pc (fun c => ?_) (fun c => False.elim)
      (fun op hp => nomatch hp) fun _ _ hp => nomatch hp
    rw [hpc]
    rfl

theorem Steps.stream (hrun : Steps cap (Mixed frames) s s')
    (h : Stream cap (Mixed frames) s) : Stream cap (Mixed frames) s' := by
  induction hrun with
  | refl => exact h
  | tail _ hstep ih => exact hstep.effect.stream ih

/-! ### End of file -/

/-- After end of file nothing is accepted, and it stays. -/
theorem Effect.closed (he : Effect cap ok s s') (h : Base cap s)
    (heof : ∀ c, (s.chan c).eof = true) :
    (∀ c, (s'.chan c).eof = true) ∧ s'.accepted = s.accepted := by
  cases he with
  | quiet t p hmove | start t p op hmove =>
    exact ⟨fun c => by rw [hmove.chan]; exact heof c, hmove.accepted⟩
  | hold t c x next hhold =>
    obtain ⟨hflow, hclosed, -, -⟩ := hhold.ok (h.ring c)
    constructor
    · rw [hhold.chan]
      exact (forall_update_iff s.chan fun _ ch => ch.eof = true).mpr
        ⟨hflow.eof.trans (heof c), fun c' _ => heof c'⟩
    · rw [hhold.accepted, hclosed (heof c), tagged_nil, append_nil, update_eq_self]
  | acquire t q hpc hfree hmove | release t q ret hpc hmove =>
    exact ⟨fun c => (hmove.sameCounts c).2.trans (heof c), hmove.accepted⟩
  | latch t hpc hchan hmove => exact ⟨fun c => by rw [hchan], hmove.accepted⟩

theorem Steps.closed (hrun : Steps cap ok s s') (h : Base cap s)
    (heof : ∀ c, (s.chan c).eof = true) : s'.accepted = s.accepted := by
  -- end of file lasts, and with it the base invariant
  have hall : s'.accepted = s.accepted ∧ (∀ c, (s'.chan c).eof = true) ∧ Base cap s' := by
    induction hrun with
    | refl => exact ⟨rfl, heof, h⟩
    | tail _ hstep ih =>
      obtain ⟨hacc, heof', hbase⟩ := ih
      obtain ⟨hclosed, hsame⟩ := hstep.effect.closed hbase heof'
      exact ⟨hsame.trans hacc, hclosed, hstep.effect.base hbase⟩
  exact hall.1

/-- A read not refused hands out the **first** bytes buffered. -/
theorem chanRingRead_eq_take (h : ch.ring.Ok cap) (n : ℤ) :
    (chanRingRead cap ch n).2 = (ch.ring.contents cap).take n.toNat := by
  obtain ⟨hflow, hlen⟩ := chanRingRead_spec h n
  have hpre : (chanRingRead cap ch n).2 <+: ch.ring.contents cap :=
    ⟨_, by rw [← hflow.contents, append_nil]⟩
  rw [prefix_iff_eq_take.mp hpre, take_eq_take_iff, Ring.length_contents]
  omega

/-- What the three readers take from a ring with bytes. -/
structure Readable (cap : ℕ) (c : Dir) (ch : Chan) (n : ℤ) : Prop where
  blocking : (recvTurn cap c ch n).1.took = (ch.ring.contents cap).take n.toNat
  consume : (chanConsumeNonblock cap c ch n).took = (ch.ring.contents cap).take n.toNat
  nonblock : ch.reading = false →
    (ioNonblockRead cap c ch n).took = (ch.ring.contents cap).take n.toNat

theorem readable (h : ch.ring.Ok cap) (hpos : 0 < ch.ring.count) (c : Dir) (n : ℤ) :
    Readable cap c ch n where
  blocking := by
    unfold recvTurn
    rw [if_pos hpos]
    exact chanRingRead_eq_take h n
  consume := by
    unfold chanConsumeNonblock
    rw [if_pos hpos]
    exact chanRingRead_eq_take h n
  nonblock := fun hfree => by
    unfold ioNonblockRead
    rw [if_neg (by rw [hfree]; exact Bool.false_ne_true), if_pos hpos]
    exact chanRingRead_eq_take h n

/-! ### The result -/

theorem Msize.cap_pos (m : Msize) : 0 < m.cap := by cases m <;> decide

/-- The counters differ by what is **buffered**. -/
theorem Stream.count_eq (h : Stream cap ok s) (hcap : cap < 2 ^ 64) (c : Dir) :
    (s.accepted c).length = (s.returned c).length + (s.chan c).ring.count ∧
      ((s.chan c).produced - (s.chan c).consumed).toNat = (s.chan c).ring.count := by
  have hlen : (s.accepted c).length = (s.returned c).length + (s.chan c).ring.count := by
    have := congrArg length (h.flow c)
    simpa only [length_map, length_append, Ring.length_contents] using this
  refine ⟨hlen, ?_⟩
  have hle := (h.base.ring c).count_le
  rw [h.produced, h.consumed, ← UInt64.ofNat_sub (by omega), hlen, Nat.add_sub_cancel_left,
    UInt64.toNat_ofNat', Nat.mod_eq_of_lt (by omega)]

end SrvConn

end Thylacine
