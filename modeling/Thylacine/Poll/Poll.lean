import Mathlib.Data.BitVec
import Thylacine.Kernel.Errno
import Thylacine.Lib.Custody

/-!
# One Call of Poll

`sys_poll_for_proc_spoors` goes round a loop. A pass **scans** the descriptors: it resolves each to
an object, and the device either samples the object and hooks the call's waiter onto the object's
list, or sends a readiness **snapshot** to a server. Then the pass **settles** the snapshots,
collects the answers and decides. If nothing is ready it arms the remote descriptors and parks;
when the park ends it takes every hook off, puts every reference and goes round.

A call is a step machine with its arrays and its program counter (`PollCall`). What is not the
call's own is chosen freely at each step: what a descriptor resolves to, how a device answers, when
a snapshot is answered and a hook flagged, the clock, the notes and the deaths. The call
keeps **books** of the references it takes and puts; an `extinction`, or a use of a reference
that is not there, is the flag `extinct`.
-/

namespace Thylacine

namespace Poll

open Custody

/-! ### Events and objects -/

/-- The bits of `events` and `revents`. -/
abbrev Events := BitVec 16

/-- `POLL_REQUESTABLE`: `POLLIN` and `POLLOUT`. -/
def requestable : Events := 0x005

/-- `POLLNVAL`. -/
def pollNval : Events := 0x020

/-- `POLL_OUTPUT_ONLY`: `POLLERR`, `POLLHUP` and `POLLNVAL`. -/
def outputOnly : Events := 0x038

/-- `POLL_MAX_NFDS`. -/
def pollMaxNfds : ℕ := 64

/-- The kinds of objects that `poll_scan_one` tells apart. -/
inductive Kind
  | spoor
  | srv
  | loom
  /-- Any other kind, and whether `handle_acquire_obj` counts it. -/
  | other (counted : Bool)
  deriving DecidableEq

/-- A `handle_get`; the token tells two of them apart. -/
structure Ref where
  tok : ℕ
  kind : Kind
  obj : ℕ
  deriving DecidableEq

/-- `handle_acquire_obj` takes a reference, except of a `KOBJ_SRV`. -/
def Ref.counted (r : Ref) : Bool :=
  match r.kind with
  | .spoor => true
  | .srv => false
  | .loom => true
  | .other counted => counted

/-! ### The arrays of a call -/

/-- `enum poll_snap_state`. -/
inductive SnapState
  | none
  | unsent
  | sent
  | answered
  | expired
  deriving DecidableEq

/-- `struct poll_snap`; `op`: a request is in flight. -/
structure Snap where
  op : Bool := false
  revents : Events := 0
  state : SnapState := .none
  remote : Bool := false
  deriving DecidableEq

/-- The settle waits for the slot. -/
def Snap.Out (s : Snap) : Prop := s.state = .sent ∨ s.state = .unsent

instance (s : Snap) : Decidable s.Out := inferInstanceAs (Decidable (_ ∨ _))

/-- What `poll_snapshot` may leave: a `remote` has a request in flight, or still to be sent. -/
structure Snap.Ok (s : Snap) : Prop where
  remote_of_op : s.op = true → s.remote = true
  remote_of_out : s.Out → s.remote = true
  state_of_remote : s.remote = true → s.state ≠ .none

/-- A descriptor in the arrays: its waiter, on an object's `list` or none, its `held`, its snapshot
and `revents`. -/
structure Entry where
  list : Option ℕ := none
  ready : Bool := false
  held : Option Ref := none
  snap : Snap := {}
  revents : Events := 0
  /-- The object that the device sampled in this pass. -/
  polled : Option ℕ := none
  /-- The object of the last snapshot that the device was asked for. -/
  asked : Option ℕ := none
  deriving DecidableEq

/-- The arguments of a call. -/
structure Args where
  nfds : ℕ
  fd : ℕ → ℤ
  events : ℕ → Events
  /-- What the caller left in `revents`. -/
  revents : ℕ → Events := fun _ => 0
  timeoutMs : ℤ
  /-- `g_poll_snap_bound_ns`, which a test may set. -/
  snapBound : ℕ := 0

/-! ### The clock -/

/-- One past the greatest value of a `u64`. -/
def u64 : ℕ := 2 ^ 64

/-- The deadline of a call from `now`; `0` is none. -/
def deadlineNs (timeoutMs : ℤ) (now : ℕ) : ℕ :=
  if 0 < timeoutMs then
    let dl := (now + timeoutMs.toNat * 1000000) % u64
    let dl := if dl < now then u64 - 1 else dl
    if dl = 0 then 1 else dl
  else 0

/-- `poll_expired`. -/
def pollExpired (timeoutMs : ℤ) (deadline now : ℕ) : Bool :=
  timeoutMs = 0 || (deadline ≠ 0 && deadline ≤ now)

/-- `POLL_SNAP_RESEND_NS`. -/
def pollSnapResendNs : ℕ := 1000000

/-- `POLL_SNAP_BOUND_NS`. -/
def pollSnapBoundNs : ℕ := 1000000000

/-- `POLL_ARM_RETRY_NS`. -/
def pollArmRetryNs : ℕ := 10000000

/-! ### The call -/

/-- Why `poll_unhook_all` runs: to go round, or to return. -/
inductive Leave
  | again
  | ret (r : ℤ)
  deriving DecidableEq

/-- A pass of `poll_settle`: its clock, and three flags. -/
structure Settle where
  now : ℕ
  resend : Bool
  out : Bool := false
  unsent : Bool := false
  deriving DecidableEq

/-- The program counter. -/
inductive Pc
  /-- At the top of the loop. -/
  | pass
  | scan (i : ℕ)
  /-- In `poll_scan_one`, with the handle. -/
  | polling (i : ℕ)
  /-- In `poll_scan_one`, at the retain decision. -/
  | keep (i : ℕ)
  | settleTop
  | settle (p : Settle) (i : ℕ)
  /-- Past the bound of a slot, after the release. -/
  | expiring (p : Settle) (i : ℕ)
  | settleSleep
  /-- In `poll_release_snaps`: of `poll_collect`, or of the sweep with the result. -/
  | releasing (sweep : Option ℤ) (i : ℕ)
  | collect
  | verdict
  | arm (i : ℕ)
  /-- At the test of the flags in `tsleep_noteintr`. -/
  | park
  | asleep
  /-- The three loops of `poll_unhook_all`. -/
  | unlist (l : Leave) (i : ℕ)
  | putting (l : Leave) (i : ℕ)
  | clear (l : Leave)
  /-- At the die-check and the stop detour after the hooks are off. -/
  | between
  | done (r : ℤ)
  deriving DecidableEq

/-- The state of a call. -/
structure PollCall where
  pc : Pc
  ent : ℕ → Entry
  /-- The handle `hh` of the scan. -/
  cur : Option Ref := none
  expired : Bool := false
  anyRemote : Bool := false
  deadline : ℕ := 0
  parkDl : ℕ := 0
  covered : Bool := true
  limit : ℕ := 0
  resendAt : ℕ := 0
  readyCount : ℕ := 0
  now : ℕ
  /-- `thread_die_pending`. -/
  dying : Bool := false
  /-- `thread_caught_note_unwinds`. -/
  caught : Bool := false
  /-- The call has found that the thread is to die. -/
  sawDeath : Bool := false
  taken : List Ref := []
  puts : List Ref := []
  extinct : Bool := false

namespace Entry

/-- The start of `poll_scan_one`: the handle zeroed, the slot as for a new pass. -/
def opened (e : Entry) : Entry := { e with held := none, polled := none, snap := {} }

/-- `poll_snapshot_release`. -/
def released (e : Entry) : Entry := { e with snap := { e.snap with op := false } }

/-- The settle's fail-safe: an answer that came first stands. -/
def failsafe (e : Entry) : Entry :=
  if e.snap.state = .answered then e else { e with snap := { e.snap with state := .expired } }

/-- An answer to the request. -/
def answered (ev : Events) (e : Entry) : Entry :=
  { e with snap := { e.snap with revents := ev, state := .answered } }

/-- The entry's `revents` in `poll_collect`. -/
def collected (e : Entry) : Entry :=
  if e.snap.remote then
    { e with revents := if e.snap.state = .answered then e.snap.revents else 0 }
  else e

end Entry

namespace PollCall

variable (a : Args) (s : PollCall) (i : ℕ)

/-- `poll_cond_any_flagged`. -/
def anyFlagged : Bool := (List.range a.nfds).any fun i => (s.ent i).ready

/-- The number of entries with an event. -/
def countReady (ent : ℕ → Entry) : ℕ := (List.range a.nfds).countP fun i => (ent i).revents ≠ 0

def set (e : Entry) : PollCall := { s with ent := Function.update s.ent i e }

def goto (pc : Pc) : PollCall := { s with pc := pc }

/-- Where references are kept: the scan's handle, and `held`. -/
def slot : Option ℕ → Option Ref
  | none => s.cur
  | some i => (s.ent i).held

/-- `handle_get`, or `handle_snapshot_spoor` when resolved. -/
def handleGet (r : Ref) : PollCall :=
  { s with cur := some r, taken := book Ref.counted r s.taken }

/-- `poll_waiter_list_register`. -/
def register (o : ℕ) : PollCall :=
  if (s.ent i).list = none then s.set i { s.ent i with list := some o }
  else { s with extinct := true }

/-- The retain decision: the scan's handle is kept if its object has the hook or a snapshot, else
put. -/
def keepOrPut (r : Ref) : PollCall :=
  if (s.expired = false ∧ (s.ent i).list.isSome) ∨ (s.ent i).snap.remote then
    { s.set i { s.ent i with held := some r } with cur := none }
  else
    { s with cur := none, puts := book Ref.counted r s.puts }

/-- `handle_put(&held[i])`. -/
def handlePut : PollCall :=
  match (s.ent i).held with
  | none => s
  | some r => { s.set i { s.ent i with held := none } with puts := book Ref.counted r s.puts }

/-- An operation on `held[i]`, which must be there. -/
def withHeld (f : Ref → PollCall → PollCall) : PollCall :=
  match (s.ent i).held with
  | none => { s with extinct := true }
  | some r => f r s

/-- The release of a slot that has a request. -/
def release : PollCall :=
  if (s.ent i).snap.op then s.withHeld i fun _ s => s.set i (s.ent i).released else s

/-- The call has found the thread dying, and sweeps. -/
def die : PollCall := { s with sawDeath := true, pc := .releasing (some 0) 0 }

/-- The park's deadline, with the retry timer if a descriptor is uncovered. -/
def parkDeadline (deadline now : ℕ) (covered : Bool) : ℕ :=
  let retry := (now + pollArmRetryNs) % u64
  if covered then deadline else if deadline = 0 ∨ retry < deadline then retry else deadline

/-- After the `verdict`: events and the sweep; then note, deadline, park. -/
def decide : PollCall :=
  if 0 < s.readyCount then s.goto (.releasing (some s.readyCount) 0)
  else if s.caught then s.goto (.releasing (some (-tEIntr)) 0)
  else if pollExpired a.timeoutMs s.deadline s.now then s.goto (.releasing (some 0) 0)
  else { s with pc := if s.anyRemote then .arm 0 else .park, covered := true, parkDl := s.deadline }

end PollCall

/-- The pass of the settle after a slot in state `st`. -/
def Settle.see (p : Settle) (st : SnapState) : Settle :=
  { p with unsent := p.unsent || st = .unsent, out := p.out || st = .sent }

/-- What a step does with the objects and lists. -/
inductive Act
  | tau
  /-- The device of descriptor `i` samples object `o`, and hooks the waiter if it has one. -/
  | sample (i o : ℕ) (hook : Bool) (ev : Events)
  /-- The device sends a snapshot, sends it again, or arms the descriptor. -/
  | remote
  | unlist (i : ℕ)
  /-- The waiters are flagged by walks of the lists they are on. -/
  | wake (l : List ℕ)
  deriving DecidableEq

/-- A step of a call, or of what is around it. -/
inductive Step (a : Args) (s : PollCall) : Act → PollCall → Prop
  | pass (hpc : s.pc = .pass) :
      Step a s .tau { s with
        pc := .scan 0, anyRemote := false, expired := pollExpired a.timeoutMs s.deadline s.now }
  -- the scan
  | outlived {i} (hpc : s.pc = .scan i) (hi : i < a.nfds) (hop : (s.ent i).snap.op = true) :
      Step a s .tau { s with extinct := true }
  | invalid {i} (hpc : s.pc = .scan i) (hi : i < a.nfds) (hop : (s.ent i).snap.op = false) :
      Step a s .tau ((s.set i { (s.ent i).opened with revents := pollNval }).goto (.scan (i + 1)))
  | get {i} (r : Ref) (hpc : s.pc = .scan i) (hi : i < a.nfds) (hop : (s.ent i).snap.op = false)
      (hfd : 0 ≤ a.fd i) (hnew : r ∉ s.taken ∧ ∀ p, s.slot p ≠ some r) :
      Step a s .tau (((s.set i (s.ent i).opened).handleGet r).goto (.polling i))
  | malformed {i r} (hpc : s.pc = .polling i) (hcur : s.cur = some r) (hkind : r.kind = .spoor) :
      Step a s .tau ((s.set i { s.ent i with revents := pollNval }).goto (.keep i))
  | snapshot {i r} (x : Snap) (hx : x.Ok) (hpc : s.pc = .polling i) (hcur : s.cur = some r)
      (hkind : r.kind = .spoor) :
      Step a s .remote ((s.set i { s.ent i with
        snap := x, asked := some r.obj
        revents := if x.remote then 0 else x.revents }).goto (.keep i))
  | sample {i r} (ev : Events) (hpc : s.pc = .polling i) (hcur : s.cur = some r)
      (hkind : ∀ c, r.kind ≠ .other c) :
      Step a s (.sample i r.obj false ev)
        ((s.set i { s.ent i with revents := ev, polled := some r.obj }).goto (.keep i))
  | hook {i r} (ev : Events) (hpc : s.pc = .polling i) (hcur : s.cur = some r)
      (hkind : ∀ c, r.kind ≠ .other c) (hhook : s.expired = false) :
      Step a s (.sample i r.obj true ev)
        (((s.set i { s.ent i with revents := ev, polled := some r.obj }).register i r.obj).goto
          (.keep i))
  | regular {i r} (hpc : s.pc = .polling i) (hcur : s.cur = some r) (hkind : r.kind = .spoor) :
      Step a s .tau ((s.set i { s.ent i with revents := a.events i &&& requestable }).goto (.keep i))
  | noReadiness {i r c} (hpc : s.pc = .polling i) (hcur : s.cur = some r)
      (hkind : r.kind = .other c) :
      Step a s .tau ((s.set i { s.ent i with revents := pollNval }).goto (.keep i))
  | keep {i r} (hpc : s.pc = .keep i) (hcur : s.cur = some r) :
      Step a s .tau { s.keepOrPut i r with
        pc := .scan (i + 1), anyRemote := s.anyRemote || (s.ent i).snap.remote }
  | scanned (hpc : s.pc = .scan a.nfds) :
      Step a s .tau { s with
        pc := if s.anyRemote then .settleTop else .releasing none 0
        limit := (s.now + if a.snapBound = 0 then pollSnapBoundNs else a.snapBound) % u64
        resendAt := (s.now + pollSnapResendNs) % u64 }
  -- the settle
  | settleTop (hpc : s.pc = .settleTop) :
      Step a s .tau { s with
        pc := .settle { now := s.now, resend := decide (s.resendAt ≤ s.now) } 0
        resendAt := if s.resendAt ≤ s.now then (s.now + pollSnapResendNs) % u64 else s.resendAt }
  | settleSkip {p i} (hpc : s.pc = .settle p i) (hi : i < a.nfds) (hout : ¬(s.ent i).snap.Out) :
      Step a s .tau (s.goto (.settle p (i + 1)))
  | settleLate {p i} (hpc : s.pc = .settle p i) (hi : i < a.nfds) (hout : (s.ent i).snap.Out)
      (hlate : s.limit ≤ p.now) :
      Step a s .tau ((s.release i).goto (.expiring p i))
  | settleExpire {p i} (hpc : s.pc = .expiring p i) :
      Step a s .tau ((s.set i (s.ent i).failsafe).goto (.settle p (i + 1)))
  | settleResend {p i} (x : Snap) (hx : x.Ok) (hpc : s.pc = .settle p i) (hi : i < a.nfds)
      (hunsent : (s.ent i).snap.state = .unsent) (hnow : p.now < s.limit)
      (hresend : p.resend = true) :
      Step a s .remote ((s.withHeld i fun r s => s.set i { s.ent i with
        snap := x, asked := some r.obj }).goto (.settle (p.see x.state) (i + 1)))
  | settleWait {p i} (hpc : s.pc = .settle p i) (hi : i < a.nfds) (hout : (s.ent i).snap.Out)
      (hnow : p.now < s.limit) (hresend : (s.ent i).snap.state = .unsent → p.resend = false) :
      Step a s .tau (s.goto (.settle (p.see (s.ent i).snap.state) (i + 1)))
  | settled {p} (hpc : s.pc = .settle p a.nfds) :
      Step a s .tau (s.goto (if p.out || p.unsent then .settleSleep else .releasing none 0))
  | settleWakes (hpc : s.pc = .settleSleep) : Step a s .tau (s.goto .settleTop)
  | settleDeath (hpc : s.pc = .settleSleep) (hdie : s.dying = true) : Step a s .tau s.die
  -- the answers and the verdict
  | release {sweep i} (hpc : s.pc = .releasing sweep i) (hi : i < a.nfds) :
      Step a s .tau ((s.release i).goto (.releasing sweep (i + 1)))
  | released (hpc : s.pc = .releasing none a.nfds) : Step a s .tau (s.goto .collect)
  | collect (hpc : s.pc = .collect) :
      Step a s .tau { s with
        ent := fun i => (s.ent i).collected
        readyCount := PollCall.countReady a fun i => (s.ent i).collected
        pc := .verdict }
  | verdict (hpc : s.pc = .verdict) : Step a s .tau (s.decide a)
  -- the arm and the park
  | armSkip {i} (hpc : s.pc = .arm i) (hi : i < a.nfds) (hlocal : (s.ent i).snap.remote = false) :
      Step a s .tau (s.goto (.arm (i + 1)))
  | armOne {i} (hook covered : Bool) (hpc : s.pc = .arm i) (hi : i < a.nfds)
      (hremote : (s.ent i).snap.remote = true) :
      Step a s .remote { s.withHeld i fun r s => if hook then s.register i r.obj else s with
        covered := s.covered && covered, pc := .arm (i + 1) }
  | armed (hpc : s.pc = .arm a.nfds) :
      Step a s .tau { s with
        parkDl := PollCall.parkDeadline s.deadline s.now s.covered, pc := .park }
  | blocks (hpc : s.pc = .park) (hflag : s.anyFlagged a = false) : Step a s .tau (s.goto .asleep)
  | awoken (hpc : s.pc = .park ∨ s.pc = .asleep) (hflag : s.anyFlagged a = true) :
      Step a s .tau (s.goto (.unlist .again 0))
  | timedOut (hpc : s.pc = .park ∨ s.pc = .asleep) (hdl : s.parkDl ≠ 0 ∧ s.parkDl ≤ s.now) :
      Step a s .tau (s.goto (.unlist .again 0))
  | interrupted (hpc : s.pc = .park ∨ s.pc = .asleep) (hdie : s.dying = true) : Step a s .tau s.die
  | noteIntr (hpc : s.pc = .park ∨ s.pc = .asleep) (hflag : s.anyFlagged a = false)
      (hnote : s.caught = true) : Step a s .tau (s.goto (.releasing (some (-tEIntr)) 0))
  -- the hooks off and the references put
  | sweep {r} (hpc : s.pc = .releasing (some r) a.nfds) :
      Step a s .tau (s.goto (.unlist (.ret r) 0))
  | unlist {l i} (hpc : s.pc = .unlist l i) (hi : i < a.nfds) :
      Step a s (.unlist i) ((s.set i { s.ent i with list := none }).goto (.unlist l (i + 1)))
  | unlisted {l} (hpc : s.pc = .unlist l a.nfds) : Step a s .tau (s.goto (.putting l 0))
  | put {l i} (hpc : s.pc = .putting l i) (hi : i < a.nfds) :
      Step a s .tau ((s.handlePut i).goto (.putting l (i + 1)))
  | allPut {l} (hpc : s.pc = .putting l a.nfds) : Step a s .tau (s.goto (.clear l))
  | clear {l} (hpc : s.pc = .clear l) :
      Step a s .tau { s with
        ent := fun i => if i < a.nfds then { s.ent i with ready := false } else s.ent i
        pc := match l with
          | .again => .between
          | .ret r => .done r }
  | goesRound (hpc : s.pc = .between) (hdie : s.dying = false) : Step a s .tau (s.goto .pass)
  | dies (hpc : s.pc = .between) (hdie : s.dying = true) : Step a s .tau s.die
  -- what is around the call
  | answer {i} (ev : Events) (hi : i < a.nfds) (hop : (s.ent i).snap.op = true)
      (hsent : (s.ent i).snap.state = .sent) : Step a s .tau (s.set i ((s.ent i).answered ev))
  | wake (l : List ℕ) (hl : ∀ i ∈ l, (s.ent i).list ≠ none) :
      Step a s (.wake l) { s with
        ent := fun i => if i ∈ l then { s.ent i with ready := true } else s.ent i }
  | tick (now : ℕ) (h : s.now ≤ now) : Step a s .tau { s with now := now }
  | signals (dying caught : Bool) : Step a s .tau { s with dying := dying, caught := caught }

/-- The call, as it enters the kernel at time `now`. -/
def sysPoll (a : Args) (now : ℕ) : PollCall :=
  { pc := if a.nfds = 0 ∨ pollMaxNfds < a.nfds then .done (-1) else .pass
    ent := fun i => { revents := a.revents i }
    deadline := deadlineNs a.timeoutMs now
    now := now }

/-- A **run** of a call. -/
def Steps (a : Args) : PollCall → PollCall → Prop :=
  Relation.ReflTransGen fun s s' => ∃ act, Step a s act s'

end Poll

end Thylacine
