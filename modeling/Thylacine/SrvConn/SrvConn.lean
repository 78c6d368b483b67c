import Mathlib.Logic.Relation
import Thylacine.Kernel.Errno
import Thylacine.Lib.RingBuffer
import Thylacine.Lib.TaggedStream

/-!
# Connections to a Service

`kernel/srvconn.c`, with `tsleep` and `wakeup` of `kernel/sched.c` and the lists of hooks of
`kernel/poll.c`. A connection is two rings of bytes, one for each direction; any number of calls
send, receive, poll and tear it down at once.

The functions of the first part are what a call does in one hold of a channel's lock. The step
relation of the second part lets the calls interleave: a hold of the lock, a turn of the loop of
`tsleep`, the delivery of one wake and an unregistration are steps of their own. A call that has
changed a ring carries the wakes that it still has to deliver, in the order of the source.

A rendez has one waiter; a second one is an extinction. The rendez of a contender for a role, or of
a poll call, is on its own stack, so the call is asleep on it or not. Timeouts, interrupts and stops
may end a sleep at any time. A poll call has one hook here; what its other descriptors do to it is
an interrupt.

Left out are the identities of the two sides, the reference count, and the counters that only
`/ctl` reads (`s2c_frames`).
-/

namespace Thylacine

open RingBuffer TaggedStream
open Function (update)

/-- The two directions: client to server, and back. -/
inductive Dir where
  | c2s
  | s2c
  deriving DecidableEq, Repr

namespace SrvConn

/-- The ring classes, `SRVCONN_MSIZE` and `SRVCONN_BULK_MSIZE`. -/
inductive Msize where
  | default
  | bulk
  deriving DecidableEq, Repr

def Msize.bytes : Msize → ℕ
  | .default => 32 * 1024
  | .bulk => 128 * 1024

/-- The capacity of both rings. -/
def Msize.cap (m : Msize) : ℕ := 2 * m.bytes

/-! ### The channel -/

/-- What the lock protects in `struct srvconn_chan`. -/
structure Chan where
  ring : RingBuffer.Ring UInt8
  eof : Bool
  reading : Bool
  writing : Bool
  produced : UInt64
  consumed : UInt64

/-- `chan_init`. -/
def chanInit : Chan := ⟨⟨0, 0, 0, fun _ => 0⟩, false, false, false, 0, 0⟩

/-- The writing role or the reading role. -/
def Chan.role (ch : Chan) (writer : Bool) : Bool := if writer then ch.writing else ch.reading

def Chan.setRole (ch : Chan) (writer : Bool) (held : Bool) : Chan :=
  if writer then { ch with writing := held } else { ch with reading := held }

/-- A wake to deliver: of `rendez` or `wrendez`, of a role's contenders, or of the pollers. -/
inductive Wake where
  | rendez (c : Dir)
  | wrendez (c : Dir)
  | role (c : Dir)
  | poll
  deriving DecidableEq, Repr

section

variable (cap : ℕ)

/-- `chan_ring_write`: the number of bytes taken. -/
def chanRingWrite (ch : Chan) (buf : ℕ → UInt8) (n : ℤ) : Chan × ℤ :=
  if n ≤ 0 then (ch, 0)
  else
    let avail := cap - ch.ring.count
    let want := if (avail : ℤ) < n then avail else n.toNat
    if want = 0 then (ch, 0)
    else
      ({ ch with
          ring := ch.ring.push cap buf want
          produced := ch.produced + UInt64.ofNat want }, want)

/-- `chan_ring_read`: the bytes that were read. -/
def chanRingRead (ch : Chan) (n : ℤ) : Chan × List UInt8 :=
  if n ≤ 0 then (ch, [])
  else
    let want := if (ch.ring.count : ℤ) < n then ch.ring.count else n.toNat
    if want = 0 then (ch, [])
    else
      ({ ch with
          ring := (ch.ring.pop cap want).1
          consumed := ch.consumed + UInt64.ofNat want }, (ch.ring.pop cap want).2)

/-- `chan_cond_readable`. -/
def chanCondReadable (ch : Chan) : Bool := 0 < ch.ring.count || ch.eof

/-- `chan_cond_writable`. -/
def chanCondWritable (ch : Chan) : Bool := ch.ring.count < cap || ch.eof

/-- A hold of the lock: the channel after it, the bytes accepted and handed out, the call's value,
and the wakes to follow. -/
structure Hold where
  ch : Chan
  put : List UInt8 := []
  took : List UInt8 := []
  rc : ℤ
  wakes : List Wake := []

/-- `chan_produce`, with its wake of the pollers. -/
def chanProduce (c : Dir) (ch : Chan) (buf : ℕ → UInt8) (n : ℤ) : Hold :=
  if ch.eof then { ch := ch, rc := -1 }
  else
    let (ch, put) := chanRingWrite cap ch buf n
    { ch := ch, put := slice buf put.toNat, rc := put
      wakes := if 0 < put then [.rendez c, .poll] else [] }

/-- `chan_consume_nonblock`, with `srvconn_server_recv`'s wake of the pollers. -/
def chanConsumeNonblock (c : Dir) (ch : Chan) (n : ℤ) : Hold :=
  if 0 < ch.ring.count then
    let (ch, took) := chanRingRead cap ch n
    { ch := ch, took := took, rc := took.length
      wakes := .wrendez c :: if 0 < took.length then [.poll] else [] }
  else { ch := ch, rc := if ch.eof then -1 else 0 }

/-- `srvconn_client_send_frame`, past its capacity check. -/
def sendFrame (ch : Chan) (buf : ℕ → UInt8) (n : ℤ) : Hold :=
  if ch.eof then { ch := ch, rc := -1 }
  else if n > (cap - ch.ring.count : ℕ) then { ch := ch, rc := 0 }
  else
    let (ch, put) := chanRingWrite cap ch buf n
    { ch := ch, put := slice buf put.toNat, rc := put
      wakes := if 0 < put then [.rendez .c2s, .poll] else [] }

/-- `srvconn_io_nonblock` of a writer. -/
def ioNonblockWrite (c : Dir) (ch : Chan) (buf : ℕ → UInt8) (n : ℤ) : Hold :=
  if ch.eof then { ch := ch, rc := -tEPipe }
  else if ch.writing then { ch := ch, rc := -tEAgain }
  else
    let (ch, put) := chanRingWrite cap ch buf n
    { ch := ch, put := slice buf put.toNat, rc := if put = 0 then -tEAgain else put
      wakes := if 0 < put then [.rendez c, .poll] else [] }

/-- A reader's `srvconn_io_nonblock`, and `srvconn_client_recv_now`. -/
def ioNonblockRead (c : Dir) (ch : Chan) (n : ℤ) : Hold :=
  if ch.reading then { ch := ch, rc := -tEAgain }
  else if 0 < ch.ring.count then
    let (ch, took) := chanRingRead cap ch n
    { ch := ch, took := took, rc := took.length
      wakes := if 0 < took.length then [.wrendez c, .poll] else [] }
  else { ch := ch, rc := if ch.eof then 0 else -tEAgain }

/-! ### Calls -/

/-- The calls with a role: `srvconn_client_send_blocking` and `srvconn_server_send_blocking`,
`srvconn_server_recv_blocking` and `srvconn_client_recv`. -/
inductive Blocking where
  | send (c : Dir) (buf : ℕ → UInt8) (n : ℤ)
  | recv (c : Dir) (n : ℤ)

/-- The calls with one hold: `srvconn_client_send` and `srvconn_server_send`,
`srvconn_client_send_frame`, `srvconn_io_nonblock`, `srvconn_client_recv_now`, and
`srvconn_server_recv`. -/
inductive Instant where
  | send (c : Dir) (buf : ℕ → UInt8) (n : ℤ)
  | frame (buf : ℕ → UInt8) (n : ℤ)
  | ioWrite (c : Dir) (buf : ℕ → UInt8) (n : ℤ)
  | ioRead (c : Dir) (n : ℤ)
  | recvNow (n : ℤ)
  | recv (n : ℤ)

def Blocking.dir : Blocking → Dir
  | .send c _ _ => c
  | .recv c _ => c

def Blocking.writer : Blocking → Bool
  | .send _ _ _ => true
  | .recv _ _ => false

def Instant.dir : Instant → Dir
  | .send c _ _ => c
  | .frame _ _ => .c2s
  | .ioWrite c _ _ => c
  | .ioRead c _ => c
  | .recvNow _ => .s2c
  | .recv _ => .c2s

/-- The argument checks; a value is returned at once. -/
def entry (hasBuf : Bool) (n : ℤ) : Option ℤ :=
  if hasBuf = false ∨ n < 0 then some (-1) else if n = 0 then some 0 else none

/-- The argument checks of `srvconn_io_nonblock`. -/
def entryIo (hasBuf : Bool) (n : ℤ) : Option ℤ :=
  if n < 0 ∨ (hasBuf = false ∧ n ≠ 0) then some (-tEInval) else if n = 0 then some 0 else none

def Blocking.entry (hasBuf : Bool) : Blocking → Option ℤ
  | .send _ _ n => SrvConn.entry hasBuf n
  | .recv _ n => SrvConn.entry hasBuf n

def Instant.entry (hasBuf : Bool) : Instant → Option ℤ
  | .send _ _ n => SrvConn.entry hasBuf n
  | .frame _ n => (SrvConn.entry hasBuf n).or (if n > cap then some (-1) else none)
  | .ioWrite _ _ n => entryIo hasBuf n
  | .ioRead _ n => entryIo hasBuf n
  | .recvNow n => SrvConn.entry hasBuf n
  | .recv n => SrvConn.entry hasBuf n

/-- What a call that holds the lock once does in it. -/
def Instant.hold (ch : Chan) : Instant → Hold
  | .send c buf n => chanProduce cap c ch buf n
  | .frame buf n => sendFrame cap ch buf n
  | .ioWrite c buf n => ioNonblockWrite cap c ch buf n
  | .ioRead c n => ioNonblockRead cap c ch n
  | .recvNow n => ioNonblockRead cap .s2c ch n
  | .recv n => chanConsumeNonblock cap .c2s ch n

/-- A role holder returns, or sleeps for data or room. -/
inductive Turn where
  | ret (rc : ℤ)
  | sleep (done : ℕ)
  deriving DecidableEq, Repr

/-- A turn of `srvconn_server_send_blocking` and `srvconn_client_send_blocking`, with `done` bytes
sent. -/
def sendTurn (c : Dir) (ch : Chan) (buf : ℕ → UInt8) (n : ℤ) (done : ℕ) : Hold × Turn :=
  let h := chanProduce cap c ch (fun i => buf (done + i)) (n - done)
  if h.rc < 0 then (h, .ret (if 0 < done then done else -1))
  else
    let done := done + h.rc.toNat
    (h, if n ≤ done then .ret done else .sleep done)

/-- A turn of `srvconn_client_recv` and `srvconn_server_recv_blocking`. -/
def recvTurn (c : Dir) (ch : Chan) (n : ℤ) : Hold × Turn :=
  if 0 < ch.ring.count then
    let (ch, took) := chanRingRead cap ch n
    ({ ch := ch, took := took, rc := took.length, wakes := [.wrendez c, .poll] }, .ret took.length)
  else if ch.eof then ({ ch := ch, rc := 0 }, .ret 0)
  else ({ ch := ch, rc := 0 }, .sleep 0)

def Blocking.turn (ch : Chan) (done : ℕ) : Blocking → Hold × Turn
  | .send c buf n => sendTurn cap c ch buf n done
  | .recv c n => recvTurn cap c ch n

/-- What a blocking call returns when interrupted. -/
def Blocking.interrupted (done : ℕ) : Blocking → ℤ
  | .send _ _ _ => if 0 < done then done else -1
  | .recv _ _ => -1

/-! ### Readiness -/

/-- The events of a poll. -/
inductive Ev where
  | pollin
  | pollout
  | pollhup
  | pollerr
  deriving DecidableEq, Repr

def Ev.all : List Ev := [.pollin, .pollout, .pollhup, .pollerr]

/-- A poll of one endpoint, for some events. -/
structure PollReq where
  client : Bool
  events : Ev → Bool

/-- `srvconn_poll`, without its hook: the events reported. -/
def srvconnPoll (chan : Dir → Chan) (p : PollReq) (e : Ev) : Bool :=
  let rd := if p.client then chan .s2c else chan .c2s
  let wr := if p.client then chan .c2s else chan .s2c
  match e with
  | .pollin => decide (0 < rd.ring.count) && p.events .pollin
  | .pollout => (!wr.eof && decide (wr.ring.count < cap)) && p.events .pollout
  | .pollhup => rd.eof
  | .pollerr => wr.eof

/-- An event that is asked for becomes true. -/
def rises (chan chan' : Dir → Chan) (p : PollReq) : Bool :=
  Ev.all.any fun e => !srvconnPoll cap chan p e && srvconnPoll cap chan' p e

end

/-! ### Program counters -/

inductive Op where
  | blocking (q : Blocking)
  | instant (q : Instant)

/-- In `tsleep`, for a role, data or room, or an event. -/
inductive Sleep where
  | role (q : Blocking)
  | body (q : Blocking) (done : ℕ)
  | poll (p : PollReq)

/-- Where a call goes on after its wakes. -/
inductive Next where
  | ret (op : Op) (rc : ℤ)
  | release (q : Blocking) (ret : ℤ)
  | sleep (q : Blocking) (done : ℕ)
  | finished

/-- Where a call is. Each call is made once. -/
inductive Pc where
  | idle
  /-- about to take the lock, once -/
  | trying (q : Instant)
  /-- at the head of the loop of `chan_role_acquire` -/
  | acquire (q : Blocking)
  /-- at the head of the loop of `tsleep` -/
  | tsleep (z : Sleep)
  | asleep (z : Sleep)
  /-- out of the sleep for a role, with its hook still on the list -/
  | roleLeave (q : Blocking) (awoken : Bool)
  /-- holds the role, at the head of its loop -/
  | body (q : Blocking) (done : ℕ)
  /-- about to release the role -/
  | release (q : Blocking) (ret : ℤ)
  | waking (ws : List Wake) (next : Next)
  /-- `srvconn_teardown`, about to latch end of file -/
  | latching
  | polling (p : PollReq)
  /-- out of the sleep for an event, with its hook still on the list -/
  | pollLeave (p : PollReq)
  /-- a transfer has returned -/
  | ret (op : Op) (rc : ℤ)
  /-- a teardown or a poll has returned -/
  | finished

def Next.pc : Next → Pc
  | .ret op rc => .ret op rc
  | .release q rc => .release q rc
  | .sleep q done => .tsleep (.body q done)
  | .finished => .finished

def Turn.next (q : Blocking) : Turn → Next
  | .ret rc => .release q rc
  | .sleep done => .sleep q done

/-- Where `tsleep` returns to. -/
def Sleep.resume (awoken : Bool) : Sleep → Pc
  | .role q => .roleLeave q awoken
  | .body q done => if awoken then .body q done else .release q (q.interrupted done)
  | .poll p => .pollLeave p

/-- The rendez of a sleep on the channel: `rendez` or `wrendez`. -/
def Sleep.rendez : Sleep → Option (Dir × Bool)
  | .body q _ => some (q.dir, q.writer)
  | _ => none

/-- The wake that ends the sleep. -/
def Sleep.queue : Sleep → Wake
  | .role q => .role q.dir
  | .body q _ => if q.writer then .wrendez q.dir else .rendez q.dir
  | .poll _ => .poll

/-- The poll whose hook is on the list. -/
def Pc.asks : Pc → Option PollReq
  | .tsleep (.poll p) => some p
  | .asleep (.poll p) => some p
  | .pollLeave p => some p
  | _ => none

/-- The wakes of `srvconn_teardown`. -/
def teardownWakes : List Wake :=
  [.rendez .c2s, .rendez .s2c, .wrendez .c2s, .wrendez .s2c, .role .c2s, .role .s2c, .poll]

end SrvConn

open SrvConn

/-! ### The connection -/

/-- A connection and the calls on it. `waiter` is that of `rendez` (the reader) and `wrendez` (the
writer); a call has one hook in `roleHooks` and `pollHooks`; asleep and `woken`, it is about to run.
History: `accepted`, the bytes accepted, each with its call; `returned`, those handed out; `rose`,
whether an event a poller asked for became true while its hook was listed. -/
structure SrvConn where
  torn : Bool
  chan : Dir → Chan
  waiter : Dir → Bool → Option ℕ
  roleHooks : Dir → List ℕ
  pollHooks : List ℕ
  ready : ℕ → Bool
  woken : ℕ → Bool
  pc : ℕ → Pc
  extinct : Bool
  accepted : Dir → List (ℕ × UInt8)
  returned : Dir → List UInt8
  rose : ℕ → Bool

namespace SrvConn

/-- `srvconn_create`. -/
def create : SrvConn where
  torn := false
  chan := fun _ => chanInit
  waiter := fun _ _ => none
  roleHooks := fun _ => []
  pollHooks := []
  ready := fun _ => false
  woken := fun _ => false
  pc := fun _ => .idle
  extinct := false
  accepted := fun _ => []
  returned := fun _ => []
  rose := fun _ => false

section

variable (cap : ℕ) (s : SrvConn) (t : ℕ)

def goto (p : Pc) : SrvConn := { s with pc := update s.pc t p }

/-- A call passed its checks, or returns at once. -/
def enter (op : Op) (rc : Option ℤ) (p : Pc) : SrvConn :=
  s.goto t (match rc with
    | some rc => .ret op rc
    | none => p)

/-- The channels change, and the pollers' events with them. -/
def setChans (chan : Dir → Chan) : SrvConn :=
  { s with
    chan := chan
    rose := fun u => s.rose u || (s.pc u).asks.any (rises cap s.chan chan) }

/-- A hold of the lock of channel `c`, by call `t`. -/
def held (c : Dir) (h : Hold) (next : Next) : SrvConn :=
  { (s.setChans cap (update s.chan c h.ch)).goto t (.waking h.wakes next) with
    accepted := update s.accepted c (s.accepted c ++ tagged t h.put)
    returned := update s.returned c (s.returned c ++ h.took) }

def setRole (c : Dir) (writer held : Bool) : SrvConn :=
  { s with chan := update s.chan c ((s.chan c).setRole writer held) }

/-- The condition of a sleep. -/
def cond : Sleep → Bool
  | .role q => !(s.chan q.dir).role q.writer
  | .body q _ =>
    if q.writer then chanCondWritable cap (s.chan q.dir) else chanCondReadable (s.chan q.dir)
  | .poll _ => s.ready t

/-- The waiter of a sleep's rendez; the call's own has none yet. -/
def waiterOf (z : Sleep) : Option ℕ := z.rendez.bind fun r => s.waiter r.1 r.2

def setWaiter (z : Sleep) (w : Option ℕ) : SrvConn :=
  match z.rendez with
  | some (c, writer) =>
    { s with waiter := update s.waiter c (update (s.waiter c) writer w) }
  | none => s

/-- The waiter of a rendez is woken, if there is one. -/
def wakeWaiter (c : Dir) (writer : Bool) : SrvConn :=
  match s.waiter c writer with
  | some u =>
    { s with
      waiter := update s.waiter c (update (s.waiter c) writer none)
      woken := update s.woken u true }
  | none => s

/-- `wakeup` and `poll_waiter_list_wake`. -/
def deliver : Wake → SrvConn
  | .rendez c => s.wakeWaiter c false
  | .wrendez c => s.wakeWaiter c true
  | .role c => { s with woken := fun u => s.woken u || (s.roleHooks c).contains u }
  | .poll =>
    { s with
      ready := fun u => s.ready u || s.pollHooks.contains u
      woken := fun u => s.woken u || s.pollHooks.contains u }

/-- `poll_waiter_list_unregister` of a contender's hook. -/
def unregisterRole (c : Dir) : SrvConn :=
  if t ∈ s.roleHooks c then
    { s with roleHooks := update s.roleHooks c ((s.roleHooks c).erase t) }
  else { s with extinct := true }

/-- `poll_unhook_all`. -/
def unhookPoll : SrvConn :=
  if t ∈ s.pollHooks then
    { s with pollHooks := s.pollHooks.erase t, ready := update s.ready t false }
  else { s with extinct := true }

/-- Both directions latch end of file, under both locks. -/
def latchEof : SrvConn := s.setChans cap fun c => { s.chan c with eof := true }

end

/-- **One step** of one call. `ok` says which may be made. -/
inductive Step (cap : ℕ) (ok : Op → Prop) (s : SrvConn) : SrvConn → Prop
  | blocking (t : ℕ) (q : Blocking) (hasBuf : Bool) (hpc : s.pc t = .idle) (hok : ok (.blocking q)) :
      Step cap ok s (s.enter t (.blocking q) (q.entry hasBuf) (.acquire q))
  | instant (t : ℕ) (q : Instant) (hasBuf : Bool) (hpc : s.pc t = .idle) (hok : ok (.instant q)) :
      Step cap ok s (s.enter t (.instant q) (q.entry cap hasBuf) (.trying q))
  | attempt (t : ℕ) (q : Instant) (hpc : s.pc t = .trying q) :
      Step cap ok s (s.held cap t q.dir (q.hold cap (s.chan q.dir))
        (.ret (.instant q) (q.hold cap (s.chan q.dir)).rc))
  /-- `chan_role_acquire` finds the role free. -/
  | acquire (t : ℕ) (q : Blocking) (hpc : s.pc t = .acquire q)
      (hfree : (s.chan q.dir).role q.writer = false) :
      Step cap ok s ((s.setRole q.dir q.writer true).goto t (.body q 0))
  /-- `chan_role_acquire` finds the role held, and registers its hook under the lock. -/
  | contend (t : ℕ) (q : Blocking) (hpc : s.pc t = .acquire q)
      (hheld : (s.chan q.dir).role q.writer = true) :
      Step cap ok s { s.goto t (.tsleep (.role q)) with
        roleHooks := update s.roleHooks q.dir (t :: s.roleHooks q.dir) }
  /-- `tsleep` finds its condition true. -/
  | tsleepReturns (t : ℕ) (z : Sleep) (hpc : s.pc t = .tsleep z) (hcond : s.cond cap t z = true) :
      Step cap ok s (s.goto t (z.resume true))
  /-- `tsleep` finds its condition false, and sleeps. -/
  | tsleepBlocks (t : ℕ) (z : Sleep) (hpc : s.pc t = .tsleep z) (hcond : s.cond cap t z = false)
      (hwaiter : s.waiterOf z = none) :
      Step cap ok s { (s.setWaiter z (some t)).goto t (.asleep z) with
        woken := update s.woken t false }
  /-- `tsleep` finds another waiter. -/
  | tsleepTaken (t u : ℕ) (z : Sleep) (hpc : s.pc t = .tsleep z) (hcond : s.cond cap t z = false)
      (hwaiter : s.waiterOf z = some u) : Step cap ok s { s with extinct := true }
  /-- `tsleep` times out, or is interrupted. -/
  | tsleepInterrupted (t : ℕ) (z : Sleep) (hpc : s.pc t = .tsleep z) :
      Step cap ok s (s.goto t (z.resume false))
  /-- A call that was woken turns round in the loop of `tsleep`. -/
  | resumes (t : ℕ) (z : Sleep) (hpc : s.pc t = .asleep z) (hwoken : s.woken t = true) :
      Step cap ok s (s.goto t (.tsleep z))
  /-- The timer, or a note, wakes a call that is asleep. -/
  | interrupt (t : ℕ) (z : Sleep) (hpc : s.pc t = .asleep z) (hasleep : s.woken t = false) :
      Step cap ok s { s.setWaiter z none with woken := update s.woken t true }
  | roleLeave (t : ℕ) (q : Blocking) (awoken : Bool) (hpc : s.pc t = .roleLeave q awoken) :
      Step cap ok s ((s.unregisterRole t q.dir).goto t
        (if awoken then .acquire q else .ret (.blocking q) (-1)))
  | body (t : ℕ) (q : Blocking) (done : ℕ) (hpc : s.pc t = .body q done) :
      Step cap ok s (s.held cap t q.dir (q.turn cap (s.chan q.dir) done).1
        ((q.turn cap (s.chan q.dir) done).2.next q))
  /-- `chan_role_release`. -/
  | release (t : ℕ) (q : Blocking) (ret : ℤ) (hpc : s.pc t = .release q ret) :
      Step cap ok s ((s.setRole q.dir q.writer false).goto t
        (.waking [.role q.dir] (.ret (.blocking q) ret)))
  | wake (t : ℕ) (w : Wake) (ws : List Wake) (next : Next) (hpc : s.pc t = .waking (w :: ws) next) :
      Step cap ok s ((s.deliver w).goto t (.waking ws next))
  | woke (t : ℕ) (next : Next) (hpc : s.pc t = .waking [] next) : Step cap ok s (s.goto t next.pc)
  | teardown (t : ℕ) (hpc : s.pc t = .idle) (hlive : s.torn = false) :
      Step cap ok s { s.goto t .latching with torn := true }
  | teardownAgain (t : ℕ) (hpc : s.pc t = .idle) (htorn : s.torn = true) :
      Step cap ok s (s.goto t .finished)
  | latch (t : ℕ) (hpc : s.pc t = .latching) :
      Step cap ok s ((s.latchEof cap).goto t (.waking teardownWakes .finished))
  | poll (t : ℕ) (p : PollReq) (hpc : s.pc t = .idle) : Step cap ok s (s.goto t (.polling p))
  /-- `srvconn_poll` without a hook. -/
  | pollSample (t : ℕ) (p : PollReq) (hpc : s.pc t = .polling p) :
      Step cap ok s (s.goto t .finished)
  /-- `srvconn_poll` with a hook; the call sleeps or, if an event is reported or its other
  descriptors want it, does not. -/
  | pollHook (t : ℕ) (p : PollReq) (hpc : s.pc t = .polling p) (leave : Bool)
      (hleave : leave = false → ∀ e, srvconnPoll cap s.chan p e = false) :
      Step cap ok s { s.goto t (if leave then .pollLeave p else .tsleep (.poll p)) with
        pollHooks := t :: s.pollHooks
        rose := update s.rose t false }
  | pollLeave (t : ℕ) (p : PollReq) (again : Bool) (hpc : s.pc t = .pollLeave p) :
      Step cap ok s ((s.unhookPoll t).goto t (if again then .polling p else .finished))

/-- The runs of a connection. -/
abbrev Steps (cap : ℕ) (ok : Op → Prop) : SrvConn → SrvConn → Prop :=
  Relation.ReflTransGen (Step cap ok)

end SrvConn

end Thylacine
