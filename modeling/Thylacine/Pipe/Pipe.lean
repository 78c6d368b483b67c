import Thylacine.Kernel.Errno
import Thylacine.Lib.RingBuffer

/-!
# Pipes

`kernel/pipe.c`, with the list of waiters of `kernel/poll.c`. A pipe is a ring of bytes under a
lock and a list of hooks; any number of calls read, write, poll, hang up and close it at once.

The functions of the first part are what a call does in one hold of the ring lock. The step
relation of the second part lets the calls interleave: a hold of the lock, the registration of a
hook, a walk of the list and an unregistration are steps of their own. A call that blocks keeps
the ring lock from its sample to the unlock after the registration.

The Spoors of the two ends are there as `EndState`: a call can begin on an open end, and an end is
closed when no call uses it. A flag of a Spoor may change at any time, so whether a sample finds
`CNONBLOCK` is a choice of the step. So is whether a poll call ends after a pass: what it does with
its samples and its clock is left out, and so is the note that a writer to a closed pipe is sent.
-/

namespace Thylacine

open RingBuffer

/-- `PIPE_BUF_SIZE`. -/
def pipeBufSize : ℕ := 4096

/-- The two ends of a pipe. -/
inductive PipeEnd where
  | read
  | write
  deriving DecidableEq, Repr

namespace Pipe

/-! ### The ring -/

/-- `ring_write`: the number of bytes taken from `buf`. -/
def ringWrite (r : RingBuffer.Ring UInt8) (buf : ℕ → UInt8) (len : ℤ) : RingBuffer.Ring UInt8 × ℤ :=
  if len ≤ 0 then (r, 0)
  else
    let avail := pipeBufSize - r.count
    let toWrite := if len.toNat < avail then len.toNat else avail
    if toWrite = 0 then (r, 0) else (r.push pipeBufSize buf toWrite, toWrite)

/-- `ring_read`: the bytes that were read. -/
def ringRead (r : RingBuffer.Ring UInt8) (len : ℤ) : RingBuffer.Ring UInt8 × List UInt8 :=
  if len ≤ 0 then (r, [])
  else
    let avail := r.count
    let toRead := if len.toNat < avail then len.toNat else avail
    if toRead = 0 then (r, []) else r.pop pipeBufSize toRead

/-- What the ring lock protects in `struct pipe_ring`. -/
structure PipeRing where
  ring : RingBuffer.Ring UInt8
  readEof : Bool
  writeEof : Bool

/-! ### Calls -/

/-- What a call wants: `pipe_read_common` (with its argument `now`), `devpipe_write`, and
`devpipe_write` on a `CNBFRAME` end. -/
inductive Kind where
  | read (now : Bool)
  | write (buf : ℕ → UInt8)
  | frame (buf : ℕ → UInt8)

/-- A read or write of `n` bytes, past its argument checks. -/
structure Req where
  n : ℕ
  pos : 0 < n
  kind : Kind

/-- The end that a call uses. -/
def Req.on (q : Req) : PipeEnd :=
  match q.kind with
  | .read _ => .read
  | _ => .write

/-- The checks of `pipe_read_common`; an error is returned at once. `buf`: is there a buffer? -/
def readEntry (e : PipeEnd) (n : ℤ) (buf : Bool) (now : Bool) : Except ℤ Req :=
  if e ≠ .read then .error (-tEBadf)
  else if h : n < 0 ∨ buf = false then .error (-tEInval)
  else if h0 : n = 0 then .error 0
  else .ok ⟨n.toNat, by rw [not_or] at h; omega, .read now⟩

/-- The checks at the head of `devpipe_write`. -/
def writeEntry (e : PipeEnd) (n : ℤ) (buf : Option (ℕ → UInt8)) (frame : Bool) : Except ℤ Req :=
  if e ≠ .write then .error (-tEBadf)
  else
    match buf with
    | none => .error (-tEInval)
    | some buf =>
      if h : n < 0 then .error (-tEInval)
      else if h0 : n = 0 then .error 0
      else .ok ⟨n.toNat, by omega, if frame then .frame buf else .write buf⟩

/-- How a hold ends: the call returns, at once or after a walk of the list, or blocks. -/
inductive Outcome where
  | ret (rc : ℤ)
  | wake (rc : ℤ)
  | block
  deriving DecidableEq, Repr

/-- A hold of the lock: the ring after it, the bytes returned or accepted, and its end. -/
structure Sampled where
  r : PipeRing
  took : List UInt8 := []
  put : List UInt8 := []
  out : Outcome

section

variable (r : PipeRing)

/-- One turn of the loop of `pipe_read_common`. -/
def readSample (n : ℕ) (now nonblock : Bool) : Sampled :=
  if 0 < r.ring.count then
    let (ring, took) := ringRead r.ring n
    let got : ℤ := took.length
    { r := { r with ring := ring }, took := took, out := if 0 < got then .wake got else .ret got }
  else if r.writeEof then { r := r, out := .ret 0 }
  else if now || nonblock then { r := r, out := .ret (-tEAgain) }
  else { r := r, out := .block }

/-- The bytes of a write that the ring took. -/
def accept (n : ℕ) (buf : ℕ → UInt8) : Sampled :=
  let (ring, put) := ringWrite r.ring buf n
  { r := { r with ring := ring }, put := slice buf put.toNat
    out := if 0 < put then .wake put else .ret put }

/-- One turn of the loop of `devpipe_write`. -/
def writeSample (n : ℕ) (buf : ℕ → UInt8) (nonblock : Bool) : Sampled :=
  if r.readEof || r.writeEof then { r := r, out := .ret (-tEPipe) }
  else
    let avail := pipeBufSize - r.ring.count
    if (if n ≤ pipeBufSize then n ≤ avail else 0 < avail) then accept r n buf
    else if nonblock then { r := r, out := .ret (-tEAgain) }
    else { r := r, out := .block }

/-- `devpipe_write` on a `CNBFRAME` end. -/
def frameSample (n : ℕ) (buf : ℕ → UInt8) : Sampled :=
  if r.readEof || r.writeEof then { r := r, out := .ret (-tEPipe) }
  else if n ≤ pipeBufSize - r.ring.count then accept r n buf
  else { r := r, out := .ret (-tEAgain) }

end

def Req.sample (q : Req) (r : PipeRing) (nonblock : Bool) : Sampled :=
  match q.kind with
  | .read now => readSample r q.n now nonblock
  | .write buf => writeSample r q.n buf nonblock
  | .frame buf => frameSample r q.n buf

/-! ### Program counters -/

/-- A return of a read or a write of `n` bytes. -/
inductive Event where
  | read (call : ℕ) (n rc : ℤ)
  | write (call : ℕ) (n rc : ℤ)
  deriving DecidableEq, Repr

def Req.event (q : Req) (t : ℕ) (rc : ℤ) : Event :=
  match q.on with
  | .read => .read t q.n rc
  | .write => .write t q.n rc

/-- What `sleep` returns. -/
inductive SleepRc where
  | ok
  | intr
  | noteintr
  deriving DecidableEq, Repr

/-- Where a poll call is in its pass over `fds`: entry `i` is scanned, with a hook or (past the
deadline) without; its hook is registered; the lock is dropped; after the pass the hooks come off,
for the last time or not. -/
inductive PollAt where
  | scan (i : ℕ) (hook : Bool)
  | registering (i : ℕ)
  | unlocking (i : ℕ)
  | unhook (i : ℕ) (final : Bool)

/-- A poll call: the ends its entries name, those whose hook has its `list` set, and those whose
Spoor it holds. -/
structure Poll where
  fds : List PipeEnd
  listed : List ℕ
  held : List ℕ
  pos : PollAt

/-- Where a call is. -/
inductive Pc where
  | idle
  /-- about to take the ring lock -/
  | sampling (q : Req)
  /-- holds the lock, and found nothing to do -/
  | registering (q : Req)
  /-- holds the lock, and has its hook on the list -/
  | unlocking (q : Req)
  | asleep (q : Req)
  | unregistering (q : Req) (rc : SleepRc)
  /-- has changed the ring, and has the list to walk before it returns -/
  | walking (e : PipeEnd) (ev : Option Event)
  /-- `devpipe_close`, with the list to walk -/
  | closing (e : PipeEnd)
  /-- `devpipe_close`, with its reference to drop -/
  | dropping (e : PipeEnd)
  | polling (p : Poll)

/-- The call holds the ring lock. -/
def Pc.Locked : Pc → Prop
  | .registering _ => True
  | .unlocking _ => True
  | .polling ⟨_, _, _, .registering _⟩ => True
  | .polling ⟨_, _, _, .unlocking _⟩ => True
  | _ => False

/-- The call holds a reference to the end's Spoor. -/
def Pc.Uses (e : PipeEnd) : Pc → Prop
  | .idle => False
  | .sampling q => q.on = e
  | .registering q => q.on = e
  | .unlocking q => q.on = e
  | .asleep q => q.on = e
  | .unregistering q _ => q.on = e
  | .walking e' _ => e' = e
  | .closing _ => False
  | .dropping _ => False
  | .polling p =>
    (∃ i ∈ p.held, p.fds[i]? = some e) ∨
      match p.pos with
      | .registering i => p.fds[i]? = some e
      | .unlocking i => p.fds[i]? = some e
      | _ => False

/-- The call has the list to walk. -/
def Pc.OwesWalk : Pc → Prop
  | .walking _ _ => True
  | .closing _ => True
  | _ => False

/-! ### The pipe -/

/-- An end: open, in its `devpipe_close`, or closed. -/
inductive EndState where
  | opened
  | closing
  | closed
  deriving DecidableEq, Repr

end Pipe

open Pipe

/-- A pipe and the calls on it. `hooks` is `poll_list`: hook `(t, i)` is of call `t`, and a blocked
call has the one hook `(t, 0)`. `freed` counts the frees of the ring. The last three fields are
history: the bytes accepted, the bytes returned, and the returns. -/
structure Pipe where
  r : PipeRing
  ref : ℤ
  freed : ℕ
  extinct : Bool
  lock : Option ℕ
  hooks : List (ℕ × ℕ)
  ready : ℕ × ℕ → Bool
  pc : ℕ → Pc
  ends : PipeEnd → EndState
  accepted : List UInt8
  returned : List UInt8
  log : List Event

namespace Pipe

/-- `pipe_create`. -/
def create : Pipe where
  r := ⟨⟨0, 0, 0, fun _ => 0⟩, false, false⟩
  ref := 2
  freed := 0
  extinct := false
  lock := none
  hooks := []
  ready := fun _ => false
  pc := fun _ => .idle
  ends := fun _ => .opened
  accepted := []
  returned := []
  log := []

section

variable (s : Pipe) (t : ℕ)

def goto (p : Pc) : Pipe := { s with pc := Function.update s.pc t p }

def setEnd (e : PipeEnd) (x : EndState) : Pipe := { s with ends := Function.update s.ends e x }

/-- The call returns. -/
def returns (ev : Option Event) : Pipe := { s.goto t .idle with log := s.log ++ ev.toList }

/-- A call passed its checks, or returns at once. -/
def enter (entry : Except ℤ Req) (ev : ℤ → Event) : Pipe :=
  match entry with
  | .error rc => s.returns t (some (ev rc))
  | .ok q => s.goto t (.sampling q)

/-- A hold of the ring lock. -/
def sampled (q : Req) (nonblock : Bool) : Pipe :=
  let a := q.sample s.r nonblock
  let s := { s with
    r := a.r
    accepted := s.accepted ++ a.put
    returned := s.returned ++ a.took }
  match a.out with
  | .ret rc => s.returns t (some (q.event t rc))
  | .wake rc => s.goto t (.walking q.on (some (q.event t rc)))
  | .block => { s.goto t (.registering q) with lock := some t }

/-- `poll_waiter_list_register`; the hook is not on the list. -/
def register (i : ℕ) : Pipe :=
  { s with hooks := (t, i) :: s.hooks, ready := Function.update s.ready (t, i) false }

/-- `poll_waiter_list_unregister` of a hook whose `list` is set. -/
def unregister (i : ℕ) : Pipe :=
  if (t, i) ∈ s.hooks then { s with hooks := s.hooks.erase (t, i) } else { s with extinct := true }

/-- `poll_waiter_list_wake`. -/
def wake : Pipe := { s with ready := fun h => s.ready h || s.hooks.contains h }

/-- A call's sleep is over: it samples again, or returns. -/
def resumed (q : Req) (rc : SleepRc) : Pipe :=
  match rc with
  | .ok => s.goto t (.sampling q)
  | .intr => s.returns t (some (q.event t (-1)))
  | .noteintr => s.returns t (some (q.event t (-tEIntr)))

/-- The flag that closing the end sets, under the lock. -/
def setEof (e : PipeEnd) : Pipe :=
  match e with
  | .read => { s with r := { s.r with readEof := true } }
  | .write => { s with r := { s.r with writeEof := true } }

/-- The end of `devpipe_close`: the reference is dropped, and with the last the ring. -/
def dropRef (e : PipeEnd) : Pipe :=
  if s.ref ≤ 0 then { s with extinct := true }
  else
    { (s.setEnd e .closed).goto t .idle with
      ref := s.ref - 1
      freed := if s.ref = 1 then s.freed + 1 else s.freed }

end

/-- The call is about to touch the ring. -/
def Touches : Pc → Prop
  | .idle => False
  | .asleep _ => False
  | .polling p =>
    match p.pos with
    | .scan _ _ => False
    | .unhook i _ => i ∈ p.listed
    | _ => True
  | _ => True

/-- **One step** of one call. -/
inductive Step (s : Pipe) : Pipe → Prop
  | read (t : ℕ) (e : PipeEnd) (n : ℤ) (buf now : Bool) (hpc : s.pc t = .idle)
      (hopen : s.ends e = .opened) : Step s (s.enter t (readEntry e n buf now) (.read t n))
  | write (t : ℕ) (e : PipeEnd) (n : ℤ) (buf : Option (ℕ → UInt8)) (frame : Bool)
      (hpc : s.pc t = .idle) (hopen : s.ends e = .opened) :
      Step s (s.enter t (writeEntry e n buf frame) (.write t n))
  /-- `pipe_hangup_write`, up to its walk. -/
  | hangup (t : ℕ) (hpc : s.pc t = .idle) (hopen : s.ends .write = .opened)
      (hlock : s.lock = none) : Step s ((s.setEof .write).goto t (.walking .write none))
  /-- `devpipe_close`, up to its walk. -/
  | close (t : ℕ) (e : PipeEnd) (hpc : s.pc t = .idle) (hopen : s.ends e = .opened)
      (hunused : ∀ u, ¬(s.pc u).Uses e) (hlock : s.lock = none) :
      Step s (((s.setEof e).setEnd e .closing).goto t (.closing e))
  | sample (t : ℕ) (q : Req) (nonblock : Bool) (hpc : s.pc t = .sampling q)
      (hlock : s.lock = none) : Step s (s.sampled t q nonblock)
  /-- `pipe_block_locked` registers its hook. -/
  | register (t : ℕ) (q : Req) (hpc : s.pc t = .registering q) :
      Step s ((s.register t 0).goto t (.unlocking q))
  | unlock (t : ℕ) (q : Req) (hpc : s.pc t = .unlocking q) :
      Step s { s.goto t (.asleep q) with lock := none }
  /-- The sleep ends: the hook is ready, or the call is interrupted. -/
  | wakeup (t : ℕ) (q : Req) (rc : SleepRc) (hpc : s.pc t = .asleep q)
      (hready : rc = .ok → s.ready (t, 0) = true) : Step s (s.goto t (.unregistering q rc))
  | unregister (t : ℕ) (q : Req) (rc : SleepRc) (hpc : s.pc t = .unregistering q rc) :
      Step s ((s.unregister t 0).resumed t q rc)
  | walk (t : ℕ) (e : PipeEnd) (ev : Option Event) (hpc : s.pc t = .walking e ev) :
      Step s (s.wake.returns t ev)
  | closeWalk (t : ℕ) (e : PipeEnd) (hpc : s.pc t = .closing e) :
      Step s (s.wake.goto t (.dropping e))
  | drop (t : ℕ) (e : PipeEnd) (hpc : s.pc t = .dropping e) : Step s (s.dropRef t e)
  | poll (t : ℕ) (fds : List PipeEnd) (hook : Bool) (hpc : s.pc t = .idle) :
      Step s (s.goto t (.polling ⟨fds, [], [], .scan 0 hook⟩))
  /-- An entry whose descriptor is closed is passed over. -/
  | pollSkip (t : ℕ) (p : Poll) (i : ℕ) (hook : Bool)
      (hpc : s.pc t = .polling { p with pos := .scan i hook }) (hi : i < p.fds.length) :
      Step s (s.goto t (.polling { p with pos := .scan (i + 1) hook }))
  /-- `devpipe_poll` without a hook. -/
  | pollSample (t : ℕ) (p : Poll) (i : ℕ) (e : PipeEnd)
      (hpc : s.pc t = .polling { p with pos := .scan i false }) (hi : p.fds[i]? = some e)
      (hopen : s.ends e = .opened) (hlock : s.lock = none) :
      Step s (s.goto t (.polling { p with pos := .scan (i + 1) false }))
  /-- `devpipe_poll` with a hook: the sample. -/
  | pollLock (t : ℕ) (p : Poll) (i : ℕ) (e : PipeEnd)
      (hpc : s.pc t = .polling { p with pos := .scan i true }) (hi : p.fds[i]? = some e)
      (hopen : s.ends e = .opened) (hlock : s.lock = none) :
      Step s { s.goto t (.polling { p with pos := .registering i }) with lock := some t }
  | pollRegister (t : ℕ) (p : Poll) (i : ℕ)
      (hpc : s.pc t = .polling { p with pos := .registering i }) (hi : i ∉ p.listed) :
      Step s ((s.register t i).goto t
        (.polling { p with listed := i :: p.listed, pos := .unlocking i }))
  /-- A hook that is on a list already. -/
  | pollRegisterTwice (t : ℕ) (p : Poll) (i : ℕ)
      (hpc : s.pc t = .polling { p with pos := .registering i }) (hi : i ∈ p.listed) :
      Step s { s with extinct := true }
  /-- The Spoor of an entry that was hooked is kept. -/
  | pollUnlock (t : ℕ) (p : Poll) (i : ℕ) (hpc : s.pc t = .polling { p with pos := .unlocking i }) :
      Step s { s.goto t (.polling { p with held := i :: p.held, pos := .scan (i + 1) true }) with
        lock := none }
  /-- The pass is over, with or without a sleep. -/
  | pollEnd (t : ℕ) (p : Poll) (i : ℕ) (hook final : Bool)
      (hpc : s.pc t = .polling { p with pos := .scan i hook }) (hi : p.fds.length ≤ i) :
      Step s (s.goto t (.polling { p with pos := .unhook 0 final }))
  /-- `poll_unhook_all`, for a hook that is on the list. -/
  | pollUnhook (t : ℕ) (p : Poll) (i : ℕ) (final : Bool)
      (hpc : s.pc t = .polling { p with pos := .unhook i final }) (hi : i < p.fds.length)
      (hlisted : i ∈ p.listed) :
      Step s ((s.unregister t i).goto t
        (.polling { p with listed := p.listed.erase i, pos := .unhook (i + 1) final }))
  /-- `poll_unhook_all`, for a hook that is on none. -/
  | pollUnhookSkip (t : ℕ) (p : Poll) (i : ℕ) (final : Bool)
      (hpc : s.pc t = .polling { p with pos := .unhook i final }) (hi : i < p.fds.length)
      (hlisted : i ∉ p.listed) :
      Step s (s.goto t (.polling { p with pos := .unhook (i + 1) final }))
  /-- The hooks are off, the Spoors are put back, and the hooks are cleared for another pass. -/
  | pollAgain (t : ℕ) (p : Poll) (i : ℕ) (pos : PollAt)
      (hpc : s.pc t = .polling { p with pos := .unhook i false }) (hi : p.fds.length ≤ i)
      (hpos : (∃ hook, pos = .scan 0 hook) ∨ pos = .unhook 0 true) :
      Step s { s.goto t (.polling { p with held := [], pos := pos }) with
        ready := fun h => s.ready h && h.1 != t }
  /-- The poll call returns. -/
  | pollReturn (t : ℕ) (p : Poll) (i : ℕ)
      (hpc : s.pc t = .polling { p with pos := .unhook i true }) (hi : p.fds.length ≤ i) :
      Step s (s.goto t .idle)
  /-- A call touches the ring after it was freed. -/
  | useAfterFree (t : ℕ) (htouch : Touches (s.pc t)) (hfreed : s.freed ≠ 0) :
      Step s { s with extinct := true }
  /-- A call begins on an open end whose ring was freed. -/
  | openAfterFree (e : PipeEnd) (hopen : s.ends e = .opened) (hfreed : s.freed ≠ 0) :
      Step s { s with extinct := true }

end Pipe

end Thylacine
