import Thylacine.NineP.Session

/-!
# The 9P Session: Replies and Take-Backs

The second half of `kernel/9p_session.c`: the flush and take-back calls, the dispatch of
replies, and the registration of owners. At the end the whole interface is one step function,
`Session.step`, on the calls `Op`; a run is a list of calls, `Session.run`.
-/

namespace Thylacine

namespace Session

/-! ### Take-backs and flushes -/

section

variable (s : Session)

/-- The entry can be taken back: in flight, neither flushed nor abandoned. -/
def takeable (t : ℕ) : Bool :=
  match s.entry t with
  | none => false
  | some e => e.active && !e.awaitingFlush && !e.abandoned

/-- Frees the tag of a request that was never sent. -/
def p9SessionAbortUnsent (tag : UInt16) : Session :=
  if s.takeable tag.toNat then s.clearOutstanding tag.toNat else s

/-- As `p9SessionAbortUnsent`, binding a `Tclunk`'s fid again. -/
def p9SessionRetractUnsent (tag : UInt16) : Session × Bool :=
  let t := tag.toNat
  if !s.takeable t then (s, false)
  else
    let (s', rc) := if (s.tags t).kind = some .clunk then s.slotBind t (s.tags t).fid else (s, true)
    (s'.clearOutstanding t, rc)

/-- The request in flight under `t`, if the table reaches it. -/
def activeEntry (t : ℕ) : Option Outstanding :=
  match s.entry t with
  | none => none
  | some e => if e.active then some e else none

def p9SessionMarkAbandoned (tag : UInt16) : Session :=
  match s.activeEntry tag.toNat with
  | none => s
  | some e =>
    if e.awaitingFlush then s else s.modify tag.toNat fun e => { e with abandoned := true }

/-- Frees the flush staged for `oldtag` and unmarks its victim. -/
def flushUnstage (oldtag : ℕ) : Session × Bool :=
  match s.activeEntry oldtag with
  | none => (s, false)
  | some victim =>
    if !victim.awaitingFlush then (s, false)
    else
      match s.activeEntry victim.flushTag with
      | none => (s, false)
      | some fl =>
        if !fl.isFlush || fl.flushOldtag != oldtag then (s, false)
        else
          ((s.clearOutstanding victim.flushTag).modify oldtag fun e =>
            { e with awaitingFlush := false, ownerWaits := false, flushTag := 0 }, true)

def p9SessionFlushRollback (oldtag : UInt16) : Session :=
  match s.flushUnstage oldtag.toNat with
  | (s, false) => s
  | (s, true) => s.modify oldtag.toNat fun e => { e with abandoned := true }

def p9SessionFlushRetract (oldtag : UInt16) : Session := (s.flushUnstage oldtag.toNat).1

def p9SessionFlushOwnerWaits (oldtag : UInt16) (waits : Bool) : Session :=
  match s.activeEntry oldtag.toNat with
  | none => s
  | some e =>
    if !e.awaitingFlush then s else s.modify oldtag.toNat fun e => { e with ownerWaits := waits }

end

/-! ### Replies -/

/-- The data of a reply, by the kind of its request. -/
inductive Payload
  | none
  | version (msize : UInt32) (version : List UInt8)
  | attached (qid : Qid)
  | walked (qids : List Qid)
  | walkedAttrs (qids : List Qid) (body : List UInt8)
  | opened (qid : Qid) (iounit : UInt32)
  | data (count : UInt32) (data : List UInt8)
  | count (n : UInt32)
  | attr (a : Attr)
  | statfs (st : Statfs)
  | lockStatus (status : UInt8)
  | getlock (g : Getlock)
  | created (qid : Qid)
  | target (s : List UInt8)
  | weft (geom : WeftGeom)
  deriving DecidableEq, Repr

/-- `struct p9_dispatch_result`. -/
structure DispatchResult where
  kind : Option MsgKind
  fid : UInt32
  newFid : UInt32
  boundNewFid : UInt32
  opId : UInt32
  isError : Bool
  ecode : UInt32
  payload : Payload
  deriving DecidableEq, Repr

/-- `zero_result`. -/
def zeroResult : DispatchResult := ⟨none, 0, 0, p9Nofid, 0, false, 0, .none⟩

/-- `T_E_IO`. -/
def tEIo : UInt32 := 5

/-- `Rversion`, under `NOTAG`, in the initial state only. -/
def dispatchRversion (s : Session) (msg : List UInt8) : Session × Option DispatchResult :=
  if s.state ≠ .init then (s, none)
  else
    match p9ParseRversion msg with
    | none => (s, none)
    | some (tag, msize, version) =>
      if tag ≠ p9Notag then (s, none)
      else
        let negotiated := if msize ≤ s.msize then msize else s.msize
        ({ s with negotiatedMsize := negotiated, state := .versioned }, some { zeroResult with
            kind := some .version
            fid := s.rootFid
            newFid := s.rootFid
            payload := .version negotiated version })

/-- `(u8)(op->kind + 1)`. -/
def expectedR : Option MsgKind → UInt8
  | none => 1
  | some k => k.r

/-- The caller's array for a walk's qids: as many as names. -/
def walkBuf (op : Outstanding) : QidBuf := ⟨false, op.walkNwname⟩

section

variable (s : Session)

/-- A reply to a flushed walk, not yet honoured while `holdsSlot`; only a full walk binds. The
caller reads `boundNewFid`. -/
def honourLateWalk (op : Outstanding) (tag : UInt16) (type : UInt8) (msg : List UInt8) :
    Session × DispatchResult :=
  let honour (tagCheck : UInt16) (nwqid : ℕ) : Session × DispatchResult :=
    if nwqid ≠ op.walkNwname then (s, zeroResult)
    else if tagCheck ≠ tag then (s, zeroResult)
    else
      match s.slotBind tag.toNat op.newFid with
      | (s, true) => (s, { zeroResult with boundNewFid := op.newFid })
      | (s, false) => (s, zeroResult)
  if !op.holdsSlot then (s, zeroResult)
  else if type ≠ expectedR op.kind then (s, zeroResult)
  else
    match op.kind with
    | some .walk =>
      match p9ParseRwalk msg (walkBuf op) with
      | none => (s, zeroResult)
      | some (tagCheck, qids) => honour tagCheck qids.length
    | some .walkgetattr =>
      match p9ParseRwalkgetattr msg (walkBuf op) with
      | none => (s, zeroResult)
      | some (tagCheck, qids, _) => honour tagCheck qids.length
    | _ => (s, zeroResult)

/-- The cap on data: the negotiated size less header and count. -/
def dataCap : UInt32 := if s.negotiatedMsize > 11 then s.negotiatedMsize - 11 else 0

/-- Replies that change no session: the tag and the data. -/
def parseReply (msg : List UInt8) : MsgKind → Option (UInt16 × Payload)
  | .clunk => (p9ParseRclunk msg).map fun tag => (tag, .none)
  | .lopen => (p9ParseRlopen msg).map fun (tag, qid, iounit) => (tag, .opened qid iounit)
  | .lcreate => (p9ParseRlcreate msg).map fun (tag, qid, iounit) => (tag, .opened qid iounit)
  | .read => (p9ParseRread msg s.dataCap).map fun (tag, count, data) => (tag, .data count data)
  | .write => (p9ParseRwrite msg).map fun (tag, count) => (tag, .count count)
  | .getattr => (p9ParseRgetattr msg).map fun (tag, attr) => (tag, .attr attr)
  | .setattr => (p9ParseRsetattr msg).map fun tag => (tag, .none)
  | .readdir =>
    (p9ParseRreaddir msg s.dataCap).map fun (tag, count, data) => (tag, .data count data)
  | .statfs => (p9ParseRstatfs msg).map fun (tag, st) => (tag, .statfs st)
  | .fsync => (p9ParseRfsync msg).map fun tag => (tag, .none)
  | .lock => (p9ParseRlock msg).map fun (tag, status) => (tag, .lockStatus status)
  | .getlock => (p9ParseRgetlock msg).map fun (tag, g) => (tag, .getlock g)
  | .symlink => (p9ParseRsymlink msg).map fun (tag, qid) => (tag, .created qid)
  | .mknod => (p9ParseRmknod msg).map fun (tag, qid) => (tag, .created qid)
  | .mkdir => (p9ParseRmkdir msg).map fun (tag, qid) => (tag, .created qid)
  | .rename => (p9ParseRrename msg).map fun tag => (tag, .none)
  | .renameat => (p9ParseRrenameat msg).map fun tag => (tag, .none)
  | .link => (p9ParseRlink msg).map fun tag => (tag, .none)
  | .unlinkat => (p9ParseRunlinkat msg).map fun tag => (tag, .none)
  | .readlink => (p9ParseRreadlink msg).map fun (tag, target) => (tag, .target target)
  | .weft => (p9ParseRweft msg).map fun (tag, geom) => (tag, .weft geom)
  | .weftio => (p9ParseRweftio msg).map fun (tag, count) => (tag, .count count)
  | .version | .attach | .walk | .walkgetattr | .flush => none

/-- Binds a walk's destination; a fid already bound fails the request, not the session. -/
def bindWalked (op : Outstanding) (tag : UInt16) (payload : Payload) :
    Session × Option DispatchResult :=
  match s.slotBind tag.toNat op.newFid with
  | (s, false) => (s, some { zeroResult with isError := true, ecode := tEIo })
  | (s, true) => (s, some { zeroResult with boundNewFid := op.newFid, payload := payload })

/-- Goes on with a reply's body if its parser accepts it with the header's tag. -/
def checked {α : Type} (parsed : Option (UInt16 × α)) (tag : UInt16)
    (k : α → Session × Option DispatchResult) : Session × Option DispatchResult :=
  match parsed with
  | none => (s, none)
  | some (tagCheck, body) => if tagCheck ≠ tag then (s, none) else k body

/-- The change a reply makes, by its request's kind. -/
def applyBody (op : Outstanding) (tag : UInt16) (type : UInt8) (msg : List UInt8) :
    Session × Option DispatchResult :=
  if type = p9Rlerror then
    s.checked (p9ParseRlerror msg) tag fun ecode =>
      (s, some { zeroResult with isError := true, ecode := ecode })
  else
    match op.kind with
    | none => (s, none)
    | some .attach =>
      s.checked (p9ParseRattach msg) tag fun qid =>
        match s.fidBind s.rootFid with
        | (s, false) => (s, none)
        | (s, true) =>
          ({ s with state := .opened }, some { zeroResult with payload := .attached qid })
    | some .walk =>
      s.checked (p9ParseRwalk msg (walkBuf op)) tag fun qids =>
        if qids.length ≠ op.walkNwname then (s, some { zeroResult with payload := .walked qids })
        else s.bindWalked op tag (.walked qids)
    | some .walkgetattr =>
      s.checked (p9ParseRwalkgetattr msg (walkBuf op)) tag fun (qids, body) =>
        if op.newFid ≠ p9Nofid ∧ qids.length = op.walkNwname then
          s.bindWalked op tag (.walkedAttrs qids body)
        else (s, some { zeroResult with payload := .walkedAttrs qids body })
    | some .flush =>
      s.checked ((p9ParseRflush msg).map (·, ())) tag fun _ =>
        match s.activeEntry op.flushOldtag with
        | some victim =>
          if victim.awaitingFlush then (s.clearOutstanding op.flushOldtag, some zeroResult)
          else (s, some zeroResult)
        | none => (s, some zeroResult)
    | some kind =>
      s.checked (s.parseReply msg kind) tag fun payload =>
        (s, some { zeroResult with payload := payload })

/-- Applies a reply; the caller chooses whether the tag is freed. -/
def applyRmsg (op : Outstanding) (tag : UInt16) (type : UInt8) (msg : List UInt8) :
    Session × Option DispatchResult :=
  if type ≠ expectedR op.kind ∧ type ≠ p9Rlerror then (s, none)
  else
    let (s, r) := s.applyBody op tag type msg
    (s, r.map fun r =>
      { r with kind := op.kind, fid := op.fid, newFid := op.newFid, opId := op.opId })

/-- A reply to a flushed request is absorbed: its tag stays. -/
def p9SessionDispatchRmsg (msg : List UInt8) : Session × Option DispatchResult :=
  match p9PeekHeader msg with
  | none => (s, none)
  | some (_, type, tag) =>
    if type = MsgKind.version.r then s.dispatchRversion msg
    else
      match s.activeEntry tag.toNat with
      | none => (s, none)
      | some op =>
        if op.awaitingFlush then
          let (s, r) := s.honourLateWalk op tag type msg
          (s, some r)
        else
          match s.applyRmsg op tag type msg with
          | (s, none) => (s, none)
          | (s, some r) => (s.clearOutstanding tag.toNat, some r)

/-- A reply to a flushed request whose owner waits is applied, the tag kept; the flags are cleared
even on a refusal. -/
def p9SessionDispatchFlushedRmsg (msg : List UInt8) : Session × Option DispatchResult :=
  match p9PeekHeader msg with
  | none => (s, none)
  | some (_, type, tag) =>
    match s.activeEntry tag.toNat with
    | none => (s, none)
    | some op =>
      if !op.awaitingFlush then (s, none)
      else
        let answered (s : Session) : Session :=
          s.modify tag.toNat fun e => { e with ownerWaits := false, mutates := false }
        let (s, r) := s.applyRmsg op tag type msg
        (answered s, r)

/-! ### Owners and queries -/

def p9SessionSetOwner (tag : UInt32) (owner : Option ℕ) : Session × Bool :=
  let t := tag.toNat
  let k := t / p9TagChunk
  match s.activeEntry t with
  | none => (s, false)
  | some e =>
    let n := if e.syncOwned then s.chunkSync k - 1 else s.chunkSync k
    let e' := { e with owner := owner }
    ({ s.modify t fun e => { e with owner := owner } with
        chunkSync := Function.update s.chunkSync k (if e'.syncOwned then n + 1 else n) },
      true)

def p9SessionMarkAsync (tag : UInt16) : Session :=
  let t := tag.toNat
  let k := t / p9TagChunk
  match s.activeEntry t with
  | none => s
  | some e =>
    if e.async || e.isFlush then s
    else
      { s.modify t fun e => { e with async := true } with
        chunkSync :=
          if e.syncOwned then Function.update s.chunkSync k (s.chunkSync k - 1)
          else s.chunkSync
        nAsync := s.nAsync + 1 }

/-- Whether an op would get a tag; the table may grow. -/
def p9SessionHasFreeTag (mem : Kmalloc) : Session × Bool :=
  let (s, t) := s.allocTag mem false
  (s, t.isSome)

/-- Whether a `Tflush` would get a tag. -/
def p9SessionHasFlushTag (mem : Kmalloc) : Session × Bool :=
  let (s, t) := s.allocTag mem true
  (s, t.isSome)

end

/-! ### The interface as a machine -/

/-- The requests a client may send. -/
inductive Send
  | version (version : CSlice)
  | attach (uname aname : CSlice) (nUname : UInt32)
  | walk (srcFid newFid : UInt32) (names : CNames)
  | walkgetattr (srcFid newFid : UInt32) (requestMask : UInt64) (names : CNames)
  | clunk (fid : UInt32)
  | flush (oldtag : UInt16)
  | lopen (fid flags : UInt32)
  | lcreate (fid : UInt32) (name : CSlice) (flags mode gid : UInt32)
  | read (fid : UInt32) (offset : UInt64) (count : UInt32)
  | write (fid : UInt32) (offset : UInt64) (data : CSlice)
  | getattr (fid : UInt32) (requestMask : UInt64)
  | setattr (fid : UInt32) (attr : Option Setattr)
  | readdir (fid : UInt32) (offset : UInt64) (count : UInt32)
  | statfs (fid : UInt32)
  | fsync (fid datasync : UInt32)
  | lock (fid : UInt32) (type : UInt8) (flags : UInt32) (start length : UInt64) (client : CSlice)
  | getlock (fid : UInt32) (type : UInt8) (start length : UInt64) (client : CSlice)
  | symlink (fid : UInt32) (name symtgt : CSlice) (gid : UInt32)
  | mknod (dfid : UInt32) (name : CSlice) (mode major minor gid : UInt32)
  | rename (fid dfid : UInt32) (name : CSlice)
  | readlink (fid : UInt32)
  | link (dfid fid : UInt32) (name : CSlice)
  | mkdir (dfid : UInt32) (name : CSlice) (mode gid : UInt32)
  | renameat (olddirfid : UInt32) (oldname : CSlice) (newdirfid : UInt32) (newname : CSlice)
  | unlinkat (dfid : UInt32) (name : CSlice) (flags : UInt32)
  | weft (fid : UInt32)
  | weftio (fid off len dir : UInt32)

/-- The send of a request into the buffer `out`. -/
def send (s : Session) (mem : Kmalloc) (out : List UInt8) : Send → Session × Option Built
  | .version version => s.p9SessionSendVersion out version
  | .attach uname aname nUname => s.p9SessionSendAttach mem out uname aname nUname
  | .walk srcFid newFid names => s.p9SessionSendWalk mem out srcFid newFid names
  | .walkgetattr srcFid newFid requestMask names =>
    s.p9SessionSendWalkgetattr mem out srcFid newFid requestMask names
  | .clunk fid => s.p9SessionSendClunk mem out fid
  | .flush oldtag => s.p9SessionSendFlush mem out oldtag
  | .lopen fid flags => s.p9SessionSendLopen mem out fid flags
  | .lcreate fid name flags mode gid => s.p9SessionSendLcreate mem out fid name flags mode gid
  | .read fid offset count => s.p9SessionSendRead mem out fid offset count
  | .write fid offset data => s.p9SessionSendWrite mem out fid offset data
  | .getattr fid requestMask => s.p9SessionSendGetattr mem out fid requestMask
  | .setattr fid attr => s.p9SessionSendSetattr mem out fid attr
  | .readdir fid offset count => s.p9SessionSendReaddir mem out fid offset count
  | .statfs fid => s.p9SessionSendStatfs mem out fid
  | .fsync fid datasync => s.p9SessionSendFsync mem out fid datasync
  | .lock fid type flags start length client =>
    s.p9SessionSendLock mem out fid type flags start length client
  | .getlock fid type start length client =>
    s.p9SessionSendGetlock mem out fid type start length client
  | .symlink fid name symtgt gid => s.p9SessionSendSymlink mem out fid name symtgt gid
  | .mknod dfid name mode major minor gid =>
    s.p9SessionSendMknod mem out dfid name mode major minor gid
  | .rename fid dfid name => s.p9SessionSendRename mem out fid dfid name
  | .readlink fid => s.p9SessionSendReadlink mem out fid
  | .link dfid fid name => s.p9SessionSendLink mem out dfid fid name
  | .mkdir dfid name mode gid => s.p9SessionSendMkdir mem out dfid name mode gid
  | .renameat olddirfid oldname newdirfid newname =>
    s.p9SessionSendRenameat mem out olddirfid oldname newdirfid newname
  | .unlinkat dfid name flags => s.p9SessionSendUnlinkat mem out dfid name flags
  | .weft fid => s.p9SessionSendWeft mem out fid
  | .weftio fid off len dir => s.p9SessionSendWeftio mem out fid off len dir

/-- The **calls** of the session's interface. -/
inductive Op
  | send (mem : Kmalloc) (out : List UInt8) (req : Send)
  | dispatchRmsg (msg : List UInt8)
  | dispatchFlushedRmsg (msg : List UInt8)
  | abortUnsent (tag : UInt16)
  | retractUnsent (tag : UInt16)
  | flushRollback (oldtag : UInt16)
  | flushRetract (oldtag : UInt16)
  | flushOwnerWaits (oldtag : UInt16) (waits : Bool)
  | markAbandoned (tag : UInt16)
  | setOwner (tag : UInt32) (owner : Option ℕ)
  | markAsync (tag : UInt16)
  | hasFreeTag (mem : Kmalloc)
  | hasFlushTag (mem : Kmalloc)
  | close

section

variable (s : Session)

/-- The session after a call. -/
def step : Op → Session
  | .send mem out req => (s.send mem out req).1
  | .dispatchRmsg msg => (s.p9SessionDispatchRmsg msg).1
  | .dispatchFlushedRmsg msg => (s.p9SessionDispatchFlushedRmsg msg).1
  | .abortUnsent tag => s.p9SessionAbortUnsent tag
  | .retractUnsent tag => (s.p9SessionRetractUnsent tag).1
  | .flushRollback oldtag => s.p9SessionFlushRollback oldtag
  | .flushRetract oldtag => s.p9SessionFlushRetract oldtag
  | .flushOwnerWaits oldtag waits => s.p9SessionFlushOwnerWaits oldtag waits
  | .markAbandoned tag => s.p9SessionMarkAbandoned tag
  | .setOwner tag owner => (s.p9SessionSetOwner tag owner).1
  | .markAsync tag => s.p9SessionMarkAsync tag
  | .hasFreeTag mem => (s.p9SessionHasFreeTag mem).1
  | .hasFlushTag mem => (s.p9SessionHasFlushTag mem).1
  | .close => s.p9SessionClose

/-- The session after a list of calls. -/
def run (ops : List Op) : Session := ops.foldl step s

@[simp] theorem run_nil : s.run [] = s := rfl

@[simp] theorem run_cons (op : Op) (ops : List Op) : s.run (op :: ops) = (s.step op).run ops := rfl

theorem run_append (ops ops' : List Op) :
    s.run (ops ++ ops') = (s.run ops).run ops' := List.foldl_append ..

end

/-! ### The opening of a session -/

open ByteCodec

/-- The server's answer to `Tversion`. -/
def rversion : List UInt8 :=
  frame MsgKind.version.r p9Notag (u32Bytes 8192 ++ strBytes p9DefaultVersion)

/-- A request sent into 64 bytes, with memory at hand. -/
def Op.sendNow (req : Send) : Op := .send ⟨true, true⟩ (List.replicate 64 0) req

end Session

end Thylacine
