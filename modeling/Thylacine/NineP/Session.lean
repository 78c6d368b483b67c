import Thylacine.NineP.WireBuild
import Thylacine.NineP.WireParse

/-!
# The 9P Session: Tables and Sends

The first half of `kernel/9p_session.c`: the state of a session, its fid table, its tag table
and the request side. The client calls all of it under one lock, so a session is a sequential
machine.

A tag is an index into the tag table, which grows by chunks of 64 entries. Entry `i` of chunk
`k` is `tags (64 k + i)` here, and the two counters of a chunk are `chunkActive k` and
`chunkSync k`. A growth calls `kmalloc`, for the directory of chunks and for the chunk; an
operation that may grow the table takes the two outcomes, `Kmalloc`.
-/

namespace Thylacine

open Function (update)

/-- `enum p9_session_state`. -/
inductive SessState
  | init | versioned | opened | closed
  deriving DecidableEq, Repr

/-- `struct p9_outstanding`: the request under a tag. -/
structure Outstanding where
  active : Bool
  kind : Option MsgKind
  fid : UInt32
  newFid : UInt32
  opId : UInt32
  awaitingFlush : Bool
  ownerWaits : Bool
  abandoned : Bool
  holdsSlot : Bool
  flushOldtag : ℕ
  walkNwname : ℕ
  mutates : Bool
  flushTag : ℕ
  async : Bool
  owner : Option ℕ
  deriving DecidableEq, Repr

/-- All cleared but `mutates`, which `entry_zero` leaves. -/
def Outstanding.zero (mutates : Bool) : Outstanding where
  active := false
  kind := none
  fid := 0
  newFid := 0
  opId := 0
  awaitingFlush := false
  ownerWaits := false
  abandoned := false
  holdsSlot := false
  flushOldtag := 0
  walkNwname := 0
  mutates := mutates
  flushTag := 0
  async := false
  owner := none

/-- A thread that waits for the reply owns the entry. -/
def Outstanding.syncOwned (e : Outstanding) : Bool := e.owner.isSome && !e.async

/-- The request is a `Tflush`. -/
def Outstanding.isFlush (e : Outstanding) : Bool := e.kind == some .flush

/-- A request in flight that may act on `fid`: no `Tflush`, not flushed with its owner gone, not
abandoned. -/
def Outstanding.liveOn (e : Outstanding) (fid : UInt32) : Bool :=
  e.active && !e.isFlush && !(e.awaitingFlush && !e.ownerWaits) && !e.abandoned &&
    (e.fid == fid || e.newFid == fid)

/-- `P9_TAG_CHUNK`. -/
def p9TagChunk : ℕ := 64

/-- `P9_TAG_LIMIT`. -/
def p9TagLimit : ℕ := 0xFFFF

/-- `P9_TAG_CHUNKS`. -/
def p9TagChunks : ℕ := (p9TagLimit + p9TagChunk - 1) / p9TagChunk

/-- `P9_OPS_MAX`. -/
def p9OpsMax : ℕ := 32767

/-- `P9_ASYNC_MAX`. -/
def p9AsyncMax : ℕ := 16384

/-- `P9_SESSION_MAX_FIDS`. -/
def p9SessionMaxFids : ℕ := 1024

/-- `struct p9_session`; `hasDir`: it has a chunk directory. -/
@[ext] structure Session where
  state : SessState
  rootFid : UInt32
  msize : UInt32
  negotiatedMsize : UInt32
  boundFids : List UInt32
  nReservedSlots : ℕ
  tags : ℕ → Outstanding
  chunkActive : ℕ → ℕ
  chunkSync : ℕ → ℕ
  hasDir : Bool
  nChunks : ℕ
  nActive : ℕ
  nFlush : ℕ
  nAsync : ℕ
  opsMax : ℕ
  asyncMax : ℕ
  tagLimit : ℕ
  nextOpId : UInt32

namespace Session

/-! ### The fid table -/

section

variable (s : Session)

def fidBound (fid : UInt32) : Bool := s.boundFids.contains fid

/-- Binds `fid`, unless it is bound or the table is full. -/
def fidBind (fid : UInt32) : Session × Bool :=
  if s.fidBound fid then (s, false)
  else if s.boundFids.length ≥ p9SessionMaxFids then (s, false)
  else ({ s with boundFids := s.boundFids ++ [fid] }, true)

/-- Moves the last fid into the place of `fid`. -/
def fidUnbind (fid : UInt32) : Session :=
  match s.boundFids.idxOf? fid with
  | none => s
  | some i =>
    { s with boundFids := (s.boundFids.set i (s.boundFids.getLastD 0)).dropLast }

/-! ### The tag table -/

/-- The entry of tag `t`, if the table reaches it. -/
def entry (t : ℕ) : Option Outstanding :=
  if t / p9TagChunk ≥ s.nChunks then none else some (s.tags t)

/-- An update of the entry of tag `t`. -/
def modify (t : ℕ) (f : Outstanding → Outstanding) : Session :=
  { s with tags := update s.tags t (f (s.tags t)) }

def slotAvailable : Bool := s.boundFids.length + s.nReservedSlots < p9SessionMaxFids

def slotReserve (t : ℕ) : Session :=
  { s.modify t fun e => { e with holdsSlot := true } with
    nReservedSlots := s.nReservedSlots + 1 }

def slotRelease (t : ℕ) : Session :=
  if !(s.tags t).holdsSlot then s
  else
    { s.modify t fun e => { e with holdsSlot := false } with
      nReservedSlots := s.nReservedSlots - 1 }

/-- Binds `fid` into the slot that op `t` holds. -/
def slotBind (t : ℕ) (fid : UInt32) : Session × Bool := (s.slotRelease t).fidBind fid

end

/-- The outcomes of the two allocations of a growth. -/
structure Kmalloc where
  dir : Bool
  chunk : Bool

/-- Adds a chunk and returns its first tag; a new directory stays, even without the chunk. -/
def grow (s : Session) (mem : Kmalloc) : Session × Option ℕ :=
  let k := s.nChunks
  if k ≥ p9TagChunks ∨ k * p9TagChunk ≥ s.tagLimit then (s, none)
  else if !s.hasDir && !mem.dir then (s, none)
  else if !mem.chunk then ({ s with hasDir := true }, none)
  else
    ({ s with
        hasDir := true
        tags := fun t => if t / p9TagChunk = k then Outstanding.zero false else s.tags t
        chunkActive := update s.chunkActive k 0
        chunkSync := update s.chunkSync k 0
        nChunks := k + 1 },
      some (k * p9TagChunk))

/-- The tags that `alloc_tag` looks at: those of chunks not full. -/
def tagsScanned (s : Session) : List ℕ :=
  (List.range s.nChunks).flatMap fun k =>
    if s.chunkActive k = p9TagChunk then []
    else (List.range p9TagChunk).map fun i => k * p9TagChunk + i

/-- The lowest free tag; an op, unlike a `Tflush`, needs room in the op share. -/
def allocTag (s : Session) (mem : Kmalloc) (flush : Bool) : Session × Option ℕ :=
  if !flush && s.nActive - s.nFlush ≥ s.opsMax then (s, none)
  else
    match s.tagsScanned.find? fun t => t ≥ s.tagLimit || !(s.tags t).active with
    | some t => if t ≥ s.tagLimit then (s, none) else (s, some t)
    | none => s.grow mem

/-- Such a request changes what a client caches. -/
def p9SessionKindMutates : MsgKind → Bool
  | .lcreate | .write | .setattr | .symlink | .mknod | .rename | .link | .mkdir
  | .renameat | .unlinkat => true
  | _ => false

/-- Marks tag `t` active with a request. -/
def markOutstanding (s : Session) (t : ℕ) (kind : MsgKind) (fid newFid : UInt32) : Session :=
  { s.modify t fun _ =>
      { Outstanding.zero (p9SessionKindMutates kind) with
        active := true
        kind := some kind
        fid := fid
        newFid := newFid
        opId := s.nextOpId + 1 } with
    nextOpId := s.nextOpId + 1
    chunkActive := update s.chunkActive (t / p9TagChunk) (s.chunkActive (t / p9TagChunk) + 1)
    nActive := s.nActive + 1
    nFlush := if kind = .flush then s.nFlush + 1 else s.nFlush }

/-- Clears tag `t`, releasing the slot it holds. -/
def clearOutstanding (s : Session) (t : ℕ) : Session :=
  let e := s.tags t
  let k := t / p9TagChunk
  { (s.slotRelease t).modify t fun e => Outstanding.zero e.mutates with
    nFlush := if e.isFlush then s.nFlush - 1 else s.nFlush
    nAsync := if e.async then s.nAsync - 1 else s.nAsync
    chunkSync := if e.syncOwned then update s.chunkSync k (s.chunkSync k - 1) else s.chunkSync
    chunkActive := update s.chunkActive k (s.chunkActive k - 1)
    nActive := s.nActive - 1 }

/-- Some request in flight may act on `fid`; idle chunks are skipped. -/
def anyOutstandingOnFid (s : Session) (fid : UInt32) : Bool :=
  (List.range s.nChunks).any fun k =>
    s.chunkActive k != 0 &&
      (List.range p9TagChunk).any fun i => (s.tags (k * p9TagChunk + i)).liveOn fid

/-! ### Lifecycle -/

/-- A session in memory `raw`, whose first chunk is cleared; root fid `NOFID` and message size 0 are
refused. -/
def p9SessionInit (raw : ℕ → Outstanding) (rootFid msize : UInt32) : Option Session :=
  if rootFid = p9Nofid then none
  else if msize = 0 then none
  else some
    { state := .init
      rootFid := rootFid
      msize := msize
      negotiatedMsize := 0
      boundFids := []
      nReservedSlots := 0
      tags := fun t => if t < p9TagChunk then Outstanding.zero (raw t).mutates else raw t
      chunkActive := fun _ => 0
      chunkSync := fun _ => 0
      hasDir := false
      nChunks := 1
      nActive := 0
      nFlush := 0
      nAsync := 0
      opsMax := p9OpsMax
      asyncMax := p9AsyncMax
      tagLimit := p9TagLimit
      nextOpId := 0 }

/-- Refused while requests are in flight. -/
def p9SessionClose (s : Session) : Session :=
  if s.nActive ≠ 0 then s else { s with state := .closed, boundFids := [] }

/-! ### Sends -/

/-- The shape of a send: preconditions, tag, message, bookkeeping. A growth stays even without a
message. -/
def sendOp (s : Session) (mem : Kmalloc) (pre flush : Bool) (build : UInt16 → Option Built)
    (commit : Session → ℕ → Session) : Session × Option Built :=
  if !pre then (s, none)
  else
    match s.allocTag mem flush with
    | (s, none) => (s, none)
    | (s, some t) =>
      match build (UInt16.ofNat t) with
      | none => (s, none)
      | some b => if b.accepted then (commit s t, some b) else (s, none)

/-- `P9_DEFAULT_VERSION`: "9P2000.L". -/
def p9DefaultVersion : List UInt8 := [57, 80, 50, 48, 48, 48, 46, 76]

variable (s : Session)

/-- A `Tversion` is sent under `NOTAG`, without a tag. -/
def p9SessionSendVersion (out : List UInt8) (version : CSlice) : Session × Option Built :=
  if s.state ≠ .init then (s, none)
  else
    let ver := if version.isNull then .bytes p9DefaultVersion else version
    match p9BuildTversion out p9Notag s.msize ver with
    | none => (s, none)
    | some b => if b.accepted then (s, some b) else (s, none)

def p9SessionSendAttach (mem : Kmalloc) (out : List UInt8) (uname aname : CSlice)
    (nUname : UInt32) : Session × Option Built :=
  s.sendOp mem (s.state == .versioned) false
    (fun tag => p9BuildTattach out tag s.rootFid p9Nofid uname aname nUname)
    (fun s t => s.markOutstanding t .attach s.rootFid s.rootFid)

/-- The session is open: `state == P9_SESS_OPEN`. -/
def isOpen : Bool := s.state == .opened

/-- The walk reserves a slot for `newFid`. -/
def p9SessionSendWalk (mem : Kmalloc) (out : List UInt8) (srcFid newFid : UInt32) (names : CNames) :
    Session × Option Built :=
  s.sendOp mem (s.isOpen && s.fidBound srcFid && !s.fidBound newFid && newFid != p9Nofid &&
      newFid != s.rootFid && names.nwname ≤ p9MaxWalk && !s.anyOutstandingOnFid newFid &&
      s.slotAvailable) false
    (fun tag => p9BuildTwalk out tag srcFid newFid names)
    (fun s t =>
      ((s.markOutstanding t .walk srcFid newFid).modify t fun e =>
        { e with walkNwname := names.nwname }).slotReserve t)

/-- With `NOFID` for `newFid` it asks only: no gate, no slot. -/
def p9SessionSendWalkgetattr (mem : Kmalloc) (out : List UInt8) (srcFid newFid : UInt32)
    (requestMask : UInt64) (names : CNames) : Session × Option Built :=
  s.sendOp mem (s.isOpen && s.fidBound srcFid && names.nwname ≤ p9MaxWalk && (newFid == p9Nofid ||
        (!s.fidBound newFid && newFid != s.rootFid && !s.anyOutstandingOnFid newFid &&
          s.slotAvailable))) false
    (fun tag => p9BuildTwalkgetattr out tag srcFid newFid requestMask names)
    (fun s t =>
      let s := (s.markOutstanding t .walkgetattr srcFid newFid).modify t fun e =>
        { e with walkNwname := names.nwname }
      if newFid = p9Nofid then s else s.slotReserve t)

/-- The fid is unbound at once; its slot stays reserved. -/
def p9SessionSendClunk (mem : Kmalloc) (out : List UInt8) (fid : UInt32) : Session × Option Built :=
  s.sendOp mem (s.isOpen && s.fidBound fid && fid != s.rootFid && !s.anyOutstandingOnFid fid) false
    (fun tag => p9BuildTclunk out tag fid)
    (fun s t => ((s.fidUnbind fid).markOutstanding t .clunk fid fid).slotReserve t)

/-- The victim is in flight, no `Tflush`, not being flushed. -/
def flushable (oldtag : ℕ) : Bool :=
  match s.entry oldtag with
  | none => false
  | some victim => victim.active && !victim.isFlush && !victim.awaitingFlush

variable (mem : Kmalloc)

def p9SessionSendFlush (out : List UInt8) (oldtag : UInt16) : Session × Option Built :=
  s.sendOp mem ((s.state == .opened || s.state == .versioned) && s.flushable oldtag.toNat) true
    (fun tag => p9BuildTflush out tag oldtag)
    (fun s t =>
      ((s.markOutstanding t .flush s.rootFid s.rootFid).modify t fun e =>
        { e with flushOldtag := oldtag.toNat }).modify oldtag.toNat fun victim =>
          { victim with awaitingFlush := true, flushTag := t })

/-- A send with a bound fid that requests may share. -/
def sendShared (pre : Bool) (kind : MsgKind) (fid newFid : UInt32) (build : UInt16 → Option Built) :
    Session × Option Built :=
  s.sendOp mem (s.isOpen && s.fidBound fid && pre) false build
    (fun s t => s.markOutstanding t kind fid newFid)

/-- A send that takes its fid for itself. -/
def sendExclusive (pre : Bool) (kind : MsgKind) (fid : UInt32) (build : UInt16 → Option Built) :
    Session × Option Built :=
  s.sendShared mem (pre && !s.anyOutstandingOnFid fid) kind fid fid build

variable (out : List UInt8)

/-- `01000` in the flags is the dialect's `O_TRUNC`. -/
def p9SessionSendLopen (fid flags : UInt32) : Session × Option Built :=
  s.sendOp mem (s.isOpen && s.fidBound fid && !s.anyOutstandingOnFid fid) false
    (fun tag => p9BuildTlopen out tag fid flags)
    (fun s t =>
      let s := s.markOutstanding t .lopen fid fid
      if flags &&& 0x200 ≠ 0 then s.modify t fun e => { e with mutates := true } else s)

section

variable (fid : UInt32)

def p9SessionSendLcreate (name : CSlice) (flags mode gid : UInt32) : Session × Option Built :=
  s.sendExclusive mem (!decide (badName name)) .lcreate fid
    (fun tag => p9BuildTlcreate out tag fid name flags mode gid)

def p9SessionSendRead (offset : UInt64) (count : UInt32) : Session × Option Built :=
  s.sendShared mem true .read fid fid (fun tag => p9BuildTread out tag fid offset count)

def p9SessionSendWrite (offset : UInt64) (data : CSlice) : Session × Option Built :=
  s.sendShared mem (!decide (data.len > 0 ∧ data.isNull)) .write fid fid
    (fun tag => p9BuildTwrite out tag fid offset data)

def p9SessionSendGetattr (requestMask : UInt64) : Session × Option Built :=
  s.sendShared mem true .getattr fid fid (fun tag => p9BuildTgetattr out tag fid requestMask)

def p9SessionSendSetattr (attr : Option Setattr) : Session × Option Built :=
  s.sendExclusive mem attr.isSome .setattr fid (fun tag => p9BuildTsetattr out tag fid attr)

def p9SessionSendReaddir (offset : UInt64) (count : UInt32) : Session × Option Built :=
  s.sendShared mem true .readdir fid fid (fun tag => p9BuildTreaddir out tag fid offset count)

def p9SessionSendStatfs : Session × Option Built :=
  s.sendShared mem true .statfs fid fid (fun tag => p9BuildTstatfs out tag fid)

end

def p9SessionSendFsync (fid datasync : UInt32) : Session × Option Built :=
  s.sendShared mem true .fsync fid fid (fun tag => p9BuildTfsync out tag fid datasync)

/-- The `proc_id` of a lock request is its fid. -/
def p9SessionSendLock (fid : UInt32) (type : UInt8) (flags : UInt32) (start length : UInt64)
    (client : CSlice) :
    Session × Option Built :=
  s.sendShared mem true .lock fid fid
    (fun tag => p9BuildTlock out tag fid type flags start length fid client)

def p9SessionSendGetlock (fid : UInt32) (type : UInt8) (start length : UInt64) (client : CSlice) :
    Session × Option Built :=
  s.sendShared mem true .getlock fid fid
    (fun tag => p9BuildTgetlock out tag fid type start length fid client)

def p9SessionSendSymlink (fid : UInt32) (name symtgt : CSlice) (gid : UInt32) :
    Session × Option Built :=
  s.sendShared mem (!decide (badName name)) .symlink fid fid
    (fun tag => p9BuildTsymlink out tag fid name symtgt gid)

def p9SessionSendMknod (dfid : UInt32) (name : CSlice) (mode major minor gid : UInt32) :
    Session × Option Built :=
  s.sendShared mem (!decide (badName name)) .mknod dfid dfid
    (fun tag => p9BuildTmknod out tag dfid name mode major minor gid)

def p9SessionSendRename (fid dfid : UInt32) (name : CSlice) : Session × Option Built :=
  s.sendExclusive mem (s.fidBound dfid && !decide (badName name)) .rename fid
    (fun tag => p9BuildTrename out tag fid dfid name)

def p9SessionSendReadlink (fid : UInt32) : Session × Option Built :=
  s.sendShared mem true .readlink fid fid (fun tag => p9BuildTreadlink out tag fid)

def p9SessionSendLink (dfid fid : UInt32) (name : CSlice) : Session × Option Built :=
  s.sendShared mem (s.fidBound fid && !decide (badName name)) .link dfid fid
    (fun tag => p9BuildTlink out tag dfid fid name)

def p9SessionSendMkdir (dfid : UInt32) (name : CSlice) (mode gid : UInt32) :
    Session × Option Built :=
  s.sendShared mem (!decide (badName name)) .mkdir dfid dfid
    (fun tag => p9BuildTmkdir out tag dfid name mode gid)

def p9SessionSendRenameat (olddirfid : UInt32) (oldname : CSlice) (newdirfid : UInt32)
    (newname : CSlice) :
    Session × Option Built :=
  s.sendShared mem
    (s.fidBound newdirfid && !decide (badName oldname ∨ badName newname)) .renameat olddirfid
    newdirfid (fun tag => p9BuildTrenameat out tag olddirfid oldname newdirfid newname)

def p9SessionSendUnlinkat (dfid : UInt32) (name : CSlice) (flags : UInt32) :
    Session × Option Built :=
  s.sendShared mem (!decide (badName name)) .unlinkat dfid dfid
    (fun tag => p9BuildTunlinkat out tag dfid name flags)

def p9SessionSendWeft (fid : UInt32) : Session × Option Built :=
  s.sendShared mem true .weft fid fid (fun tag => p9BuildTweft out tag fid)

def p9SessionSendWeftio (fid off len dir : UInt32) : Session × Option Built :=
  s.sendShared mem true .weftio fid fid (fun tag => p9BuildTweftio out tag fid off len dir)

end Session

end Thylacine
