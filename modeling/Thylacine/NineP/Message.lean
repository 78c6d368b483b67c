import Thylacine.Lib.ByteCodec

/-!
# 9P Messages

What the two codecs of the repository share: the message kinds with their type bytes, the
qid, the widths of the header and the qid, and the wire format itself. A message is
`[size: u32][type: u8][tag: u16][body]`, `size` counting the whole of it: `frame`.

A body is a sequence of `Field`s. `Field.bytes` is the layout of one field; both codecs are
compared with it.
-/

namespace Thylacine

open ByteCodec

/-- The requests of the dialect, each with its reply. -/
inductive MsgKind
  | statfs | lopen | lcreate | symlink | mknod | rename | readlink | getattr | setattr
  | readdir | fsync | lock | getlock | link | mkdir | renameat | unlinkat | version | attach
  | flush | walk | read | write | clunk | walkgetattr | weft | weftio
  deriving DecidableEq, Repr

/-- The type byte of the request, `P9_T*`. -/
def MsgKind.t : MsgKind → UInt8
  | statfs => 8
  | lopen => 12
  | lcreate => 14
  | symlink => 16
  | mknod => 18
  | rename => 20
  | readlink => 22
  | getattr => 24
  | setattr => 26
  | readdir => 40
  | fsync => 50
  | lock => 52
  | getlock => 54
  | link => 70
  | mkdir => 72
  | renameat => 74
  | unlinkat => 76
  | version => 100
  | attach => 104
  | flush => 108
  | walk => 110
  | read => 116
  | write => 118
  | clunk => 120
  | walkgetattr => 140
  | weft => 142
  | weftio => 144

/-- The reply's type byte, `P9_R*`: next to the request's. -/
def MsgKind.r (k : MsgKind) : UInt8 := k.t + 1

/-- `P9_RLERROR`, which may answer any request. -/
def p9Rlerror : UInt8 := 7

/-- `P9_HDR_LEN`. -/
def p9HdrLen : ℕ := 7

/-- `P9_QID_LEN`. -/
def p9QidLen : ℕ := 13

/-- `P9_MAX_WALK`: names in one walk. -/
def p9MaxWalk : ℕ := 16

/-- `P9_NAME_MAX`: bytes in one name. -/
def p9NameMax : ℕ := 255

/-- `P9_WGA_BODY_LEN`: bytes of an attribute record. -/
def p9WgaBodyLen : ℕ := 153

/-- `P9_NOFID`. -/
def p9Nofid : UInt32 := 0xFFFFFFFF

/-- `P9_NOTAG`. -/
def p9Notag : UInt16 := 0xFFFF

/-- A server's identity for a file: `struct p9_qid`, with `kind` for `type`, and `Qid`. -/
structure Qid where
  kind : UInt8
  version : UInt32
  path : UInt64
  deriving DecidableEq, Repr

/-- The thirteen bytes of a qid. -/
def Qid.bytes (q : Qid) : List UInt8 := q.kind :: (u32Bytes q.version ++ u64Bytes q.path)

@[simp] theorem Qid.length_bytes (q : Qid) : q.bytes.length = 13 := by simp [bytes]

/-- `struct p9_attr`. -/
structure Attr where
  valid : UInt64
  qid : Qid
  mode : UInt32
  uid : UInt32
  gid : UInt32
  nlink : UInt64
  rdev : UInt64
  size : UInt64
  blksize : UInt64
  blocks : UInt64
  atimeSec : UInt64
  atimeNsec : UInt64
  mtimeSec : UInt64
  mtimeNsec : UInt64
  ctimeSec : UInt64
  ctimeNsec : UInt64
  btimeSec : UInt64
  btimeNsec : UInt64
  gen : UInt64
  dataVersion : UInt64
  deriving DecidableEq, Repr

/-- `struct p9_weft_geom`, `WeftGeom`. -/
structure WeftGeom where
  shareId : UInt64
  ringSize : UInt32
  ringEntries : UInt32
  deriving DecidableEq, Repr

/-! ### The wire format -/

/-- A length-prefixed string. -/
def strBytes (s : List UInt8) : List UInt8 := u16Bytes (UInt16.ofNat s.length) ++ s

@[simp] theorem length_strBytes (s : List UInt8) : (strBytes s).length = 2 + s.length := by
  simp [strBytes]

/-- One **field** of a body, as a pack call takes it; `σ` is how bytes are passed. -/
inductive Field (σ : Type)
  | u8 (v : UInt8)
  | u16 (v : UInt16)
  | u32 (v : UInt32)
  | u64 (v : UInt64)
  | qid (q : Qid)
  | str (s : σ)
  | data (s : σ)

/-- The bytes of a field, a byte string read by `val`. -/
def Field.bytes {σ : Type} (val : σ → List UInt8) : Field σ → List UInt8
  | u8 v => [v]
  | u16 v => u16Bytes v
  | u32 v => u32Bytes v
  | u64 v => u64Bytes v
  | qid q => q.bytes
  | str s => strBytes (val s)
  | data s => val s

/-- The seven bytes before a message of `size` bytes. -/
def header (size : UInt32) (type : UInt8) (tag : UInt16) : List UInt8 :=
  u32Bytes size ++ type :: u16Bytes tag

@[simp] theorem length_header (size : UInt32) (type : UInt8) (tag : UInt16) :
    (header size type tag).length = p9HdrLen := by
  simp [header, p9HdrLen]

/-- Patching the size in. -/
theorem overwrite_header (size size' : UInt32) (type : UInt8) (tag : UInt16) (rest : List UInt8) :
    overwrite (header size type tag ++ rest) 0 (u32Bytes size') =
      header size' type tag ++ rest := by
  rw [overwrite, List.take_zero, List.nil_append, length_u32Bytes, header,
    List.append_assoc, List.drop_left' (length_u32Bytes size), header, List.append_assoc]

/-- The **message** with the given type, tag and body. -/
def frame (type : UInt8) (tag : UInt16) (body : List UInt8) : List UInt8 :=
  header (UInt32.ofNat (p9HdrLen + body.length)) type tag ++ body

@[simp] theorem length_frame (type : UInt8) (tag : UInt16) (body : List UInt8) :
    (frame type tag body).length = p9HdrLen + body.length := by
  simp [frame]

end Thylacine
