import Thylacine.NineP.Message

/-!
# The Kernel's Reply Parsers

The unpacking half of `kernel/9p_wire.c`. An unpacker reads `rem` bytes at `in + off`: here
the list of those bytes, of which it returns the rest. `none` is −1. A byte string comes back
as a pointer into the buffer with its length, `NULL` for an empty one: here the bytes.

A parser validates the header, reads the fields of the body, and refuses a message of which
**bytes are left over**: `parseExact`.
-/

namespace Thylacine

open ByteCodec List
open Option (bind_eq_some_iff bind_some)

/-! ### Primitive unpackers -/

section

variable (rest : List UInt8)

def p9UnpackU8 : Option (UInt8 × List UInt8) :=
  if rest.length < 1 then none else some (rest.getD 0 0, rest.drop 1)

def p9UnpackU16 : Option (UInt16 × List UInt8) :=
  if rest.length < 2 then none else some (u16Val (rest.take 2), rest.drop 2)

def p9UnpackU32 : Option (UInt32 × List UInt8) :=
  if rest.length < 4 then none else some (u32Val (rest.take 4), rest.drop 4)

def p9UnpackU64 : Option (UInt64 × List UInt8) :=
  if rest.length < 8 then none else some (u64Val (rest.take 8), rest.drop 8)

def p9UnpackQid : Option (Qid × List UInt8) :=
  if rest.length < p9QidLen then none
  else some (⟨rest.getD 0 0, u32Val ((rest.drop 1).take 4), u64Val ((rest.drop 5).take 8)⟩,
    rest.drop p9QidLen)

def p9UnpackStr : Option (List UInt8 × List UInt8) :=
  if rest.length < 2 then none
  else
    let slen := (u16Val (rest.take 2)).toNat
    if 2 + slen > rest.length then none
    else some ((rest.drop 2).take slen, rest.drop (2 + slen))

end

@[simp] theorem p9UnpackU16_append (v : UInt16) (rest : List UInt8) :
    p9UnpackU16 (u16Bytes v ++ rest) = some (v, rest) := by
  rw [p9UnpackU16, if_neg (by rw [length_append, length_u16Bytes]; omega),
    take_left' (length_u16Bytes v), drop_left' (length_u16Bytes v), u16Val_u16Bytes]

@[simp] theorem p9UnpackU32_append (v : UInt32) (rest : List UInt8) :
    p9UnpackU32 (u32Bytes v ++ rest) = some (v, rest) := by
  rw [p9UnpackU32, if_neg (by simp), take_left' (length_u32Bytes v),
    drop_left' (length_u32Bytes v), u32Val_u32Bytes]

@[simp] theorem p9UnpackU64_append (v : UInt64) (rest : List UInt8) :
    p9UnpackU64 (u64Bytes v ++ rest) = some (v, rest) := by
  rw [p9UnpackU64, if_neg (by simp), take_left' (length_u64Bytes v),
    drop_left' (length_u64Bytes v), u64Val_u64Bytes]

@[simp] theorem p9UnpackQid_append (q : Qid) (rest : List UInt8) :
    p9UnpackQid (q.bytes ++ rest) = some (q, rest) := by
  have hdrop : (q.bytes ++ rest).drop p9QidLen = rest := drop_left' q.length_bytes
  have hpath : (q.bytes ++ rest).drop 5 = u64Bytes q.path ++ rest := by
    rw [Qid.bytes, cons_append, drop_succ_cons, append_assoc,
      drop_left' (length_u32Bytes q.version)]
  rw [p9UnpackQid, if_neg (by simp [p9QidLen]), hdrop, hpath,
    take_left' (length_u64Bytes q.path), u64Val_u64Bytes, Qid.bytes, cons_append,
    getD_cons_zero, drop_one, tail_cons, append_assoc,
    take_left' (length_u32Bytes q.version), u32Val_u32Bytes]

theorem p9UnpackStr_append {s : List UInt8} (hs : s.length ≤ 0xFFFF) (rest : List UInt8) :
    p9UnpackStr (strBytes s ++ rest) = some (s, rest) := by
  have hlen : (UInt16.ofNat s.length).toNat = s.length := 
    UInt16.toNat_ofNat_of_lt (Nat.lt_succ_of_le hs)
  have htake : (strBytes s ++ rest).take 2 = u16Bytes (UInt16.ofNat s.length) := by
    rw [strBytes, append_assoc, take_left' (length_u16Bytes _)]
  have hdrop : (strBytes s ++ rest).drop 2 = s ++ rest := by
    rw [strBytes, append_assoc, drop_left' (length_u16Bytes _)]
  rw [p9UnpackStr, if_neg (by simp; omega)]
  simp only [htake, u16Val_u16Bytes, hlen, hdrop]
  rw [if_neg (by simp), take_left' rfl, drop_left' (length_strBytes s)]

/-! ### The header -/

/-- The size, type and tag of a message: `p9_peek_header`. -/
def p9PeekHeader (inp : List UInt8) : Option (UInt32 × UInt8 × UInt16) :=
  if inp.length < p9HdrLen then none
  else some (u32Val (inp.take 4), inp.getD 4 0, u16Val ((inp.drop 5).take 2))

@[simp] theorem p9PeekHeader_append (size : UInt32) (type : UInt8) (tag : UInt16)
    (rest : List UInt8) :
    p9PeekHeader (header size type tag ++ rest) = some (size, type, tag) := by
  have hsize : (header size type tag ++ rest).take 4 = u32Bytes size := by
    rw [header, append_assoc, take_left' (length_u32Bytes size)]
  have hdrop : (header size type tag ++ rest).drop 4 = type :: (u16Bytes tag ++ rest) := by
    rw [header, append_assoc, drop_left' (length_u32Bytes size), cons_append]
  have htype : (header size type tag ++ rest).getD 4 0 = type := by
    rfl
  have htag : ((header size type tag ++ rest).drop 5).take 2 = u16Bytes tag := by
    rw [← drop_drop (i := 1), hdrop, drop_one, tail_cons, take_left' (length_u16Bytes tag)]
  rw [p9PeekHeader, if_neg (by simp), hsize, htype, htag, u32Val_u32Bytes, u16Val_u16Bytes]

/-- `validate_rmsg_header`: tag and body. The length is compared as a `u32`. -/
def validateRmsgHeader (inp : List UInt8) (expectedType : UInt8) :
    Option (UInt16 × List UInt8) := do
  let (size, type, tag) ← p9PeekHeader inp
  if size ≠ UInt32.ofNat inp.length then none
  else if size.toNat < p9HdrLen then none
  else if type ≠ expectedType then none
  else some (tag, inp.drop p9HdrLen)

theorem validateRmsgHeader_append (size : UInt32) (type expectedType : UInt8) (tag : UInt16)
    (rest : List UInt8) :
    validateRmsgHeader (header size type tag ++ rest) expectedType =
      if size ≠ UInt32.ofNat (p9HdrLen + rest.length) then none
      else if size.toNat < p9HdrLen then none
      else if type ≠ expectedType then none
      else some (tag, rest) := by
  rw [validateRmsgHeader, p9PeekHeader_append, Option.bind_eq_bind, bind_some,
    length_append, length_header, drop_left' (length_header _ _ _)]

/-- A parser: the **header**, the fields of `body`, and nothing more. -/
def parseExact {α : Type} (inp : List UInt8) (expectedType : UInt8)
    (body : List UInt8 → Option (α × List UInt8)) : Option (UInt16 × α) := do
  let (tag, rest) ← validateRmsgHeader inp expectedType
  let (v, rest) ← body rest
  if rest ≠ [] then none else some (tag, v)

variable {inp : List UInt8} {tag : UInt16} {expectedType : UInt8}

theorem validateRmsgHeader_eq_some {rest : List UInt8}
    (h : validateRmsgHeader inp expectedType = some (tag, rest)) :
    ∃ size, p9PeekHeader inp = some (size, expectedType, tag) := by
  obtain ⟨⟨size, type, tag'⟩, hpeek, hres⟩ := bind_eq_some_iff.mp h
  dsimp only at hres
  split_ifs at hres with hsize hshort htype
  obtain rfl : type = expectedType := not_not.mp htype
  cases hres
  exact ⟨size, hpeek⟩

/-- A parsed message has its header's **type and tag**. -/
theorem parseExact_eq_some {α : Type} {body : List UInt8 → Option (α × List UInt8)} {v : α}
    (h : parseExact inp expectedType body = some (tag, v)) :
    ∃ size, p9PeekHeader inp = some (size, expectedType, tag) := by
  obtain ⟨⟨tag', rest⟩, hheader, h⟩ := bind_eq_some_iff.mp h
  obtain ⟨⟨v', rest'⟩, -, h⟩ := bind_eq_some_iff.mp h
  dsimp only at h
  split_ifs at h
  cases h
  exact validateRmsgHeader_eq_some hheader

/-! ### The parsers -/

def p9ParseRversion (inp : List UInt8) : Option (UInt16 × UInt32 × List UInt8) :=
  parseExact inp MsgKind.version.r fun rest => do
    let (msize, rest) ← p9UnpackU32 rest
    let (version, rest) ← p9UnpackStr rest
    return ((msize, version), rest)

/-- A body of one qid: `parse_qid_body`, and `p9_parse_rattach`. -/
def parseQidBody (inp : List UInt8) (expectedType : UInt8) : Option (UInt16 × Qid) :=
  parseExact inp expectedType p9UnpackQid

def p9ParseRattach (inp : List UInt8) : Option (UInt16 × Qid) := parseQidBody inp MsgKind.attach.r

/-- The caller's array for a walk's qids: `qids` and `qid_cap`. -/
structure QidBuf where
  isNull : Bool
  cap : ℕ

/-- The checks of a count that the server supplied. -/
def QidBuf.refuses (qids : QidBuf) (nwqid : ℕ) : Prop :=
  nwqid > qids.cap ∨ nwqid > p9MaxWalk ∨ (qids.isNull ∧ nwqid > 0)

instance (qids : QidBuf) (nwqid : ℕ) : Decidable (qids.refuses nwqid) :=
  inferInstanceAs (Decidable (_ ∨ _ ∨ _))

/-- The loop that reads `n` qids. -/
def unpackQids : ℕ → List UInt8 → Option (List Qid × List UInt8)
  | 0, rest => some ([], rest)
  | n + 1, rest => do
    let (q, rest) ← p9UnpackQid rest
    let (qs, rest) ← unpackQids n rest
    return (q :: qs, rest)

def p9ParseRwalk (inp : List UInt8) (qids : QidBuf) : Option (UInt16 × List Qid) :=
  parseExact inp MsgKind.walk.r fun rest => do
    let (nwqid, rest) ← p9UnpackU16 rest
    if qids.refuses nwqid.toNat then none else unpackQids nwqid.toNat rest

/-- An empty body: `parse_empty_body`, and the parsers of `Rclunk`, `Rflush`, `Rsetattr`, `Rfsync`. -/
def parseEmptyBody (inp : List UInt8) (expectedType : UInt8) : Option UInt16 := do
  let (tag, _) ← validateRmsgHeader inp expectedType
  if p9HdrLen ≠ inp.length then none else some tag

theorem parseEmptyBody_eq_some (h : parseEmptyBody inp expectedType = some tag) :
    ∃ size, p9PeekHeader inp = some (size, expectedType, tag) := by
  obtain ⟨⟨tag', rest⟩, hheader, h⟩ := bind_eq_some_iff.mp h
  split_ifs at h
  cases h
  exact validateRmsgHeader_eq_some hheader

section

variable (inp : List UInt8)

def p9ParseRclunk : Option UInt16 := parseEmptyBody inp MsgKind.clunk.r

def p9ParseRflush : Option UInt16 := parseEmptyBody inp MsgKind.flush.r

def p9ParseRlerror : Option (UInt16 × UInt32) := parseExact inp p9Rlerror p9UnpackU32

/-- A qid and an `iounit`: `parse_open_create_body`. -/
def parseOpenCreateBody (expectedType : UInt8) : Option (UInt16 × Qid × UInt32) :=
  parseExact inp expectedType fun rest => do
    let (qid, rest) ← p9UnpackQid rest
    let (iounit, rest) ← p9UnpackU32 rest
    return ((qid, iounit), rest)

def p9ParseRlopen : Option (UInt16 × Qid × UInt32) := parseOpenCreateBody inp MsgKind.lopen.r

def p9ParseRlcreate : Option (UInt16 × Qid × UInt32) := parseOpenCreateBody inp MsgKind.lcreate.r

/-- A counted run that **ends the message**: `p9_parse_rread`, `p9_parse_rreaddir`. -/
def parseCounted (expectedType : UInt8) (dataCap : UInt32) :
    Option (UInt16 × UInt32 × List UInt8) := do
  let (tag, rest) ← validateRmsgHeader inp expectedType
  let (c, rest) ← p9UnpackU32 rest
  if c > dataCap then none
  else if c.toNat ≠ rest.length then none
  else some (tag, c, rest)

def p9ParseRread (dataCap : UInt32) : Option (UInt16 × UInt32 × List UInt8) :=
  parseCounted inp MsgKind.read.r dataCap

def p9ParseRwrite : Option (UInt16 × UInt32) := parseExact inp MsgKind.write.r p9UnpackU32

end

/-- `p9_parse_getattr_body`: the record, and the bytes after it. -/
def p9ParseGetattrBody (rest : List UInt8) : Option (Attr × List UInt8) := do
  let (valid, rest) ← p9UnpackU64 rest
  let (qid, rest) ← p9UnpackQid rest
  let (mode, rest) ← p9UnpackU32 rest
  let (uid, rest) ← p9UnpackU32 rest
  let (gid, rest) ← p9UnpackU32 rest
  let (nlink, rest) ← p9UnpackU64 rest
  let (rdev, rest) ← p9UnpackU64 rest
  let (size, rest) ← p9UnpackU64 rest
  let (blksize, rest) ← p9UnpackU64 rest
  let (blocks, rest) ← p9UnpackU64 rest
  let (atimeSec, rest) ← p9UnpackU64 rest
  let (atimeNsec, rest) ← p9UnpackU64 rest
  let (mtimeSec, rest) ← p9UnpackU64 rest
  let (mtimeNsec, rest) ← p9UnpackU64 rest
  let (ctimeSec, rest) ← p9UnpackU64 rest
  let (ctimeNsec, rest) ← p9UnpackU64 rest
  let (btimeSec, rest) ← p9UnpackU64 rest
  let (btimeNsec, rest) ← p9UnpackU64 rest
  let (gen, rest) ← p9UnpackU64 rest
  let (dataVersion, rest) ← p9UnpackU64 rest
  return (⟨valid, qid, mode, uid, gid, nlink, rdev, size, blksize, blocks, atimeSec, atimeNsec,
    mtimeSec, mtimeNsec, ctimeSec, ctimeNsec, btimeSec, btimeNsec, gen, dataVersion⟩, rest)

/-- An attribute record's bytes, in front of `rest`. -/
def Attr.bytesThen (a : Attr) (rest : List UInt8) : List UInt8 :=
  u64Bytes a.valid ++ (a.qid.bytes ++ (u32Bytes a.mode ++ (u32Bytes a.uid ++ (u32Bytes a.gid ++
    (u64Bytes a.nlink ++ (u64Bytes a.rdev ++ (u64Bytes a.size ++ (u64Bytes a.blksize ++
    (u64Bytes a.blocks ++ (u64Bytes a.atimeSec ++ (u64Bytes a.atimeNsec ++
    (u64Bytes a.mtimeSec ++ (u64Bytes a.mtimeNsec ++ (u64Bytes a.ctimeSec ++
    (u64Bytes a.ctimeNsec ++ (u64Bytes a.btimeSec ++ (u64Bytes a.btimeNsec ++
    (u64Bytes a.gen ++ (u64Bytes a.dataVersion ++ rest)))))))))))))))))))

theorem bind_of_eq_some {α β : Type} {x : Option α} {v : α} {k : α → Option β} {y : Option β}
    (hx : x = some v) (hk : k v = y) : x.bind k = y := by
  rw [hx, bind_some, hk]

theorem p9ParseGetattrBody_bytesThen (a : Attr) (rest : List UInt8) :
    p9ParseGetattrBody (a.bytesThen rest) = some (a, rest) := by
  rw [p9ParseGetattrBody]
  refine bind_of_eq_some (p9UnpackU64_append _ _) ?_
  refine bind_of_eq_some (p9UnpackQid_append _ _) ?_
  iterate 3 refine bind_of_eq_some (p9UnpackU32_append _ _) ?_
  iterate 15 refine bind_of_eq_some (p9UnpackU64_append _ _) ?_
  rfl

def p9ParseRgetattr (inp : List UInt8) : Option (UInt16 × Attr) :=
  parseExact inp MsgKind.getattr.r p9ParseGetattrBody

/-- The loop over `n` records that reads their qids, eight bytes in. -/
def unpackWgaQids : ℕ → List UInt8 → Option (List Qid)
  | 0, _ => some []
  | n + 1, body => do
    let (q, _) ← p9UnpackQid ((body.drop 8).take p9QidLen)
    let qs ← unpackWgaQids n (body.drop p9WgaBodyLen)
    return q :: qs

/-- The qids, and the records for the caller to read. -/
def p9ParseRwalkgetattr (inp : List UInt8) (qids : QidBuf) :
    Option (UInt16 × List Qid × List UInt8) := do
  let (tag, rest) ← validateRmsgHeader inp MsgKind.walkgetattr.r
  let (nwqid, rest) ← p9UnpackU16 rest
  if qids.refuses nwqid.toNat then none
  else if rest.length ≠ nwqid.toNat * p9WgaBodyLen then none
  else
    let qs ← unpackWgaQids nwqid.toNat rest
    some (tag, qs, rest)

theorem p9ParseRwalkgetattr_eq_some {qids : QidBuf}
    {qs : List Qid} {body : List UInt8} (h : p9ParseRwalkgetattr inp qids = some (tag, qs, body)) :
    ∃ size, p9PeekHeader inp = some (size, MsgKind.walkgetattr.r, tag) := by
  obtain ⟨⟨tag', rest⟩, hheader, h⟩ := bind_eq_some_iff.mp h
  obtain ⟨⟨nwqid, rest'⟩, -, h⟩ := bind_eq_some_iff.mp h
  dsimp only at h
  split_ifs at h
  obtain ⟨qs', -, h⟩ := bind_eq_some_iff.mp h
  cases h
  exact validateRmsgHeader_eq_some hheader

def p9ParseRsetattr (inp : List UInt8) : Option UInt16 := parseEmptyBody inp MsgKind.setattr.r

def p9ParseRreaddir (inp : List UInt8) (dataCap : UInt32) : Option (UInt16 × UInt32 × List UInt8) :=
  parseCounted inp MsgKind.readdir.r dataCap

/-- `struct p9_statfs`. -/
structure Statfs where
  type : UInt32
  bsize : UInt32
  blocks : UInt64
  bfree : UInt64
  bavail : UInt64
  files : UInt64
  ffree : UInt64
  fsid : UInt64
  namelen : UInt32
  deriving DecidableEq, Repr

def p9ParseRstatfs (inp : List UInt8) : Option (UInt16 × Statfs) :=
  parseExact inp MsgKind.statfs.r fun rest => do
    let (type, rest) ← p9UnpackU32 rest
    let (bsize, rest) ← p9UnpackU32 rest
    let (blocks, rest) ← p9UnpackU64 rest
    let (bfree, rest) ← p9UnpackU64 rest
    let (bavail, rest) ← p9UnpackU64 rest
    let (files, rest) ← p9UnpackU64 rest
    let (ffree, rest) ← p9UnpackU64 rest
    let (fsid, rest) ← p9UnpackU64 rest
    let (namelen, rest) ← p9UnpackU32 rest
    return (⟨type, bsize, blocks, bfree, bavail, files, ffree, fsid, namelen⟩, rest)

def p9ParseRfsync (inp : List UInt8) : Option UInt16 := parseEmptyBody inp MsgKind.fsync.r

def p9ParseRlock (inp : List UInt8) : Option (UInt16 × UInt8) :=
  parseExact inp MsgKind.lock.r p9UnpackU8

/-- `struct p9_getlock`. -/
structure Getlock where
  type : UInt8
  start : UInt64
  length : UInt64
  procId : UInt32
  deriving DecidableEq, Repr

variable (inp : List UInt8)

/-- The client id is read and dropped. -/
def p9ParseRgetlock : Option (UInt16 × Getlock) :=
  parseExact inp MsgKind.getlock.r fun rest => do
    let (type, rest) ← p9UnpackU8 rest
    let (start, rest) ← p9UnpackU64 rest
    let (length, rest) ← p9UnpackU64 rest
    let (procId, rest) ← p9UnpackU32 rest
    let (_, rest) ← p9UnpackStr rest
    return (⟨type, start, length, procId⟩, rest)

def p9ParseRsymlink : Option (UInt16 × Qid) := parseQidBody inp MsgKind.symlink.r

def p9ParseRmknod : Option (UInt16 × Qid) := parseQidBody inp MsgKind.mknod.r

def p9ParseRrename : Option UInt16 := parseEmptyBody inp MsgKind.rename.r

def p9ParseRreadlink : Option (UInt16 × List UInt8) := parseExact inp MsgKind.readlink.r p9UnpackStr

def p9ParseRlink : Option UInt16 := parseEmptyBody inp MsgKind.link.r

def p9ParseRmkdir : Option (UInt16 × Qid) := parseQidBody inp MsgKind.mkdir.r

def p9ParseRrenameat : Option UInt16 := parseEmptyBody inp MsgKind.renameat.r

def p9ParseRunlinkat : Option UInt16 := parseEmptyBody inp MsgKind.unlinkat.r

def p9ParseRweft : Option (UInt16 × WeftGeom) :=
  parseExact inp MsgKind.weft.r fun rest => do
    let (shareId, rest) ← p9UnpackU64 rest
    let (ringSize, rest) ← p9UnpackU32 rest
    let (ringEntries, rest) ← p9UnpackU32 rest
    return (⟨shareId, ringSize, ringEntries⟩, rest)

def p9ParseRweftio : Option (UInt16 × UInt32) := parseExact inp MsgKind.weftio.r p9UnpackU32

end Thylacine
