import Thylacine.NineP.Message

/-!
# The Native Servers' Codec

The crate `usr/lib/ninep`, which the native 9P servers read requests and write replies with.
An unpacker takes the buffer and an offset and returns the new offset; `none` is `Err(())`.
A builder writes a header with a **placeholder** for the size, then the body, and patches the
size in at the end.
-/

namespace Thylacine.Ninep

open ByteCodec Thylacine.Field List
open Option (bind_eq_some_iff bind_some)

/-! ### The crate's reply types -/

def p9Rversion : UInt8 := 101
def p9Rattach : UInt8 := 105
def p9Rwalk : UInt8 := 111
def p9Rlopen : UInt8 := 13
def p9Rread : UInt8 := 117
def p9Rwrite : UInt8 := 119
def p9Rclunk : UInt8 := 121
def p9Rgetattr : UInt8 := 25
def p9Rreaddir : UInt8 := 41
def p9Rlerror : UInt8 := 7
def p9Rflush : UInt8 := 109
def p9Rweft : UInt8 := 143
def p9Rweftio : UInt8 := 145

/-! ### Primitive unpackers -/

section

variable (buf : List UInt8) (off : ℕ)

def unpackU8 : Option (UInt8 × ℕ) :=
  if buf.length < off + 1 then none else some (buf.getD off 0, off + 1)

def unpackU16 : Option (UInt16 × ℕ) :=
  if buf.length < off + 2 then none else some (u16Val ((buf.drop off).take 2), off + 2)

def unpackU32 : Option (UInt32 × ℕ) :=
  if buf.length < off + 4 then none else some (u32Val ((buf.drop off).take 4), off + 4)

def unpackU64 : Option (UInt64 × ℕ) :=
  if buf.length < off + 8 then none else some (u64Val ((buf.drop off).take 8), off + 8)

def unpackStr : Option (List UInt8 × ℕ) := do
  let (len, p) ← unpackU16 buf off
  let stop := p + len.toNat
  if buf.length < stop then none else some ((buf.drop p).take len.toNat, stop)

end

variable {buf rest : List UInt8} {off : ℕ}

theorem unpackU8_of_drop {v : UInt8} (h : buf.drop off = v :: rest) :
    unpackU8 buf off = some (v, off + 1) ∧ buf.drop (off + 1) = rest := by
  have h' : buf.drop off = [v] ++ rest := h
  have hle : off + 1 ≤ buf.length := add_le_of_drop h' rfl one_pos
  refine ⟨?_, drop_add_of_drop h' rfl⟩
  rw [unpackU8, if_neg (not_lt.mpr hle), getD_eq_getElem?_getD, ← head?_drop, h]
  rfl

theorem unpackU16_of_drop {v : UInt16} (h : buf.drop off = u16Bytes v ++ rest) :
    unpackU16 buf off = some (v, off + 2) ∧ buf.drop (off + 2) = rest := by
  have hle := add_le_of_drop h (length_u16Bytes v) (by decide)
  refine ⟨?_, drop_add_of_drop h (length_u16Bytes v)⟩
  rw [unpackU16, if_neg (not_lt.mpr hle), h, take_left' (length_u16Bytes v), u16Val_u16Bytes]

theorem unpackU32_of_drop {v : UInt32} (h : buf.drop off = u32Bytes v ++ rest) :
    unpackU32 buf off = some (v, off + 4) ∧ buf.drop (off + 4) = rest := by
  have hle := add_le_of_drop h (length_u32Bytes v) (by decide)
  refine ⟨?_, drop_add_of_drop h (length_u32Bytes v)⟩
  rw [unpackU32, if_neg (not_lt.mpr hle), h, take_left' (length_u32Bytes v), u32Val_u32Bytes]

theorem unpackU64_of_drop {v : UInt64} (h : buf.drop off = u64Bytes v ++ rest) :
    unpackU64 buf off = some (v, off + 8) ∧ buf.drop (off + 8) = rest := by
  have hle := add_le_of_drop h (length_u64Bytes v) (by decide)
  refine ⟨?_, drop_add_of_drop h (length_u64Bytes v)⟩
  rw [unpackU64, if_neg (not_lt.mpr hle), h, take_left' (length_u64Bytes v), u64Val_u64Bytes]

theorem unpackStr_of_drop {s : List UInt8} (hs : s.length ≤ 0xFFFF)
    (h : buf.drop off = strBytes s ++ rest) :
    unpackStr buf off = some (s, off + (2 + s.length)) ∧
      buf.drop (off + (2 + s.length)) = rest := by
  have hlen : (UInt16.ofNat s.length).toNat = s.length :=
    UInt16.toNat_ofNat_of_lt (Nat.lt_succ_of_le hs)
  have hle := add_le_of_drop h (length_strBytes s) (by omega)
  have hrest := drop_add_of_drop h (length_strBytes s)
  rw [strBytes, append_assoc] at h
  obtain ⟨hcount, hdrop⟩ := unpackU16_of_drop h
  refine ⟨?_, hrest⟩
  rw [unpackStr, hcount]
  change (if buf.length < off + 2 + (UInt16.ofNat s.length).toNat then none else some (_, _)) = _
  rw [hlen, if_neg (by omega), hdrop, take_left' rfl, add_assoc]

/-! ### The header -/

structure Header where
  size : UInt32
  mtype : UInt8
  tag : UInt16
  deriving DecidableEq, Repr

def peekHeader (buf : List UInt8) : Option Header :=
  if buf.length < p9HdrLen then none
  else do
    let (size, p) ← unpackU32 buf 0
    let (mtype, p) ← unpackU8 buf p
    let (tag, _) ← unpackU16 buf p
    return ⟨size, mtype, tag⟩

theorem peekHeader_append (size : UInt32) (type : UInt8) (tag : UInt16) (rest : List UInt8) :
    peekHeader (header size type tag ++ rest) = some ⟨size, type, tag⟩ := by
  have h0 : (header size type tag ++ rest).drop 0 =
      u32Bytes size ++ (type :: (u16Bytes tag ++ rest)) := by
    rw [header, drop_zero, append_assoc, cons_append]
  obtain ⟨hsize, h4⟩ := unpackU32_of_drop h0
  obtain ⟨htype, h5⟩ := unpackU8_of_drop h4
  obtain ⟨htag, -⟩ := unpackU16_of_drop h5
  rw [peekHeader, hsize]
  simp only [Option.bind_eq_bind, bind_some, htype, htag]
  rfl

/-! ### Requests -/

structure TversionArgs where
  msize : UInt32
  version : List UInt8
  deriving DecidableEq, Repr

def parseTversion (buf : List UInt8) : Option TversionArgs := do
  let (msize, p) ← unpackU32 buf p9HdrLen
  let (version, _) ← unpackStr buf p
  return ⟨msize, version⟩

structure TattachArgs where
  fid : UInt32
  afid : UInt32
  uname : List UInt8
  aname : List UInt8
  nUname : UInt32
  deriving DecidableEq, Repr

def parseTattach (buf : List UInt8) : Option TattachArgs := do
  let (fid, p) ← unpackU32 buf p9HdrLen
  let (afid, p) ← unpackU32 buf p
  let (uname, p) ← unpackStr buf p
  let (aname, p) ← unpackStr buf p
  let (nUname, _) ← unpackU32 buf p
  return ⟨fid, afid, uname, aname, nUname⟩

/-- The first `nwname` of `P9_MAX_WALK` entries are set. -/
structure TwalkArgs where
  fid : UInt32
  newfid : UInt32
  nwname : UInt16
  names : List (List UInt8)
  deriving DecidableEq, Repr

/-- The loop that sets `names[i]` to `names[i + n − 1]`. -/
def unpackNames (buf : List UInt8) : ℕ → ℕ → ℕ → List (List UInt8) → Option (List (List UInt8))
  | 0, _, _, names => some names
  | n + 1, i, p, names => do
    let (name, np) ← unpackStr buf p
    if name.length > p9NameMax then none else unpackNames buf n (i + 1) np (names.set i name)

/-- The loop **fills in** the names, at most 255 bytes each. -/
theorem unpackNames_of_drop {names : List (List UInt8)}
    (hnames : ∀ s ∈ names, s.length ≤ p9NameMax) (done : List (List UInt8)) {p k : ℕ}
    (hk : names.length ≤ k) (h : buf.drop p = names.flatMap strBytes ++ rest) :
    unpackNames buf names.length done.length p (done ++ replicate k []) =
      some (done ++ names ++ replicate (k - names.length) []) := by
  induction names generalizing done p k with
  | nil => simp [unpackNames]
  | cons s names ih =>
    obtain ⟨hs, hnames⟩ := forall_mem_cons.mp hnames
    rw [flatMap_cons, append_assoc] at h
    obtain ⟨hread, hdrop⟩ := unpackStr_of_drop (hs.trans (by decide)) h
    obtain ⟨k, rfl⟩ : ∃ j, k = j + 1 := ⟨k - 1, by rw [length_cons] at hk; omega⟩
    have hset : (done ++ replicate (k + 1) []).set done.length s =
        (done ++ [s]) ++ replicate k [] := by
      rw [set_append_right _ _ (le_refl _), Nat.sub_self, replicate_succ,
        set_cons_zero, append_assoc, singleton_append]
    have hrec := ih hnames (done ++ [s]) (Nat.le_of_succ_le_succ hk) hdrop
    rw [length_cons, unpackNames, hread, Option.bind_eq_bind]
    change (if s.length > p9NameMax then none else unpackNames buf names.length
      (done.length + 1) _ ((done ++ replicate (k + 1) []).set done.length s)) = _
    rw [if_neg (not_lt.mpr hs), hset]
    simpa using hrec

def parseTwalk (buf : List UInt8) : Option TwalkArgs := do
  let (fid, p) ← unpackU32 buf p9HdrLen
  let (newfid, p) ← unpackU32 buf p
  let (nwname, p) ← unpackU16 buf p
  if nwname.toNat > p9MaxWalk then none
  else
    let names ← unpackNames buf nwname.toNat 0 p (replicate p9MaxWalk [])
    some ⟨fid, newfid, nwname, names⟩

structure TlopenArgs where
  fid : UInt32
  flags : UInt32
  deriving DecidableEq, Repr

def parseTlopen (buf : List UInt8) : Option TlopenArgs := do
  let (fid, p) ← unpackU32 buf p9HdrLen
  let (flags, _) ← unpackU32 buf p
  return ⟨fid, flags⟩

/-- `TreadArgs`, and the same for `TreaddirArgs`. -/
structure TreadArgs where
  fid : UInt32
  offset : UInt64
  count : UInt32
  deriving DecidableEq, Repr

def parseTread (buf : List UInt8) : Option TreadArgs := do
  let (fid, p) ← unpackU32 buf p9HdrLen
  let (offset, p) ← unpackU64 buf p
  let (count, _) ← unpackU32 buf p
  return ⟨fid, offset, count⟩

structure TwriteArgs where
  fid : UInt32
  offset : UInt64
  count : UInt32
  data : List UInt8
  deriving DecidableEq, Repr

section

variable (buf : List UInt8)

def parseTwrite : Option TwriteArgs := do
  let (fid, p) ← unpackU32 buf p9HdrLen
  let (offset, p) ← unpackU64 buf p
  let (count, p) ← unpackU32 buf p
  let stop := p + count.toNat
  if buf.length < stop then none
  else some ⟨fid, offset, count, (buf.drop p).take count.toNat⟩

/-- A request read up to its fid: `parse_tclunk`, `parse_tgetattr` (its mask is left unread),
`parse_tweft`. -/
def parseFid : Option UInt32 := do
  let (fid, _) ← unpackU32 buf p9HdrLen
  return fid

def parseTclunk : Option UInt32 := parseFid buf

def parseTflush : Option UInt16 := do
  let (oldtag, _) ← unpackU16 buf p9HdrLen
  return oldtag

def parseTreaddir : Option TreadArgs := parseTread buf

def parseTgetattr : Option UInt32 := parseFid buf

def parseTweft : Option UInt32 := parseFid buf

end

structure WeftIoReq where
  fid : UInt32
  off : UInt32
  len : UInt32
  dir : UInt32
  deriving DecidableEq, Repr

def parseTweftio (buf : List UInt8) : Option WeftIoReq := do
  let (fid, p) ← unpackU32 buf p9HdrLen
  let (off, p) ← unpackU32 buf p
  let (len, p) ← unpackU32 buf p
  let (dir, _) ← unpackU32 buf p
  return ⟨fid, off, len, dir⟩

/-! ### Primitive packers -/

section

variable (c : Cursor)

def packU8 (v : UInt8) : Option Cursor := c.put [v]

def packU16 (v : UInt16) : Option Cursor := c.put (u16Bytes v)

def packU32 (v : UInt32) : Option Cursor := c.put (u32Bytes v)

def packU64 (v : UInt64) : Option Cursor := c.put (u64Bytes v)

def packStr (s : List UInt8) : Option Cursor :=
  if s.length > 0xFFFF then none
  else do
    let c ← packU16 c (UInt16.ofNat s.length)
    c.put s

def packQid (q : Qid) : Option Cursor := do
  let c ← packU8 c q.kind
  let c ← packU32 c q.version
  packU64 c q.path

/-- A field's pack call; `data` is the copy in `build_rread` and `build_rreaddir`. -/
def packField : Field (List UInt8) → Option Cursor
  | .u8 v => packU8 c v
  | .u16 v => packU16 c v
  | .u32 v => packU32 c v
  | .u64 v => packU64 c v
  | .qid q => packQid c q
  | .str s => packStr c s
  | .data s => c.put s

end

/-! ### Replies -/

/-- The header, with a placeholder for the size. -/
def buildHeader (out : List UInt8) (mtype : UInt8) (tag : UInt16) : Option Cursor := do
  let c ← packU32 (Cursor.start out) 0
  let c ← packU8 c mtype
  packU16 c tag

def patchHeaderSize (out : List UInt8) (totalLen : ℕ) : Option (List UInt8) :=
  if out.length < 4 ∨ totalLen > 0xFFFFFFFF then none
  else some (overwrite out 0 (u32Bytes (UInt32.ofNat totalLen)))

/-- The shape of a reply builder: `out`, and the count returned. -/
def buildMsg (out : List UInt8) (mtype : UInt8) (tag : UInt16)
    (fields : List (Field (List UInt8))) : Option (List UInt8 × ℕ) := do
  let c ← buildHeader out mtype tag
  let c ← fields.foldlM packField c
  let out ← patchHeaderSize c.buf c.off
  return (out, c.off)

/-- A string that the `u16` prefix can count. -/
def FieldShort : Field (List UInt8) → Prop
  | .str s => s.length ≤ 0xFFFF
  | _ => True

theorem packField_eq_some {c c' : Cursor} {f : Field (List UInt8)}
    (h : packField c f = some c') : FieldShort f ∧ c.put (f.bytes id) = some c' := by
  cases f with
  | str s =>
    rw [packField, packStr] at h
    split_ifs at h with hlen
    refine ⟨not_lt.mp hlen, ?_⟩
    rw [bytes, strBytes, ← Cursor.put_bind_put]
    exact h
  | qid q =>
    refine ⟨trivial, ?_⟩
    rw [bytes, Qid.bytes, ← singleton_append]
    simp only [← Cursor.put_bind_put]
    exact h
  | _ => exact ⟨trivial, h⟩

theorem packFields_eq_some {fields : List (Field (List UInt8))} {c c' : Cursor}
    (h : fields.foldlM packField c = some c') :
    (∀ f ∈ fields, FieldShort f) ∧ c.put (fields.flatMap (bytes id)) = some c' := by
  induction fields generalizing c with
  | nil => exact ⟨by simp, (Cursor.put_nil c).trans h⟩
  | cons f fields ih =>
    obtain ⟨d, hd, h⟩ := bind_eq_some_iff.mp h
    obtain ⟨hf, hput⟩ := packField_eq_some hd
    obtain ⟨hfields, hrest⟩ := ih h
    refine ⟨forall_mem_cons.mpr ⟨hf, hfields⟩, ?_⟩
    rw [flatMap_cons, ← Cursor.put_bind_put, hput]
    exact hrest

/-- A reply builder that returns `Ok(n)` **has built** its fields' message, of `n` bytes. -/
theorem buildMsg_eq_some {out out' : List UInt8} {mtype : UInt8} {tag : UInt16}
    {fields : List (Field (List UInt8))} {n : ℕ}
    (h : buildMsg out mtype tag fields = some (out', n)) :
    (∀ f ∈ fields, FieldShort f) ∧ n ≤ 0xFFFFFFFF ∧
      n = (frame mtype tag (fields.flatMap (bytes id))).length ∧
      out'.take n = frame mtype tag (fields.flatMap (bytes id)) := by
  obtain ⟨c, hc, h⟩ := bind_eq_some_iff.mp h
  obtain ⟨d, hd, h⟩ := bind_eq_some_iff.mp h
  obtain ⟨patched, hpatch, h⟩ := bind_eq_some_iff.mp h
  cases h
  obtain ⟨hshort, hput⟩ := packFields_eq_some hd
  have hhead : (Cursor.start out).put (header 0 mtype tag) = some c := by
    rw [header, ← singleton_append]
    simp only [← Cursor.put_bind_put]
    exact hc
  have hall := Cursor.put_bind_put (Cursor.start out) (header 0 mtype tag)
    (fields.flatMap (bytes id))
  rw [hhead, bind_some, hput] at hall
  obtain ⟨-, hoff, hbuf⟩ := Cursor.put_start hall.symm
  rw [length_append, length_header, ← length_frame mtype tag] at hoff
  rw [patchHeaderSize] at hpatch
  split_ifs at hpatch with hlen
  cases hpatch
  have hpatched : overwrite d.buf 0 (u32Bytes (UInt32.ofNat d.off)) =
      frame mtype tag (fields.flatMap (bytes id)) ++ out.drop d.off := by
    rw [hbuf, append_assoc, overwrite_header, length_append, length_header,
      ← length_frame mtype tag, ← hoff, frame, append_assoc, hoff, length_frame]
  refine ⟨hshort, by omega, hoff, ?_⟩
  rw [hpatched, take_left' hoff.symm]

variable (out : List UInt8)

section

variable (tag : UInt16)

def buildRversion (msize : UInt32) (version : List UInt8) : Option (List UInt8 × ℕ) :=
  buildMsg out p9Rversion tag [.u32 msize, .str version]

def buildRattach (qid : Qid) : Option (List UInt8 × ℕ) := buildMsg out p9Rattach tag [.qid qid]

def buildRwalk (qids : List Qid) : Option (List UInt8 × ℕ) :=
  if qids.length > p9MaxWalk then none
  else buildMsg out p9Rwalk tag (.u16 (UInt16.ofNat qids.length) :: qids.map .qid)

def buildRlopen (qid : Qid) (iounit : UInt32) : Option (List UInt8 × ℕ) :=
  buildMsg out p9Rlopen tag [.qid qid, .u32 iounit]

end

/-- A counted run of bytes: `build_rread` and `build_rreaddir`. -/
def buildCounted (mtype : UInt8) (tag : UInt16) (data : List UInt8) : Option (List UInt8 × ℕ) :=
  if data.length > 0xFFFFFFFF then none
  else buildMsg out mtype tag [.u32 (UInt32.ofNat data.length), .data data]

variable (tag : UInt16)

def buildRread (data : List UInt8) : Option (List UInt8 × ℕ) := buildCounted out p9Rread tag data

def buildRwrite (count : UInt32) : Option (List UInt8 × ℕ) := buildMsg out p9Rwrite tag [.u32 count]

def buildRclunk : Option (List UInt8 × ℕ) := buildMsg out p9Rclunk tag []

def buildRflush : Option (List UInt8 × ℕ) := buildMsg out p9Rflush tag []

def buildRlerror (ecode : UInt32) : Option (List UInt8 × ℕ) :=
  buildMsg out p9Rlerror tag [.u32 ecode]

/-- The fields a server does not fill are zero. -/
def buildRgetattr (valid : UInt64) (qid : Qid) (mode uid gid : UInt32) (nlink size : UInt64) :
    Option (List UInt8 × ℕ) :=
  buildMsg out p9Rgetattr tag
    [.u64 valid, .qid qid, .u32 mode, .u32 uid, .u32 gid, .u64 nlink, .u64 0, .u64 size,
      .u64 0, .u64 0, .u64 0, .u64 0, .u64 0, .u64 0, .u64 0, .u64 0, .u64 0, .u64 0, .u64 0,
      .u64 0]

def buildRreaddir (data : List UInt8) : Option (List UInt8 × ℕ) :=
  buildCounted out p9Rreaddir tag data

def buildRweft (shareId : UInt64) (ringSize ringEntries : UInt32) : Option (List UInt8 × ℕ) :=
  buildMsg out p9Rweft tag [.u64 shareId, .u32 ringSize, .u32 ringEntries]

def buildRweftio (count : UInt32) : Option (List UInt8 × ℕ) :=
  buildMsg out p9Rweftio tag [.u32 count]

end Thylacine.Ninep
