import Thylacine.NineP.Message

/-!
# The Kernel's Request Builders

The packing half of `kernel/9p_wire.c`. A builder writes into `out[0 .. cap)` and returns the
byte count, or −1. Here `out` is the list of the `cap` bytes; `none` is −1, and a builder
that comes through returns the bytes of `out` with the value of its last expression,
`(int)off` or `(int)total`. A count of 2^31 or more comes back negative, which the callers take for
a failure: `Built.accepted`.

All builders are one function: the length check, `write_header`, then one pack call a field.
-/

namespace Thylacine

open ByteCodec MsgKind

/-- A byte-string argument: a pointer with a length. -/
inductive CSlice
  | null (len : ℕ)
  | bytes (data : List UInt8)
  deriving DecidableEq, Repr

namespace CSlice

/-- The length that is passed. -/
def len : CSlice → ℕ
  | null n => n
  | bytes d => d.length

/-- The pointer is `NULL`. -/
def isNull : CSlice → Bool
  | null _ => true
  | bytes _ => false

/-- The bytes pointed at. -/
def data : CSlice → List UInt8
  | null _ => []
  | bytes d => d

/-- No `NULL` that should have bytes, nor longer than `bound`. -/
def Fits (s : CSlice) (bound : ℕ) : Prop := s.data.length = s.len ∧ s.len ≤ bound

/-- The two checks of the builders. -/
theorem fits_of_checks {s : CSlice} {bound : ℕ} (hnull : ¬(s.len > 0 ∧ s.isNull = true))
    (hlen : s.len ≤ bound) : s.Fits bound := by
  refine ⟨?_, hlen⟩
  cases s with
  | null n =>
    simp only [len, isNull, and_true, not_lt, Nat.le_zero] at hnull
    rw [data, len, hnull, List.length_nil]
  | bytes d => rfl

end CSlice

/-- A walk's name arrays, `names` and `name_lens`, or `NULL`. -/
inductive CNames
  | null (nwname : UInt16)
  | names (l : List CSlice)
  deriving DecidableEq, Repr

namespace CNames

/-- `nwname`. -/
def nwname : CNames → ℕ
  | null n => n.toNat
  | names l => l.length

/-- One of the arrays is `NULL`. -/
def isNull : CNames → Bool
  | null _ => true
  | names _ => false

/-- The entries. -/
def toList : CNames → List CSlice
  | null _ => []
  | names l => l

end CNames

/-- `struct p9_setattr`. -/
structure Setattr where
  valid : UInt32
  mode : UInt32
  uid : UInt32
  gid : UInt32
  size : UInt64
  atimeSec : UInt64
  atimeNsec : UInt64
  mtimeSec : UInt64
  mtimeNsec : UInt64
  deriving DecidableEq, Repr

/-! ### Primitive packers -/

section

variable (c : Cursor)

def p9PackU8 (v : UInt8) : Option Cursor := c.put [v]

def p9PackU16 (v : UInt16) : Option Cursor := c.put (u16Bytes v)

def p9PackU32 (v : UInt32) : Option Cursor := c.put (u32Bytes v)

def p9PackU64 (v : UInt64) : Option Cursor := c.put (u64Bytes v)

def p9PackQid (q : Qid) : Option Cursor := c.put q.bytes

/-- The `u16` prefix bounds the length; all of it must fit. -/
def p9PackStr (s : CSlice) : Option Cursor :=
  if s.len > 0xFFFF then none
  else if c.room < 2 + s.len then none
  else if s.len > 0 ∧ s.isNull then none
  else c.put (u16Bytes (UInt16.ofNat s.len) ++ s.data)

end

theorem p9PackStr_of_fits {s : CSlice} (h : s.Fits 0xFFFF) (c : Cursor) :
    p9PackStr c s = c.put (strBytes s.data) := by
  obtain ⟨hdata, hlen⟩ := h
  have hnull : ¬(s.len > 0 ∧ s.isNull = true) := by
    rintro ⟨hpos, hs⟩
    cases s with
    | null n =>
      change 0 = n at hdata
      change 0 < n at hpos
      omega
    | bytes d => cases hs
  rw [p9PackStr, if_neg (by omega), strBytes, hdata]
  split
  · rename_i hroom
    rw [Cursor.room] at hroom
    rw [Cursor.put_of_lt]
    rw [List.length_append, length_u16Bytes]
    omega
  · rfl

/-- A field's pack call; `data` is the copy loop of `p9_build_twrite`. -/
def p9PackField (c : Cursor) : Field CSlice → Option Cursor
  | .u8 v => p9PackU8 c v
  | .u16 v => p9PackU16 c v
  | .u32 v => p9PackU32 c v
  | .u64 v => p9PackU64 c v
  | .qid q => p9PackQid c q
  | .str s => p9PackStr c s
  | .data s => c.put s.data

/-- A field whose byte string a builder has checked. -/
def FieldOk : Field CSlice → Prop
  | .str s => s.Fits 0xFFFF
  | .data s => s.data.length = s.len
  | _ => True

theorem p9PackField_eq {f : Field CSlice} (h : FieldOk f) (c : Cursor) :
    p9PackField c f = c.put (f.bytes CSlice.data) := by
  cases f with
  | str s => exact p9PackStr_of_fits h c
  | _ => rfl

/-! ### The shape of a builder -/

/-- `write_header`. -/
def writeHeader (out : List UInt8) (size : UInt32) (type : UInt8) (tag : UInt16) : Option Cursor :=
  (Cursor.start out).put (header size type tag)

/-- The value of `(int)n`. -/
def cInt (n : ℕ) : ℤ := (BitVec.ofNat 32 n).toInt

/-- What a builder leaves: `out`, and its return value. -/
structure Built where
  out : List UInt8
  rc : ℤ
  deriving DecidableEq, Repr

/-- The callers' test of a builder's result. -/
def Built.accepted (b : Built) : Prop := 0 ≤ b.rc

instance (b : Built) : Decidable b.accepted := inferInstanceAs (Decidable (0 ≤ b.rc))

/-- The builders' common part: **room** for `total` bytes, the header, the fields. -/
def buildFields (out : List UInt8) (type : UInt8) (tag : UInt16) (total : ℕ)
    (fields : List (Field CSlice)) : Option Cursor :=
  if out.length < total then none
  else do
    let c ← writeHeader out (UInt32.ofNat total) type tag
    fields.foldlM p9PackField c

/-- A builder that ends in `return (int)off`. -/
def buildMsg (out : List UInt8) (type : UInt8) (tag : UInt16) (total : ℕ)
    (fields : List (Field CSlice)) : Option Built :=
  (buildFields out type tag total fields).map fun c => ⟨c.buf, cInt c.off⟩

/-- A builder that ends in `return (int)total`. -/
def buildFixed (out : List UInt8) (type : UInt8) (tag : UInt16) (total : ℕ)
    (fields : List (Field CSlice)) : Option Built :=
  (buildFields out type tag total fields).map fun c => ⟨c.buf, cInt total⟩

/-- The body that the fields make. -/
def fieldsBytes (fields : List (Field CSlice)) : List UInt8 :=
  fields.flatMap (Field.bytes CSlice.data)

variable {fields : List (Field CSlice)} {total : ℕ}

/-- A builder's result **is** the message `msg`: its length, its bytes at the front of `out`, and a
`size` that can hold the length. -/
def Built.Is (b : Built) (msg : List UInt8) : Prop :=
  b.rc = msg.length ∧ b.out.take b.rc.toNat = msg ∧ msg.length ≤ 0xFFFFFFFF

theorem cInt_of_nonneg {n : ℕ} (hn : n ≤ 0xFFFFFFFF) (h : 0 ≤ cInt n) : cInt n = n := by
  rw [cInt, BitVec.toInt_eq_toNat_cond, BitVec.toNat_ofNat, Nat.mod_eq_of_lt (by omega)] at *
  split at h
  · exact if_pos ‹_›
  · omega

section

variable (hok : ∀ f ∈ fields, FieldOk f) (htotal : total = p9HdrLen + (fieldsBytes fields).length)
include hok htotal

/-- With **all byte strings checked** and the right total, a builder writes its message, or finds no
room. -/
theorem buildFields_eq (out : List UInt8) (type : UInt8) (tag : UInt16) :
    buildFields out type tag total fields =
      (Cursor.start out).put (frame type tag (fieldsBytes fields)) := by
  rw [buildFields]
  split
  · rename_i hroom
    rw [Cursor.put_of_lt]
    change out.length < 0 + _
    rw [length_frame, ← htotal, zero_add]
    exact hroom
  · rw [frame, ← htotal, ← Cursor.put_bind_put]
    refine congrArg _ (funext fun c => ?_)
    exact Cursor.foldlM_put (fun f hf c => p9PackField_eq (hok f hf) c) c

/-- A builder with an accepted result **has built** its message. -/
theorem buildMsg_is
    (hlong : total ≤ 0xFFFFFFFF) {out : List UInt8} {type : UInt8} {tag : UInt16} {b : Built}
    (h : buildMsg out type tag total fields = some b) (hacc : b.accepted) :
    b.Is (frame type tag (fieldsBytes fields)) := by
  rw [buildMsg, buildFields_eq hok htotal, Option.map_eq_some_iff] at h
  obtain ⟨c, hc, rfl⟩ := h
  obtain ⟨-, hoff, hbuf⟩ := Cursor.put_start hc
  have hlen : c.off ≤ 0xFFFFFFFF := by
    rw [hoff, length_frame, ← htotal]
    exact hlong
  have hrc : cInt c.off = c.off := cInt_of_nonneg hlen hacc
  refine ⟨hrc.trans (by rw [hoff]), ?_, hoff ▸ hlen⟩
  rw [hrc, Int.toNat_natCast, hoff, hbuf, List.take_left' rfl]

/-- The builders that return `total` return `off`. -/
theorem buildFixed_eq_buildMsg (out : List UInt8) (type : UInt8) (tag : UInt16) :
    buildFixed out type tag total fields = buildMsg out type tag total fields := by
  rw [buildFixed, buildMsg, buildFields_eq hok htotal]
  refine Option.map_congr fun c hc => ?_
  rw [(Cursor.put_start hc).2.1, length_frame, ← htotal]

end

/-! ### The builders -/

/-- `total` does not fit the header's `size`. -/
def tooLong (total : ℕ) : Prop := total > 0xFFFFFFFF

instance (total : ℕ) : Decidable (tooLong total) := inferInstanceAs (Decidable (_ > _))

def p9BuildTversion (out : List UInt8) (tag : UInt16) (msize : UInt32) (version : CSlice) :
    Option Built :=
  let total := p9HdrLen + (4 + 2 + version.len)
  if version.len > 0 ∧ version.isNull then none
  else if version.len > 0xFFFF then none
  else if tooLong total then none
  else buildMsg out MsgKind.version.t tag total [.u32 msize, .str version]

def p9BuildTattach (out : List UInt8) (tag : UInt16) (fid afid : UInt32)
    (uname aname : CSlice) (nUname : UInt32) : Option Built :=
  let total := p9HdrLen + (4 + 4 + 2 + uname.len + 2 + aname.len + 4)
  if uname.len > 0 ∧ uname.isNull then none
  else if aname.len > 0 ∧ aname.isNull then none
  else if uname.len > 0xFFFF then none
  else if aname.len > 0xFFFF then none
  else if tooLong total then none
  else buildMsg out attach.t tag total [.u32 fid, .u32 afid, .str uname, .str aname, .u32 nUname]

/-- The loop that adds up the body length; −1 at a name too long or `NULL`. -/
def walkBodyLen (init : ℕ) (names : List CSlice) : Option ℕ :=
  names.foldlM (fun bodyLen name =>
    if name.len > 0xFFFF then none
    else if name.len > 0 ∧ name.isNull then none
    else some (bodyLen + (2 + name.len))) init

/-- The loop has checked every name and added up the bytes. -/
theorem walkBodyLen_eq_some {init n : ℕ} {names : List CSlice}
    (h : walkBodyLen init names = some n) :
    (∀ s ∈ names, s.Fits 0xFFFF) ∧ n = init + (fieldsBytes (names.map .str)).length := by
  induction names generalizing init with
  | nil =>
    cases h
    exact ⟨by simp, rfl⟩
  | cons s names ih =>
    rw [walkBodyLen, List.foldlM_cons] at h
    split at h
    · cases h
    · split at h
      · cases h
      · rename_i hlen hnull
        obtain ⟨hnames, hn⟩ := ih h
        have hs : s.Fits 0xFFFF := CSlice.fits_of_checks hnull (not_lt.mp hlen)
        constructor
        · simpa using ⟨hs, hnames⟩
        · rw [hn, List.map_cons, fieldsBytes, fieldsBytes, List.flatMap_cons,
            List.length_append, Field.bytes, length_strBytes, hs.1]
          omega

section

variable (out : List UInt8)

/-- What `p9_build_twalk` and `p9_build_twalkgetattr` share; `lead` are the fields before `nwname`,
of `leadLen` bytes. -/
def buildWalk (type : UInt8) (tag : UInt16) (leadLen : ℕ) (lead : List (Field CSlice))
    (names : CNames) : Option Built :=
  if names.nwname > p9MaxWalk then none
  else if names.nwname > 0 ∧ names.isNull then none
  else
    (walkBodyLen (leadLen + 2) names.toList).bind fun bodyLen =>
      if tooLong (p9HdrLen + bodyLen) then none
      else buildMsg out type tag (p9HdrLen + bodyLen)
        (lead ++ .u16 (UInt16.ofNat names.nwname) :: names.toList.map .str)

def p9BuildTwalk (tag : UInt16) (fid newfid : UInt32) (names : CNames) : Option Built :=
  buildWalk out walk.t tag (4 + 4) [.u32 fid, .u32 newfid] names

def p9BuildTwalkgetattr (tag : UInt16) (fid newfid : UInt32) (requestMask : UInt64)
    (names : CNames) : Option Built :=
  buildWalk out walkgetattr.t tag (4 + 4 + 8) [.u32 fid, .u32 newfid, .u64 requestMask] names

def p9BuildTclunk (tag : UInt16) (fid : UInt32) : Option Built :=
  buildFixed out clunk.t tag (p9HdrLen + 4) [.u32 fid]

def p9BuildTflush (tag oldtag : UInt16) : Option Built :=
  buildFixed out flush.t tag (p9HdrLen + 2) [.u16 oldtag]

def p9BuildTlopen (tag : UInt16) (fid flags : UInt32) : Option Built :=
  buildMsg out lopen.t tag (p9HdrLen + 4 + 4) [.u32 fid, .u32 flags]

/-- The only builder that takes an **empty** name. -/
def p9BuildTlcreate (tag : UInt16) (fid : UInt32) (name : CSlice) (flags mode gid : UInt32) :
    Option Built :=
  let total := p9HdrLen + (4 + 2 + name.len + 4 + 4 + 4)
  if name.len > 0 ∧ name.isNull then none
  else if name.len > p9NameMax then none
  else if tooLong total then none
  else buildMsg out lcreate.t tag total [.u32 fid, .str name, .u32 flags, .u32 mode, .u32 gid]

/-- `Tread` and `Treaddir` have one body. -/
def buildRead (type : UInt8) (tag : UInt16) (fid : UInt32) (offset : UInt64) (count : UInt32) :
    Option Built :=
  buildMsg out type tag (p9HdrLen + 4 + 8 + 4) [.u32 fid, .u64 offset, .u32 count]

variable (tag : UInt16)

section

variable (fid : UInt32)

def p9BuildTread (offset : UInt64) (count : UInt32) : Option Built :=
  buildRead out read.t tag fid offset count

/-- `count` is the length of `data`. -/
def p9BuildTwrite (offset : UInt64) (data : CSlice) : Option Built :=
  let total := p9HdrLen + (4 + 8 + 4 + data.len)
  if data.len > 0 ∧ data.isNull then none
  else if tooLong total then none
  else buildMsg out write.t tag total
    [.u32 fid, .u64 offset, .u32 (UInt32.ofNat data.len), .data data]

def p9BuildTgetattr (requestMask : UInt64) : Option Built :=
  buildMsg out getattr.t tag (p9HdrLen + 4 + 8) [.u32 fid, .u64 requestMask]

/-- `attr` may be `NULL`. -/
def p9BuildTsetattr (attr : Option Setattr) : Option Built := do
  let attr ← attr
  buildMsg out setattr.t tag (p9HdrLen + 4 + 4 + 4 + 4 + 4 + 8 + 16 + 16)
    [.u32 fid, .u32 attr.valid, .u32 attr.mode, .u32 attr.uid, .u32 attr.gid, .u64 attr.size,
      .u64 attr.atimeSec, .u64 attr.atimeNsec, .u64 attr.mtimeSec, .u64 attr.mtimeNsec]

def p9BuildTreaddir (offset : UInt64) (count : UInt32) : Option Built :=
  buildRead out readdir.t tag fid offset count

def p9BuildTstatfs : Option Built := buildFixed out statfs.t tag (p9HdrLen + 4) [.u32 fid]

end

def p9BuildTfsync (fid datasync : UInt32) : Option Built :=
  buildMsg out fsync.t tag (p9HdrLen + 4 + 4) [.u32 fid, .u32 datasync]

def p9BuildTlock (fid : UInt32) (type : UInt8) (flags : UInt32) (start length : UInt64)
    (procId : UInt32) (clientId : CSlice) :
    Option Built :=
  if clientId.len > p9NameMax ∨ (clientId.len > 0 ∧ clientId.isNull) then none
  else buildMsg out lock.t tag (p9HdrLen + 4 + 1 + 4 + 8 + 8 + 4 + 2 + clientId.len)
    [.u32 fid, .u8 type, .u32 flags, .u64 start, .u64 length, .u32 procId, .str clientId]

def p9BuildTgetlock (fid : UInt32) (type : UInt8) (start length : UInt64) (procId : UInt32)
    (clientId : CSlice) : Option Built :=
  if clientId.len > p9NameMax ∨ (clientId.len > 0 ∧ clientId.isNull) then none
  else buildMsg out getlock.t tag (p9HdrLen + 4 + 1 + 8 + 8 + 4 + 2 + clientId.len)
    [.u32 fid, .u8 type, .u64 start, .u64 length, .u32 procId, .str clientId]

end

/-- The check of a name: not empty, too long or `NULL`. -/
def badName (name : CSlice) : Prop := name.len = 0 ∨ name.len > p9NameMax ∨ name.isNull

instance (name : CSlice) : Decidable (badName name) := inferInstanceAs (Decidable (_ ∨ _ ∨ _))

variable (out : List UInt8) (tag : UInt16)

def p9BuildTsymlink (fid : UInt32) (name symtgt : CSlice) (gid : UInt32) : Option Built :=
  let total := p9HdrLen + (4 + 2 + name.len + 2 + symtgt.len + 4)
  if badName name then none
  else if symtgt.len > 0xFFFF then none
  else if symtgt.len > 0 ∧ symtgt.isNull then none
  else if tooLong total then none
  else buildMsg out symlink.t tag total [.u32 fid, .str name, .str symtgt, .u32 gid]

def p9BuildTmknod (dfid : UInt32) (name : CSlice) (mode major minor gid : UInt32) : Option Built :=
  if badName name then none
  else buildMsg out mknod.t tag (p9HdrLen + (4 + 2 + name.len + 4 + 4 + 4 + 4))
    [.u32 dfid, .str name, .u32 mode, .u32 major, .u32 minor, .u32 gid]

def p9BuildTrename (fid dfid : UInt32) (name : CSlice) : Option Built :=
  if badName name then none
  else buildMsg out rename.t tag (p9HdrLen + (4 + 4 + 2 + name.len))
    [.u32 fid, .u32 dfid, .str name]

def p9BuildTreadlink (fid : UInt32) : Option Built :=
  buildFixed out readlink.t tag (p9HdrLen + 4) [.u32 fid]

def p9BuildTlink (dfid fid : UInt32) (name : CSlice) : Option Built :=
  if badName name then none
  else buildMsg out link.t tag (p9HdrLen + (4 + 4 + 2 + name.len)) [.u32 dfid, .u32 fid, .str name]

def p9BuildTmkdir (dfid : UInt32) (name : CSlice) (mode gid : UInt32) : Option Built :=
  if badName name then none
  else buildMsg out mkdir.t tag (p9HdrLen + (4 + 2 + name.len + 4 + 4))
    [.u32 dfid, .str name, .u32 mode, .u32 gid]

def p9BuildTrenameat (olddirfid : UInt32) (oldname : CSlice) (newdirfid : UInt32)
    (newname : CSlice) : Option Built :=
  if badName oldname ∨ badName newname then none
  else buildMsg out renameat.t tag (p9HdrLen + (4 + 2 + oldname.len + 4 + 2 + newname.len))
    [.u32 olddirfid, .str oldname, .u32 newdirfid, .str newname]

def p9BuildTunlinkat (dfid : UInt32) (name : CSlice) (flags : UInt32) : Option Built :=
  if badName name then none
  else buildMsg out unlinkat.t tag (p9HdrLen + (4 + 2 + name.len + 4))
    [.u32 dfid, .str name, .u32 flags]

def p9BuildTweft (fid : UInt32) : Option Built :=
  buildFixed out weft.t tag (p9HdrLen + 4) [.u32 fid]

def p9BuildTweftio (fid off len dir : UInt32) : Option Built :=
  buildMsg out weftio.t tag (p9HdrLen + 4 + 4 + 4 + 4) [.u32 fid, .u32 off, .u32 len, .u32 dir]

end Thylacine
