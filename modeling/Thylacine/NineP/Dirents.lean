import Thylacine.NineP.Ninep
import Thylacine.NineP.WireParse

/-!
# Directory Streams

The data of an `Rreaddir` is a sequence of dirents. A native server packs them one after the
other with `pack_dirent`; the kernel applies `p9_unpack_dirent` to the bytes that remain.

## Main results

* `dirent_stream_round_trip`: the two agree.
-/

namespace Thylacine

open ByteCodec List Ninep
open Option (bind_eq_some_iff)

/-- One record; `offset` is the cookie to resume at. -/
structure Dirent where
  qid : Qid
  offset : UInt64
  type : UInt8
  name : List UInt8
  deriving DecidableEq, Repr

def direntLen (nameLen : ℕ) : ℕ := p9QidLen + 8 + 1 + 2 + nameLen

def packDirent (c : Cursor) (d : Dirent) : Option Cursor := do
  let c ← packQid c d.qid
  let c ← packU64 c d.offset
  let c ← packU8 c d.type
  packStr c d.name

def p9UnpackDirent (rest : List UInt8) : Option (Dirent × List UInt8) := do
  let (qid, rest) ← p9UnpackQid rest
  let (offset, rest) ← p9UnpackU64 rest
  let (type, rest) ← p9UnpackU8 rest
  let (name, rest) ← p9UnpackStr rest
  return (⟨qid, offset, type, name⟩, rest)

/-- The bytes of a record. -/
def Dirent.bytes (d : Dirent) : List UInt8 :=
  d.qid.bytes ++ (u64Bytes d.offset ++ d.type :: strBytes d.name)

variable {d : Dirent} {inp rest : List UInt8}

theorem Dirent.length_bytes (d : Dirent) : d.bytes.length = direntLen d.name.length := by
  simp [bytes, direntLen, p9QidLen]
  omega

theorem packDirent_eq_put (h : d.name.length ≤ 0xFFFF) (c : Cursor) :
    packDirent c d = c.put d.bytes := by
  rw [Dirent.bytes, Qid.bytes, strBytes, ← singleton_append, ← singleton_append (x := d.type)]
  simp only [← Cursor.put_bind_put, packDirent, packQid, packStr, if_neg (not_lt.mpr h)]
  rfl

theorem p9UnpackDirent_append (h : d.name.length ≤ 0xFFFF) (rest : List UInt8) :
    p9UnpackDirent (d.bytes ++ rest) = some (d, rest) := by
  have hu8 (v : UInt8) (bs : List UInt8) : p9UnpackU8 (v :: bs) = some (v, bs) := rfl
  simp [p9UnpackDirent, Dirent.bytes, hu8, p9UnpackStr_append h]

/-- Each field is taken off the bytes that remain. -/
theorem p9UnpackDirent_consumes (h : p9UnpackDirent inp = some (d, rest)) :
    ∃ n, 24 ≤ n ∧ n ≤ inp.length ∧ rest = inp.drop n := by
  obtain ⟨⟨qid, r₁⟩, hqid, h⟩ := bind_eq_some_iff.mp h
  obtain ⟨⟨offset, r₂⟩, hoffset, h⟩ := bind_eq_some_iff.mp h
  obtain ⟨⟨type, r₃⟩, htype, h⟩ := bind_eq_some_iff.mp h
  obtain ⟨⟨name, r₄⟩, hname, h⟩ := bind_eq_some_iff.mp h
  cases h
  rw [p9UnpackQid, p9QidLen] at hqid
  rw [p9UnpackU64] at hoffset
  rw [p9UnpackU8] at htype
  rw [p9UnpackStr] at hname
  split_ifs at hqid hoffset htype hname with h₁ h₂ h₃ h₄
  dsimp only at hname
  split_ifs at hname with h₅
  cases hqid
  cases hoffset
  cases htype
  cases hname
  simp only [drop_drop, length_drop] at *
  refine ⟨_, ?_, ?_, rfl⟩ <;> omega

/-- The records at a stream's start, and the bytes where the unpacker stops. -/
def unpackDirents (data : List UInt8) : List Dirent × List UInt8 :=
  match h : p9UnpackDirent data with
  | none => ([], data)
  | some (d, rest) =>
    have hshort : rest.length < data.length := by
      obtain ⟨n, hn, hle, rfl⟩ := p9UnpackDirent_consumes h
      rw [length_drop]
      omega
    let (ds, tail) := unpackDirents rest
    (d :: ds, tail)
termination_by data.length

theorem unpackDirents_flatMap {ds : List Dirent} (h : ∀ d ∈ ds, d.name.length ≤ 0xFFFF) :
    unpackDirents (ds.flatMap Dirent.bytes) = (ds, []) := by
  induction ds with
  | nil => rw [unpackDirents]; rfl
  | cons d ds ih =>
    obtain ⟨hd, hds⟩ := forall_mem_cons.mp h
    have hstep := p9UnpackDirent_append hd (ds.flatMap Dirent.bytes)
    rw [unpackDirents]
    split
    · rename_i hnone
      cases hstep.symm.trans hnone
    · rename_i d' rest hsome
      cases hstep.symm.trans hsome
      rw [ih hds]

/-- **Directory streams.** Dirents whose names the length prefix can count, packed into a buffer
with room for them, are what the kernel unpacks from the bytes written, to the last. A dirent
unpacked from any bytes takes at least 24 of them and at most all. -/
theorem dirent_stream_round_trip :
    (∀ (c : Cursor) (ds : List Dirent), (∀ d ∈ ds, d.name.length ≤ 0xFFFF) →
      (ds.map fun d => direntLen d.name.length).sum ≤ c.room →
      ∃ c', ds.foldlM packDirent c = some c' ∧
        unpackDirents ((c'.buf.take c'.off).drop c.off) = (ds, [])) ∧
    ∀ inp d rest, p9UnpackDirent inp = some (d, rest) →
      ∃ n, 24 ≤ n ∧ n ≤ inp.length ∧ rest = inp.drop n := by
  refine ⟨fun c ds hnames hroom => ?_, fun _ _ _ => p9UnpackDirent_consumes⟩
  have hlen : (ds.flatMap Dirent.bytes).length = (ds.map fun d => direntLen d.name.length).sum := by
    rw [length_flatMap]
    simp only [Dirent.length_bytes]
  have hfit : c.off + (ds.flatMap Dirent.bytes).length ≤ c.buf.length := by
    have := c.off_le
    rw [Cursor.room] at hroom
    omega
  have hpack := Cursor.foldlM_put (fun d hd c => packDirent_eq_put (hnames d hd) c) c
  rw [Cursor.put_of_le hfit] at hpack
  refine ⟨_, hpack, ?_⟩
  have htake : (c.buf.take c.off).length = c.off := by rw [length_take, Nat.min_eq_left c.off_le]
  dsimp only [overwrite]
  rw [take_left' (by rw [length_append, htake]), drop_left' htake, unpackDirents_flatMap hnames]

/-- The entry `.` of a directory. -/
def dot : Dirent := ⟨⟨0x80, 0, 1⟩, 1, 4, [46]⟩

/-- It is packed twice behind four bytes, and unpacked with a byte behind it. -/
theorem dirent_stream_round_trip_dot :
    (∃ c', [dot, dot].foldlM packDirent ⟨replicate 64 0, 4, by decide⟩ = some c' ∧
      unpackDirents ((c'.buf.take c'.off).drop 4) = ([dot, dot], [])) ∧
    ∃ n, 24 ≤ n ∧ n ≤ (dot.bytes ++ [9]).length ∧ [9] = (dot.bytes ++ [9]).drop n := by
  refine ⟨dirent_stream_round_trip.1 ⟨replicate 64 0, 4, by decide⟩ [dot, dot] (by decide)
    (by decide), dirent_stream_round_trip.2 _ dot _ ?_⟩
  exact p9UnpackDirent_append (by decide) [9]

end Thylacine
