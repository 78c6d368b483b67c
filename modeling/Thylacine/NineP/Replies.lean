import Thylacine.NineP.Ninep
import Thylacine.NineP.WireParse

/-!
# Replies: the Kernel Client Accepts Exactly What the Native Servers Send

A strict prefix of a reply fails the comparison of the header's size with the length. An extension
may pass it, since the length is compared as a `u32`; it then leaves bytes over at the end of the
body.

## Main results

* `replies_exact`: for every reply that the servers' crate builds, the kernel's parser returns the
  arguments it was built from, and refuses its strict prefixes and its extensions.
-/

namespace Thylacine

open ByteCodec List
open UInt32 (ofNat)

/-! ### Headers of prefixes and extensions -/

/-- A message **validates** as its type, with its body. -/
theorem validateRmsgHeader_frame {type : UInt8} {tag : UInt16} {body : List UInt8}
    (hlen : (frame type tag body).length ≤ 0xFFFFFFFF) :
    validateRmsgHeader (frame type tag body) type = some (tag, body) := by
  have hsize : (ofNat (p9HdrLen + body.length)).toNat = p9HdrLen + body.length :=
    UInt32.toNat_ofNat_of_lt (by rw [length_frame] at hlen; exact Nat.lt_succ_of_le hlen)
  rw [frame, validateRmsgHeader_append, if_neg (not_not.mpr rfl), hsize,
    if_neg (not_lt.mpr (Nat.le_add_right _ _)), if_neg (not_not.mpr rfl)]

/-- **No strict prefix** of a message validates. -/
theorem validateRmsgHeader_prefix {type type' : UInt8} {tag : UInt16} {body : List UInt8}
    {m : ℕ} (hlen : (frame type tag body).length ≤ 0xFFFFFFFF)
    (hm : m < (frame type tag body).length) :
    validateRmsgHeader ((frame type tag body).take m) type' = none := by
  have hmlen : ((frame type tag body).take m).length = m := by
    rw [length_take, Nat.min_eq_left hm.le]
  by_cases hshort : m < p9HdrLen
  · rw [validateRmsgHeader, p9PeekHeader, if_pos (by rw [hmlen]; exact hshort)]
    rfl
  · have htake : (frame type tag body).take m =
        header (ofNat (p9HdrLen + body.length)) type tag ++ body.take (m - p9HdrLen) := by
      rw [frame, take_append, length_header, take_of_length_le]
      rw [length_header]
      omega
    have hne : ofNat (p9HdrLen + body.length) ≠
        ofNat (p9HdrLen + (body.take (m - p9HdrLen)).length) := by
      intro heq
      have hnat := congrArg UInt32.toNat heq
      rw [length_frame] at hlen hm
      rw [length_take, UInt32.toNat_ofNat', UInt32.toNat_ofNat'] at hnat
      omega
    rw [htake, validateRmsgHeader_append, if_pos hne]

/-- A valid message's extension goes on with its body and the extra bytes. -/
theorem validateRmsgHeader_extension (type type' : UInt8) (tag : UInt16) (body extra : List UInt8) :
    validateRmsgHeader (frame type tag body ++ extra) type' = none ∨
      validateRmsgHeader (frame type tag body ++ extra) type' = some (tag, body ++ extra) := by
  rw [frame, append_assoc, validateRmsgHeader_append]
  split_ifs
  · exact .inl rfl
  · exact .inl rfl
  · exact .inl rfl
  · exact .inr rfl

/-! ### The three parser shapes -/

/-- A parser is **exact** on a message: given room (`fits`) it returns `v`, and it refuses strict
prefixes and extensions. -/
structure Exact {α : Type} (parse : List UInt8 → Option α) (msg : List UInt8) (fits : Prop)
    (v : α) : Prop where
  accepts : fits → parse msg = some v
  refuses_prefix : ∀ m < msg.length, parse (msg.take m) = none
  refuses_extension : ∀ extra ≠ [], parse (msg ++ extra) = none

section Shapes

variable {type : UInt8} {tag : UInt16} {body : List UInt8} {fits : Prop} [Decidable fits] {α : Type}

section

variable {p : List UInt8 → Option (α × List UInt8)} {v : α}
  (hlen : (frame type tag body).length ≤ 0xFFFFFFFF)
include hlen

theorem parseExact_exact (hp : ∀ rest, p (body ++ rest) = if fits then some (v, rest) else none) :
    Exact (parseExact · type p) (frame type tag body) fits (tag, v) where
  accepts := by
    intro hfits
    have hbody := hp []
    rw [append_nil, if_pos hfits] at hbody
    simp [parseExact, validateRmsgHeader_frame hlen, hbody]
  refuses_prefix := by
    intro m hm
    rw [parseExact, validateRmsgHeader_prefix hlen hm]
    rfl
  refuses_extension := by
    intro extra hextra
    rcases validateRmsgHeader_extension type type tag body extra with h | h
    · simp [parseExact, h]
    · by_cases hfits : fits
      · simp [parseExact, h, hp, hfits, hextra]
      · simp [parseExact, h, hp, hfits]

/-- A body that takes no array of the caller's. -/
theorem parseExact_exact_true (hp : ∀ rest, p (body ++ rest) = some (v, rest)) :
    Exact (parseExact · type p) (frame type tag body) True (tag, v) :=
  parseExact_exact hlen fun rest => (hp rest).trans (if_pos trivial).symm

end

theorem parseEmptyBody_exact (hlen : (frame type tag []).length ≤ 0xFFFFFFFF) :
    Exact (parseEmptyBody · type) (frame type tag []) True tag where
  accepts := by simp [parseEmptyBody, validateRmsgHeader_frame hlen]
  refuses_prefix := by
    intro m hm
    rw [parseEmptyBody, validateRmsgHeader_prefix hlen hm]
    rfl
  refuses_extension := by
    intro extra hextra
    rcases validateRmsgHeader_extension type type tag [] extra with h | h
    · simp [parseEmptyBody, h]
    · simp [parseEmptyBody, h, hextra]

theorem parseCounted_exact {data : List UInt8} {dataCap : UInt32}
    (hlen : (frame type tag (u32Bytes (ofNat data.length) ++ data)).length ≤ 0xFFFFFFFF) :
    Exact (parseCounted · type dataCap) (frame type tag (u32Bytes (ofNat data.length) ++ data))
      (data.length ≤ dataCap.toNat) (tag, ofNat data.length, data) := by
  have hcount : (ofNat data.length).toNat = data.length := by
    rw [length_frame, length_append] at hlen
    exact UInt32.toNat_ofNat_of_lt (show data.length < 2 ^ 32 by omega)
  constructor
  · intro hcap
    have hle : ¬ofNat data.length > dataCap := by
      rw [gt_iff_lt, UInt32.lt_iff_toNat_lt]
      omega
    simp only [parseCounted, validateRmsgHeader_frame hlen, p9UnpackU32_append,
      Option.bind_eq_bind, Option.bind_some]
    rw [if_neg hle, if_neg (not_not.mpr hcount)]
  · intro m hm
    rw [parseCounted, validateRmsgHeader_prefix hlen hm]
    rfl
  · intro extra hextra
    have hmore : (ofNat data.length).toNat ≠ (data ++ extra).length := by
      have := length_pos_iff.mpr hextra
      rw [length_append]
      omega
    rcases validateRmsgHeader_extension type type tag _ extra with h | h
    · rw [parseCounted, h]
      rfl
    · simp only [parseCounted, h, append_assoc, p9UnpackU32_append, Option.bind_eq_bind,
        Option.bind_some]
      rw [if_pos hmore]
      exact ite_self none

end Shapes

theorem unpackQids_append (qs : List Qid) (rest : List UInt8) :
    unpackQids qs.length (qs.flatMap Qid.bytes ++ rest) = some (qs, rest) := by
  induction qs with
  | nil => rfl
  | cons q qs ih => simp [unpackQids, ih]

/-- In range, a walk's checks are on the caller's array. -/
theorem QidBuf.refuses_iff (buf : QidBuf) (qids : List Qid) (hmax : qids.length ≤ p9MaxWalk) :
    buf.refuses qids.length ↔ ¬(qids.length ≤ buf.cap ∧ (qids ≠ [] → ¬buf.isNull)) := by
  rw [refuses, ← length_pos_iff]
  constructor
  · rintro (h | h | h) ⟨hcap, hnull⟩
    · omega
    · omega
    · exact hnull h.2 h.1
  · intro h
    by_contra hno
    simp only [not_or, not_and] at hno
    exact h ⟨not_lt.mp hno.1, fun hpos hnull => hno.2.2 hnull hpos⟩

/-! ### The replies -/

/-- A reply of the crate, with its builder's arguments. -/
inductive Reply
  | version (msize : UInt32) (version : List UInt8)
  | attach (qid : Qid)
  | walk (qids : List Qid)
  | lopen (qid : Qid) (iounit : UInt32)
  | read (data : List UInt8)
  | write (count : UInt32)
  | clunk
  | flush
  | lerror (ecode : UInt32)
  | getattr (valid : UInt64) (qid : Qid) (mode uid gid : UInt32) (nlink size : UInt64)
  | readdir (data : List UInt8)
  | weft (shareId : UInt64) (ringSize ringEntries : UInt32)
  | weftio (count : UInt32)

namespace Reply

/-- The crate's builder of the reply. -/
def build (out : List UInt8) (tag : UInt16) : Reply → Option (List UInt8 × ℕ)
  | version msize v => Ninep.buildRversion out tag msize v
  | attach qid => Ninep.buildRattach out tag qid
  | walk qids => Ninep.buildRwalk out tag qids
  | lopen qid iounit => Ninep.buildRlopen out tag qid iounit
  | read data => Ninep.buildRread out tag data
  | write count => Ninep.buildRwrite out tag count
  | clunk => Ninep.buildRclunk out tag
  | flush => Ninep.buildRflush out tag
  | lerror ecode => Ninep.buildRlerror out tag ecode
  | getattr valid qid mode uid gid nlink size =>
    Ninep.buildRgetattr out tag valid qid mode uid gid nlink size
  | readdir data => Ninep.buildRreaddir out tag data
  | weft shareId ringSize ringEntries => Ninep.buildRweft out tag shareId ringSize ringEntries
  | weftio count => Ninep.buildRweftio out tag count

/-- The kernel's parser is exact on `msg`, **returning arguments** and tag. -/
def ExactOn (msg : List UInt8) (tag : UInt16) (dataCap : UInt32) (buf : QidBuf) : Reply → Prop
  | version msize v => Exact p9ParseRversion msg True (tag, msize, v)
  | attach qid => Exact p9ParseRattach msg True (tag, qid)
  | walk qids =>
    Exact (p9ParseRwalk · buf) msg (qids.length ≤ buf.cap ∧ (qids ≠ [] → ¬buf.isNull)) (tag, qids)
  | lopen qid iounit => Exact p9ParseRlopen msg True (tag, qid, iounit)
  | read data =>
    Exact (p9ParseRread · dataCap) msg (data.length ≤ dataCap.toNat) (tag, ofNat data.length, data)
  | write count => Exact p9ParseRwrite msg True (tag, count)
  | clunk => Exact p9ParseRclunk msg True tag
  | flush => Exact p9ParseRflush msg True tag
  | lerror ecode => Exact p9ParseRlerror msg True (tag, ecode)
  | getattr valid qid mode uid gid nlink size =>
    Exact p9ParseRgetattr msg True
      (tag, ⟨valid, qid, mode, uid, gid, nlink, 0, size, 0, 0, 0, 0, 0, 0, 0, 0, 0, 0, 0, 0⟩)
  | readdir data =>
    Exact (p9ParseRreaddir · dataCap) msg (data.length ≤ dataCap.toNat)
      (tag, ofNat data.length, data)
  | weft shareId ringSize ringEntries =>
    Exact p9ParseRweft msg True (tag, ⟨shareId, ringSize, ringEntries⟩)
  | weftio count => Exact p9ParseRweftio msg True (tag, count)

/-- The fields of the body, as the builder packs them. -/
def fields : Reply → List (Field (List UInt8))
  | version msize v => [.u32 msize, .str v]
  | attach qid => [.qid qid]
  | walk qids => .u16 (UInt16.ofNat qids.length) :: qids.map .qid
  | lopen qid iounit => [.qid qid, .u32 iounit]
  | read data => [.u32 (ofNat data.length), .data data]
  | write count => [.u32 count]
  | clunk => []
  | flush => []
  | lerror ecode => [.u32 ecode]
  | getattr valid qid mode uid gid nlink size =>
    [.u64 valid, .qid qid, .u32 mode, .u32 uid, .u32 gid, .u64 nlink, .u64 0, .u64 size,
      .u64 0, .u64 0, .u64 0, .u64 0, .u64 0, .u64 0, .u64 0, .u64 0, .u64 0, .u64 0, .u64 0,
      .u64 0]
  | readdir data => [.u32 (ofNat data.length), .data data]
  | weft shareId ringSize ringEntries => [.u64 shareId, .u32 ringSize, .u32 ringEntries]
  | weftio count => [.u32 count]

/-- The type byte the kernel expects. -/
def rtype : Reply → UInt8
  | version .. => MsgKind.version.r
  | attach .. => MsgKind.attach.r
  | walk .. => MsgKind.walk.r
  | lopen .. => MsgKind.lopen.r
  | read .. => MsgKind.read.r
  | write .. => MsgKind.write.r
  | clunk => MsgKind.clunk.r
  | flush => MsgKind.flush.r
  | lerror .. => p9Rlerror
  | getattr .. => MsgKind.getattr.r
  | readdir .. => MsgKind.readdir.r
  | weft .. => MsgKind.weft.r
  | weftio .. => MsgKind.weftio.r

/-- A builder that comes through has built the fields **under the expected type**, with at most
sixteen qids. -/
theorem build_eq_some {r : Reply} {out out' : List UInt8} {tag : UInt16} {n : ℕ}
    (h : r.build out tag = some (out', n)) :
    Ninep.buildMsg out r.rtype tag r.fields = some (out', n) ∧
      ∀ qids, r = walk qids → qids.length ≤ p9MaxWalk := by
  cases r with
  | walk =>
    rw [build, Ninep.buildRwalk] at h
    split_ifs at h with hmax
    refine ⟨h, fun qids' heq => ?_⟩
    obtain rfl := walk.inj heq
    exact not_lt.mp hmax
  | read =>
    rw [build, Ninep.buildRread, Ninep.buildCounted] at h
    split_ifs at h with hlong
    exact ⟨h, nofun⟩
  | readdir =>
    rw [build, Ninep.buildRreaddir, Ninep.buildCounted] at h
    split_ifs at h with hlong
    exact ⟨h, nofun⟩
  | _ => exact ⟨h, nofun⟩

end Reply

/-- **The kernel accepts exactly what the servers send.** For each reply of the crate, all arguments
for which its builder returns `Ok(n)`, and any caps of the caller: the kernel's parser returns those
arguments and the tag from the first `n` bytes, if its caps reach the actual counts, and −1 for
every strict prefix of them and for them with any bytes appended. -/
theorem replies_exact (r : Reply) (out : List UInt8) (tag : UInt16) (out' : List UInt8)
    (n : ℕ) (hbuild : r.build out tag = some (out', n)) (dataCap : UInt32) (buf : QidBuf) :
    (out'.take n).length = n ∧ r.ExactOn (out'.take n) tag dataCap buf := by
  obtain ⟨hmsg, hwalk⟩ := Reply.build_eq_some hbuild
  obtain ⟨hshort, hn, hlen, htake⟩ := Ninep.buildMsg_eq_some hmsg
  rw [htake]
  refine ⟨hlen.symm, ?_⟩
  rw [hlen] at hn
  cases r with
  | version msize v =>
    have hv : v.length ≤ 0xFFFF := hshort (.str v) (by simp [Reply.fields])
    refine parseExact_exact_true hn fun rest => ?_
    simp [Reply.fields, Field.bytes, p9UnpackStr_append hv]
  | attach | write | lerror | weft | weftio =>
    exact parseExact_exact_true hn fun rest => by simp [Reply.fields, Field.bytes]
  | walk qids =>
    have hmax := hwalk qids rfl
    have hcount : (UInt16.ofNat qids.length).toNat = qids.length :=
      UInt16.toNat_ofNat_of_lt (hmax.trans_lt (by decide))
    have hbody : (qids.map Field.qid).flatMap (Field.bytes (id : List UInt8 → _)) =
        qids.flatMap Qid.bytes := flatMap_map _ _ _
    refine parseExact_exact hn fun rest => ?_
    have hread : (Reply.walk qids).fields.flatMap (Field.bytes id) ++ rest =
        u16Bytes (UInt16.ofNat qids.length) ++ (qids.flatMap Qid.bytes ++ rest) := by
      rw [Reply.fields, flatMap_cons, hbody, append_assoc, Field.bytes]
    simp only [hread, p9UnpackU16_append, Option.bind_eq_bind, Option.bind_some, hcount,
      unpackQids_append]
    have hiff := QidBuf.refuses_iff buf qids hmax
    by_cases hfits : qids.length ≤ buf.cap ∧ (qids ≠ [] → ¬buf.isNull)
    · rw [if_neg (mt hiff.mp (not_not.mpr hfits)), if_pos hfits]
    · rw [if_pos (hiff.mpr hfits), if_neg hfits]
  | lopen qid iounit =>
    change Exact (parseOpenCreateBody · _) _ True (tag, qid, iounit)
    refine parseExact_exact_true hn fun rest => ?_
    simp [Reply.fields, Field.bytes]
  | read data | readdir data =>
    simp only [Reply.fields, flatMap_cons, flatMap_nil, Field.bytes, id, append_nil] at hn ⊢
    exact parseCounted_exact hn
  | clunk | flush => exact parseEmptyBody_exact hn
  | getattr valid qid mode uid gid nlink size =>
    refine parseExact_exact_true hn fun rest => ?_
    exact p9ParseGetattrBody_bytesThen ⟨valid, qid, mode, uid, gid, nlink, 0, size, 0, 0, 0, 0,
      0, 0, 0, 0, 0, 0, 0, 0⟩ rest

/-- The reply to a read of three bytes: one more byte, or one less, and it is refused. -/
theorem replies_exact_read :
    let msg : List UInt8 := [14, 0, 0, 0, 117, 5, 0, 3, 0, 0, 0, 1, 2, 3]
    (Reply.read [1, 2, 3]).build (replicate 14 0) 5 = some (msg, 14) ∧
      p9ParseRread msg 100 = some (5, 3, [1, 2, 3]) ∧ p9ParseRread (msg.take 13) 100 = none ∧
      p9ParseRread (msg ++ [0]) 100 = none := by
  intro msg
  have hbuild : (Reply.read [1, 2, 3]).build (replicate 14 0) 5 = some (msg, 14) := by
    decide
  have hexact : Exact (p9ParseRread · 100) msg _ (5, 3, [1, 2, 3]) :=
    (replies_exact _ _ 5 msg 14 hbuild 100 ⟨true, 0⟩).2
  exact ⟨hbuild, hexact.accepts (by decide), hexact.refuses_prefix 13 (by decide),
    hexact.refuses_extension [0] (by decide)⟩

end Thylacine
