import Thylacine.NineP.Ninep
import Thylacine.NineP.WireBuild

/-!
# Requests: the Kernel Client and the Native Servers Agree

The two sides are compared through the wire format: a builder whose result is accepted has written
the `frame` of its fields (`Request.build_is`), and the crate's parser, given the frame of those
fields, returns them (`Request.parsed`).

## Main results

* `requests_agree`: for the requests that both sides implement, what a kernel builder writes is
  what the native servers' codec reads.
-/

namespace Thylacine

open ByteCodec List
open Option (bind_eq_bind bind_some)

/-- A request of both sides, with the kernel builder's arguments. -/
inductive Request
  | version (msize : UInt32) (version : CSlice)
  | attach (fid afid : UInt32) (uname aname : CSlice) (nUname : UInt32)
  | walk (fid newfid : UInt32) (names : CNames)
  | lopen (fid flags : UInt32)
  | read (fid : UInt32) (offset : UInt64) (count : UInt32)
  | write (fid : UInt32) (offset : UInt64) (data : CSlice)
  | clunk (fid : UInt32)
  | flush (oldtag : UInt16)
  | readdir (fid : UInt32) (offset : UInt64) (count : UInt32)
  | getattr (fid : UInt32) (requestMask : UInt64)
  | weft (fid : UInt32)
  | weftio (fid off len dir : UInt32)

namespace Request

/-- The kind of the message. -/
def kind : Request → MsgKind
  | version .. => .version
  | attach .. => .attach
  | walk .. => .walk
  | lopen .. => .lopen
  | read .. => .read
  | write .. => .write
  | clunk .. => .clunk
  | flush .. => .flush
  | readdir .. => .readdir
  | getattr .. => .getattr
  | weft .. => .weft
  | weftio .. => .weftio

/-- The kernel's builder of the request. -/
def build (out : List UInt8) (tag : UInt16) : Request → Option Built
  | version msize v => p9BuildTversion out tag msize v
  | attach fid afid uname aname nUname => p9BuildTattach out tag fid afid uname aname nUname
  | walk fid newfid names => p9BuildTwalk out tag fid newfid names
  | lopen fid flags => p9BuildTlopen out tag fid flags
  | read fid offset count => p9BuildTread out tag fid offset count
  | write fid offset data => p9BuildTwrite out tag fid offset data
  | clunk fid => p9BuildTclunk out tag fid
  | flush oldtag => p9BuildTflush out tag oldtag
  | readdir fid offset count => p9BuildTreaddir out tag fid offset count
  | getattr fid requestMask => p9BuildTgetattr out tag fid requestMask
  | weft fid => p9BuildTweft out tag fid
  | weftio fid off len dir => p9BuildTweftio out tag fid off len dir

/-- The fields of the body. -/
def fields : Request → List (Field CSlice)
  | version msize v => [.u32 msize, .str v]
  | attach fid afid uname aname nUname => [.u32 fid, .u32 afid, .str uname, .str aname, .u32 nUname]
  | walk fid newfid names =>
    .u32 fid :: .u32 newfid :: .u16 (UInt16.ofNat names.nwname) :: names.toList.map .str
  | lopen fid flags => [.u32 fid, .u32 flags]
  | read fid offset count => [.u32 fid, .u64 offset, .u32 count]
  | write fid offset data => [.u32 fid, .u64 offset, .u32 (UInt32.ofNat data.len), .data data]
  | clunk fid => [.u32 fid]
  | flush oldtag => [.u16 oldtag]
  | readdir fid offset count => [.u32 fid, .u64 offset, .u32 count]
  | getattr fid requestMask => [.u32 fid, .u64 requestMask]
  | weft fid => [.u32 fid]
  | weftio fid off len dir => [.u32 fid, .u32 off, .u32 len, .u32 dir]

/-- What the builder's **checks** establish. -/
def Checked : Request → Prop
  | version _ v => v.Fits 0xFFFF
  | attach _ _ uname aname _ => uname.Fits 0xFFFF ∧ aname.Fits 0xFFFF
  | walk _ _ names =>
    names.toList.length = names.nwname ∧ names.nwname ≤ p9MaxWalk ∧
      ∀ s ∈ names.toList, s.Fits 0xFFFF
  | write _ _ data => data.Fits 0xFFFFFFFF
  | _ => True

variable {req : Request} {msg out : List UInt8} {fid : UInt32} {tag : UInt16} {b : Built}

theorem Checked.fieldOk (h : req.Checked) : ∀ f ∈ req.fields, FieldOk f := by
  cases req with
  | version | attach => simpa [fields, FieldOk, Checked] using h
  | walk => simpa [fields, FieldOk] using h.2.2
  | write => simpa [fields, FieldOk] using h.1
  | _ => simp [fields, FieldOk]

theorem Checked.is_of_buildMsg (hreq : req.Checked) {total : ℕ}
    (h : buildMsg out req.kind.t tag total req.fields = some b) (hacc : b.accepted)
    (htotal : total = p9HdrLen + (fieldsBytes req.fields).length) (hlong : ¬tooLong total) :
    req.Checked ∧ b.Is (frame req.kind.t tag (fieldsBytes req.fields)) :=
  ⟨hreq, buildMsg_is hreq.fieldOk htotal (not_lt.mp hlong) h hacc⟩

/-- A builder that comes through **passed the checks**, and built its fields' message. -/
theorem build_is (h : req.build out tag = some b) (hacc : b.accepted) :
    req.Checked ∧ b.Is (frame req.kind.t tag (fieldsBytes req.fields)) := by
  cases req with
  | version msize v =>
    rw [build, p9BuildTversion] at h
    split_ifs at h with hnull hlen hlong
    have hv : (version msize v).Checked := CSlice.fits_of_checks hnull (not_lt.mp hlen)
    refine hv.is_of_buildMsg h hacc ?_ hlong
    simp [fields, fieldsBytes, Field.bytes, hv.1]
    omega
  | attach fid afid uname aname nUname =>
    rw [build, p9BuildTattach] at h
    split_ifs at h with hunull hanull hulen halen hlong
    have hv : (attach fid afid uname aname nUname).Checked :=
      ⟨CSlice.fits_of_checks hunull (not_lt.mp hulen),
        CSlice.fits_of_checks hanull (not_lt.mp halen)⟩
    refine hv.is_of_buildMsg h hacc ?_ hlong
    simp [fields, fieldsBytes, Field.bytes, hv.1.1, hv.2.1]
    omega
  | walk fid newfid names =>
    rw [build, p9BuildTwalk, buildWalk] at h
    split_ifs at h with hmax hnull
    obtain ⟨bodyLen, hlen, h⟩ := Option.bind_eq_some_iff.mp h
    split_ifs at h with hlong
    obtain ⟨hnames, rfl⟩ := walkBodyLen_eq_some hlen
    have hcount : names.toList.length = names.nwname := by
      cases names with
      | null n =>
        change ¬(n.toNat > 0 ∧ true = true) at hnull
        simp only [and_true, not_lt, Nat.le_zero] at hnull
        exact hnull.symm
      | names => rfl
    have hv : (walk fid newfid names).Checked := ⟨hcount, not_lt.mp hmax, hnames⟩
    refine hv.is_of_buildMsg h hacc ?_ hlong
    simp [fields, fieldsBytes, Field.bytes]
    omega
  | write fid offset data =>
    rw [build, p9BuildTwrite] at h
    split_ifs at h with hnull hlong
    rw [tooLong] at hlong
    have hv : (write fid offset data).Checked := CSlice.fits_of_checks hnull (by omega)
    refine hv.is_of_buildMsg h hacc ?_ hlong
    simp [fields, fieldsBytes, Field.bytes, hv.1]
    omega
  | lopen | read | readdir | getattr | weftio =>
    exact Checked.is_of_buildMsg trivial h hacc rfl (by decide)
  | clunk | flush | weft =>
    refine Checked.is_of_buildMsg trivial
      ((buildFixed_eq_buildMsg ?_ ?_ out _ tag).symm.trans h) hacc ?_ ?_
    · simp [fields, FieldOk]
    · rfl
    · rfl
    · decide

/-! ### The server's reading -/

/-- The crate's parser on `msg` returns the **arguments** of the request. A `Twalk` array is padded
to sixteen; the mask of a `Tgetattr`, left unread, stands where the crate would read it. -/
def ParsedFrom (msg : List UInt8) : Request → Prop
  | version msize v => Ninep.parseTversion msg = some ⟨msize, v.data⟩
  | attach fid afid uname aname nUname =>
    Ninep.parseTattach msg = some ⟨fid, afid, uname.data, aname.data, nUname⟩
  | walk fid newfid names =>
    Ninep.parseTwalk msg = some ⟨fid, newfid, UInt16.ofNat names.nwname,
      names.toList.map CSlice.data ++ replicate (p9MaxWalk - names.nwname) []⟩
  | lopen fid flags => Ninep.parseTlopen msg = some ⟨fid, flags⟩
  | read fid offset count => Ninep.parseTread msg = some ⟨fid, offset, count⟩
  | write fid offset data =>
    Ninep.parseTwrite msg = some ⟨fid, offset, UInt32.ofNat data.len, data.data⟩
  | clunk fid => Ninep.parseTclunk msg = some fid
  | flush oldtag => Ninep.parseTflush msg = some oldtag
  | readdir fid offset count => Ninep.parseTreaddir msg = some ⟨fid, offset, count⟩
  | getattr fid requestMask =>
    Ninep.parseTgetattr msg = some fid ∧
      Ninep.unpackU64 msg (p9HdrLen + 4) = some (requestMask, p9HdrLen + 4 + 8)
  | weft fid => Ninep.parseTweft msg = some fid
  | weftio fid off len dir => Ninep.parseTweftio msg = some ⟨fid, off, len, dir⟩

/-- Every name of a walk is one the servers accept. -/
def NamesShort : Request → Prop
  | walk _ _ names => ∀ s ∈ names.toList, s.len ≤ p9NameMax
  | _ => True

open Ninep

theorem fid_parsed {rest : List UInt8}
    (h : msg.drop p9HdrLen = u32Bytes fid ++ rest) : parseFid msg = some fid := by
  obtain ⟨hfid, -⟩ := unpackU32_of_drop h
  simp only [parseFid, hfid]
  rfl

theorem read_parsed {offset : UInt64} {count : UInt32}
    (h : msg.drop p9HdrLen = fieldsBytes [.u32 fid, .u64 offset, .u32 count]) :
    parseTread msg = some ⟨fid, offset, count⟩ := by
  obtain ⟨hfid, h⟩ := unpackU32_of_drop h
  obtain ⟨hoffset, h⟩ := unpackU64_of_drop h
  obtain ⟨hcount, -⟩ := unpackU32_of_drop h
  simp only [parseTread, hfid, hoffset, hcount, bind_eq_bind, bind_some]
  rfl

theorem walk_parsed {newfid : UInt32} {names : CNames}
    (hcount : names.toList.length = names.nwname) (hmax : names.nwname ≤ p9MaxWalk)
    (hfits : ∀ s ∈ names.toList, s.Fits 0xFFFF)
    (hshort : ∀ s ∈ names.toList, s.len ≤ p9NameMax)
    (h : msg.drop p9HdrLen = fieldsBytes (walk fid newfid names).fields) :
    (walk fid newfid names).ParsedFrom msg := by
  have hbody : (names.toList.map Field.str).flatMap (Field.bytes CSlice.data) =
      (names.toList.map CSlice.data).flatMap strBytes ++ [] := by
    rw [append_nil, flatMap_map, flatMap_map]
    rfl
  simp only [fields, fieldsBytes, flatMap_cons, hbody] at h
  obtain ⟨hfid, h⟩ := unpackU32_of_drop h
  obtain ⟨hnewfid, h⟩ := unpackU32_of_drop h
  obtain ⟨hnwname, h⟩ := unpackU16_of_drop h
  have hlen : (names.toList.map CSlice.data).length = names.nwname := by rw [length_map, hcount]
  have hnw : (UInt16.ofNat names.nwname).toNat = names.nwname :=
    UInt16.toNat_ofNat_of_lt (hmax.trans_lt (by decide))
  have hdata : ∀ d ∈ names.toList.map CSlice.data, d.length ≤ p9NameMax := by
    intro d hd
    obtain ⟨s, hs, rfl⟩ := mem_map.mp hd
    rw [(hfits s hs).1]
    exact hshort s hs
  have hloop := unpackNames_of_drop hdata [] (hlen.trans_le hmax) h
  rw [hlen, length_nil, nil_append] at hloop
  simp only [ParsedFrom, parseTwalk, hfid, hnewfid, hnwname, hnw, hloop, bind_eq_bind, bind_some]
  exact if_neg (not_lt.mpr hmax)

theorem write_parsed {offset : UInt64} {data : CSlice} (hdata : data.Fits 0xFFFFFFFF)
    (h : msg.drop p9HdrLen = fieldsBytes (write fid offset data).fields) :
    (write fid offset data).ParsedFrom msg := by
  simp only [fields, fieldsBytes, flatMap_cons, flatMap_nil, Field.bytes] at h
  obtain ⟨hfid, h⟩ := unpackU32_of_drop h
  obtain ⟨hoffset, h⟩ := unpackU64_of_drop h
  have hle := add_le_of_drop h (length_u32Bytes _) (by decide)
  obtain ⟨hcount, h⟩ := unpackU32_of_drop h
  have hlen : (UInt32.ofNat data.len).toNat = data.len :=
    UInt32.toNat_ofNat_of_lt (Nat.lt_succ_of_le hdata.2)
  have hall := congrArg length h
  rw [length_drop, append_nil, hdata.1] at hall
  simp only [ParsedFrom, parseTwrite, hfid, hoffset, hcount, hlen, bind_eq_bind, bind_some]
  rw [if_neg (by omega), h, append_nil, take_of_length_le hdata.1.le]

/-- The crate's parser returns a **checked** request's arguments. -/
theorem parsed (hreq : req.Checked) (hshort : req.NamesShort)
    (h : msg.drop p9HdrLen = fieldsBytes req.fields) :
    req.ParsedFrom msg := by
  cases req with
  | version =>
    obtain ⟨hmsize, h⟩ := unpackU32_of_drop h
    obtain ⟨hv, -⟩ := unpackStr_of_drop (hreq.1.trans_le hreq.2) h
    simp only [ParsedFrom, parseTversion, hmsize, hv, bind_eq_bind, bind_some]
    rfl
  | attach =>
    obtain ⟨hfid, h⟩ := unpackU32_of_drop h
    obtain ⟨hafid, h⟩ := unpackU32_of_drop h
    obtain ⟨huname, h⟩ := unpackStr_of_drop (hreq.1.1.trans_le hreq.1.2) h
    obtain ⟨haname, h⟩ := unpackStr_of_drop (hreq.2.1.trans_le hreq.2.2) h
    obtain ⟨hn, -⟩ := unpackU32_of_drop h
    simp only [ParsedFrom, parseTattach, hfid, hafid, huname, haname, hn, bind_eq_bind, bind_some]
    rfl
  | walk => exact walk_parsed hreq.1 hreq.2.1 hreq.2.2 hshort h
  | lopen =>
    obtain ⟨hfid, h⟩ := unpackU32_of_drop h
    obtain ⟨hflags, -⟩ := unpackU32_of_drop h
    simp only [ParsedFrom, parseTlopen, hfid, hflags, bind_eq_bind, bind_some]
    rfl
  | write => exact write_parsed hreq h
  | read | readdir => exact read_parsed h
  | clunk | weft => exact fid_parsed h
  | flush =>
    obtain ⟨holdtag, -⟩ := unpackU16_of_drop h
    simp only [ParsedFrom, parseTflush, holdtag]
    rfl
  | getattr =>
    obtain ⟨-, hmask⟩ := unpackU32_of_drop h
    exact ⟨fid_parsed h, (unpackU64_of_drop hmask).1⟩
  | weftio =>
    obtain ⟨hfid, h⟩ := unpackU32_of_drop h
    obtain ⟨hoff, h⟩ := unpackU32_of_drop h
    obtain ⟨hlen, h⟩ := unpackU32_of_drop h
    obtain ⟨hdir, -⟩ := unpackU32_of_drop h
    simp only [ParsedFrom, parseTweftio, hfid, hoff, hlen, hdir, bind_eq_bind, bind_some]
    rfl

end Request

/-- **The two sides agree on requests.** For each request that both implement, all arguments for
which the kernel's builder returns a byte count, any buffer and tag, and names of at most 255 bytes:
the count is the message's length and its header's `size`, the crate's `peek_header` returns its
type and tag, and the crate's parser the arguments. -/
theorem requests_agree (req : Request) (out : List UInt8) (tag : UInt16) (b : Built)
    (hbuild : req.build out tag = some b) (haccepted : b.accepted)
    (hshort : req.NamesShort) :
    (b.out.take b.rc.toNat).length = b.rc ∧ (∃ size : UInt32, (size.toNat : ℤ) = b.rc ∧
        Ninep.peekHeader (b.out.take b.rc.toNat) = some ⟨size, req.kind.t, tag⟩) ∧
      req.ParsedFrom (b.out.take b.rc.toNat) := by
  obtain ⟨hreq, hrc, hmsg, hlen⟩ := Request.build_is hbuild haccepted
  rw [hmsg]
  refine ⟨hrc.symm, ⟨_, ?_, Ninep.peekHeader_append _ _ _ _⟩, Request.parsed hreq hshort ?_⟩
  · rw [hrc, ← length_frame req.kind.t tag]
    exact congrArg Int.ofNat (UInt32.toNat_ofNat_of_lt (Nat.lt_succ_of_le hlen))
  · rw [frame, drop_left' (length_header _ _ _)]

/-- A walk of two names in a buffer of forty bytes. -/
theorem requests_agree_walk :
    let b : Built := ⟨[24, 0, 0, 0, 110, 7, 0, 1, 0, 0, 0, 2, 0, 0, 0, 2, 0, 1, 0, 97, 2, 0, 98,
      99] ++ replicate 16 0, 24⟩
    (Request.walk 1 2 (.names [.bytes [97], .bytes [98, 99]])).build (replicate 40 0) 7 = some b ∧
      Ninep.parseTwalk (b.out.take 24) = some ⟨1, 2, 2, [[97], [98, 99]] ++ replicate 14 []⟩ := by
  intro b
  have hbuild : (Request.walk 1 2 (.names [.bytes [97], .bytes [98, 99]])).build
      (replicate 40 0) 7 = some b := by decide
  have hshort : ∀ s ∈ [CSlice.bytes [97], CSlice.bytes [98, 99]], s.len ≤ p9NameMax := by
    decide
  exact ⟨hbuild, (requests_agree _ _ _ b hbuild (by decide) hshort).2.2⟩

end Thylacine
