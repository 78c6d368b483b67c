import Thylacine.SrvConn.SrvConn

/-!
# Holds of a Channel's Lock

What one hold of a channel's lock does to the ring is said once (`Flow`): bytes are appended, or
taken from the front, or nothing has changed. Every call keeps to it, and after it owes the wakes
that the change calls for (`Hold.Ok`).

## Main results

* `Blocking.turn_bytes`, `Instant.hold_bytes`: what a sender has put into the stream is at every
  point the first bytes of its buffer.
-/

namespace Thylacine

open List RingBuffer TaggedStream

namespace SrvConn

variable {cap : ℕ} {ch : Chan}

/-! ### The ring -/

/-- The bytes `put` go in, or `took` come out. -/
structure Flow (cap : ℕ) (ch ch' : Chan) (put took : List UInt8) : Prop where
  ok : ch'.ring.Ok cap
  contents : ch.ring.contents cap ++ put = took ++ ch'.ring.contents cap
  produced : ch'.produced = ch.produced + UInt64.ofNat put.length
  consumed : ch'.consumed = ch.consumed + UInt64.ofNat took.length
  eof : ch'.eof = ch.eof
  role : ∀ w, ch'.role w = ch.role w
  still : put = [] → took = [] → ch' = ch
  /-- No hold does both. -/
  one : put = [] ∨ took = []

theorem Flow.refl (h : ch.ring.Ok cap) : Flow cap ch ch [] [] where
  ok := h
  contents := append_nil _
  produced := (UInt64.add_zero _).symm
  consumed := (UInt64.add_zero _).symm
  eof := rfl
  role := fun _ => rfl
  still := fun _ _ => rfl
  one := .inl rfl

/-- The number of bytes buffered after a hold. -/
theorem Flow.count {ch' : Chan} {put took : List UInt8} (h : Flow cap ch ch' put took) :
    ch.ring.count + put.length = took.length + ch'.ring.count := by
  have := congrArg length h.contents
  simpa only [length_append, Ring.length_contents] using this

/-- `chan_ring_write` appends as many bytes as fit. -/
theorem chanRingWrite_spec (h : ch.ring.Ok cap) (buf : ℕ → UInt8) (n : ℤ) :
    ∃ k : ℕ, (chanRingWrite cap ch buf n).2 = k ∧
      Flow cap ch (chanRingWrite cap ch buf n).1 (slice buf k) [] ∧
      k = min (cap - ch.ring.count) n.toNat := by
  have hwant : (if ((cap - ch.ring.count : ℕ) : ℤ) < n then cap - ch.ring.count else n.toNat) =
      min (cap - ch.ring.count) n.toNat := by
    split <;> omega
  fun_cases chanRingWrite cap ch buf n with
  | case1 hn => exact ⟨0, rfl, Flow.refl h, by omega⟩
  | case2 _ avail want hzero => exact ⟨0, rfl, Flow.refl h, hzero.symm.trans hwant⟩
  | case3 _ avail want hpos =>
    have hmin : want = min (cap - ch.ring.count) n.toNat := hwant
    have hfits : ch.ring.count + want ≤ cap := by omega
    refine ⟨want, rfl, ⟨h.push hfits buf, ?_, ?_, (UInt64.add_zero _).symm, rfl,
      fun _ => rfl, fun hnil => ?_, .inr rfl⟩, hmin⟩
    · exact (Ring.contents_push h hfits buf).symm
    · rw [length_slice]
    · have hlen := congrArg length hnil
      rw [length_slice] at hlen
      exact absurd hlen hpos

/-- `chan_ring_read` takes the first bytes there are. -/
theorem chanRingRead_spec (h : ch.ring.Ok cap) (n : ℤ) :
    Flow cap ch (chanRingRead cap ch n).1 [] (chanRingRead cap ch n).2 ∧
      (chanRingRead cap ch n).2.length = min ch.ring.count n.toNat := by
  have hwant : (if (ch.ring.count : ℤ) < n then ch.ring.count else n.toNat) =
      min ch.ring.count n.toNat := by
    split <;> omega
  fun_cases chanRingRead cap ch n with
  | case1 hn => exact ⟨Flow.refl h, show 0 = _ by omega⟩
  | case2 _ want hzero => exact ⟨Flow.refl h, hzero.symm.trans hwant⟩
  | case3 _ want hpos =>
    have hmin : want = min ch.ring.count n.toNat := hwant
    have hthere : want ≤ ch.ring.count := by omega
    have hlen : (ch.ring.pop cap want).2.length = want := Ring.length_pop_snd
    refine ⟨⟨h.pop hthere, ?_, (UInt64.add_zero _).symm, ?_, rfl, fun _ => rfl,
      fun _ hnil => ?_, .inl rfl⟩, ?_⟩
    · rw [append_nil]
      exact Ring.contents_eq_pop h hthere
    · rw [hlen]
    · rw [hnil] at hlen
      exact absurd hlen.symm hpos
    · rw [hlen, hmin]

/-! ### What a hold owes -/

/-- A hold of channel `c` moves bytes, none in after end of file, and **owes** the wakes: reader and
pollers for bytes in, writer and pollers for bytes out. -/
structure Hold.Ok (cap : ℕ) (c : Dir) (ch : Chan) (h : Hold) : Prop where
  flow : Flow cap ch h.ch h.put h.took
  closed : ch.eof = true → h.put = []
  fill : h.put ≠ [] → .rendez c ∈ h.wakes ∧ .poll ∈ h.wakes
  drain : h.took ≠ [] → .wrendez c ∈ h.wakes ∧ .poll ∈ h.wakes

section

variable (h : ch.ring.Ok cap)
include h

/-- A hold that moves nothing. -/
theorem Hold.Ok.idle (c : Dir) (rc : ℤ) : Ok cap c ch { ch := ch, rc := rc } :=
  ⟨Flow.refl h, fun _ => rfl, absurd rfl, absurd rfl⟩

/-- A hold that puts bytes in, with any result. -/
theorem Hold.Ok.write (c : Dir) (buf : ℕ → UInt8) (n : ℤ) (rc : ℤ → ℤ) (heof : ch.eof = false) :
    Ok cap c ch
      { ch := (chanRingWrite cap ch buf n).1
        put := slice buf (chanRingWrite cap ch buf n).2.toNat
        rc := rc (chanRingWrite cap ch buf n).2
        wakes := if 0 < (chanRingWrite cap ch buf n).2 then [.rendez c, .poll] else [] } := by
  obtain ⟨k, hk, hflow, -⟩ := chanRingWrite_spec h buf n
  have hput : slice buf (chanRingWrite cap ch buf n).2.toNat = slice buf k := by
    rw [hk, Int.toNat_natCast]
  refine ⟨hput ▸ hflow, fun htrue => ?_, fun hne => ?_, absurd rfl⟩
  · rw [heof] at htrue
    cases htrue
  · have hpos : 0 < (chanRingWrite cap ch buf n).2 := by
      rw [hk]
      refine Int.natCast_pos.mpr (Nat.pos_of_ne_zero fun hzero => hne ?_)
      rw [hk, hzero]
      rfl
    rw [if_pos hpos]
    exact ⟨mem_cons_self, mem_cons_of_mem _ mem_cons_self⟩

/-- A hold that takes bytes out. -/
theorem Hold.Ok.read (c : Dir) (n : ℤ) (wakes : List Wake)
    (hwakes : (chanRingRead cap ch n).2 ≠ [] → .wrendez c ∈ wakes ∧ .poll ∈ wakes) :
    Ok cap c ch
      { ch := (chanRingRead cap ch n).1, took := (chanRingRead cap ch n).2
        rc := (chanRingRead cap ch n).2.length, wakes := wakes } :=
  ⟨(chanRingRead_spec h n).1, fun _ => rfl, absurd rfl, hwakes⟩

theorem chanProduce_ok (c : Dir) (buf : ℕ → UInt8) (n : ℤ) :
    (chanProduce cap c ch buf n).Ok cap c ch := by
  unfold chanProduce
  split
  next heof => exact .idle h c _
  next heof => exact .write h c buf n id (Bool.eq_false_iff.mpr heof)

theorem sendFrame_ok (buf : ℕ → UInt8) (n : ℤ) : (sendFrame cap ch buf n).Ok cap .c2s ch := by
  unfold sendFrame
  split_ifs with heof
  · exact .idle h _ _
  · exact .idle h _ _
  · exact .write h _ buf n id (Bool.eq_false_iff.mpr heof)

theorem ioNonblockWrite_ok (c : Dir) (buf : ℕ → UInt8) (n : ℤ) :
    (ioNonblockWrite cap c ch buf n).Ok cap c ch := by
  unfold ioNonblockWrite
  split_ifs with heof
  · exact .idle h c _
  · exact .idle h c _
  · exact .write h c buf n (fun put => if put = 0 then -tEAgain else put)
      (Bool.eq_false_iff.mpr heof)

theorem ioNonblockRead_ok (c : Dir) (n : ℤ) : (ioNonblockRead cap c ch n).Ok cap c ch := by
  unfold ioNonblockRead
  split_ifs
  · exact .idle h c _
  · refine .read h c n
      (if 0 < (chanRingRead cap ch n).2.length then [.wrendez c, .poll] else []) fun hne => ?_
    rw [if_pos (length_pos_iff.mpr hne)]
    exact ⟨mem_cons_self, mem_cons_of_mem _ mem_cons_self⟩
  · exact .idle h c _
  · exact .idle h c _

theorem chanConsumeNonblock_ok (c : Dir) (n : ℤ) :
    (chanConsumeNonblock cap c ch n).Ok cap c ch := by
  unfold chanConsumeNonblock
  split
  · refine .read h c n (.wrendez c ::
      if 0 < (chanRingRead cap ch n).2.length then [.poll] else []) fun hne => ?_
    rw [if_pos (length_pos_iff.mpr hne)]
    exact ⟨mem_cons_self, mem_cons_of_mem _ mem_cons_self⟩
  · exact .idle h c _

theorem Instant.hold_ok (q : Instant) : (q.hold cap ch).Ok cap q.dir ch := by
  cases q with
  | send c buf n => exact chanProduce_ok h c buf n
  | frame buf n => exact sendFrame_ok h buf n
  | ioWrite c buf n => exact ioNonblockWrite_ok h c buf n
  | ioRead c n => exact ioNonblockRead_ok h c n
  | recvNow n => exact ioNonblockRead_ok h .s2c n
  | recv n => exact chanConsumeNonblock_ok h .c2s n

theorem Blocking.turn_ok (q : Blocking) (done : ℕ) : (q.turn cap ch done).1.Ok cap q.dir ch := by
  cases q with
  | send c buf n =>
    have hok := chanProduce_ok h c (fun i => buf (done + i)) (n - done)
    change (sendTurn cap c ch buf n done).1.Ok cap c ch
    unfold sendTurn
    dsimp only
    split <;> exact hok
  | recv c n =>
    change (recvTurn cap c ch n).1.Ok cap c ch
    unfold recvTurn
    split
    · exact .read h c n [.wrendez c, .poll] fun _ =>
        ⟨mem_cons_self, mem_cons_of_mem _ mem_cons_self⟩
    · split <;> exact .idle h c _

end

/-! ### What a call has put in -/

section

variable (c : Dir)

/-- The first `k` bytes that a call sends in direction `c`. -/
def Blocking.bytes (k : ℕ) : Blocking → List UInt8
  | .send c' buf _ => if c' = c then slice buf k else []
  | .recv _ _ => []

def Instant.bytes (k : ℕ) : Instant → List UInt8
  | .send c' buf _ => if c' = c then slice buf k else []
  | .frame buf _ => if Dir.c2s = c then slice buf k else []
  | .ioWrite c' buf _ => if c' = c then slice buf k else []
  | _ => []

def Op.bytes (k : ℕ) : Op → List UInt8
  | .blocking q => q.bytes c k
  | .instant q => q.bytes c k

def Next.bytes : Next → List UInt8
  | .ret op rc => op.bytes c rc.toNat
  | .release q rc => q.bytes c rc.toNat
  | .sleep q done => q.bytes c done
  | .finished => []

/-- What a call at `p` has put into direction `c`. -/
def Pc.bytes : Pc → List UInt8
  | .tsleep (.body q done) => q.bytes c done
  | .asleep (.body q done) => q.bytes c done
  | .body q done => q.bytes c done
  | .release q rc => q.bytes c rc.toNat
  | .waking _ next => next.bytes c
  | .ret op rc => op.bytes c rc.toNat
  | _ => []

theorem Blocking.bytes_zero (q : Blocking) : q.bytes c 0 = [] := by
  cases q with
  | send => exact ite_self _
  | recv => rfl

theorem Instant.bytes_zero (q : Instant) : q.bytes c 0 = [] := by
  cases q with
  | send c' buf n | ioWrite c' buf n | frame => exact ite_self _
  | _ => rfl

theorem Op.bytes_of_nonpos {rc : ℤ} (h : rc ≤ 0) (op : Op) : op.bytes c rc.toNat = [] := by
  rw [Int.toNat_of_nonpos h]
  cases op with
  | blocking q | instant q => exact q.bytes_zero c

theorem chanProduce_put (ch : Chan) (buf : ℕ → UInt8) (n : ℤ) :
    (chanProduce cap c ch buf n).put = slice buf (chanProduce cap c ch buf n).rc.toNat := by
  unfold chanProduce
  split <;> rfl

end

theorem sendFrame_put (ch : Chan) (buf : ℕ → UInt8) (n : ℤ) :
    (sendFrame cap ch buf n).put = slice buf (sendFrame cap ch buf n).rc.toNat := by
  fun_cases sendFrame <;> rfl

theorem ioNonblockWrite_put (c : Dir) (ch : Chan) (buf : ℕ → UInt8) (n : ℤ) :
    (ioNonblockWrite cap c ch buf n).put = slice buf (ioNonblockWrite cap c ch buf n).rc.toNat := by
  unfold ioNonblockWrite
  split
  · rfl
  · split
    · rfl
    · dsimp only
      split
      next hzero =>
        rw [hzero]
        rfl
      next => rfl

theorem ioNonblockRead_put (c : Dir) (ch : Chan) (n : ℤ) :
    (ioNonblockRead cap c ch n).put = [] := by
  fun_cases ioNonblockRead <;> rfl

theorem chanConsumeNonblock_put (c : Dir) (ch : Chan) (n : ℤ) :
    (chanConsumeNonblock cap c ch n).put = [] := by
  unfold chanConsumeNonblock
  split <;> rfl

/-- A call with one hold has put in what it **returns**. -/
theorem Instant.hold_bytes (q : Instant) (ch : Chan) (c : Dir) :
    (if c = q.dir then (q.hold cap ch).put else []) = q.bytes c (q.hold cap ch).rc.toNat := by
  have hwrite (c' : Dir) (buf : ℕ → UInt8) (x : Hold) (hx : x.put = slice buf x.rc.toNat) :
      (if c = c' then x.put else []) = if c' = c then slice buf x.rc.toNat else [] := by
    by_cases hc : c = c'
    · rw [if_pos hc, if_pos hc.symm, hx]
    · rw [if_neg hc, if_neg (Ne.symm hc)]
  have hread (c' : Dir) (x : Hold) (hx : x.put = []) : (if c = c' then x.put else []) = [] := by
    rw [hx, ite_self]
  cases q with
  | send c' buf n => exact hwrite c' buf _ (chanProduce_put c' ch buf n)
  | frame buf n => exact hwrite .c2s buf _ (sendFrame_put ch buf n)
  | ioWrite c' buf n => exact hwrite c' buf _ (ioNonblockWrite_put c' ch buf n)
  | ioRead c' n => exact hread c' _ (ioNonblockRead_put c' ch n)
  | recvNow n => exact hread .s2c _ (ioNonblockRead_put .s2c ch n)
  | recv n => exact hread .c2s _ (chanConsumeNonblock_put .c2s ch n)

/-- A turn of a blocking call puts in its **next** bytes. -/
theorem Blocking.turn_bytes (q : Blocking) (ch : Chan) (done : ℕ) (c : Dir) :
    q.bytes c done ++ (if c = q.dir then (q.turn cap ch done).1.put else []) =
      ((q.turn cap ch done).2.next q).bytes c := by
  cases q with
  | send c' buf n =>
    change _ ++ (if c = c' then (sendTurn cap c' ch buf n done).1.put else []) =
      ((sendTurn cap c' ch buf n done).2.next (.send c' buf n)).bytes c
    have hput : (chanProduce cap c' ch (fun i => buf (done + i)) (n - done)).put = _ :=
      chanProduce_put ..
    unfold sendTurn
    generalize chanProduce cap c' ch (fun i => buf (done + i)) (n - done) = x at hput ⊢
    have hbytes (d : ℕ) (hd : d = done + x.rc.toNat) :
        (send c' buf n).bytes c done ++ (if c = c' then x.put else []) =
          (send c' buf n).bytes c d := by
      change (if c' = c then slice buf done else []) ++ _ = if c' = c then slice buf d else []
      by_cases hc : c = c'
      · rw [if_pos hc.symm, if_pos hc.symm, if_pos hc, hput, hd, slice_add]
      · rw [if_neg (Ne.symm hc), if_neg (Ne.symm hc), if_neg hc, append_nil]
    dsimp only
    by_cases hneg : x.rc < 0
    · rw [if_pos hneg]
      refine hbytes _ ?_
      split <;> omega
    · rw [if_neg hneg]
      by_cases hall : n ≤ ((done + x.rc.toNat : ℕ) : ℤ)
      · rw [if_pos hall]
        exact hbytes _ rfl
      · rw [if_neg hall]
        exact hbytes _ rfl
  | recv c' n =>
    change [] ++ (if c = c' then (recvTurn cap c' ch n).1.put else []) =
      ((recvTurn cap c' ch n).2.next (.recv c' n)).bytes c
    have hnone : (recvTurn cap c' ch n).1.put = [] := by
      fun_cases recvTurn <;> rfl
    rw [hnone, ite_self]
    cases (recvTurn cap c' ch n).2 <;> rfl

/-! ### The roles -/

def Next.Holds (c : Dir) (w : Bool) : Next → Prop
  | .release q _ => q.dir = c ∧ q.writer = w
  | .sleep q _ => q.dir = c ∧ q.writer = w
  | _ => False

/-- A call at `p` holds the reader's or writer's role of `c`. -/
def Pc.Holds (c : Dir) (w : Bool) : Pc → Prop
  | .tsleep (.body q _) => q.dir = c ∧ q.writer = w
  | .asleep (.body q _) => q.dir = c ∧ q.writer = w
  | .body q _ => q.dir = c ∧ q.writer = w
  | .release q _ => q.dir = c ∧ q.writer = w
  | .waking _ next => next.Holds c w
  | _ => False

/-- A role is **held** once at most, and its flag is set. -/
structure Roles (s : SrvConn) : Prop where
  flag : ∀ c w t, (s.pc t).Holds c w → (s.chan c).role w = true
  unique : ∀ c w t u, (s.pc t).Holds c w → (s.pc u).Holds c w → t = u

theorem role_setRole (ch : Chan) (w w' held : Bool) :
    (ch.setRole w held).role w' = if w' = w then held else ch.role w' := by
  cases w <;> cases w' <;> rfl

variable {s s' : SrvConn} {t : ℕ}

/-- A step that leaves the flags, and lets nobody hold more. -/
theorem Roles.of_le (h : Roles s) (hflag : ∀ c w, (s'.chan c).role w = (s.chan c).role w)
    (hle : ∀ c w u, (s'.pc u).Holds c w → (s.pc u).Holds c w) : Roles s' where
  flag := fun c w u hu => (hflag c w).trans (h.flag c w u (hle c w u hu))
  unique := fun c w u v hu hv => h.unique c w u v (hle c w u hu) (hle c w v hv)

end SrvConn

end Thylacine
