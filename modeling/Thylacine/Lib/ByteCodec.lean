import Mathlib.Data.Nat.Bitwise
import Mathlib.Tactic.Ring

/-!
# Byte Codecs

Little-endian integers as byte lists, and a write cursor over a fixed buffer: a `Cursor` is a buffer
with a position that lies inside it.

## Main results

* `leVal_leBytes`: the low `n` bytes of `v`, least significant first, are read back. The fixed
  widths `u16Bytes`, `u32Bytes`, `u64Bytes` come with their inverses.
* `put_bind_put`: two successive writes are one write of the concatenation, so a chain of writers
  has a one-line description.
-/

namespace ByteCodec

open List

/-! ### Little-endian integers -/

/-- The low `n` bytes of `v`, least significant first. -/
def leBytes : ℕ → ℕ → List UInt8
  | 0, _ => []
  | n + 1, v => UInt8.ofNat (v &&& 0xff) :: leBytes n (v >>> 8)

/-- The number with these bytes, least significant first. -/
def leVal : List UInt8 → ℕ
  | [] => 0
  | b :: bs => b.toNat ||| leVal bs <<< 8

@[simp] theorem length_leBytes (n v : ℕ) : (leBytes n v).length = n := by
  induction n generalizing v with
  | zero => rfl
  | succ n ih => rw [leBytes, length_cons, ih]

theorem leVal_cons (b : UInt8) (bs : List UInt8) : leVal (b :: bs) = b.toNat + 256 * leVal bs := by
  have h : leVal bs <<< 8 + b.toNat = leVal bs <<< 8 ||| b.toNat :=
    Nat.shiftLeft_add_eq_or_of_lt (show b.toNat < 2 ^ 8 from b.toNat_lt) _
  rw [leVal, Nat.or_comm, ← h]
  omega

/-- The bytes of `v` **read back** give `v` modulo the width. -/
theorem leVal_leBytes (n v : ℕ) : leVal (leBytes n v) = v % 256 ^ n := by
  induction n generalizing v with
  | zero => rw [leBytes, leVal, pow_zero, Nat.mod_one]
  | succ n ih =>
    have hlow : (UInt8.ofNat (v &&& 0xff)).toNat = v % 256 := by
      rw [UInt8.toNat_ofNat', Nat.and_two_pow_sub_one_eq_mod v 8, Nat.mod_mod]
    rw [leBytes, leVal_cons, ih, hlow, Nat.shiftRight_eq_div_pow, pow_succ' 256 n, Nat.mod_mul]

theorem leVal_leBytes_of_lt {n v : ℕ} (h : v < 256 ^ n) : leVal (leBytes n v) = v := by
  rw [leVal_leBytes, Nat.mod_eq_of_lt h]

/-- The two bytes of a 16-bit value. -/
def u16Bytes (v : UInt16) : List UInt8 := leBytes 2 v.toNat

/-- The four bytes of a 32-bit value. -/
def u32Bytes (v : UInt32) : List UInt8 := leBytes 4 v.toNat

/-- The eight bytes of a 64-bit value. -/
def u64Bytes (v : UInt64) : List UInt8 := leBytes 8 v.toNat

/-- The 16-bit value of two bytes. -/
def u16Val (bs : List UInt8) : UInt16 := UInt16.ofNat (leVal bs)

/-- The 32-bit value of four bytes. -/
def u32Val (bs : List UInt8) : UInt32 := UInt32.ofNat (leVal bs)

/-- The 64-bit value of eight bytes. -/
def u64Val (bs : List UInt8) : UInt64 := UInt64.ofNat (leVal bs)

@[simp] theorem length_u16Bytes (v : UInt16) : (u16Bytes v).length = 2 := length_leBytes _ _

@[simp] theorem length_u32Bytes (v : UInt32) : (u32Bytes v).length = 4 := length_leBytes _ _

@[simp] theorem length_u64Bytes (v : UInt64) : (u64Bytes v).length = 8 := length_leBytes _ _

@[simp] theorem u16Val_u16Bytes (v : UInt16) : u16Val (u16Bytes v) = v := by
  rw [u16Val, u16Bytes, leVal_leBytes_of_lt (show _ < 256 ^ 2 from v.toNat_lt), UInt16.ofNat_toNat]

@[simp] theorem u32Val_u32Bytes (v : UInt32) : u32Val (u32Bytes v) = v := by
  rw [u32Val, u32Bytes, leVal_leBytes_of_lt (show _ < 256 ^ 4 from v.toNat_lt), UInt32.ofNat_toNat]

@[simp] theorem u64Val_u64Bytes (v : UInt64) : u64Val (u64Bytes v) = v := by
  rw [u64Val, u64Bytes, leVal_leBytes_of_lt (show _ < 256 ^ 8 from v.toNat_lt), UInt64.ofNat_toNat]

/-! ### Reading at an offset -/

section

variable {buf bs rest : List UInt8} {off n : ℕ} (h : buf.drop off = bs ++ rest) (hn : bs.length = n)
include h hn

/-- Past the `n` bytes found at an offset. -/
theorem drop_add_of_drop : buf.drop (off + n) = rest := by rw [← drop_drop, h, drop_left' hn]

/-- Bytes found at an offset lie inside the buffer. -/
theorem add_le_of_drop (hpos : 0 < n) : off + n ≤ buf.length := by
  have hlen := congrArg length h
  rw [length_drop, length_append] at hlen
  omega

end

/-! ### The write cursor -/

/-- The buffer with `bs` written over it at `off`. -/
def overwrite (buf : List UInt8) (off : ℕ) (bs : List UInt8) : List UInt8 :=
  buf.take off ++ bs ++ buf.drop (off + bs.length)

theorem length_overwrite {buf bs : List UInt8} {off : ℕ} (h : off + bs.length ≤ buf.length) :
    (overwrite buf off bs).length = buf.length := by
  simp only [overwrite, length_append, length_take, length_drop]
  omega

theorem overwrite_overwrite {buf a b : List UInt8} {off : ℕ} (h : off + a.length ≤ buf.length) :
    overwrite (overwrite buf off a) (off + a.length) b = overwrite buf off (a ++ b) := by
  have hfront : (buf.take off ++ a).length = off + a.length := by
    rw [length_append, length_take, Nat.min_eq_left (by omega)]
  have htake : (overwrite buf off a).take (off + a.length) = buf.take off ++ a := take_left' hfront
  have hdrop : (overwrite buf off a).drop (off + a.length) = buf.drop (off + a.length) :=
    drop_left' hfront
  rw [overwrite, htake, ← drop_drop, hdrop, drop_drop, overwrite,
    length_append, add_assoc, append_assoc (buf.take off)]

/-- A buffer and a position **inside it**: the next byte, or the end. -/
structure Cursor where
  buf : List UInt8
  off : ℕ
  off_le : off ≤ buf.length

namespace Cursor

/-- The cursor at the start of a buffer. -/
def start (buf : List UInt8) : Cursor := ⟨buf, 0, Nat.zero_le _⟩

/-- The bytes that are left to write. -/
def room (c : Cursor) : ℕ := c.buf.length - c.off

/-- Writes `bs` and moves past them; **fails** without room for all. -/
def put (c : Cursor) (bs : List UInt8) : Option Cursor :=
  if h : c.off + bs.length ≤ c.buf.length then
    some ⟨overwrite c.buf c.off bs, c.off + bs.length, h.trans_eq (length_overwrite h).symm⟩
  else none

theorem put_of_le {c : Cursor} {bs : List UInt8} (h : c.off + bs.length ≤ c.buf.length) :
    c.put bs = some ⟨overwrite c.buf c.off bs, c.off + bs.length,
      h.trans_eq (length_overwrite h).symm⟩ :=
  dif_pos h

theorem put_of_lt {c : Cursor} {bs : List UInt8} (h : c.buf.length < c.off + bs.length) :
    c.put bs = none :=
  dif_neg (not_le.mpr h)

/-- A write at the start of a buffer. -/
theorem put_start {buf bs : List UInt8} {c : Cursor} (h : (start buf).put bs = some c) :
    bs.length ≤ buf.length ∧ c.off = bs.length ∧ c.buf = bs ++ buf.drop bs.length := by
  by_cases hfit : bs.length ≤ buf.length
  · rw [put_of_le (show 0 + bs.length ≤ buf.length by omega)] at h
    cases h
    refine ⟨hfit, zero_add _, ?_⟩
    change overwrite buf 0 bs = _
    rw [overwrite, take_zero, nil_append, zero_add]
  · rw [put_of_lt (show buf.length < 0 + bs.length by omega)] at h
    cases h

@[simp] theorem put_nil (c : Cursor) : c.put [] = some c := by
  rw [put_of_le (show c.off + 0 ≤ _ from c.off_le)]
  simp [overwrite]

/-- **Two writes are one** write of the concatenation. -/
theorem put_bind_put (c : Cursor) (a b : List UInt8) :
    (c.put a).bind (fun c => c.put b) = c.put (a ++ b) := by
  have hab : (a ++ b).length = a.length + b.length := length_append
  by_cases ha : c.off + a.length ≤ c.buf.length
  · have hlen := length_overwrite ha
    rw [put_of_le ha, Option.bind_some]
    by_cases hb : c.off + (a ++ b).length ≤ c.buf.length
    · have hb' : c.off + a.length + b.length ≤ (overwrite c.buf c.off a).length := by omega
      rw [put_of_le hb, put_of_le hb']
      simp only [overwrite_overwrite ha, hab, add_assoc]
    · have hb' : (overwrite c.buf c.off a).length < c.off + a.length + b.length := by omega
      rw [put_of_lt (not_le.mp hb), put_of_lt hb']
  · rw [put_of_lt (by omega), put_of_lt (by omega), Option.bind_none]

/-- A loop of writers that are each a `put` is one `put`. -/
theorem foldlM_put {α : Type*} {f : Cursor → α → Option Cursor} {enc : α → List UInt8}
    {l : List α} (h : ∀ x ∈ l, ∀ c, f c x = c.put (enc x)) (c : Cursor) :
    l.foldlM f c = c.put (l.flatMap enc) := by
  induction l generalizing c with
  | nil => exact (put_nil c).symm
  | cons x l ih =>
    have hrest := fun c => ih (fun y hy => h y (mem_cons_of_mem x hy)) c
    rw [foldlM_cons, h x mem_cons_self, flatMap_cons, ← put_bind_put]
    exact congrArg _ (funext hrest)

/-- A loop of writers that comes through is one `put`. -/
theorem put_of_foldlM {α : Type*} {f : Cursor → α → Option Cursor}
    (h : ∀ x c c', f c x = some c' → ∃ bs, c.put bs = some c') {l : List α} {c c' : Cursor}
    (hl : l.foldlM f c = some c') : ∃ bs, c.put bs = some c' := by
  induction l generalizing c with
  | nil => exact ⟨[], (put_nil c).trans hl⟩
  | cons x l ih =>
    obtain ⟨c₁, hx, hl⟩ := Option.bind_eq_some_iff.mp hl
    obtain ⟨a, ha⟩ := h x c c₁ hx
    obtain ⟨b, hb⟩ := ih hl
    refine ⟨a ++ b, ?_⟩
    rw [← put_bind_put, ha, Option.bind_some, hb]

end Cursor

end ByteCodec
