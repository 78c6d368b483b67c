import Mathlib.Tactic.IntervalCases
import Thylacine.Lib.IntervalMap
import Thylacine.Vma.RangeOps

/-!
# What an Address Space Shows

The abstract layer over the list of mappings. A `Mapping` is a `struct Vma` without its place in
memory; a guard has no byte offset there. The mappings are the pieces of an interval map: at each
address that it covers, a mapping shows an `Entry`, the byte of its Burrow with the prot and the
flags. `Mapping.Ok` is what holds of every mapping by itself.
-/

namespace Thylacine

open IntervalMap Word
open AddrSpace (normalProt)

/-! ### Prot and ceiling -/

/-- All bits of `p` are in `m`. -/
def Within (p m : UInt32) : Prop := p &&& ~~~m = 0

theorem Within.and_eq {p m : UInt32} (h : Within p m) : p &&& m = p := by
  have hsplit : p &&& (m ||| ~~~m) = p &&& m ||| p &&& ~~~m :=
    UInt32.toBitVec_inj.mp BitVec.and_or_distrib_left
  have hall : m ||| ~~~m = -1 := by simp
  rw [hall, h, UInt32.and_neg_one, UInt32.or_zero] at hsplit
  exact hsplit.symm

theorem Within.mono {p m n : UInt32} (h : Within p m) (hmn : m &&& n = m) : Within p n := by
  rw [← h.and_eq, ← hmn, Within, UInt32.and_assoc, UInt32.and_assoc, UInt32.and_not_self,
    UInt32.and_zero, UInt32.and_zero]

theorem within_self (p : UInt32) : Within p p := UInt32.and_not_self

/-- The ceiling that was set is the one that is read. -/
theorem vmaProtMax_set (flags prot : UInt32) :
    vmaProtMax (vmaSetProtMax flags prot) = prot &&& 7 := by
  apply UInt32.eq_of_toBitVec_eq
  ext i hi
  simp only [vmaProtMax, vmaSetProtMax, vmaFlagMaxMask, vmaFlagMaxShift]
  interval_cases i <;> simp

theorem within_ceiling {prot : UInt32} (h : Within prot 7) (flags : UInt32) :
    Within prot (vmaProtMax (vmaSetProtMax flags prot)) := by
  rw [vmaProtMax_set, h.and_eq]
  exact within_self prot

/-- `W^X`, and no write without read. -/
structure ProtOk (prot : UInt32) : Prop where
  wx : ¬(prot &&& vmaProtWrite ≠ 0 ∧ prot &&& vmaProtExec ≠ 0)
  wr : ¬(prot &&& vmaProtWrite ≠ 0 ∧ prot &&& vmaProtRead = 0)

theorem or_read_and (prot m : UInt32) :
    (prot ||| vmaProtRead) &&& m = prot &&& m ||| vmaProtRead &&& m :=
  UInt32.toBitVec_inj.mp BitVec.and_or_distrib_right

theorem ProtOk.normal {prot : UInt32} (h : ProtOk prot) (type : BurrowType) :
    ProtOk (normalProt type prot) := by
  rw [normalProt]
  split_ifs with hx
  · have hw : ¬(prot ||| vmaProtRead) &&& vmaProtWrite ≠ 0 := by
      rw [or_read_and]
      intro hne
      refine h.wx ⟨fun h0 => hne ?_, hx.1⟩
      rw [h0]
      rfl
    exact ⟨fun hc => hw hc.1, fun hc => hw hc.1⟩
  · exact h

theorem normalProt_within {prot : UInt32} (h : Within prot 7) (type : BurrowType) :
    Within (normalProt type prot) 7 := by
  rw [normalProt]
  split_ifs
  · rw [Within, or_read_and, h]
    rfl
  · exact h

/-- Execute-only exists over code Burrows alone. -/
theorem type_of_normalProt {type : BurrowType} {prot : UInt32}
    (hx : normalProt type prot &&& vmaProtExec ≠ 0)
    (hr : normalProt type prot &&& vmaProtRead = 0) : type = .code := by
  by_contra hne
  rw [normalProt] at hx hr
  split_ifs at hx hr with hc
  · rw [or_read_and] at hr
    exact absurd (UInt32.or_eq_zero_iff.mp hr).2 (by decide)
  · exact hc ⟨hx, hr, hne⟩

/-! ### Mappings -/

/-- A mapping without its place; `back` is the Burrow and byte offset of its first address. -/
structure Mapping where
  lo : UInt64
  hi : UInt64
  prot : UInt32
  flags : UInt32
  back : Option (BurrowRef × UInt64)
  deriving DecidableEq, Repr

/-- What is seen at an address: a Burrow's byte, prot, flags. -/
structure Entry where
  byte : Option (BurrowRef × UInt64)
  prot : UInt32
  flags : UInt32
  deriving DecidableEq, Repr

def Vma.mapping (m : Vma) : Mapping where
  lo := m.vaddrStart
  hi := m.vaddrEnd
  prot := m.prot
  flags := m.flags
  back := m.burrow.map fun b => (b, m.burrowOffset)

namespace Mapping

section

variable (m : Mapping)

/-- The byte that the mapping shows at `va`. -/
def byteAt (va : UInt64) : Option (BurrowRef × UInt64) :=
  m.back.map fun w => (w.1, w.2 + (va - m.lo))

/-- The mapping, cut down to a range. -/
def cut (a b : UInt64) : Mapping := { m with lo := a, hi := b, back := m.byteAt a }

theorem byteAt_cut (a b va : UInt64) : (m.cut a b).byteAt va = m.byteAt va := by
  simp only [byteAt, cut, Option.map_map]
  congr 1
  funext w
  simp only [Function.comp_apply, Prod.mk.injEq]
  grind

theorem cut_cut (a b c d : UInt64) : (m.cut a b).cut c d = m.cut c d := by
  rw [cut, byteAt_cut]
  rfl

theorem cut_lo (b : UInt64) : m.cut m.lo b = { m with hi := b } := by
  have hback : m.byteAt m.lo = m.back := by
    rw [byteAt, UInt64.sub_self]
    cases m.back with
    | none => rfl
    | some w => simp only [Option.map_some, UInt64.add_zero]
  rw [cut, hback]

end

/-- The mappings as pieces of an interval map. -/
def pieces : Pieces UInt64 Mapping Entry where
  lo := Mapping.lo
  hi := Mapping.hi
  val := fun m va => ⟨m.byteAt va, m.prot, m.flags⟩
  cut := cut
  lo_cut := fun _ _ _ => rfl
  hi_cut := fun _ _ _ => rfl
  val_cut := fun m a b va => by rw [byteAt_cut]; rfl

/-- The bytes from `o` fit in a Burrow of `n` pages. -/
def Fits (n : ℕ) (o lo hi : UInt64) : Prop := o.toNat + (hi - lo).toNat ≤ n * pageBytes

variable {n : ℕ} {o lo hi a b : UInt64}

theorem Fits.mono {n' : ℕ} (h : Fits n o lo hi) (hn : n ≤ n') : Fits n' o lo hi :=
  h.trans (Nat.mul_le_mul_right _ hn)

/-- A part of what fits, fits. -/
theorem Fits.cut (h : Fits n o lo hi) (hn : n * pageBytes < 2 ^ 64) (ha : lo ≤ a) (hab : a ≤ b)
    (hb : b ≤ hi) : Fits n (o + (a - lo)) a b := by
  have hlh : lo ≤ hi := ha.trans (hab.trans hb)
  rw [Fits, UInt64.toNat_sub_of_le _ _ hlh] at h
  rw [Fits, UInt64.toNat_add, UInt64.toNat_sub_of_le _ _ ha, UInt64.toNat_sub_of_le _ _ hab]
  rw [UInt64.le_iff_toNat_le] at ha hab hb
  rw [Nat.mod_eq_of_lt] <;> omega

/-- What meets and fits, fits as one. -/
theorem Fits.join {o' hi' : UInt64} (h : Fits n o lo hi) (h' : Fits n o' hi hi')
    (hn : n * pageBytes < 2 ^ 64) (ho : o + (hi - lo) = o') (hlh : lo ≤ hi) (hhi : hi ≤ hi') :
    Fits n o lo hi' := by
  subst ho
  rw [Fits, UInt64.toNat_sub_of_le _ _ hlh] at h
  rw [Fits, UInt64.toNat_add, UInt64.toNat_sub_of_le _ _ hlh, UInt64.toNat_sub_of_le _ _ hhi] at h'
  rw [Fits, UInt64.toNat_sub_of_le _ _ (hlh.trans hhi)]
  omega

/-- What holds of a mapping, given the Burrows. -/
structure Ok (burrows : BurrowRef → Burrow) (m : Mapping) : Prop where
  nonempty : m.lo < m.hi
  alignedLo : Aligned m.lo
  alignedHi : Aligned m.hi
  prot : ProtOk m.prot
  ceiling : Within m.prot (vmaProtMax m.flags)
  guard : m.back = none → m.prot = 0
  backed : ∀ b o, m.back = some (b, o) → Aligned o ∧ Fits (burrows b).pageCount o m.lo m.hi ∧
    (m.prot &&& vmaProtExec ≠ 0 → m.prot &&& vmaProtRead = 0 → (burrows b).type = .code)

/-- `w'` is `w` later: the same type, no smaller. -/
def Later (w w' : Burrow) : Prop := w'.type = w.type ∧ w.pageCount ≤ w'.pageCount

variable {burrows burrows' : BurrowRef → Burrow} {m m' x y : Mapping}

theorem Ok.later (h : m.Ok burrows)
    (hw : ∀ b o, m.back = some (b, o) → Later (burrows b) (burrows' b)) : m.Ok burrows' := by
  refine { h with backed := fun b o hback => ?_ }
  obtain ⟨ho, hfits, hcode⟩ := h.backed b o hback
  obtain ⟨htype, hpages⟩ := hw b o hback
  exact ⟨ho, hfits.mono hpages, fun hx hr => htype.trans (hcode hx hr)⟩

/-- A part of a good mapping is one. -/
theorem Ok.cut (h : m.Ok burrows) (ha : m.lo ≤ a) (hab : a < b) (hb : b ≤ m.hi)
    (hal : Aligned a) (hbl : Aligned b) : (m.cut a b).Ok burrows := by
  refine ⟨hab, hal, hbl, h.prot, h.ceiling, fun hback => h.guard ?_, fun w o hback => ?_⟩
  · exact Option.map_eq_none_iff.mp hback
  · obtain ⟨⟨w', o'⟩, hm, heq⟩ := Option.map_eq_some_iff.mp hback
    cases heq
    obtain ⟨ho, hfits, hcode⟩ := h.backed w' o' hm
    exact ⟨ho.add (hal.sub h.alignedLo), hfits.cut (burrows w').fits ha hab.le hb, hcode⟩

/-- `reprotect_mergeable`: one window of one Burrow at one prot. -/
structure Mergeable (x y : Mapping) : Prop where
  backed : x.back ≠ none
  meet : x.hi = y.lo
  prot : x.prot = y.prot
  flags : x.flags = y.flags
  own : x.flags &&& vmaFlagSharedIn = 0
  byte : x.byteAt x.hi = y.back

/-- The two in one. -/
def join (x y : Mapping) : Mapping := { x with hi := y.hi }

theorem Mergeable.joins (h : x.Mergeable y) : pieces.Joins x y (x.join y) where
  meet := h.meet
  lo := rfl
  hi := rfl
  left := fun _ _ => rfl
  right := fun va _ => by
    have hbyte : x.byteAt va = y.byteAt va := by
      rw [byteAt, byteAt, ← h.byte, byteAt, Option.map_map, ← h.meet]
      congr 1
      funext w
      simp only [Function.comp_apply, Prod.mk.injEq, true_and]
      grind
    change Entry.mk (x.byteAt va) x.prot x.flags = ⟨y.byteAt va, y.prot, y.flags⟩
    rw [hbyte, h.prot, h.flags]

theorem Ok.join (hx : x.Ok burrows) (hy : y.Ok burrows) (h : x.Mergeable y) :
    (x.join y).Ok burrows := by
  have hlt : x.lo < y.hi := hx.nonempty.trans (h.meet.trans_lt hy.nonempty)
  refine ⟨hlt, hx.alignedLo, hy.alignedHi, hx.prot, hx.ceiling, hx.guard, fun b o hback => ?_⟩
  obtain ⟨ho, hfits, hcode⟩ := hx.backed b o hback
  have hyback : y.back = some (b, o + (x.hi - x.lo)) := by
    rw [← h.byte, byteAt, show x.back = some (b, o) from hback]
    rfl
  have hyfits := (hy.backed b _ hyback).2.1
  rw [← h.meet] at hyfits
  refine ⟨ho, hfits.join hyfits (burrows b).fits rfl hx.nonempty.le ?_, hcode⟩
  exact h.meet.le.trans hy.nonempty.le

end Mapping

theorem mergeable_iff {a b : Vma} :
    AddrSpace.reprotectMergeable a b ↔ a.mapping.Mergeable b.mapping := by
  constructor
  · rintro ⟨ha, -, hab, hmeet, hprot, hflags, hown, hoff⟩
    obtain ⟨w, hw⟩ := Option.ne_none_iff_exists'.mp ha
    refine ⟨?_, hmeet, hprot, hflags, hown, ?_⟩
    · simp [Vma.mapping, hw]
    · simp only [Mapping.byteAt, Vma.mapping, hw, ← hab, Option.map_some]
      rw [hoff]
  · rintro ⟨hback, hmeet, hprot, hflags, hown, hbyte⟩
    obtain ⟨w, hw⟩ : ∃ w, a.burrow = some w :=
      Option.ne_none_iff_exists'.mp fun h => hback (by simp [Vma.mapping, h])
    simp only [Vma.mapping, hw] at hbyte
    obtain ⟨w', hw', heq⟩ := Option.map_eq_some_iff.mp hbyte.symm
    obtain ⟨rfl, hoff⟩ := Prod.mk.inj heq
    exact ⟨by simp [hw], by simp [hw'], hw.trans hw'.symm, hmeet, hprot, hflags, hown, hoff.symm⟩

/-- A mapping without its head: start and offset move. -/
def Vma.dropHead (m : Vma) (c : UInt64) : Vma :=
  { m with vaddrStart := c, burrowOffset := m.burrowOffset + (c - m.vaddrStart) }

/-- The mapping without its tail. -/
def Vma.dropTail (m : Vma) (c : UInt64) : Vma := { m with vaddrEnd := c }

theorem Vma.mapping_dropHead (m : Vma) (c : UInt64) :
    (m.dropHead c).mapping = m.mapping.cut c m.vaddrEnd := by
  simp only [mapping, Mapping.cut, Mapping.byteAt, Option.map_map]
  rfl

theorem Vma.mapping_dropTail (m : Vma) (c : UInt64) :
    (m.dropTail c).mapping = m.mapping.cut m.vaddrStart c :=
  (m.mapping.cut_lo c).symm

end Thylacine
