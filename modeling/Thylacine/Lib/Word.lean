import Mathlib.Order.Defs.LinearOrder
import Mathlib.Algebra.Group.Nat.Defs

/-!
# Machine Words as Addresses

The order of the 64-bit words, sums that do not wrap around, and alignment to a page of `4096`
bytes.
-/

namespace Word

variable {a b c l : UInt64}

instance linearOrder : LinearOrder UInt64 where
  le_refl := UInt64.le_refl
  le_trans := fun _ _ _ => UInt64.le_trans
  lt_iff_le_not_ge := fun a b => by
    rw [UInt64.lt_iff_toNat_lt, UInt64.le_iff_toNat_le, UInt64.le_iff_toNat_le]
    omega
  le_antisymm := fun _ _ => UInt64.le_antisymm
  le_total := UInt64.le_total
  toDecidableLE := fun a b => inferInstanceAs (Decidable (a ≤ b))
  toDecidableLT := fun a b => inferInstanceAs (Decidable (a < b))

/-- A sum not below its first term has not wrapped. -/
theorem toNat_add_of_le (h : a ≤ a + l) : (a + l).toNat = a.toNat + l.toNat := by
  have hl := l.toNat_lt
  rw [UInt64.le_iff_toNat_le, UInt64.toNat_add] at h
  rw [UInt64.toNat_add]
  omega

theorem toNat_pos (h : a ≠ 0) : 0 < a.toNat :=
  Nat.pos_of_ne_zero fun h0 => h (UInt64.toNat_inj.mp h0)

theorem lt_add_of_ne_zero (h : a ≤ a + l) (hl : l ≠ 0) : a < a + l := by
  have hpos := toNat_pos hl
  rw [UInt64.lt_iff_toNat_lt, toNat_add_of_le h]
  omega

/-- The bytes of a page offset. -/
def pageMask : UInt64 := 4095

def Aligned (a : UInt64) : Prop := a &&& pageMask = 0

instance : DecidablePred Aligned := fun _ => inferInstanceAs (Decidable (_ = _))

theorem aligned_iff : Aligned a ↔ a.toNat % 4096 = 0 := by
  rw [Aligned, ← UInt64.toNat_inj, UInt64.toNat_and]
  have hmask : pageMask.toNat = 2 ^ 12 - 1 := rfl
  rw [hmask, Nat.and_two_pow_sub_one_eq_mod]
  rfl

theorem Aligned.add (ha : Aligned a) (hb : Aligned b) : Aligned (a + b) := by
  rw [aligned_iff] at *
  rw [UInt64.toNat_add]
  omega

theorem Aligned.sub (ha : Aligned a) (hb : Aligned b) : Aligned (a - b) := by
  rw [aligned_iff] at *
  rw [UInt64.toNat_sub]
  omega

end Word
