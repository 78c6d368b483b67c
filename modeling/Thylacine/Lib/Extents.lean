import Mathlib.Algebra.GroupWithZero.Nat
import Mathlib.Algebra.Order.BigOperators.Group.Finset
import Mathlib.Order.Interval.Finset.Nat

/-!
# Extents

Things that occupy a half-open interval of the naturals, in a list.

## Main results

* `sum_length_le`: if no two of them meet, their lengths add up to at most the room they are in.
-/

namespace Extents

variable {α : Type*} (lo hi : α → ℕ)

/-- The extents do not meet: one **ends** before the other begins. -/
def Apart (x y : α) : Prop := hi x ≤ lo y ∨ hi y ≤ lo x

instance (x y : α) : Decidable (Apart lo hi x y) := inferInstanceAs (Decidable (_ ∨ _))

variable {lo hi} {x y : α} {xs : List α} {n p : ℕ}

/-- No point is in two extents that are apart. -/
theorem Apart.not_mem (h : Apart lo hi x y) (hx : lo x ≤ p ∧ p < hi x) :
    ¬(lo y ≤ p ∧ p < hi y) := by
  rintro ⟨hlo, hhi⟩
  rcases h with h | h
  · omega
  · omega

/-- The points that are in some extent of the list. -/
def cover (lo hi : α → ℕ) (xs : List α) : Finset ℕ :=
  xs.foldr (fun x s => Finset.Ico (lo x) (hi x) ∪ s) ∅

theorem mem_cover : p ∈ cover lo hi xs ↔ ∃ x ∈ xs, lo x ≤ p ∧ p < hi x := by
  induction xs with
  | nil => simp [cover]
  | cons x xs ih =>
    rw [cover, List.foldr_cons, Finset.mem_union, Finset.mem_Ico]
    rw [cover] at ih
    rw [ih, List.exists_mem_cons_iff]

/-- Extents that do not meet are **counted once** each. -/
theorem card_cover (h : xs.Pairwise (Apart lo hi)) :
    (cover lo hi xs).card = (xs.map fun x => hi x - lo x).sum := by
  induction xs with
  | nil => rfl
  | cons x xs ih =>
    obtain ⟨hx, hxs⟩ := List.pairwise_cons.mp h
    have hdis : Disjoint (Finset.Ico (lo x) (hi x)) (cover lo hi xs) := by
      rw [Finset.disjoint_left]
      intro p hp hcov
      obtain ⟨y, hy, hmem⟩ := mem_cover.mp hcov
      exact (hx y hy).not_mem (Finset.mem_Ico.mp hp) hmem
    calc (cover lo hi (x :: xs)).card
        = (Finset.Ico (lo x) (hi x)).card + (cover lo hi xs).card :=
          Finset.card_union_of_disjoint hdis
      _ = ((x :: xs).map fun x => hi x - lo x).sum := by
          rw [ih hxs, Nat.card_Ico, List.map_cons, List.sum_cons]

/-- Disjoint extents below `n` have **total length** at most `n`. -/
theorem sum_length_le (h : xs.Pairwise (Apart lo hi)) (hn : ∀ x ∈ xs, hi x ≤ n) :
    (xs.map fun x => hi x - lo x).sum ≤ n := by
  rw [← card_cover h]
  have hsub : cover lo hi xs ⊆ Finset.range n := by
    intro p hp
    obtain ⟨x, hx, -, hlt⟩ := mem_cover.mp hp
    exact Finset.mem_range.mpr (hlt.trans_le (hn x hx))
  simpa using Finset.card_le_card hsub

end Extents
