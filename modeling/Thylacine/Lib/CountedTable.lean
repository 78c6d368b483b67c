import Mathlib.Algebra.BigOperators.Group.Finset.Piecewise

/-!
# Counted Tables

A table of entries beside counters of the entries with some property. `countIf` is what such
a counter should say.

## Main results

* `countIf_update`: writing one entry moves the count by what the old and the new entry weigh.
* `swapRemove_perm`: moving the last element of an array into the place of another removes that.
-/

namespace CountedTable

open List
open Function (update update_of_ne)

variable {ι α : Type*} {s t : Finset ι} {p q : α → Bool} {f g : ι → α}

/-- How many entries of `f` over `s` have the property `p`. -/
def countIf (s : Finset ι) (p : α → Bool) (f : ι → α) : ℕ := (s.filter fun i => p (f i)).card

theorem countIf_eq_sum (s : Finset ι) (p : α → Bool) (f : ι → α) :
    countIf s p f = ∑ i ∈ s, (p (f i)).toNat := by
  rw [countIf, Finset.card_filter]
  refine Finset.sum_congr rfl fun i _ => ?_
  cases p (f i) <;> rfl

theorem countIf_congr (h : ∀ i ∈ s, p (f i) = q (g i)) : countIf s p f = countIf s q g := by
  exact congrArg Finset.card (Finset.filter_congr fun i hi => by rw [h i hi])

theorem countIf_eq_zero : countIf s p f = 0 ↔ ∀ i ∈ s, p (f i) = false := by simp [countIf]

theorem countIf_pos {i : ι} (hi : i ∈ s) (hp : p (f i) = true) : 0 < countIf s p f := by
  rw [countIf, Finset.card_pos]
  exact ⟨i, Finset.mem_filter.mpr ⟨hi, hp⟩⟩

theorem countIf_le_of_imp (h : ∀ a, p a = true → q a = true) : countIf s p f ≤ countIf s q f :=
  Finset.card_le_card (Finset.monotone_filter_right s fun _ _ => h _)

/-- Indices whose entries do not count may be added. -/
theorem countIf_of_subset (hst : s ⊆ t) (h : ∀ i ∈ t, i ∉ s → p (f i) = false) :
    countIf t p f = countIf s p f := by
  rw [countIf]
  congr 1
  ext i
  simp only [Finset.mem_filter]
  refine ⟨fun ⟨hi, hp⟩ => ⟨?_, hp⟩, fun ⟨hi, hp⟩ => ⟨hst hi, hp⟩⟩
  by_contra hs
  rw [h i hi hs] at hp
  cases hp

variable [DecidableEq ι]

/-- **Writing an entry** moves the count by the weights. -/
theorem countIf_update {i : ι} (hi : i ∈ s) (p : α → Bool) (f : ι → α) (a : α) :
    countIf s p (update f i a) + (p (f i)).toNat = countIf s p f + (p a).toNat := by
  have hrest : ∑ j ∈ s.erase i, (p (update f i a j)).toNat = ∑ j ∈ s.erase i, (p (f j)).toNat := by
    refine Finset.sum_congr rfl fun j hj => ?_
    rw [update_of_ne (Finset.ne_of_mem_erase hj)]
  rw [countIf_eq_sum, countIf_eq_sum, ← Finset.add_sum_erase _ _ hi, ← Finset.add_sum_erase _ (fun j => (p (f j)).toNat) hi, Function.update_self]
  omega

/-- A counter moved by those weights **stays right**. -/
theorem countIf_update_eq {i : ι} (hi : i ∈ s) (p : α → Bool) (f : ι → α) (a : α) {n : ℕ}
    (hn : n = countIf s p f) :
    n + (p a).toNat - (p (f i)).toNat = countIf s p (update f i a) := by
  have h := countIf_update hi p f a
  omega

theorem countIf_update_of_notMem {i : ι} (hi : i ∉ s) (p : α → Bool) (f : ι → α) (a : α) :
    countIf s p (update f i a) = countIf s p f := by
  refine countIf_congr fun j hj => ?_
  rw [update_of_ne]
  rintro rfl
  exact hi hj

/-- A sum changes as its one changed summand. -/
theorem sum_sub_of_ne {i : ι} (hi : i ∈ s) {u v : ι → ℤ} (h : ∀ j ∈ s, j ≠ i → v j = u j) :
    ∑ j ∈ s, v j - v i = ∑ j ∈ s, u j - u i := by
  rw [← Finset.add_sum_erase s v hi, ← Finset.add_sum_erase s u hi, add_sub_cancel_left,
    add_sub_cancel_left]
  exact Finset.sum_congr rfl fun j hj => h j (Finset.mem_of_mem_erase hj) (Finset.ne_of_mem_erase hj)

omit [DecidableEq ι] in
/-- Putting the last element in the place of `x` removes `x`. -/
theorem swapRemove_perm (front rest : List α) (x d : α) :
    (((front ++ x :: rest).set front.length ((front ++ x :: rest).getLastD d)).dropLast).Perm
      (front ++ rest) := by
  rw [set_append_right _ _ (le_refl _), Nat.sub_self, set_cons_zero]
  rcases eq_nil_or_concat rest with rfl | ⟨mid, z, rfl⟩
  · simp
  · have hlast : (front ++ x :: mid.concat z).getLastD d = z := by
      rw [concat_eq_append, ← cons_append, ← append_assoc, getLastD_concat]
    have hdrop : (front ++ z :: mid.concat z).dropLast = front ++ z :: mid := by
      rw [concat_eq_append, ← cons_append, ← append_assoc, dropLast_concat]
    rw [hlast, hdrop, concat_eq_append]
    exact Perm.append_left front (perm_append_singleton z mid).symm

/-- The same for an element found by a scan. -/
theorem swapRemove_perm_erase [DecidableEq α] {l : List α} {x : α} {i : ℕ}
    (hi : l.idxOf? x = some i) (d : α) :
    ((l.set i (l.getLastD d)).dropLast).Perm (l.erase x) := by
  obtain ⟨hlt, hget, -⟩ := idxOf?_eq_some_iff.mp hi
  have hsplit : l = l.take i ++ x :: l.drop (i + 1) := by
    rw [← hget, ← drop_eq_getElem_cons hlt, take_append_drop]
  have hlen : (l.take i).length = i := length_take_of_le hlt.le
  have hremove := swapRemove_perm (l.take i) (l.drop (i + 1)) x d
  rw [← hsplit, hlen] at hremove
  have hmem : x ∈ l := hget ▸ getElem_mem hlt
  have hcons : (x :: (l.take i ++ l.drop (i + 1))).Perm (x :: l.erase x) :=
    (perm_middle.symm.trans (.of_eq hsplit.symm)).trans (perm_cons_erase hmem)
  exact hremove.trans hcons.cons_inv

end CountedTable
