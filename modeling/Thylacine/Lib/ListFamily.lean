import Mathlib.Algebra.BigOperators.Group.Finset.Basic
import Mathlib.Tactic.Abel

/-!
# Families of Lists as One Multiset

Several lists, indexed by the elements of a finite set, hold between them one multiset of
items. `gather` collects it, tagging each entry with the list it is on; replacing, growing
or shrinking one list changes the multiset by the entries of that list alone.

## Main results

* `flatMap_filter_perm`: the other way round, one list is split into such a family.
-/

namespace ListFamily

open List
open Function (update update_self)

variable {ι α β : Type*} {s : Finset ι} {tag : ι → α → β} {f : ι → List α}

/-- The entries of the lists `f i`, `i ∈ s`, tagged with `i`. -/
def gather (s : Finset ι) (tag : ι → α → β) (f : ι → List α) : Multiset β :=
  ∑ i ∈ s, ((f i).map (tag i) : Multiset β)

theorem mem_gather {b : β} : b ∈ gather s tag f ↔ ∃ i ∈ s, ∃ a ∈ f i, tag i a = b := by
  simp only [gather, Multiset.mem_sum, Multiset.mem_coe, mem_map]

theorem gather_congr {g : ι → List α} (h : ∀ i ∈ s, f i = g i) :
    gather s tag f = gather s tag g := by
  exact Finset.sum_congr rfl fun i hi => by rw [h i hi]

theorem gather_nil (h : ∀ i ∈ s, f i = []) : gather s tag f = 0 := by
  exact Finset.sum_eq_zero fun i hi => by rw [h i hi]; rfl

variable [DecidableEq ι]

/-- Replacing one list exchanges its entries. -/
theorem gather_update (tag : ι → α → β) (f : ι → List α) {i : ι} (hi : i ∈ s) (l : List α) :
    gather s tag (update f i l) + ((f i).map (tag i) : Multiset β) =
      gather s tag f + (l.map (tag i) : Multiset β) := by
  have hrest : ∑ j ∈ s.erase i, ((update f i l j).map (tag j) : Multiset β) =
      ∑ j ∈ s.erase i, ((f j).map (tag j) : Multiset β) := by
    refine Finset.sum_congr rfl fun j hj => ?_
    rw [Function.update_of_ne (Finset.ne_of_mem_erase hj)]
  rw [gather, gather, ← Finset.add_sum_erase _ _ hi, hrest,
    ← Finset.add_sum_erase _ (fun j => ((f j).map (tag j) : Multiset β)) hi, update_self]
  abel

/-- One list taken out of the family. -/
theorem gather_eq_erase_add {i : ι} (hi : i ∈ s) :
    gather s tag f = gather (s.erase i) tag f + ((f i).map (tag i) : Multiset β) := by
  rw [gather, gather, Finset.sum_erase_add _ _ hi]

/-- An empty list put into the family. -/
theorem gather_insert_nil {i : ι} (hi : i ∉ s) (hf : f i = []) :
    gather (insert i s) tag f = gather s tag f := by
  rw [gather, Finset.sum_insert hi, hf]
  exact zero_add _

theorem gather_push (tag : ι → α → β) (f : ι → List α) {i : ι} (hi : i ∈ s) (a : α) :
    gather s tag (update f i (a :: f i)) = tag i a ::ₘ gather s tag f := by
  have h := gather_update tag f hi (a :: f i)
  rw [map_cons, ← Multiset.cons_coe, Multiset.add_cons, ← Multiset.cons_add] at h
  exact add_right_cancel h

theorem gather_erase [DecidableEq α] {i : ι} (hi : i ∈ s) {a : α} (ha : a ∈ f i) :
    tag i a ::ₘ gather s tag (update f i ((f i).erase a)) = gather s tag f := by
  have h := gather_update tag f hi ((f i).erase a)
  have hperm : ((f i).map (tag i) : Multiset β) = tag i a ::ₘ ((f i).erase a).map (tag i) := by
    rw [Multiset.cons_coe, Multiset.coe_eq_coe]
    exact (perm_cons_erase ha).map _
  rw [hperm, Multiset.add_cons, ← Multiset.cons_add] at h
  exact add_right_cancel h

theorem gather_pop {i : ι} (hi : i ∈ s) {a : α} {l : List α} (hl : f i = a :: l) :
    tag i a ::ₘ gather s tag (update f i l) = gather s tag f := by
  have h := gather_push tag (update f i l) hi a
  rw [update_self, Function.update_idem, ← hl, Function.update_eq_self] at h
  exact h.symm

/-- A list is made up of the parts on which `f` is constant. -/
theorem flatMap_filter_perm {is : List ι} {l : List α} (f : α → ι)
    (his : is.Nodup) (hl : l.Nodup) (hmem : ∀ a ∈ l, f a ∈ is) :
    (is.flatMap fun i => l.filter fun a => f a = i).Perm l := by
  have hnd : (is.flatMap fun i => l.filter fun a => f a = i).Nodup := by
    refine nodup_flatMap.mpr ⟨fun i _ => hl.filter _, his.imp fun hne a ha hb => ?_⟩
    exact hne ((decide_eq_true_iff.mp (mem_filter.mp ha).2).symm.trans
      (decide_eq_true_iff.mp (mem_filter.mp hb).2))
  refine (perm_ext_iff_of_nodup hnd hl).mpr fun a => ?_
  rw [mem_flatMap]
  constructor
  · rintro ⟨i, -, ha⟩
    exact (mem_filter.mp ha).1
  · exact fun ha => ⟨f a, hmem a ha, mem_filter.mpr ⟨ha, decide_eq_true rfl⟩⟩

end ListFamily
