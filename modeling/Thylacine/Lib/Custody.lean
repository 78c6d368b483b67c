import Mathlib.Data.List.Nodup

/-!
# Custody of References

A program takes references, keeps each in one of its **slots**, and puts it again. `Balanced` says
that the books balance: no reference is in two slots, none is put twice, and one that was taken
and not put is in a slot. Some references are free: taking and putting them is not counted.

## Main results

* `Balanced.take`, `Balanced.move`, `Balanced.drop`: the moves into an empty slot, to another slot
  and out of one keep the balance.
* `Balanced.put_of_empty`: when all slots are empty, every reference that was taken has been put.
-/

namespace Custody

open Function (update update_of_ne update_self)

variable {P R : Type*} [DecidableEq P] {counted : R → Bool} {slot : P → Option R}
  {taken puts : List R} {p q : P} {r : R}

/-- References `taken` and `puts` back, against those in slots. -/
structure Balanced (counted : R → Bool) (slot : P → Option R) (taken puts : List R) : Prop where
  sole : ∀ p q r, slot p = some r → slot q = some r → p = q
  nodup : puts.Nodup
  counts : ∀ r ∈ taken, counted r = true
  sub : ∀ r ∈ puts, r ∈ taken
  out : ∀ r ∈ taken, r ∈ puts ∨ ∃ p, slot p = some r
  kept : ∀ p r, slot p = some r → counted r = true → r ∈ taken ∧ r ∉ puts

/-- The list with the reference, if counted. -/
def book (counted : R → Bool) (r : R) (l : List R) : List R := if counted r then r :: l else l

theorem mem_book {x : R} {l : List R} : x ∈ book counted r l ↔ (x = r ∧ counted r) ∨ x ∈ l := by
  unfold book
  split
  · simp_all
  · simp_all

/-- What is in a slot after one slot is emptied. -/
theorem update_none_eq_some : update slot p none q = some r ↔ q ≠ p ∧ slot q = some r := by
  rcases eq_or_ne q p with rfl | hqp
  · simp
  · simp [hqp]

/-- What is in a slot after one slot is filled. -/
theorem update_some_eq_some {x : R} :
    update slot p (some r) q = some x ↔ (q = p ∧ x = r) ∨ (q ≠ p ∧ slot q = some x) := by
  rcases eq_or_ne q p with rfl | hqp
  · simp [eq_comm]
  · simp [hqp]

omit [DecidableEq P] in
theorem balanced_empty (counted : R → Bool) : Balanced counted (fun _ : P => none) [] [] where
  sole := fun _ _ _ h => nomatch h
  nodup := List.nodup_nil
  counts := fun _ h => nomatch h
  sub := fun _ h => nomatch h
  out := fun _ h => nomatch h
  kept := fun _ _ h => nomatch h

omit [DecidableEq P] in
/-- With all slots **empty**, every reference taken was put. -/
theorem Balanced.put_of_empty (h : Balanced counted slot taken puts) (hempty : ∀ p, slot p = none) :
    ∀ r ∈ taken, r ∈ puts := by
  intro r hr
  rcases h.out r hr with hput | ⟨p, hp⟩
  · exact hput
  · rw [hempty p] at hp
    cases hp

section

variable (h : Balanced counted slot taken puts)
include h

/-- A fresh reference goes into an empty slot. -/
theorem Balanced.take (hp : slot p = none) (htaken : r ∉ taken) (hslot : ∀ q, slot q ≠ some r) :
    Balanced counted (update slot p (some r)) (book counted r taken) puts where
  sole := by
    intro q q' x hq hq'
    rcases update_some_eq_some.mp hq with ⟨hqp, rfl⟩ | ⟨-, hq⟩ <;>
      rcases update_some_eq_some.mp hq' with ⟨hqp', hx⟩ | ⟨-, hq'⟩
    · rw [hqp, hqp']
    · exact absurd hq' (hslot q')
    · exact absurd (hx ▸ hq) (hslot q)
    · exact h.sole q q' x hq hq'
  nodup := h.nodup
  counts := by
    intro x hx
    rcases mem_book.mp hx with ⟨rfl, hc⟩ | hx
    · exact hc
    · exact h.counts x hx
  sub := fun x hx => mem_book.mpr (.inr (h.sub x hx))
  out := by
    intro x hx
    rcases mem_book.mp hx with ⟨rfl, -⟩ | hx
    · exact .inr ⟨p, update_self ..⟩
    · rcases h.out x hx with hput | ⟨q, hq⟩
      · exact .inl hput
      · refine .inr ⟨q, ?_⟩
        have hqp : q ≠ p := by
          rintro rfl
          rw [hp] at hq
          cases hq
        rw [update_of_ne hqp]
        exact hq
  kept := by
    intro q x hq hx
    rcases update_some_eq_some.mp hq with ⟨-, rfl⟩ | ⟨-, hq⟩
    · exact ⟨mem_book.mpr (.inl ⟨rfl, hx⟩), fun hput => htaken (h.sub x hput)⟩
    · obtain ⟨hin, hput⟩ := h.kept q x hq hx
      exact ⟨mem_book.mpr (.inr hin), hput⟩

/-- A reference **moves** to an empty slot. -/
theorem Balanced.move (hp : slot p = some r) (hq : slot q = none) :
    Balanced counted (update (update slot p none) q (some r)) taken puts := by
  -- what is in a slot afterwards was in a slot before
  have hback : ∀ k x, update (update slot p none) q (some r) k = some x →
      (k = q ∧ x = r) ∨ (k ≠ q ∧ k ≠ p ∧ slot k = some x) := by
    intro k x hk
    rcases update_some_eq_some.mp hk with hnew | ⟨hkq, hold⟩
    · exact .inl hnew
    · exact .inr ⟨hkq, update_none_eq_some.mp hold⟩
  constructor
  case sole =>
    intro k k' x hk hk'
    rcases hback k x hk with ⟨hkq, rfl⟩ | ⟨-, hkp, hold⟩ <;>
      rcases hback k' x hk' with ⟨hkq', hx⟩ | ⟨-, hkp', hold'⟩
    · rw [hkq, hkq']
    · exact absurd (h.sole _ _ _ hold' hp) hkp'
    · subst hx
      exact absurd (h.sole _ _ _ hold hp) hkp
    · exact h.sole _ _ _ hold hold'
  case nodup => exact h.nodup
  case counts => exact h.counts
  case sub => exact h.sub
  case out =>
    intro x hx
    rcases h.out x hx with hput | ⟨k, hk⟩
    · exact .inl hput
    refine .inr ?_
    rcases eq_or_ne k p with rfl | hkp
    · rw [hp] at hk
      cases hk
      exact ⟨q, update_self ..⟩
    · refine ⟨k, ?_⟩
      have hkq : k ≠ q := by
        rintro rfl
        rw [hq] at hk
        cases hk
      rw [update_of_ne hkq, update_of_ne hkp]
      exact hk
  case kept =>
    intro k x hk hx
    rcases hback k x hk with ⟨-, rfl⟩ | ⟨-, -, hk⟩
    · exact h.kept p x hp hx
    · exact h.kept k x hk hx

/-- A reference is **put** out of its slot. -/
theorem Balanced.drop (hp : slot p = some r) :
    Balanced counted (update slot p none) taken (book counted r puts) := by
  constructor
  case sole =>
    intro k k' x hk hk'
    exact h.sole _ _ _ (update_none_eq_some.mp hk).2 (update_none_eq_some.mp hk').2
  case nodup =>
    unfold book
    split
    · next hc => exact List.nodup_cons.mpr ⟨(h.kept p r hp hc).2, h.nodup⟩
    · exact h.nodup
  case counts => exact h.counts
  case sub =>
    intro x hx
    rcases mem_book.mp hx with ⟨rfl, hc⟩ | hx
    · exact (h.kept p x hp hc).1
    · exact h.sub x hx
  case out =>
    intro x hx
    rcases h.out x hx with hput | ⟨k, hk⟩
    · exact .inl (mem_book.mpr (.inr hput))
    rcases eq_or_ne k p with rfl | hkp
    · rw [hp] at hk
      cases hk
      exact .inl (mem_book.mpr (.inl ⟨rfl, h.counts r hx⟩))
    · exact .inr ⟨k, by rw [update_of_ne hkp]; exact hk⟩
  case kept =>
    intro k x hk hx
    obtain ⟨hkp, hk⟩ := update_none_eq_some.mp hk
    obtain ⟨hin, hput⟩ := h.kept k x hk hx
    refine ⟨hin, fun hmem => ?_⟩
    rcases mem_book.mp hmem with ⟨rfl, -⟩ | hmem
    · exact hkp (h.sole _ _ _ hk hp)
    · exact hput hmem

end

end Custody
