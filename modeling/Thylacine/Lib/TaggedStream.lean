import Mathlib.Data.List.Basic

/-!
# Tagged Streams

A stream that several writers append to, each element with the writer's tag. `elemsOf t` is what
one writer has put in. The writer's elements are `OneBlock` if nothing of another writer stands
between them, and `AtEnd` if nothing stands behind them either.

## Main results

* `AtEnd.append`: a writer whose block is at the end can go on with it.
* `OneBlock.append`: a block stays one when the others append.
-/

namespace TaggedStream

open List

variable {τ α : Type*} {t u : τ} {l l' : List (τ × α)} {xs ys : List α}

/-- A block of one writer. -/
def tagged (t : τ) (xs : List α) : List (τ × α) := xs.map (Prod.mk t)

/-- The elements of `t` are **contiguous**. -/
def OneBlock (t : τ) (l : List (τ × α)) : Prop :=
  ∃ pre xs post, l = pre ++ tagged t xs ++ post ∧ (∀ x ∈ pre, x.1 ≠ t) ∧ ∀ x ∈ post, x.1 ≠ t

/-- The elements of `t` are contiguous and the **last**. -/
def AtEnd (t : τ) (l : List (τ × α)) : Prop :=
  ∃ pre xs, l = pre ++ tagged t xs ∧ ∀ x ∈ pre, x.1 ≠ t

@[simp] theorem tagged_nil : tagged t ([] : List α) = [] := rfl

@[simp] theorem map_snd_tagged : (tagged t xs).map Prod.snd = xs := by
  simp [tagged, Function.comp_def]

theorem ne_of_mem_tagged (h : u ≠ t) {x : τ × α} (hx : x ∈ tagged u xs) : x.1 ≠ t := by
  obtain ⟨a, -, rfl⟩ := mem_map.mp hx
  exact h

theorem AtEnd.oneBlock (h : AtEnd t l) : OneBlock t l := by
  obtain ⟨pre, xs, rfl, hpre⟩ := h
  exact ⟨pre, xs, [], (append_nil _).symm, hpre, nofun⟩

/-- A writer with the block at the end **goes on** with it. -/
theorem AtEnd.append (h : AtEnd t l) (ys : List α) : AtEnd t (l ++ tagged t ys) := by
  obtain ⟨pre, xs, rfl, hpre⟩ := h
  exact ⟨pre, xs ++ ys, by simp [tagged], hpre⟩

/-- The others' appends leave a block **whole**. -/
theorem OneBlock.append (h : OneBlock t l) (hu : u ≠ t) (ys : List α) :
    OneBlock t (l ++ tagged u ys) := by
  obtain ⟨pre, xs, post, rfl, hpre, hpost⟩ := h
  refine ⟨pre, xs, post ++ tagged u ys, append_assoc .., hpre, ?_⟩
  exact forall_mem_append.mpr ⟨hpost, fun _ => ne_of_mem_tagged hu⟩

/-! ### One writer's elements -/

variable [DecidableEq τ]

/-- What the writer `t` has put into the stream. -/
def elemsOf (t : τ) (l : List (τ × α)) : List α := (l.filter fun x => x.1 = t).map Prod.snd

@[simp] theorem elemsOf_append : elemsOf t (l ++ l') = elemsOf t l ++ elemsOf t l' := by
  simp [elemsOf]

@[simp] theorem elemsOf_tagged : elemsOf t (tagged t xs) = xs := by
  have hall : (tagged t xs).filter (fun x => x.1 = t) = tagged t xs := by
    refine filter_eq_self.mpr fun x hx => ?_
    obtain ⟨a, -, rfl⟩ := mem_map.mp hx
    exact decide_eq_true rfl
  rw [elemsOf, hall, map_snd_tagged]

theorem elemsOf_tagged_of_ne (h : u ≠ t) : elemsOf t (tagged u xs) = [] := by
  have hnone : (tagged u xs).filter (fun x => x.1 = t) = [] := by
    refine filter_eq_nil_iff.mpr fun x hx => ?_
    simpa using ne_of_mem_tagged h hx
  rw [elemsOf, hnone, map_nil]

/-- A writer with nothing in can begin its block. -/
theorem atEnd_of_elemsOf (h : elemsOf t l = []) : AtEnd t l := by
  refine ⟨l, [], (append_nil l).symm, fun x hx hxt => ?_⟩
  have hnil : l.filter (fun x => x.1 = t) = [] := map_eq_nil_iff.mp h
  exact filter_eq_nil_iff.mp hnil x hx (decide_eq_true hxt)

end TaggedStream
