import Mathlib.Data.List.Basic

/-!
# Sequence-Numbered Event Logs

A counter of fixed width that every event advances, and a ring of the names of the last `size`
events. A reader keeps the counter as it stood when its work began and asks later whether a
name was logged since (`hits`): a window wider than the ring counts as a hit, because the ring
no longer has its events.

## Main results

* `hits_push_self`, `hits_push`, `hits_skip`: below the wrap of the counter an event is a hit, and
  stays one through every later event.
-/

namespace SeqLog

/-- The length of the ring, and the counter's modulus. -/
structure Shape where
  size : ℕ
  modulus : ℕ

structure Log (α : Type*) where
  gen : ℕ
  ring : ℕ → α

variable {α : Type*} {σ : Shape} {l : Log α} {seq0 : ℕ} {a b : α}

namespace Log

/-- Log an event. -/
def push (σ : Shape) (l : Log α) (a : α) : Log α :=
  let gen := (l.gen + 1) % σ.modulus
  { gen, ring := Function.update l.ring (gen % σ.size) a }

/-- Move the counter past all that the ring can tell. -/
def skip (σ : Shape) (l : Log α) : Log α :=
  { l with gen := (l.gen + (σ.size + 1)) % σ.modulus }

/-- Was `a` logged after the counter stood at `seq0`? -/
def hits [DecidableEq α] (σ : Shape) (l : Log α) (seq0 : ℕ) (a : α) : Bool :=
  let n := (l.gen + (σ.modulus - seq0)) % σ.modulus
  let first := (seq0 + 1) % σ.modulus
  if n = 0 then false
  else if σ.size < n then true
  else (List.range' first (l.gen + 1 - first)).any fun s => l.ring (s % σ.size) == a

theorem push_gen (h : l.gen + 1 < σ.modulus) : (l.push σ a).gen = l.gen + 1 := Nat.mod_eq_of_lt h

theorem skip_gen (h : l.gen + (σ.size + 1) < σ.modulus) : (l.skip σ).gen = l.gen + (σ.size + 1) :=
  Nat.mod_eq_of_lt h

theorem push_ring (h : l.gen + 1 < σ.modulus) :
    (l.push σ a).ring = Function.update l.ring ((l.gen + 1) % σ.size) a := by
  rw [push, Nat.mod_eq_of_lt h]

variable [DecidableEq α]

variable (hseq : seq0 ≤ l.gen)
include hseq

/-- Below the wrap a hit is a **window too wide**, or a cell with the name. -/
theorem hits_iff (hgen : l.gen < σ.modulus) : l.hits σ seq0 a = true ↔
      σ.size < l.gen - seq0 ∨ ∃ s, seq0 < s ∧ s ≤ l.gen ∧ l.ring (s % σ.size) = a := by
  have hn : (l.gen + (σ.modulus - seq0)) % σ.modulus = l.gen - seq0 := by
    rw [show l.gen + (σ.modulus - seq0) = l.gen - seq0 + σ.modulus by omega,
      Nat.add_mod_right, Nat.mod_eq_of_lt (by omega)]
  rw [hits, hn]
  by_cases heq : l.gen - seq0 = 0
  · rw [if_pos heq]
    constructor
    · exact fun h => absurd h Bool.false_ne_true
    · rintro (h | ⟨s, hs, hle, -⟩) <;> omega
  rw [if_neg heq, Nat.mod_eq_of_lt (show seq0 + 1 < σ.modulus by omega)]
  by_cases hwide : σ.size < l.gen - seq0
  · rw [if_pos hwide]
    exact iff_of_true rfl (.inl hwide)
  · rw [if_neg hwide, List.any_eq_true]
    constructor
    · rintro ⟨s, hs, ha⟩
      rw [List.mem_range'_1] at hs
      exact .inr ⟨s, by omega, by omega, beq_iff_eq.mp ha⟩
    · rintro (h | ⟨s, hs, hle, ha⟩)
      · exact absurd h hwide
      · exact ⟨s, List.mem_range'_1.mpr (by omega), beq_iff_eq.mpr ha⟩

/-- An event is a hit for every window open before it. -/
theorem hits_push_self (hgen : l.gen + 1 < σ.modulus) : (l.push σ a).hits σ seq0 a = true := by
  have hpush : (l.push σ a).gen = l.gen + 1 := push_gen hgen
  refine (hits_iff (by omega) (by omega)).mpr (.inr ⟨l.gen + 1, by omega, by omega, ?_⟩)
  rw [push_ring hgen, Function.update_self]

/-- A hit **stays** one: without its cell the window is too wide. -/
theorem hits_push (hgen : l.gen + 1 < σ.modulus) (h : l.hits σ seq0 a = true) :
    (l.push σ b).hits σ seq0 a = true := by
  have hpush : (l.push σ b).gen = l.gen + 1 := push_gen hgen
  rw [hits_iff (by omega) (by omega)]
  obtain hwide | ⟨s, hs, hle, ha⟩ := (hits_iff hseq (by omega)).mp h
  · exact .inl (by omega)
  by_cases hcell : s % σ.size = (l.gen + 1) % σ.size
  · have hdvd : σ.size ∣ l.gen + 1 - s :=
      Nat.dvd_of_mod_eq_zero (Nat.sub_mod_eq_zero_of_mod_eq hcell.symm)
    have hsize := Nat.le_of_dvd (by omega) hdvd
    exact .inl (by omega)
  · refine .inr ⟨s, hs, by omega, ?_⟩
    rw [push_ring hgen, Function.update_of_ne hcell, ha]

/-- After a skip every window that was open is a hit. -/
theorem hits_skip (hgen : l.gen + (σ.size + 1) < σ.modulus) : (l.skip σ).hits σ seq0 a = true := by
  have hskip : (l.skip σ).gen = l.gen + (σ.size + 1) := skip_gen hgen
  refine (hits_iff (by omega) (by omega)).mpr (.inl ?_)
  omega

end Log

end SeqLog
