import Mathlib.Data.List.Basic

/-!
# Ring Buffers

A buffer of `size` cells, used as a queue: `tail` is the cell that is read next, `head` the cell
that is written next, and `count` the number of elements in between. A block is written or read
in two segments, one up to the end of the buffer and one from its start. `contents` is the queue
that a ring stands for.

## Main results

* `contents_push`: a block that fits is appended to it.
* `contents_eq_pop`: a block that is there is taken from its front.
-/

namespace RingBuffer

variable {α : Type*}

structure Ring (α : Type*) where
  count : ℕ
  head : ℕ
  tail : ℕ
  buf : ℕ → α

/-! ### Copying -/

/-- The first `n` elements of `src`, copied to the cells from `pos`. -/
def copyIn (buf : ℕ → α) (pos : ℕ) (src : ℕ → α) : ℕ → ℕ → α
  | 0 => buf
  | n + 1 => Function.update (copyIn buf pos src n) (pos + n) (src n)

theorem copyIn_apply (buf : ℕ → α) (pos : ℕ) (src : ℕ → α) (n k : ℕ) :
    copyIn buf pos src n k = if pos ≤ k ∧ k < pos + n then src (k - pos) else buf k := by
  induction n with
  | zero => rw [copyIn, if_neg (by omega)]
  | succ n ih =>
    rw [copyIn, Function.update_apply, ih]
    by_cases hk : k = pos + n
    · rw [if_pos hk, if_pos (by omega), hk, Nat.add_sub_cancel_left]
    · rw [if_neg hk]
      exact if_congr (by omega) rfl rfl

/-- The first `n` elements of `src`. -/
def slice (src : ℕ → α) (n : ℕ) : List α := (List.range n).map src

@[simp] theorem length_slice (src : ℕ → α) (n : ℕ) : (slice src n).length = n := by
  rw [slice, List.length_map, List.length_range]

theorem slice_congr {src src' : ℕ → α} {n : ℕ} (h : ∀ i < n, src i = src' i) :
    slice src n = slice src' n :=
  List.map_congr_left fun i hi => h i (List.mem_range.mp hi)

theorem slice_add (src : ℕ → α) (m n : ℕ) :
    slice src (m + n) = slice src m ++ slice (fun i => src (m + i)) n := by
  rw [slice, List.range_add, List.map_append, List.map_map]
  rfl

theorem slice_split (src : ℕ → α) (m n : ℕ) :
    slice src (m + (1 + n)) = slice src m ++ src m :: slice (fun i => src (m + (1 + i))) n := by
  rw [slice_add, slice_add]
  rfl

/-! ### Blocks -/

namespace Ring

variable (size : ℕ)

/-- Write a block of `k` elements. -/
def push (r : Ring α) (src : ℕ → α) (k : ℕ) : Ring α :=
  let first := min (size - r.head) k
  { r with
    buf := copyIn (copyIn r.buf r.head src first) 0 (fun i => src (first + i)) (k - first)
    head := (r.head + k) % size
    count := r.count + k }

/-- Read a block of `k` elements. -/
def pop (r : Ring α) (k : ℕ) : Ring α × List α :=
  let first := min (size - r.tail) k
  ({ r with tail := (r.tail + k) % size, count := r.count - k },
    slice (fun i => r.buf (r.tail + i)) first ++ slice r.buf (k - first))

/-- The elements of the queue, the next one first. -/
def contents (r : Ring α) : List α := slice (fun i => r.buf ((r.tail + i) % size)) r.count

/-- The three positions fit together. -/
structure Ok (r : Ring α) : Prop where
  count_le : r.count ≤ size
  tail_lt : r.tail < size
  head_eq : r.head = (r.tail + r.count) % size

variable {size} {r : Ring α} {k : ℕ}

@[simp] theorem length_contents (r : Ring α) : (r.contents size).length = r.count := length_slice ..

theorem mod_eq_ite {a : ℕ} (h : a < 2 * size) : a % size = if a < size then a else a - size := by
  split_ifs with hlt
  · exact Nat.mod_eq_of_lt hlt
  · rw [Nat.mod_eq_sub_mod (by omega), Nat.mod_eq_of_lt (by omega)]

theorem Ok.push (h : r.Ok size) (hk : r.count + k ≤ size) (src : ℕ → α) :
    (r.push size src k).Ok size where
  count_le := hk
  tail_lt := h.tail_lt
  head_eq := by
    change (r.head + k) % size = (r.tail + (r.count + k)) % size
    rw [h.head_eq, Nat.mod_add_mod, Nat.add_assoc]

/-- A block that **fits** is appended. -/
theorem contents_push (h : r.Ok size) (hk : r.count + k ≤ size) (src : ℕ → α) :
    (r.push size src k).contents size = r.contents size ++ slice src k := by
  have hhead := h.head_eq
  have htail := h.tail_lt
  rw [mod_eq_ite (by omega)] at hhead
  change slice _ (r.count + k) = _
  rw [slice_add]
  congr 1
  · -- the cells of the old elements are not written
    refine slice_congr fun i hi => ?_
    simp only [push, copyIn_apply]
    rw [mod_eq_ite (by omega)]
    split_ifs at hhead ⊢ <;> first | rfl | omega
  · -- the new ones lie from `head` on, and go round once at most
    refine slice_congr fun i hi => ?_
    simp only [push, copyIn_apply]
    rw [mod_eq_ite (by omega)]
    split_ifs at hhead ⊢ <;> first | omega | (congr 1; omega)

theorem Ok.pop (h : r.Ok size) (hk : k ≤ r.count) : (r.pop size k).1.Ok size where
  count_le := Nat.le_trans (Nat.sub_le ..) h.count_le
  tail_lt := Nat.mod_lt _ (Nat.zero_lt_of_lt h.tail_lt)
  head_eq := by
    change r.head = ((r.tail + k) % size + (r.count - k)) % size
    rw [h.head_eq, Nat.mod_add_mod]
    congr 1
    omega

/-- A block that is **there** is what is read. -/
theorem contents_eq_pop (h : r.Ok size) (hk : k ≤ r.count) :
    r.contents size = (r.pop size k).2 ++ (r.pop size k).1.contents size := by
  have htail := h.tail_lt
  have hcount := h.count_le
  rw [contents]
  conv_lhs => rw [← Nat.add_sub_cancel' hk, slice_add]
  congr 1
  · conv_lhs => rw [← Nat.add_sub_cancel' (Nat.min_le_right (size - r.tail) k), slice_add]
    congr 1
    · refine slice_congr fun i hi => ?_
      rw [Nat.mod_eq_of_lt (by omega)]
    · refine slice_congr fun i hi => ?_
      rw [mod_eq_ite (by omega), if_neg (by omega)]
      congr 1
      omega
  · refine slice_congr fun i _ => ?_
    change r.buf _ = r.buf (((r.tail + k) % size + i) % size)
    rw [Nat.mod_add_mod, Nat.add_assoc]

theorem length_pop_snd : (r.pop size k).2.length = k := by
  change (slice _ _ ++ slice _ _).length = k
  rw [List.length_append, length_slice, length_slice]
  omega

end Ring

end RingBuffer
