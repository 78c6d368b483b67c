import Mathlib.Data.List.Basic

/-!
# Chains of Pointers in Memory

A null-terminated singly linked list threaded through a memory of pointer words: each node
is an address, and the word at it is the next address. `Chain mem head as` says that the
chain from `head` visits exactly the addresses `as`; it depends on the words at `as` only.
-/

namespace PointerChain

variable {α : Type*}

/-- The chain from a pointer visits these addresses and ends. -/
def Chain (mem : α → Option α) : Option α → List α → Prop
  | p, [] => p = none
  | p, a :: as => p = some a ∧ Chain mem (mem a) as

/-- Follow a chain for at most `fuel` nodes. -/
def walk (mem : α → Option α) : ℕ → Option α → List α
  | 0, _ => []
  | _ + 1, none => []
  | fuel + 1, some a => a :: walk mem fuel (mem a)

variable {mem mem' : α → Option α} {p q : Option α} {as bs : List α} {a : α}

/-- A walk with enough fuel reads the chain. -/
theorem walk_eq (h : Chain mem p as) {fuel : ℕ} (hfuel : as.length ≤ fuel) :
    walk mem fuel p = as := by
  induction as generalizing p fuel with
  | nil =>
    obtain rfl : p = none := h
    cases fuel <;> rfl
  | cons a as ih =>
    obtain ⟨rfl, hrest⟩ := h
    cases fuel with
    | zero => simp at hfuel
    | succ fuel => rw [walk, ih hrest (Nat.le_of_succ_le_succ hfuel)]

theorem Chain.unique (h : Chain mem p as) (h' : Chain mem p bs) : as = bs :=
  (walk_eq h (Nat.le_max_left ..)).symm.trans (walk_eq h' (Nat.le_max_right ..))

/-! ### Segments -/

/-- The links lead from `p` through the list to `q`. -/
def Seg (mem : α → Option α) : Option α → List α → Option α → Prop
  | p, [], q => p = q
  | p, a :: as, q => p = some a ∧ Seg mem (mem a) as q

/-- A chain is a segment that ends. -/
theorem chain_iff_seg : Chain mem p as ↔ Seg mem p as none := by
  induction as generalizing p with
  | nil => exact .rfl
  | cons a as ih => exact and_congr_right fun _ => ih

theorem seg_append : Seg mem p (as ++ bs) q ↔ ∃ r, Seg mem p as r ∧ Seg mem r bs q := by
  induction as generalizing p with
  | nil => exact ⟨fun h => ⟨p, rfl, h⟩, fun ⟨r, hr, h⟩ => hr ▸ h⟩
  | cons a as ih =>
    rw [List.cons_append, Seg, ih]
    exact ⟨fun ⟨hp, r, h, h'⟩ => ⟨r, ⟨hp, h⟩, h'⟩, fun ⟨r, ⟨hp, h⟩, h'⟩ => ⟨hp, r, h, h'⟩⟩

theorem chain_append : Chain mem p (as ++ bs) ↔ ∃ r, Seg mem p as r ∧ Chain mem r bs := by
  simp only [chain_iff_seg, seg_append]

theorem Seg.congr (h : Seg mem p as q) (hag : ∀ a ∈ as, mem' a = mem a) : Seg mem' p as q := by
  induction as generalizing p with
  | nil => exact h
  | cons a as ih =>
    obtain ⟨rfl, hrest⟩ := h
    refine ⟨rfl, ?_⟩
    rw [hag a List.mem_cons_self]
    exact ih hrest fun b hb => hag b (List.mem_cons_of_mem a hb)

/-- A chain depends on the words at its nodes only. -/
theorem Chain.congr (h : Chain mem p as) (hag : ∀ a ∈ as, mem' a = mem a) : Chain mem' p as :=
  chain_iff_seg.mpr ((chain_iff_seg.mp h).congr hag)

/-- A node goes in front of a chain that misses it. -/
theorem Chain.push [DecidableEq α] (h : Chain mem p as) (ha : a ∉ as) :
    Chain (Function.update mem a p) (some a) (a :: as) := by
  refine ⟨rfl, ?_⟩
  rw [Function.update_self]
  refine h.congr fun b hb => Function.update_of_ne ?_ _ _
  rintro rfl
  exact ha hb

theorem Chain.head_eq (h : Chain mem p as) : p = as.head? := by
  cases as with
  | nil => exact h
  | cons a as => exact h.1

/-- The link of a node leads to the one after it. -/
theorem Chain.mem_eq (h : Chain mem p (as ++ a :: bs)) : mem a = bs.head? := by
  obtain ⟨r, -, -, hrest⟩ := chain_append.mp h
  exact hrest.head_eq

end PointerChain
