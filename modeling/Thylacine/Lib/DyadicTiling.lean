import Mathlib.Algebra.BigOperators.Group.Finset.Piecewise
import Mathlib.Algebra.Order.BigOperators.Group.Multiset
import Mathlib.Data.Nat.Bitwise
import Mathlib.Order.Interval.Finset.Nat
import Mathlib.Tactic.Ring

/-!
# Tilings by Dyadic Blocks

A dyadic block is a run of `2 ^ order` consecutive naturals whose base is a multiple of
its length. Two dyadic blocks are nested or disjoint, and each block has one *buddy*: the
other half of the block of the next order.

In a `Tiling U B` the blocks of the multiset `B` are aligned and every cell of `U`, and no
other, lies in exactly one of them. Counting blocks with multiplicity makes this one
equation, so repetitions, overlaps and gaps are all excluded by it.

## Main results

* `Tiling.split`, `Tiling.merge`: halving a block and joining two buddies keep a tiling.
* `Tiling.sum_size`: the lengths add up to the number of cells.
* `Tiling.eq_of_coalesced`: a tiling in which no two blocks below the order cap are buddies is
  determined by the set of cells it covers.
-/

namespace Dyadic

open Multiset
open Multiset (countP_cons)

/-- A run of `2 ^ order` cells starting at `base`. -/
structure Block where
  base : ℕ
  order : ℕ
  deriving DecidableEq, Repr

namespace Block

/-- The number of cells of a block. -/
def size (b : Block) : ℕ := 2 ^ b.order

instance : Membership ℕ Block where
  mem b x := b.base ≤ x ∧ x < b.base + 2 ^ b.order

instance (x : ℕ) (b : Block) : Decidable (x ∈ b) :=
  inferInstanceAs (Decidable (b.base ≤ x ∧ x < b.base + 2 ^ b.order))

variable {k p x : ℕ} {b : Block}

theorem mem_def : x ∈ b ↔ b.base ≤ x ∧ x < b.base + 2 ^ b.order := .rfl

/-- The base of an aligned block is a multiple of its length. -/
def Aligned (b : Block) : Prop := 2 ^ b.order ∣ b.base

instance (b : Block) : Decidable b.Aligned := inferInstanceAs (Decidable (2 ^ b.order ∣ b.base))

/-- The other half of the enclosing block of the next order. -/
def buddy (b : Block) : Block := ⟨b.base ^^^ 2 ^ b.order, b.order⟩

@[simp] theorem size_mk (p k : ℕ) : (⟨p, k⟩ : Block).size = 2 ^ k := rfl

theorem base_mem (b : Block) : b.base ∈ b :=
  ⟨le_rfl, Nat.lt_add_of_pos_right (Nat.two_pow_pos b.order)⟩

/-- A cell of a block of order `k + 1` is in exactly one half. -/
theorem mem_succ_iff :
    x ∈ (⟨p, k + 1⟩ : Block) ↔ x ∈ (⟨p, k⟩ : Block) ∨ x ∈ (⟨p + 2 ^ k, k⟩ : Block) := by
  simp only [mem_def]
  omega

theorem not_mem_right_of_mem_left (h : x ∈ (⟨p, k⟩ : Block)) : x ∉ (⟨p + 2 ^ k, k⟩ : Block) := by
  simp only [mem_def] at h ⊢
  omega

/-- An aligned block of the next order has aligned halves. -/
theorem Aligned.halves (h : (⟨p, k + 1⟩ : Block).Aligned) :
    (⟨p, k⟩ : Block).Aligned ∧ (⟨p + 2 ^ k, k⟩ : Block).Aligned := by
  have hp : 2 ^ k ∣ p := (pow_dvd_pow 2 (Nat.le_succ k)).trans h
  exact ⟨hp, Nat.dvd_add hp dvd_rfl⟩

/-- A cell and an order determine an aligned block. -/
theorem Aligned.base_eq (hb : b.Aligned) (hx : x ∈ b) :
    b.base = 2 ^ b.order * (x / 2 ^ b.order) := by
  obtain ⟨q, hq⟩ := hb
  obtain ⟨h1, h2⟩ := hx
  have hdiv : x / 2 ^ b.order = q := by
    rw [Nat.div_eq_iff (Nat.two_pow_pos _)]
    have hcomm : q * 2 ^ b.order = 2 ^ b.order * q := Nat.mul_comm _ _
    omega
  rw [hdiv, hq]

/-- **Nested or disjoint**: of aligned blocks with a common cell, the lower order is inside. -/
theorem Aligned.subset {c : Block} (hb : b.Aligned) (hc : c.Aligned)
    (hle : b.order ≤ c.order) (hxb : x ∈ b) (hxc : x ∈ c) :
    ∀ y ∈ b, y ∈ c := by
  intro y hy
  have hbase := hc.base_eq hxc
  have hdiv : x / 2 ^ c.order = y / 2 ^ c.order := by
    obtain ⟨d, hd⟩ := Nat.exists_eq_add_of_le hle
    have hx := hb.base_eq hxb
    have hy' := hb.base_eq hy
    have hq : x / 2 ^ b.order = y / 2 ^ b.order :=
      Nat.eq_of_mul_eq_mul_left (Nat.two_pow_pos b.order) (hx.symm.trans hy')
    rw [hd, pow_add, ← Nat.div_div_eq_div_mul, ← Nat.div_div_eq_div_mul, hq]
  rw [hdiv] at hbase
  refine ⟨?_, ?_⟩
  · rw [hbase]
    exact Nat.mul_div_le y _
  · rw [hbase]
    exact Nat.lt_mul_div_succ y (Nat.two_pow_pos _)

/-- Aligned blocks of one order with a common cell are equal. -/
theorem Aligned.eq_of_order_eq {c : Block} (hb : b.Aligned) (hc : c.Aligned)
    (ho : b.order = c.order) (hxb : x ∈ b) (hxc : x ∈ c) : b = c := by
  have h := (hb.base_eq hxb).trans (ho ▸ (hc.base_eq hxc).symm)
  cases b
  cases c
  simp_all

/-- A block's buddy is the other half of an aligned block. -/
theorem Aligned.buddy_cases (h : (⟨p, k⟩ : Block).Aligned) :
    (2 ^ (k + 1) ∣ p ∧ p ^^^ 2 ^ k = p + 2 ^ k) ∨
      (2 ^ (k + 1) ∣ p ^^^ 2 ^ k ∧ p = (p ^^^ 2 ^ k) + 2 ^ k) := by
  obtain ⟨q, rfl⟩ : ∃ q, p = 2 ^ k * q := h
  have hxor : (2 ^ k * q) ^^^ 2 ^ k = 2 ^ k * (q ^^^ 1) := by
    have := (Nat.shiftLeft_xor_distrib (a := q) (b := 1) (i := k)).symm
    simpa [Nat.shiftLeft_eq, Nat.mul_comm] using this
  rw [hxor]
  rcases Nat.even_or_odd' q with ⟨r, rfl | rfl⟩
  · left
    rw [Nat.xor_one_of_even (by simp)]
    refine ⟨⟨r, by ring⟩, by ring⟩
  · right
    rw [Nat.xor_one_of_odd (by simp)]
    refine ⟨⟨r, ?_⟩, ?_⟩
    · rw [Nat.add_sub_cancel]
      ring
    · rw [Nat.add_sub_cancel]
      ring

@[simp] theorem buddy_buddy (b : Block) : b.buddy.buddy = b := by simp [buddy]

theorem buddy_ne (b : Block) : b.buddy ≠ b := by
  intro h
  have hb : b.base ^^^ 2 ^ b.order = b.base := congrArg base h
  have h0 : 2 ^ b.order = 0 := by
    rw [← Nat.zero_xor (2 ^ b.order), ← Nat.xor_self b.base, Nat.xor_assoc, hb]
  exact absurd h0 (Nat.two_pow_pos _).ne'

/-- The left half's buddy is the right half. -/
theorem Aligned.buddy_left (h : (⟨p, k + 1⟩ : Block).Aligned) :
    (⟨p, k⟩ : Block).buddy = ⟨p + 2 ^ k, k⟩ := by
  have hdvd : 2 ^ (k + 1) ∣ p := h
  rcases h.halves.1.buddy_cases with ⟨-, h2⟩ | ⟨h1, h2⟩
  · simp [buddy, h2]
  · exfalso
    rw [h2] at hdvd
    have hle := Nat.le_of_dvd (Nat.two_pow_pos k) ((Nat.dvd_add_right h1).mp hdvd)
    omega

/-- The right half's base sets one more bit. -/
theorem Aligned.or_eq_add (h : (⟨p, k + 1⟩ : Block).Aligned) : p ||| 2 ^ k = p + 2 ^ k := by
  obtain ⟨q, hq⟩ : 2 ^ (k + 1) ∣ p := h
  have hlt : 2 ^ k < 2 ^ (k + 1) := Nat.pow_lt_pow_succ Nat.one_lt_two
  have hor := Nat.shiftLeft_add_eq_or_of_lt hlt q
  rw [Nat.shiftLeft_eq, Nat.mul_comm, ← hq] at hor
  exact hor.symm

/-- Buddies touch: one's last cell precedes the other's first. -/
theorem Aligned.buddy_touch (h : b.Aligned) :
    (∃ x ∈ b, x + 1 ∈ b.buddy) ∨ ∃ x ∈ b.buddy, x + 1 ∈ b := by
  obtain ⟨p, k⟩ := b
  have hpos := Nat.two_pow_pos k
  rcases h.buddy_cases with ⟨-, h2⟩ | ⟨-, h2⟩
  · refine .inl ⟨p + 2 ^ k - 1, ?_, ?_⟩ <;> simp only [buddy, mem_def] <;> omega
  · refine .inr ⟨p - 1, ?_, ?_⟩ <;> simp only [buddy, mem_def] <;> omega

end Block

/-! ### Tilings -/

/-- The blocks of `B` are aligned, and exactly the cells of `U` lie in one of them, and in one only. -/
structure Tiling (U : Finset ℕ) (B : Multiset Block) : Prop where
  aligned : ∀ b ∈ B, b.Aligned
  cover : ∀ x, B.countP (x ∈ ·) = if x ∈ U then 1 else 0

/-- Nothing is tiled by no block. -/
theorem tiling_empty : Tiling ∅ 0 := ⟨by simp, by simp⟩

namespace Tiling

variable {U V : Finset ℕ} {B C : Multiset Block}

variable {b : Block} {k p x : ℕ}

/-- A block of a tiling lies inside the tiled set. -/
theorem mem_of_mem (h : Tiling U B) (hb : b ∈ B) (hx : x ∈ b) : x ∈ U := by
  by_contra hU
  have hpos : 0 < B.countP (x ∈ ·) := countP_pos_of_mem hb hx
  rw [h.cover, if_neg hU] at hpos
  exact absurd hpos (lt_irrefl 0)

/-- Every cell of the tiled set lies in a block. -/
theorem exists_block (h : Tiling U B) (hx : x ∈ U) : ∃ b ∈ B, x ∈ b := by
  have hpos : 0 < B.countP (x ∈ ·) := by
    rw [h.cover, if_pos hx]
    exact one_pos
  exact countP_pos.mp hpos

/-- The first block of a tiling meets no other. -/
theorem not_mem_tail (h : Tiling U (b ::ₘ B)) {c : Block} (hc : c ∈ B) (hxb : x ∈ b) : x ∉ c := by
  intro hxc
  have hpos : 0 < B.countP (x ∈ ·) := countP_pos_of_mem hc hxc
  have hcov := h.cover x
  rw [countP_cons, if_pos hxb] at hcov
  split at hcov <;> omega

/-- Blocks of a tiling with a common cell are the same. -/
theorem eq_of_mem (h : Tiling U B) {c : Block} (hb : b ∈ B) (hc : c ∈ B)
    (hxb : x ∈ b) (hxc : x ∈ c) : b = c := by
  obtain ⟨B', rfl⟩ := exists_cons_of_mem hb
  rcases mem_cons.mp hc with rfl | hc'
  · rfl
  · exact absurd hxc (h.not_mem_tail hc' hxb)

/-- A tiling repeats no block. -/
theorem nodup (h : Tiling U B) : B.Nodup := by
  rw [nodup_iff_ne_cons_cons]
  rintro b B' rfl
  exact h.not_mem_tail (mem_cons_self b B') b.base_mem b.base_mem

/-- Tilings of disjoint sets combine. -/
theorem union (hB : Tiling U B) (hC : Tiling V C) (hd : Disjoint U V) : Tiling (U ∪ V) (B + C) := by
  refine ⟨?_, ?_⟩
  · intro b hb
    rcases mem_add.mp hb with hb | hb
    · exact hB.aligned b hb
    · exact hC.aligned b hb
  · intro x
    rw [countP_add, hB.cover, hC.cover]
    have hx : ¬ (x ∈ U ∧ x ∈ V) := fun hx => (Finset.disjoint_left.mp hd) hx.1 hx.2
    by_cases hU : x ∈ U <;> by_cases hV : x ∈ V <;> simp_all

/-- A single aligned block tiles its cells. -/
theorem singleton (hb : b.Aligned) : Tiling (Finset.Ico b.base (b.base + 2 ^ b.order)) {b} := by
  refine ⟨by simpa using hb, ?_⟩
  intro x
  simp [← cons_zero, countP_cons, Block.mem_def]

/-- A cell lies in a block as often as in its halves. -/
theorem countP_halves (x : ℕ) : (⟨p, k⟩ ::ₘ ⟨p + 2 ^ k, k⟩ ::ₘ B).countP (x ∈ ·) =
    (⟨p, k + 1⟩ ::ₘ B).countP (x ∈ ·) := by
  simp only [countP_cons, Block.mem_succ_iff]
  by_cases hl : x ∈ (⟨p, k⟩ : Block)
  · simp [Block.not_mem_right_of_mem_left hl]
  · simp [hl]

/-- **Halving** a block keeps the tiling. -/
theorem split (h : Tiling U (⟨p, k + 1⟩ ::ₘ B)) : Tiling U (⟨p, k⟩ ::ₘ ⟨p + 2 ^ k, k⟩ ::ₘ B) := by
  obtain ⟨hal, hB⟩ := forall_mem_cons.mp h.aligned
  refine ⟨?_, fun x => (countP_halves x).trans (h.cover x)⟩
  exact forall_mem_cons.mpr ⟨hal.halves.1, forall_mem_cons.mpr ⟨hal.halves.2, hB⟩⟩

/-- **Joining** the halves of an aligned block keeps the tiling. -/
theorem merge (h : Tiling U (⟨p, k⟩ ::ₘ ⟨p + 2 ^ k, k⟩ ::ₘ B))
    (hp : 2 ^ (k + 1) ∣ p) : Tiling U (⟨p, k + 1⟩ ::ₘ B) := by
  obtain ⟨-, hB⟩ := forall_mem_cons.mp h.aligned
  refine ⟨?_, fun x => (countP_halves x).symm.trans (h.cover x)⟩
  exact forall_mem_cons.mpr ⟨hp, (forall_mem_cons.mp hB).2⟩

/-- Two buddies of a tiling can be joined. -/
theorem merge_buddy (h : Tiling U (⟨p, k⟩ ::ₘ ⟨p ^^^ 2 ^ k, k⟩ ::ₘ B)) :
    Tiling U (⟨min p (p ^^^ 2 ^ k), k + 1⟩ ::ₘ B) := by
  have hp := h.aligned _ (mem_cons_self _ _)
  rcases hp.buddy_cases with ⟨h1, h2⟩ | ⟨h1, h2⟩
  · rw [h2] at h ⊢
    rw [min_eq_left (by omega)]
    exact h.merge h1
  · rw [min_eq_right (by omega)]
    refine merge ?_ h1
    rw [← h2, cons_swap]
    exact h

/-- The cells of a block, counted one by one. -/
theorem card_filter_mem (hb : ∀ x ∈ b, x ∈ U) : (U.filter (· ∈ b)).card = b.size := by
  have heq : U.filter (· ∈ b) = Finset.Ico b.base (b.base + 2 ^ b.order) := by
    ext x
    simp only [Finset.mem_filter, Finset.mem_Ico]
    exact ⟨fun hx => hx.2, fun hx => ⟨hb x hx, hx⟩⟩
  rw [heq, Nat.card_Ico, Nat.add_sub_cancel_left]
  rfl

/-- The lengths in a tiling add up to the number of cells. -/
theorem sum_size (h : Tiling U B) : (B.map Block.size).sum = U.card := by
  have key : ∀ B : Multiset Block, (∀ b ∈ B, ∀ x ∈ b, x ∈ U) →
      (B.map Block.size).sum = ∑ x ∈ U, B.countP (x ∈ ·) := by
    intro B
    induction B using Multiset.induction with
    | empty => intro _; simp
    | cons b B ih =>
      intro hB
      simp only [map_cons, sum_cons, countP_cons, Finset.sum_add_distrib]
      rw [ih fun c hc => hB c (mem_cons_of_mem hc),
        ← card_filter_mem (hB b (mem_cons_self b B)), Finset.card_filter, Nat.add_comm]
  rw [key B fun b hb x hx => h.mem_of_mem hb hx, Finset.card_eq_sum_ones]
  exact Finset.sum_congr rfl fun x hx => by rw [h.cover, if_pos hx]

end Tiling

/-! ### Coalesced tilings -/

/-- No block of order below `M` has its buddy in `B`. -/
def Coalesced (M : ℕ) (B : Multiset Block) : Prop := ∀ b ∈ B, b.order < M → b.buddy ∉ B

namespace Coalesced

variable {U V : Finset ℕ} {B C : Multiset Block} {M : ℕ}

theorem mono (h : Coalesced M C) (hsub : ∀ b ∈ B, b ∈ C) : Coalesced M B :=
  fun b hb hord hbud => h b (hsub b hb) hord (hsub _ hbud)

/-- A block whose buddy is absent can be added. -/
theorem cons (h : Coalesced M B) {b : Block} (hb : b.order < M → b.buddy ∉ B) :
    Coalesced M (b ::ₘ B) := by
  intro c hc hord hbud
  rcases mem_cons.mp hc with rfl | hc
  · rcases mem_cons.mp hbud with e | hbud
    · exact c.buddy_ne e
    · exact hb hord hbud
  · rcases mem_cons.mp hbud with rfl | hbud
    · exact hb hord (by rwa [Block.buddy_buddy])
    · exact h c hc hord hbud

/-- Coalesced tilings of sets that do not touch combine. -/
theorem add (hB : Coalesced M B) (hC : Coalesced M C) (htB : Tiling U B) (htC : Tiling V C)
    (hsep : ∀ x ∈ U, ∀ y ∈ V, x + 1 ≠ y ∧ y + 1 ≠ x) : Coalesced M (B + C) := by
  have apart : ∀ b ∈ B, ∀ c ∈ C, b.buddy ≠ c := by
    rintro b hb c hc rfl
    rcases (htB.aligned b hb).buddy_touch with ⟨x, hx, hy⟩ | ⟨x, hx, hy⟩
    · exact (hsep _ (htB.mem_of_mem hb hx) _ (htC.mem_of_mem hc hy)).1 rfl
    · exact (hsep _ (htB.mem_of_mem hb hy) _ (htC.mem_of_mem hc hx)).2 rfl
  intro b hb hord hbud
  rcases mem_add.mp hb with hb | hb <;> rcases mem_add.mp hbud with hd | hd
  · exact hB b hb hord hd
  · exact apart b hb _ hd rfl
  · exact apart _ hd b hb (Block.buddy_buddy b)
  · exact hC b hb hord hd

end Coalesced

namespace Tiling

variable {U : Finset ℕ} {B C : Multiset Block} {M : ℕ}

theorem le_order_of_coalesced (h : Tiling U C) (hco : Coalesced M C) {p k : ℕ}
    (hal : (⟨p, k⟩ : Block).Aligned) (hk : k ≤ M) (hU : ∀ x ∈ (⟨p, k⟩ : Block), x ∈ U) :
    ∃ c ∈ C, p ∈ c ∧ k ≤ c.order := by
  induction k generalizing p with
  | zero =>
    obtain ⟨c, hc, hp⟩ := h.exists_block (hU p (Block.base_mem _))
    exact ⟨c, hc, hp, Nat.zero_le _⟩
  | succ k ih =>
    obtain ⟨hl, hr⟩ := hal.halves
    obtain ⟨c, hc, hpc, hkc⟩ := ih hl (by omega) fun x hx => hU x (Block.mem_succ_iff.mpr (.inl hx))
    obtain ⟨d, hd, hpd, hkd⟩ := ih hr (by omega) fun x hx => hU x (Block.mem_succ_iff.mpr (.inr hx))
    rcases lt_or_ge k c.order with hlt | hge
    · exact ⟨c, hc, hpc, hlt⟩
    rcases lt_or_ge k d.order with hlt' | hge'
    · refine ⟨d, hd, ?_, hlt'⟩
      have hmid : p + 2 ^ k ∈ (⟨p, k + 1⟩ : Block) :=
        Block.mem_succ_iff.mpr (.inr (Block.base_mem _))
      exact hal.subset (h.aligned d hd) hlt' hmid hpd p (Block.base_mem _)
    · have hcl : (⟨p, k⟩ : Block) = c :=
        hl.eq_of_order_eq (h.aligned c hc) (le_antisymm hkc hge) (Block.base_mem _) hpc
      have hdr : (⟨p + 2 ^ k, k⟩ : Block) = d :=
        hr.eq_of_order_eq (h.aligned d hd) (le_antisymm hkd hge') (Block.base_mem _) hpd
      subst hcl hdr
      exact absurd (hal.buddy_left ▸ hd) (hco _ hc hk)

/-- An aligned block of the tiled set is inside one block of a coalesced tiling. -/
theorem exists_superset_of_coalesced (h : Tiling U C) (hco : Coalesced M C) {b : Block}
    (hal : b.Aligned) (hk : b.order ≤ M) (hU : ∀ x ∈ b, x ∈ U) :
    ∃ c ∈ C, b.base ∈ c ∧ b.order ≤ c.order :=
  h.le_order_of_coalesced hco (p := b.base) (k := b.order) hal hk hU

/-- **Normal form.** Two coalesced tilings of one set, up to the cap, are equal. -/
theorem eq_of_coalesced (hB : Tiling U B) (hC : Tiling U C) (hcB : Coalesced M B)
    (hcC : Coalesced M C) (hMB : ∀ b ∈ B, b.order ≤ M) (hMC : ∀ c ∈ C, c.order ≤ M) :
    B = C := by
  have key : ∀ {B C : Multiset Block}, Tiling U B → Tiling U C → Coalesced M B →
      Coalesced M C → (∀ b ∈ B, b.order ≤ M) → (∀ c ∈ C, c.order ≤ M) →
      ∀ b ∈ B, b ∈ C := by
    intro B C hB hC hcB hcC hMB hMC b hb
    obtain ⟨c, hc, hbc, hle⟩ := hC.exists_superset_of_coalesced hcC (hB.aligned b hb)
      (hMB b hb) fun x hx => hB.mem_of_mem hb hx
    obtain ⟨b', hb', hcb', hle'⟩ := hB.exists_superset_of_coalesced hcB (hC.aligned c hc)
      (hMC c hc) fun x hx => hC.mem_of_mem hc hx
    have hsub := (hC.aligned c hc).subset (hB.aligned b' hb') hle' c.base_mem hcb'
    obtain rfl : b = b' := hB.eq_of_mem hb hb' b.base_mem (hsub _ hbc)
    have hord : b.order = c.order := le_antisymm hle hle'
    rw [(hB.aligned b hb).eq_of_order_eq (hC.aligned c hc) hord b.base_mem hbc]
    exact hc
  exact (Nodup.ext hB.nodup hC.nodup).mpr fun b =>
    ⟨key hB hC hcB hcC hMB hMC b, key hC hB hcC hcB hMC hMB b⟩

end Tiling

end Dyadic
