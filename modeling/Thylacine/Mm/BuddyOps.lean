import Thylacine.Mm.BuddyInvariant

/-!
# Specifications of the Buddy Operations

One specification per function of `mm/buddy.c`, each over the representation invariant
`ZoneInv`: started in a state of the invariant the function does not fault, and it moves
blocks between the free lists and the held blocks as it should. Allocation and free keep the free
blocks coalesced.

## Main results

* `ZoneInv.buddyFree_spec`: a held block goes back to the lists, merged as far as it can be.
* `ZoneInv.buddyAlloc_spec`: either a block of the asked order becomes held, or the lists from
  that order up are empty and nothing changed.
* `ZoneInv.freeRegionLoop_spec`: seeding a range puts exactly the greedy decomposition
  `regionBlocks` of the range on the lists, which is coalesced (`regionBlocks_coalesced`).
-/

namespace Thylacine

open Dyadic IntrusiveList List
open Multiset (cons_swap mem_cons_of_mem mem_cons_self notMem_zero)

namespace ZoneInv

variable {z : Zone} {fl : ℕ → List ℕ} {H : Multiset Block} {U : Finset ℕ}

/-! ### Free -/

variable {k p : ℕ} {E : Set ℕ}

/-- `pfn_in_zone` is the descriptor array's bounds check. -/
theorem pfnInZone_iff (h : ZoneInv z fl E H U) (x : ℕ) : pfnInZone z x = true ↔ z.InArray x := by
  have hpos := Nat.two_pow_pos pageShift
  simp only [pfnInZone, Nat.shiftLeft_eq, h.base_eq, h.end_eq, Bool.and_eq_true,
    decide_eq_true_eq, Zone.InArray]
  rw [Nat.mul_le_mul_right_iff hpos, Nat.mul_lt_mul_right hpos]

section

variable (h : ZoneInv z fl ∅ (⟨p, k⟩ ::ₘ H) U)
include h

/-- The exit of `free_locked`: the block is pushed. -/
theorem zoneFreeChunk_coalesced (hbud : k < maxOrder → buddyPfnOf p k ∉ fl k) :
    ∃ z' fl', zoneFreeChunk z p k = some z' ∧ ZoneInv z' fl' ∅ H U ∧ z.Frame z' (Kept H) ∧
      (Coalesced maxOrder (freeBlocks fl) → Coalesced maxOrder (freeBlocks fl')) := by
  obtain ⟨z', hz, hinv, hframe⟩ := h.zoneFreeChunk_spec
  refine ⟨z', _, hz, hinv.mono Set.sdiff_subset, hframe, fun hco => ?_⟩
  rw [freeBlocks_push (h.heldLe _ (mem_cons_self _ _))]
  refine hco.cons fun hord hmem => hbud hord ?_
  exact (mem_freeBlocks.mp hmem).2

/-- A turn of the merge loop: the free buddy is unlinked, and both are one held block. -/
theorem merge_step (hk : k < maxOrder) (hb : buddyPfnOf p k ∈ fl k) {L : Links PageRef}
    (hlist : IsList L (.freeHead k) (frames ((fl k).erase (buddyPfnOf p k))))
    (hag : AgreeOff z.links L {r | r ∈ PageRef.freeHead k :: frames (fl k)}) :
    let z' := Zone.setPage { z with
        links := L
        freePagesPerOrder := Function.update z.freePagesPerOrder k (z.freePagesPerOrder k - 1)
        totalFreePages := z.totalFreePages - 2 ^ k }
      (buddyPfnOf p k) { z.page (buddyPfnOf p k) with flags := {}, order := 0 }
    ZoneInv z' (Function.update fl k ((fl k).erase (buddyPfnOf p k))) ∅
        (⟨if buddyPfnOf p k < p then buddyPfnOf p k else p, k + 1⟩ ::ₘ H) U ∧
      z.Frame z' (Kept H) := by
  have hkept : Kept H ⊆ Kept (⟨p, k⟩ ::ₘ H) := Kept.mono (Multiset.subset_cons ..)
  refine ⟨?_, rfl, rfl, rfl, rfl, ?_, ?_⟩
  · have hmin : (if buddyPfnOf p k < p then buddyPfnOf p k else p) = min p (p ^^^ 2 ^ k) := by
      rw [min_comm, min_def_lt, buddyPfnOf]
    rw [hmin]
    refine merge ?_ hk
    have hun := h.unlink hb hlist hag
    rw [cons_swap]
    refine (hun.setPage_held (mem_cons_self _ _) (Block.base_mem _) rfl).mono ?_
    simp
  · exact fun r hr => h.kept_of_agreeOff hag r (hkept hr)
  · intro x hx
    refine Function.update_of_ne ?_ _ _
    rintro rfl
    obtain ⟨c, hc, hxc⟩ := (hkept hx).2 _ rfl
    exact h.not_mem_free_of_held hc hxc k hb

/-- **`free_locked`** returns the held block. Induction on the merges still possible. -/
theorem freeLocked_spec {fuel : ℕ} (hfuel : maxOrder ≤ k + fuel) :
    ∃ z' fl', freeLocked fuel z p k = some z' ∧ ZoneInv z' fl' ∅ H U ∧
      z.Frame z' (Kept H) ∧
      (Coalesced maxOrder (freeBlocks fl) → Coalesced maxOrder (freeBlocks fl')) := by
  induction fuel generalizing z fl p k with
  | zero => exact h.zoneFreeChunk_coalesced fun hk => by omega
  | succ fuel ih =>
    by_cases hk : k < maxOrder
    swap
    · simp only [freeLocked, if_neg hk]
      exact h.zoneFreeChunk_coalesced fun hk' => absurd hk' hk
    by_cases hb : buddyPfnOf p k ∈ fl k
    · have hin := h.inArray_of_free hb
      obtain ⟨hfree, hord⟩ := (h.flagged _ hin (Set.notMem_empty _) k).mpr hb
      obtain ⟨L, hrem, hlist, hag⟩ := (h.lists k hk.le).remove (frame_mem_frames.mpr hb)
      rw [frames_erase] at hlist
      obtain ⟨hinv, hframe⟩ := h.merge_step hk hb hlist hag
      obtain ⟨z', fl', hz, hinv', hframe', hco⟩ := ih hinv (by omega)
      refine ⟨z', fl', ?_, hinv', hframe.trans hframe', fun hc => hco (hc.mono ?_)⟩
      · simpa [freeLocked, hk, (h.pfnInZone_iff _).mpr hin, Zone.pfnToPage, hin,
          hfree, hord, hrem] using hz
      · intro c hc
        rw [← freeBlocks_erase hk.le hb]
        exact mem_cons_of_mem hc
    · have hpush := h.zoneFreeChunk_coalesced fun _ => hb
      by_cases hin : z.InArray (buddyPfnOf p k)
      · set b := z.page (buddyPfnOf p k) with hpage
        have hnf : ¬ (b.flags.free = true ∧ b.order = k) :=
          fun hf => hb ((h.flagged _ hin (Set.notMem_empty _) k).mp hf)
        have hcond : (!b.flags.free || b.order != k) = true := by
          rw [Bool.or_eq_true, Bool.not_eq_true', bne_iff_ne]
          by_cases hf : b.flags.free = true
          · exact .inr fun ho => hnf ⟨hf, ho⟩
          · exact .inl (Bool.eq_false_iff.mpr hf)
        simpa [freeLocked, Zone.pfnToPage, hin, ← hpage, hcond] using hpush
      · have hz : pfnInZone z (buddyPfnOf p k) = false :=
          Bool.eq_false_iff.mpr fun e => hin ((h.pfnInZone_iff _).mp e)
        simpa [freeLocked, hz] using hpush

/-- **`buddy_free`** of a held block succeeds. -/
theorem buddyFree_spec : ∃ z' fl', buddyFree z p k = some z' ∧ ZoneInv z' fl' ∅ H U ∧
      z.Frame z' (Kept H) ∧
      (Coalesced maxOrder (freeBlocks fl) → Coalesced maxOrder (freeBlocks fl')) := by
  have hk : k ≤ maxOrder := h.heldLe _ (mem_cons_self _ _)
  rw [buddyFree, if_neg (by omega)]
  exact h.freeLocked_spec (by omega)

end

/-! ### Allocation -/

/-- The search stops at the least order with a free block. -/
theorem findSrcOrder_spec (h : ZoneInv z fl E H U) (fuel src : ℕ)
    (hfuel : src + fuel = maxOrder + 1) :
    src ≤ findSrcOrder z fuel src ∧
      (∀ k, src ≤ k → k < findSrcOrder z fuel src → fl k = []) ∧
      (findSrcOrder z fuel src ≤ maxOrder →
      fl (findSrcOrder z fuel src) ≠ []) := by
  have hempty {k : ℕ} (hk : k ≤ maxOrder) : z.links.isEmpty (.freeHead k) = true ↔ fl k = [] := by
    rw [(h.lists k hk).isEmpty_iff, map_eq_nil_iff]
  fun_induction findSrcOrder z fuel src with
  | case1 src => exact ⟨le_rfl, fun k h1 h2 => absurd h1 h2.not_ge, fun hle => by omega⟩
  | case2 fuel src hnext ih =>
    rw [Bool.and_eq_true, decide_eq_true_eq] at hnext
    obtain ⟨h1, h2, h3⟩ := ih (by omega)
    refine ⟨by omega, fun k hk1 hk2 => ?_, h3⟩
    rcases Nat.eq_or_lt_of_le hk1 with rfl | hlt
    · exact (hempty hnext.1).mp hnext.2
    · exact h2 k hlt hk2
  | case3 fuel src hstop =>
    rw [Bool.and_eq_true, decide_eq_true_eq] at hstop
    exact ⟨le_rfl, fun k h1 h2 => absurd h1 h2.not_ge,
      fun hle he => hstop ⟨hle, (hempty hle).mpr he⟩⟩

/-- **The split loop** returns right halves. Induction on the block's order. -/
theorem splitLoop_spec {order src : ℕ} (h : ZoneInv z fl E (⟨p, src⟩ ::ₘ H) U) (hle : order ≤ src) :
    ∃ z' fl', splitLoop order p src z = some z' ∧
      ZoneInv z' fl' E (⟨p, order⟩ ::ₘ H) U ∧ z.Frame z' (Kept H) ∧
      (Coalesced maxOrder (freeBlocks fl) → Coalesced maxOrder (freeBlocks fl')) := by
  induction src generalizing z fl with
  | zero =>
    obtain rfl : order = 0 := by omega
    exact ⟨z, fl, rfl, h, Zone.Frame.refl z _, id⟩
  | succ src ih =>
    rcases Nat.eq_or_lt_of_le hle with rfl | hlt
    · exact ⟨z, fl, by simp [splitLoop], h, Zone.Frame.refl z _, id⟩
    have hal : (⟨p, src + 1⟩ : Block).Aligned := h.tiling.aligned _
      (Multiset.mem_add.mpr (.inr (mem_cons_self _ _)))
    have hsplit := h.split
    rw [cons_swap] at hsplit
    obtain ⟨z₁, hz₁, hinv₁, hframe₁⟩ := hsplit.zoneFreeChunk_spec
    obtain ⟨z', fl', hz', hinv', hframe', hco'⟩ := ih (hinv₁.mono Set.sdiff_subset) (by omega)
    refine ⟨z', fl', ?_, hinv', ?_, fun hco => hco' ?_⟩
    · simp [splitLoop, hlt, hal.or_eq_add, hz₁, hz']
    · exact (hframe₁.mono (Kept.mono (Multiset.subset_cons ..))).trans hframe'
    · have hord : src ≤ maxOrder := hsplit.heldLe _ (mem_cons_self _ _)
      rw [freeBlocks_push hord]
      refine hco.cons fun _ hmem => ?_
      rw [← hal.buddy_left, Block.buddy_buddy] at hmem
      exact hsplit.not_mem_free_of_held (mem_cons_of_mem (mem_cons_self _ _)) (Block.base_mem _) src
        (mem_freeBlocks.mp hmem).2

/-- The tail of `alloc_locked` stamps a held block's descriptor. -/
theorem stamp (h : ZoneInv z fl E (⟨p, k⟩ ::ₘ H) U) {pg : Page} (hpg : pg.flags.free = false) :
    ZoneInv { z.setPage p pg with
        links := (z.links.setNext (.frame p) none).setPrev (.frame p) none }
      fl (E \ {p}) (⟨p, k⟩ ::ₘ H) U := by
  have hheld : (⟨p, k⟩ : Block) ∈ ⟨p, k⟩ ::ₘ H := mem_cons_self _ _
  refine (h.setPage_held hheld (Block.base_mem _) hpg).setLinks (S := {.frame p}) ?_ ?_
  · intro r hr
    rw [Set.mem_singleton_iff] at hr
    simp [Zone.setPage, Links.setNext, Links.setPrev, hr]
  · rintro j r hr rfl
    rcases mem_cons.mp hr with e | hr
    · cases e
    · exact h.not_mem_free_of_held hheld (Block.base_mem _) j (frame_mem_frames.mp hr)

/-- **`buddy_alloc`** hands out a block, or no list from the order up has one. -/
theorem buddyAlloc_spec (h : ZoneInv z fl ∅ H U) (order : ℕ) :
    (buddyAlloc z order = some (z, none) ∧ ∀ k, order ≤ k → fl k = []) ∨
    ∃ z' p fl', buddyAlloc z order = some (z', some p) ∧ (∃ k, order ≤ k ∧ fl k ≠ []) ∧
      ZoneInv z' fl' ∅ (⟨p, order⟩ ::ₘ H) U ∧ z.Frame z' (Kept H) ∧
      (z'.page p).order = order ∧ (z'.page p).flags = { kernel := true } ∧
      (Coalesced maxOrder (freeBlocks fl) → Coalesced maxOrder (freeBlocks fl')) := by
  by_cases hord : maxOrder < order
  · refine .inl ⟨?_, fun k hk => h.beyond k (by omega)⟩
    rw [buddyAlloc, allocLocked, if_pos hord]
  obtain ⟨hsrc, hbelow, hne⟩ := h.findSrcOrder_spec (maxOrder + 1 - order) order (by omega)
  generalize hs : findSrcOrder z (maxOrder + 1 - order) order = src at hsrc hbelow hne
  by_cases hnone : maxOrder < src
  · refine .inl ⟨?_, fun k hk => ?_⟩
    · simp [buddyAlloc, allocLocked, hs, hnone]
    · rcases lt_or_ge maxOrder k with hk' | hk'
      · exact h.beyond k hk'
      · exact hbelow k hk (by omega)
  · have hle : src ≤ maxOrder := by omega
    obtain ⟨p, rest, hfl⟩ := exists_cons_of_ne_nil (hne hle)
    have hp : p ∈ fl src := hfl ▸ mem_cons_self
    have hl := h.lists src hle
    rw [hfl, frames] at hl
    obtain ⟨L, hpop, hlist, hag⟩ := hl.popFront_cons
    have hlist' : IsList L (.freeHead src) (frames ((fl src).erase p)) := by
      rwa [hfl, erase_cons_head]
    have hag' : AgreeOff z.links L {r | r ∈ PageRef.freeHead src :: frames (fl src)} := by
      rwa [hfl, frames]
    have hun := h.unlink hp hlist' hag'
    obtain ⟨z₁, fl₁, hz₁, hinv₁, hframe₁, hco₁⟩ := hun.splitLoop_spec hsrc
    have hne' : ∀ x, PageRef.frame x ∈ Kept H → x ≠ p := by
      rintro x hx rfl
      exact hun.kept_not_mem hx (Block.base_mem _)
    refine .inr ⟨_, p, fl₁, by
      simp only [buddyAlloc, allocLocked, if_neg hord, hs, if_neg hnone, hpop,
        Option.bind_eq_bind, Option.bind_some, hz₁]
      rfl, ⟨src, hsrc, hne hle⟩, (hinv₁.stamp rfl).mono (by simp), ?_, ?_, ?_, fun hco => ?_⟩
    · have hpre : z.Frame z₁ (Kept H) :=
        ⟨hframe₁.basePa, hframe₁.endPa, hframe₁.basePfn, hframe₁.numPages,
          fun r hr => ⟨(hframe₁.links r hr).1.trans (h.kept_of_agreeOff hag' r hr).1,
            (hframe₁.links r hr).2.trans (h.kept_of_agreeOff hag' r hr).2⟩, hframe₁.page⟩
      refine hpre.trans ⟨rfl, rfl, rfl, rfl, fun r hr => ?_, fun x hx => ?_⟩
      · have hrp : r ≠ .frame p := fun e => hne' p (e ▸ hr) rfl
        simp [Links.setNext, Links.setPrev, hrp]
      · exact Function.update_of_ne (hne' x hx) _ _
    · simp [Zone.setPage]
    · simp [Zone.setPage]
    · refine hco₁ (hco.mono fun c hc => ?_)
      rw [← freeBlocks_erase hle hp]
      exact mem_cons_of_mem hc

end ZoneInv

/-! ### Seeding -/

variable {endPfn j pfn v : ℕ}

/-- A power of two divides `v` iff `v` has no lower bit. -/
theorem two_pow_dvd_iff_testBit : 2 ^ j ∣ v ↔ ∀ i < j, v.testBit i = false := by
  rw [Nat.dvd_iff_mod_eq_zero]
  constructor
  · intro h i hi
    have hbit := Nat.testBit_mod_two_pow v j i
    rw [h] at hbit
    simpa [hi] using hbit.symm
  · intro h
    refine Nat.eq_of_testBit_eq fun i => ?_
    by_cases hi : i < j
    · simp [h i hi]
    · simp [hi]

theorem le_ctzll_iff (hj : j ≤ 64) : j ≤ ctzll v ↔ 2 ^ j ∣ v := by
  rw [two_pow_dvd_iff_testBit, ctzll]
  cases hf : (range 64).find? fun i => v.testBit i with
  | none =>
    rw [find?_eq_none] at hf
    refine iff_of_true hj fun i hi => ?_
    simpa using hf i (mem_range.mpr (by omega))
  | some n =>
    rw [find?_range_eq_some] at hf
    obtain ⟨hn, -, hlow⟩ := hf
    simp only [Option.getD_some]
    constructor
    · intro hle i hi
      simpa using hlow i (by omega)
    · intro hall
      by_contra hlt
      rw [hall n (by omega)] at hn
      exact Bool.false_ne_true hn

theorem le_pfnMaxAlign_iff (hj : j ≤ maxOrder) : (j : ℤ) ≤ pfnMaxAlign pfn ↔ 2 ^ j ∣ pfn := by
  have h64 : j ≤ 64 := hj.trans (by decide)
  rw [pfnMaxAlign]
  split
  · next h0 => simp [h0, hj]
  split
  · next hgt => refine iff_of_true (by exact_mod_cast hj) ((le_ctzll_iff h64).mp (by omega))
  · rw [← le_ctzll_iff h64]
    exact Nat.cast_le

theorem chunkOrder_le (pfn endPfn : ℕ) : chunkOrder pfn endPfn ≤ maxOrder := by
  simp only [chunkOrder]
  split_ifs <;> omega

/-- The chunk at `pfn` is the largest aligned block to fit. -/
theorem le_chunkOrder_iff (hlt : pfn < endPfn) (hj : j ≤ maxOrder) :
    j ≤ chunkOrder pfn endPfn ↔ 2 ^ j ∣ pfn ∧ pfn + 2 ^ j ≤ endPfn := by
  have hfit : pfn + 2 ^ j ≤ endPfn ↔ (j : ℤ) ≤ floorLog2U64 (endPfn - pfn) := by
    rw [floorLog2U64, if_neg (by omega), Nat.cast_le, Nat.le_log2 (by omega)]
    omega
  have hlog : (0 : ℤ) ≤ floorLog2U64 (endPfn - pfn) := by
    rw [floorLog2U64, if_neg (by omega)]
    exact Int.natCast_nonneg _
  have halign : (0 : ℤ) ≤ pfnMaxAlign pfn := by
    simp only [pfnMaxAlign]
    split_ifs <;> omega
  rw [← le_pfnMaxAlign_iff hj]
  simp only [chunkOrder]
  split_ifs <;> omega

/-- The greedy decomposition of the frames `pfn` to `endPfn`. -/
def regionBlocks (endPfn : ℕ) : ℕ → ℕ → Multiset Block
  | 0, _ => 0
  | fuel + 1, pfn =>
    if pfn < endPfn then
      ⟨pfn, chunkOrder pfn endPfn⟩ ::ₘ regionBlocks endPfn fuel (pfn + 2 ^ chunkOrder pfn endPfn)
    else 0

/-- A chunk is aligned and does not pass the end. -/
theorem chunkOrder_spec (hlt : pfn < endPfn) :
    2 ^ chunkOrder pfn endPfn ∣ pfn ∧ pfn + 2 ^ chunkOrder pfn endPfn ≤ endPfn :=
  (le_chunkOrder_iff hlt (chunkOrder_le _ _)).mp le_rfl

theorem regionBlocks_mem {fuel : ℕ} {b : Block} (hb : b ∈ regionBlocks endPfn fuel pfn) :
    b.order ≤ maxOrder ∧ pfn ≤ b.base ∧ b.base + 2 ^ b.order ≤ endPfn := by
  fun_induction regionBlocks endPfn fuel pfn with
  | case1 | case3 => exact absurd hb (notMem_zero b)
  | case2 fuel pfn hlt ih =>
    rcases Multiset.mem_cons.mp hb with rfl | hb
    · exact ⟨chunkOrder_le _ _, le_rfl, (chunkOrder_spec hlt).2⟩
    · obtain ⟨h1, h2, h3⟩ := ih hb
      exact ⟨h1, (Nat.le_add_right _ _).trans h2, h3⟩

/-- The greedy decomposition is **coalesced**: a chunk's buddy is behind it or would have enlarged
it. -/
theorem regionBlocks_coalesced (endPfn fuel pfn : ℕ) :
    Coalesced maxOrder (regionBlocks endPfn fuel pfn) := by
  fun_induction regionBlocks endPfn fuel pfn with
  | case1 | case3 => exact fun b hb => absurd hb (notMem_zero b)
  | case2 fuel pfn hlt ih =>
    refine ih.cons fun hord hmem => ?_
    obtain ⟨-, hge, hfit⟩ := regionBlocks_mem hmem
    have hpos := Nat.two_pow_pos (chunkOrder pfn endPfn)
    have hal : (⟨pfn, chunkOrder pfn endPfn⟩ : Block).Aligned := (chunkOrder_spec hlt).1
    simp only [Block.buddy] at hge hfit hord
    rcases hal.buddy_cases with ⟨h1, h2⟩ | ⟨-, h2⟩
    · have hmax := (le_chunkOrder_iff hlt hord).mpr ⟨h1, by
        omega⟩
      omega
    · omega

/-- **The loop of `buddy_free_region`** frees the greedy decomposition. -/
theorem ZoneInv.freeRegionLoop_spec {z : Zone} {fl : ℕ → List ℕ} {H : Multiset Block}
    {U : Finset ℕ} (h : ZoneInv z fl ∅ H U) (fuel : ℕ) (hle : pfn ≤ endPfn)
    (hfuel : endPfn ≤ pfn + fuel) (hin : ∀ x, pfn ≤ x → x < endPfn → z.InArray x)
    (hd : Disjoint U (Finset.Ico pfn endPfn)) :
    ∃ z' fl', freeRegionLoop endPfn fuel z pfn = some z' ∧
      ZoneInv z' fl' ∅ H (U ∪ Finset.Ico pfn endPfn) ∧ z.Frame z' (Kept H) ∧
      freeBlocks fl' = freeBlocks fl + regionBlocks endPfn fuel pfn := by
  induction fuel generalizing z fl U pfn with
  | zero =>
    obtain rfl : endPfn = pfn := by omega
    exact ⟨z, fl, rfl, by simpa using h, Zone.Frame.refl z _, by simp [regionBlocks]⟩
  | succ fuel ih =>
    rcases Nat.eq_or_lt_of_le hle with rfl | hlt
    · refine ⟨z, fl, ?_, by simpa using h, Zone.Frame.refl z _, ?_⟩
      · simp [freeRegionLoop]
      · simp [regionBlocks]
    obtain ⟨hal, hfit⟩ := chunkOrder_spec hlt
    have hunion := Finset.Ico_union_Ico_eq_Ico (a := pfn) (by omega) hfit
    rw [← hunion, Finset.disjoint_union_right] at hd
    have hadopt := h.adopt (b := ⟨pfn, chunkOrder pfn endPfn⟩) hal (chunkOrder_le _ _)
      (fun x hx => hin x hx.1 (lt_of_lt_of_le hx.2 hfit)) hd.1
    obtain ⟨z₁, hz₁, hinv₁, hframe₁⟩ := hadopt.zoneFreeChunk_spec
    obtain ⟨z', fl', hz', hinv', hframe', hblocks⟩ :=
      ih (hinv₁.mono Set.sdiff_subset) hfit (by omega)
      (fun x hx1 hx2 => by
        have := hin x (by omega) hx2
        rwa [Zone.InArray, hframe₁.basePfn, hframe₁.numPages])
      (Finset.disjoint_union_left.mpr ⟨hd.2, Finset.Ico_disjoint_Ico_consecutive _ _ _⟩)
    refine ⟨z', fl', ?_, ?_, hframe₁.trans hframe', ?_⟩
    · simp [freeRegionLoop, hlt, hz₁, hz']
    · rwa [Finset.union_assoc, hunion] at hinv'
    · rw [hblocks, freeBlocks_push (chunkOrder_le _ _), regionBlocks, if_pos hlt,
        Multiset.add_cons, Multiset.cons_add]

/-- The greedy decomposition tiles the range. -/
theorem regionBlocks_tiling {fuel : ℕ} (hle : pfn ≤ endPfn) (hfuel : endPfn ≤ pfn + fuel) :
    Tiling (Finset.Ico pfn endPfn) (regionBlocks endPfn fuel pfn) := by
  induction fuel generalizing pfn with
  | zero =>
    obtain rfl : endPfn = pfn := by omega
    simpa [regionBlocks] using tiling_empty
  | succ fuel ih =>
    rcases Nat.eq_or_lt_of_le hle with rfl | hlt
    · simpa [regionBlocks] using tiling_empty
    obtain ⟨hal, hfit⟩ := chunkOrder_spec hlt
    have hunion := Finset.Ico_union_Ico_eq_Ico (a := pfn) (by omega) hfit
    rw [regionBlocks, if_pos hlt, ← hunion]
    exact (Tiling.singleton (b := ⟨pfn, chunkOrder pfn endPfn⟩) hal).union
      (ih hfit (by omega)) (Finset.Ico_disjoint_Ico_consecutive _ _ _)

/-- What an allocator that answered `r` has done. -/
theorem alloc_answer {σ : Type} {f : Option (σ × Option ℕ)} {s s' : σ} {r : Option ℕ}
    {P : Prop} {Q : σ → ℕ → Prop} (heq : f = some (s', r))
    (h : (f = some (s, none) ∧ P) ∨ ∃ s₁ p, f = some (s₁, some p) ∧ Q s₁ p) :
    (r = none ∧ s' = s ∧ P) ∨ ∃ p, r = some p ∧ Q s' p := by
  obtain ⟨rfl, hP⟩ | ⟨s₁, p, rfl, hQ⟩ := h <;> cases heq
  · exact .inl ⟨rfl, rfl, hP⟩
  · exact .inr ⟨p, rfl, hQ⟩

end Thylacine
