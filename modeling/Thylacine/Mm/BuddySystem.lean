import Thylacine.Mm.BuddyOps

/-!
# Runs of the Buddy Allocator

The allocator as a state machine: a zone is built by `buddy_zone_init` and seeded by
`buddy_free_region`, then callers allocate and free. The state carries the **ledger** of
allocated blocks, a multiset, so that handing out one block twice is visible in it; a
caller frees a block of the ledger at the order it was allocated at.

A zone is a range of whole pages, like the ranges it is seeded with: `buddy_zone_init`
makes one descriptor per whole page between its bounds, so only then do the frames that
pass `pfn_in_zone` have one.

## Main results

* `buddy_representation_invariant`: in every reachable state the free, allocated and
  reserved frames partition the zone, the lists and the descriptor words agree, the
  counters are exact and no operation faults.
* `buddy_maximal_coalescing`: with no two seeded ranges adjacent, no two free blocks are ever
  buddies, and a state with nothing allocated has the free blocks of the seeding.
-/

namespace Thylacine

open Dyadic IntrusiveList ListFamily Multiset Relation

/-! ### Building a zone -/

/-- A range of whole pages, by physical address. -/
structure PageRange where
  startPa : ℕ
  endPa : ℕ
  start_aligned : 2 ^ pageShift ∣ startPa
  end_aligned : 2 ^ pageShift ∣ endPa
  start_le : startPa ≤ endPa

namespace PageRange

/-- The frames of a range. -/
def pfns (r : PageRange) : Finset ℕ := Finset.Ico (r.startPa >>> pageShift) (r.endPa >>> pageShift)

/-- One range ends where the other starts; an empty one touches nothing. -/
def Adjacent (r r' : PageRange) : Prop :=
  r.startPa < r.endPa ∧ r'.startPa < r'.endPa ∧ (r.endPa = r'.startPa ∨ r'.endPa = r.startPa)

instance (r r' : PageRange) : Decidable (r.Adjacent r') :=
  inferInstanceAs (Decidable (_ ∧ _ ∧ (_ ∨ _)))

variable (r : PageRange)

theorem start_eq : r.startPa = (r.startPa >>> pageShift) * 2 ^ pageShift := by
  rw [Nat.shiftRight_eq_div_pow, Nat.div_mul_cancel r.start_aligned]

theorem end_eq : r.endPa = (r.endPa >>> pageShift) * 2 ^ pageShift := by
  rw [Nat.shiftRight_eq_div_pow, Nat.div_mul_cancel r.end_aligned]

theorem shift_le : r.startPa >>> pageShift ≤ r.endPa >>> pageShift := by
  rw [Nat.shiftRight_eq_div_pow, Nat.shiftRight_eq_div_pow]
  exact Nat.div_le_div_right r.start_le

/-- What `buddy_free_region` puts on the lists for a range. -/
def blocks : Multiset Block :=
  regionBlocks (r.endPa >>> pageShift) (r.endPa >>> pageShift - r.startPa >>> pageShift)
    (r.startPa >>> pageShift)

theorem blocks_tiling : Tiling r.pfns r.blocks :=
  regionBlocks_tiling r.shift_le (by have := r.shift_le; omega)

/-- Disjoint ranges not adjacent have no neighbouring frames. -/
theorem not_touch_of_not_adjacent {r' : PageRange} (hadj : ¬ r.Adjacent r')
    (hd : Disjoint r.pfns r'.pfns) {x y : ℕ} (hx : x ∈ r.pfns) (hy : y ∈ r'.pfns) :
    x + 1 ≠ y ∧ y + 1 ≠ x := by
  have hpos := Nat.two_pow_pos pageShift
  obtain ⟨hx1, hx2⟩ := Finset.mem_Ico.mp hx
  obtain ⟨hy1, hy2⟩ := Finset.mem_Ico.mp hy
  have hr : r.startPa < r.endPa := by
    rw [r.start_eq, r.end_eq]
    exact Nat.mul_lt_mul_of_pos_right (by omega) hpos
  have hr' : r'.startPa < r'.endPa := by
    rw [r'.start_eq, r'.end_eq]
    exact Nat.mul_lt_mul_of_pos_right (by omega) hpos
  have hxy : x ∉ r'.pfns := Finset.disjoint_left.mp hd hx
  have hyx : y ∉ r.pfns := Finset.disjoint_right.mp hd hy
  rw [pfns, Finset.mem_Ico] at hxy hyx
  refine ⟨fun e => hadj ⟨hr, hr', .inl ?_⟩, fun e => hadj ⟨hr, hr', .inr ?_⟩⟩
  · rw [r.end_eq, r'.start_eq]
    exact congrArg (· * 2 ^ pageShift) (by omega)
  · rw [r'.end_eq, r.start_eq]
    exact congrArg (· * 2 ^ pageShift) (by omega)

end PageRange

/-- `buddy_zone_init`, then `buddy_free_region` on each range. -/
def bootZone (mem : Zone) (zone : PageRange) (regions : List PageRange) : Option Zone :=
  regions.foldlM (fun z r => buddyFreeRegion z r.startPa r.endPa)
    (buddyZoneInit mem zone.startPa zone.endPa)

/-- The seeded frames. -/
def managed (regions : List PageRange) : Finset ℕ := regions.foldr (fun r U => r.pfns ∪ U) ∅

variable {fl : ℕ → List ℕ} {U : Finset ℕ} {regions : List PageRange} {z : Zone} {s : BuddyState}

theorem mem_managed {x : ℕ} : x ∈ managed regions ↔ ∃ r ∈ regions, x ∈ r.pfns := by
  induction regions with
  | nil => simp [managed]
  | cons r rs ih =>
    have hcons : managed (r :: rs) = r.pfns ∪ managed rs := rfl
    simp [hcons, ih]

/-- The ranges are in the zone and pairwise disjoint. -/
structure Seeding (zone : PageRange) (regions : List PageRange) : Prop where
  inZone : ∀ r ∈ regions, zone.startPa ≤ r.startPa ∧ r.endPa ≤ zone.endPa
  disjoint : regions.Pairwise fun r r' => Disjoint r.pfns r'.pfns

theorem isList_foldl_initHead (L : Links PageRef) (n : ℕ) :
    ∀ k < n, IsList ((List.range n).foldl (fun L k => L.initHead (.freeHead k)) L)
      (.freeHead k) [] := by
  induction n with
  | zero => exact fun k hk => absurd hk (Nat.not_lt_zero k)
  | succ n ih =>
    intro k hk
    rw [List.range_succ, List.foldl_append, List.foldl_cons, List.foldl_nil]
    by_cases hkn : k = n
    · subst hkn
      exact isList_initHead _ _
    · refine (ih k (by omega)).of_agreeOff (agreeOff_initHead _ _) ?_
      intro r hr hmem
      rw [List.mem_singleton.mp hr] at hmem
      exact hkn (PageRef.freeHead.inj hmem)

/-- **`buddy_zone_init`** manages nothing. -/
theorem zoneInv_buddyZoneInit (mem : Zone) (zone : PageRange) :
    ZoneInv (buddyZoneInit mem zone.startPa zone.endPa) (fun _ => []) ∅ 0 ∅ := by
  have hnum : (zone.endPa - zone.startPa) >>> pageShift =
      zone.endPa >>> pageShift - zone.startPa >>> pageShift := by
    rw [Nat.shiftRight_eq_div_pow, Nat.shiftRight_eq_div_pow, Nat.shiftRight_eq_div_pow]
    obtain ⟨a, ha⟩ := zone.start_aligned
    obtain ⟨b, hb⟩ := zone.end_aligned
    have hpos := Nat.two_pow_pos pageShift
    rw [ha, hb, ← Nat.mul_sub, Nat.mul_div_cancel_left _ hpos, Nat.mul_div_cancel_left _ hpos,
      Nat.mul_div_cancel_left _ hpos]
  have hle := zone.shift_le
  have hfree : freeBlocks (fun _ => []) = 0 := gather_nil fun _ _ => rfl
  refine ⟨zone.start_eq, ?_, Finset.empty_subset _, ?_, fun _ _ => rfl, ?_, ?_, ?_, ?_, ?_⟩
  · have hend : zone.startPa >>> pageShift + (zone.endPa - zone.startPa) >>> pageShift =
        zone.endPa >>> pageShift := by
      omega
    simp only [buddyZoneInit, hend]
    exact zone.end_eq
  · exact fun k hk => isList_foldl_initHead _ _ k (by omega)
  · intro x hx _ k
    have hin : zone.startPa >>> pageShift ≤ x ∧
        x < zone.startPa >>> pageShift + (zone.endPa - zone.startPa) >>> pageShift := hx
    simp [buddyZoneInit, hin]
  · intro k hk
    simp [buddyZoneInit, hk]
  · simp [buddyZoneInit, hfree]
  · exact fun b hb => absurd hb (notMem_zero b)
  · simpa [hfree] using tiling_empty

theorem span_buddyZoneInit (mem : Zone) (zone : PageRange) :
    (buddyZoneInit mem zone.startPa zone.endPa).span = zone.pfns := by
  have h := (zoneInv_buddyZoneInit mem zone).end_eq
  have hz : zone.endPa = _ := zone.end_eq
  have hpos := Nat.two_pow_pos pageShift
  have hend : (buddyZoneInit mem zone.startPa zone.endPa).basePfn +
      (buddyZoneInit mem zone.startPa zone.endPa).numPages = zone.endPa >>> pageShift := by
    refine Nat.eq_of_mul_eq_mul_right hpos ?_
    rw [← h, ← hz]
    rfl
  rw [Zone.span, hend]
  rfl

/-- **`buddy_free_region`** adds a range's frames. -/
theorem ZoneInv.buddyFreeRegion_spec
    (h : ZoneInv z fl ∅ 0 U) (r : PageRange) (hin : ∀ x ∈ r.pfns, z.InArray x)
    (hd : Disjoint U r.pfns) :
    ∃ z' fl', buddyFreeRegion z r.startPa r.endPa = some z' ∧
      ZoneInv z' fl' ∅ 0 (U ∪ r.pfns) ∧ z'.span = z.span ∧
      freeBlocks fl' = freeBlocks fl + r.blocks := by
  have hle := r.shift_le
  by_cases hlt : r.startPa < r.endPa
  · obtain ⟨z', fl', hz, hinv, hframe, hblocks⟩ := h.freeRegionLoop_spec
      (r.endPa >>> pageShift - r.startPa >>> pageShift) hle (by omega)
      (fun x h1 h2 => hin x (Finset.mem_Ico.mpr ⟨h1, h2⟩)) hd
    refine ⟨z', fl', ?_, hinv, hframe.span_eq, hblocks⟩
    rw [buddyFreeRegion, if_neg (by omega)]
    exact hz
  · have heq : r.startPa = r.endPa := le_antisymm r.start_le (by omega)
    refine ⟨z, fl, ?_, ?_, rfl, ?_⟩
    · rw [buddyFreeRegion, if_pos heq.ge]
    · simpa [PageRange.pfns, heq] using h
    · simp [PageRange.blocks, heq, regionBlocks]

/-- Seeding the ranges in turn. Induction on them, over every zone without their frames. -/
theorem seed_spec {zone : PageRange} (hs : Seeding zone regions) (h : ZoneInv z fl ∅ 0 U)
    (hspan : z.span = zone.pfns) (hd : ∀ r ∈ regions, Disjoint U r.pfns) :
    ∃ z' fl', regions.foldlM (fun z r => buddyFreeRegion z r.startPa r.endPa) z = some z' ∧
      ZoneInv z' fl' ∅ 0 (U ∪ managed regions) ∧ z'.span = zone.pfns ∧
      freeBlocks fl' = freeBlocks fl + (regions.map PageRange.blocks).sum := by
  induction regions generalizing z fl U with
  | nil => exact ⟨z, fl, rfl, by simpa [managed] using h, hspan, by simp⟩
  | cons r rs ih =>
    obtain ⟨hr, hrs⟩ := List.pairwise_cons.mp hs.disjoint
    have hin : ∀ x ∈ r.pfns, z.InArray x := by
      intro x hx
      rw [← Zone.mem_span, hspan]
      obtain ⟨h1, h2⟩ := hs.inZone r List.mem_cons_self
      obtain ⟨h3, h4⟩ := Finset.mem_Ico.mp hx
      simp only [Nat.shiftRight_eq_div_pow] at h3 h4
      refine Finset.mem_Ico.mpr ?_
      simp only [Nat.shiftRight_eq_div_pow]
      exact ⟨(Nat.div_le_div_right h1).trans h3, h4.trans_le (Nat.div_le_div_right h2)⟩
    obtain ⟨z₁, fl₁, hz₁, hinv₁, hspan₁, hblocks₁⟩ :=
      h.buddyFreeRegion_spec r hin (hd r List.mem_cons_self)
    obtain ⟨z', fl', hz', hinv', hspan', hblocks'⟩ :=
      ih ⟨fun r' hr' => hs.inZone r' (List.mem_cons_of_mem r hr'), hrs⟩ hinv₁
        (hspan₁.trans hspan) fun r' hr' => Finset.disjoint_union_left.mpr
          ⟨hd r' (List.mem_cons_of_mem r hr'), hr r' hr'⟩
    refine ⟨z', fl', ?_, ?_, hspan', ?_⟩
    · rw [List.foldlM_cons, hz₁]
      exact hz'
    · rwa [Finset.union_assoc] at hinv'
    · rw [hblocks', hblocks₁, List.map_cons, List.sum_cons, Multiset.add_assoc]

/-- **Building a zone** puts the ranges' blocks on the lists. -/
theorem bootZone_spec (mem : Zone) {zone : PageRange} (hs : Seeding zone regions) :
    ∃ z fl, bootZone mem zone regions = some z ∧ ZoneInv z fl ∅ 0 (managed regions) ∧
      z.span = zone.pfns ∧ freeBlocks fl = (regions.map PageRange.blocks).sum := by
  obtain ⟨z, fl, hz, hinv, hspan, hblocks⟩ := seed_spec hs (zoneInv_buddyZoneInit mem zone)
    (span_buddyZoneInit mem zone) fun r _ => Finset.disjoint_empty_left _
  refine ⟨z, fl, hz, by rwa [Finset.empty_union] at hinv, hspan, ?_⟩
  rw [hblocks, freeBlocks, gather_nil fun _ _ => rfl, zero_add]

/-! ### Runs -/

/-- A zone and the ledger of blocks its callers hold. -/
structure BuddyState where
  zone : Zone
  allocated : Multiset Block

/-- One operation of a caller. -/
inductive BuddyStep : BuddyState → BuddyState → Prop
  /-- `buddy_alloc` hands out a block. -/
  | alloc {s : BuddyState} {z : Zone} {order pfn : ℕ}
      (h : buddyAlloc s.zone order = some (z, some pfn)) :
      BuddyStep s ⟨z, ⟨pfn, order⟩ ::ₘ s.allocated⟩
  /-- `buddy_alloc` returns `NULL`. -/
  | allocNull {s : BuddyState} {z : Zone} {order : ℕ}
      (h : buddyAlloc s.zone order = some (z, none)) : BuddyStep s ⟨z, s.allocated⟩
  /-- `buddy_free` of a block of the ledger, at its order. -/
  | free {s : BuddyState} {z : Zone} {order pfn : ℕ} (hmem : ⟨pfn, order⟩ ∈ s.allocated)
      (h : buddyFree s.zone pfn order = some z) :
      BuddyStep s ⟨z, s.allocated.erase ⟨pfn, order⟩⟩

/-- The stored representation invariant of a zone with callers; `reserved` frames were never freed
to it. -/
structure BuddyState.Ok (s : BuddyState) (reserved : Finset ℕ) : Prop where
  /-- The free lists are circular doubly linked lists. -/
  lists : ∀ k ≤ maxOrder, IsList s.zone.links (.freeHead k) (frames (s.zone.freeList k))
  /-- Each frame of the zone is in exactly one free block, allocated block or reserved
  page, and no other frame is in any. -/
  cover : ∀ x, (s.zone.freeBlocks + s.allocated).countP (x ∈ ·) +
    (if x ∈ reserved then 1 else 0) = if x ∈ s.zone.span then 1 else 0
  /-- A block on list `k` is aligned and inside the zone. -/
  inside : ∀ k ≤ maxOrder, ∀ p ∈ s.zone.freeList k,
    2 ^ k ∣ p ∧ ∀ x ∈ (⟨p, k⟩ : Block), x ∈ s.zone.span
  /-- A descriptor carries `PG_FREE` with order `k` exactly if it heads a block of list
  `k`. -/
  flagged : ∀ x ∈ s.zone.span, ∀ k,
    ((s.zone.page x).flags.free = true ∧ (s.zone.page x).order = k) ↔
      k ≤ maxOrder ∧ x ∈ s.zone.freeList k
  /-- No interior page of a free block carries `PG_FREE`. -/
  interior : ∀ b ∈ s.zone.freeBlocks, ∀ x ∈ b, x ≠ b.base → (s.zone.page x).flags.free = false
  /-- No page of an allocated block carries `PG_FREE`. -/
  unflagged : ∀ b ∈ s.allocated, ∀ x ∈ b, (s.zone.page x).flags.free = false
  perOrder : ∀ k ≤ maxOrder, s.zone.freePagesPerOrder k = (s.zone.freeList k).length
  total : s.zone.totalFreePages = (s.zone.freeBlocks.map Block.size).sum
  /-- Allocation never faults, and returns `NULL` only when nothing can serve the order. -/
  alloc : ∀ order, ∃ z r, buddyAlloc s.zone order = some (z, r) ∧ (order ≤ maxOrder → r = none →
      ∀ k, order ≤ k → k ≤ maxOrder → s.zone.freeList k = [])
  /-- Freeing an allocated block never faults. -/
  free : ∀ b ∈ s.allocated, ∃ z, buddyFree s.zone b.base b.order = some z

section

variable (h : ZoneInv s.zone fl ∅ s.allocated U)
include h

/-- The ghost invariant gives the stored one. -/
theorem ZoneInv.ok : s.Ok (s.zone.span \ U) := by
  have hfb := h.freeBlocks_eq
  refine ⟨?_, ?_, ?_, ?_, ?_, ?_, ?_, ?_, ?_, ?_⟩
  · intro k hk
    rw [h.freeList_eq hk]
    exact h.lists k hk
  · intro x
    rw [hfb, h.tiling.cover]
    have hsub := @h.managed x
    by_cases hU : x ∈ U
    · simp [hU, hsub hU]
    · simp [hU]
  · intro k hk p hp
    rw [h.freeList_eq hk] at hp
    obtain ⟨hal, hin⟩ := h.mem_of_free hk hp
    exact ⟨hal, fun x hx => h.managed (hin x hx)⟩
  · intro x hx k
    rw [h.flagged x (Zone.mem_span.mp hx) (Set.notMem_empty x) k]
    constructor
    · intro hxk
      have hk := h.order_le_of_mem hxk
      exact ⟨hk, by rwa [h.freeList_eq hk]⟩
    · rintro ⟨hk, hxk⟩
      rwa [h.freeList_eq hk] at hxk
  · intro b hb x hx hne
    rw [hfb] at hb
    have hb' := mem_add.mpr (.inl hb : b ∈ freeBlocks fl ∨ b ∈ s.allocated)
    refine h.flag_eq_false hb' hx fun k hk => hne ?_
    have hc : (⟨x, k⟩ : Block) ∈ freeBlocks fl + s.allocated :=
      mem_add.mpr (.inl (mem_freeBlocks.mpr ⟨h.order_le_of_mem hk, hk⟩))
    rw [h.tiling.eq_of_mem hb' hc hx (Block.base_mem ⟨x, k⟩)]
  · intro b hb x hx
    exact h.flag_eq_false_of_held hb hx
  · intro k hk
    rw [h.perOrder k hk, h.freeList_eq hk]
  · rw [h.total, hfb]
  · intro order
    rcases h.buddyAlloc_spec order with ⟨heq, hnone⟩ | ⟨z, p, _, heq, -⟩
    · refine ⟨_, _, heq, fun _ _ k hk hle => ?_⟩
      rw [h.freeList_eq hle]
      exact hnone k hk
    · exact ⟨_, _, heq, nofun⟩
  · intro b hb
    have hcons := cons_erase hb
    rw [← hcons] at h
    obtain ⟨z, -, hz, -⟩ := h.buddyFree_spec
    exact ⟨z, hz⟩

/-- **One step** keeps the invariant, the bounds and coalescing. -/
theorem BuddyStep.inv {s' : BuddyState} (hstep : BuddyStep s s') :
    ∃ fl', ZoneInv s'.zone fl' ∅ s'.allocated U ∧ s'.zone.span = s.zone.span ∧
      (Coalesced maxOrder (freeBlocks fl) → Coalesced maxOrder (freeBlocks fl')) := by
  have halloc := h.buddyAlloc_spec
  simp only [exists_and_left] at halloc
  cases hstep with
  | @alloc z order pfn heq =>
    obtain ⟨⟨⟩, -⟩ | ⟨_, ⟨⟩, -, fl', hinv, hframe, -, -, hco⟩ := alloc_answer heq (halloc order)
    exact ⟨fl', hinv, hframe.span_eq, hco⟩
  | @allocNull z order heq =>
    obtain ⟨-, rfl, -⟩ | ⟨_, ⟨⟩, -⟩ := alloc_answer heq (halloc order)
    exact ⟨fl, h, rfl, id⟩
  | @free z order pfn hmem heq =>
    rw [← cons_erase hmem] at h
    obtain ⟨z', fl', hz, hinv, hframe, hco⟩ := h.buddyFree_spec
    rw [heq, Option.some.injEq] at hz
    subst hz
    exact ⟨fl', hinv, hframe.span_eq, hco⟩

/-- **A run** keeps the invariant. -/
theorem BuddyStep.run_inv {s' : BuddyState} (hrun : ReflTransGen BuddyStep s s') :
    ∃ fl', ZoneInv s'.zone fl' ∅ s'.allocated U ∧ s'.zone.span = s.zone.span ∧
      (Coalesced maxOrder (freeBlocks fl) → Coalesced maxOrder (freeBlocks fl')) := by
  induction hrun with
  | refl => exact ⟨fl, h, rfl, id⟩
  | tail _ hstep ih =>
    obtain ⟨fl₁, hinv₁, hspan₁, hco₁⟩ := ih
    obtain ⟨fl₂, hinv₂, hspan₂, hco₂⟩ := hstep.inv hinv₁
    exact ⟨fl₂, hinv₂, hspan₂.trans hspan₁, fun hco => hco₂ (hco₁ hco)⟩

end

/-- **The representation invariant.** A zone seeded with disjoint ranges can be built, and
every state its callers can reach is consistent, with the frames outside the ranges
reserved. -/
theorem buddy_representation_invariant (mem : Zone) (zone : PageRange)
    (regions : List PageRange) (hs : Seeding zone regions) :
    ∃ z, bootZone mem zone regions = some z ∧ ∀ s, ReflTransGen BuddyStep ⟨z, 0⟩ s →
        s.zone.span = zone.pfns ∧ s.Ok (zone.pfns \ managed regions) := by
  obtain ⟨z, fl, hz, hinv, hspan, -⟩ := bootZone_spec mem hs
  refine ⟨z, hz, fun s hrun => ?_⟩
  obtain ⟨fl', hinv', hspan', -⟩ := BuddyStep.run_inv hinv hrun
  have heq : s.zone.span = zone.pfns := hspan'.trans hspan
  refine ⟨heq, ?_⟩
  rw [← heq]
  exact hinv'.ok

/-- Descriptor memory before `buddy_zone_init`: zero and null. -/
def zeroMemory : Zone where
  basePa := 0
  endPa := 0
  numPages := 0
  basePfn := 0
  links := ⟨fun _ => none, fun _ => none⟩
  page := fun _ => { order := 0, flags := {}, refcount := 0, slabFreelist := none,
                     slabCache := none }
  freePagesPerOrder := fun _ => 0
  totalFreePages := 0

/-- Sixteen pages whose edges the largest blocks do not reach. -/
def sixteenPages : PageRange := ⟨0x3000, 0x13000, by decide, by decide, by decide⟩

/-- The thirteen managed pages: three between the ranges are reserved. -/
def thirteenManaged : List PageRange :=
  [⟨0x3000, 0x8000, by decide, by decide, by decide⟩,
    ⟨0xb000, 0x13000, by decide, by decide, by decide⟩]

theorem buddy_representation_invariant_sixteen_pages :
    ∃ z, bootZone zeroMemory sixteenPages thirteenManaged = some z ∧
      ∀ s, ReflTransGen BuddyStep ⟨z, 0⟩ s →
        s.zone.span = Finset.Ico 3 19 ∧ s.Ok {8, 9, 10} :=
  buddy_representation_invariant zeroMemory _ _ ⟨by decide, by decide⟩

/-! ### Coalescing -/

theorem seeded_coalesced (hd : regions.Pairwise fun r r' => Disjoint r.pfns r'.pfns)
    (hsep : regions.Pairwise fun r r' => ¬ r.Adjacent r') :
    Coalesced maxOrder (regions.map PageRange.blocks).sum ∧
      Tiling (managed regions) (regions.map PageRange.blocks).sum := by
  induction regions with
  | nil => exact ⟨fun b hb => absurd hb (notMem_zero b), tiling_empty⟩
  | cons r rs ih =>
    obtain ⟨hdr, hdrs⟩ := List.pairwise_cons.mp hd
    obtain ⟨hsr, hsrs⟩ := List.pairwise_cons.mp hsep
    obtain ⟨hco, htile⟩ := ih hdrs hsrs
    constructor
    · refine (regionBlocks_coalesced _ _ _).add hco r.blocks_tiling htile ?_
      intro x hx y hy
      obtain ⟨r', hr', hy'⟩ := mem_managed.mp hy
      exact r.not_touch_of_not_adjacent (hsr r' hr') (hdr r' hr') hx hy'
    · refine r.blocks_tiling.union htile (Finset.disjoint_left.mpr fun x hx hy => ?_)
      obtain ⟨r', hr', hy'⟩ := mem_managed.mp hy
      exact (Finset.disjoint_left.mp (hdr r' hr')) hx hy'

/-- Lists with the same free blocks are permutations. -/
theorem ZoneInv.perm_of_freeBlocks_eq {z' : Zone} {fl' : ℕ → List ℕ} {E E' : Set ℕ}
    {H H' : Multiset Block} {U' : Finset ℕ} (h : ZoneInv z fl E H U)
    (h' : ZoneInv z' fl' E' H' U') (heq : freeBlocks fl = freeBlocks fl') {k : ℕ}
    (hk : k ≤ maxOrder) : (fl k).Perm (fl' k) := by
  refine (List.perm_ext_iff_of_nodup (h.nodup hk) (h'.nodup hk)).mpr fun p => ?_
  have hmem : (⟨p, k⟩ : Block) ∈ freeBlocks fl ↔ (⟨p, k⟩ : Block) ∈ freeBlocks fl' := by rw [heq]
  simpa [mem_freeBlocks, hk] using hmem

/-- **Maximal coalescing.** With no two seeded ranges adjacent, no reachable state has two
free buddies below `MAX_ORDER`, and once everything is freed the lists hold the blocks of
the seeding again. -/
theorem buddy_maximal_coalescing (mem : Zone) (zone : PageRange) (regions : List PageRange)
    (hs : Seeding zone regions) (hsep : regions.Pairwise fun r r' => ¬ r.Adjacent r') :
    ∃ z, bootZone mem zone regions = some z ∧ ∀ s, ReflTransGen BuddyStep ⟨z, 0⟩ s →
        (∀ k < maxOrder, ∀ p ∈ s.zone.freeList k, buddyPfnOf p k ∉ s.zone.freeList k) ∧
        (s.allocated = 0 → ∀ k ≤ maxOrder, (s.zone.freeList k).Perm (z.freeList k)) := by
  obtain ⟨z, fl, hz, hinv, -, hblocks⟩ := bootZone_spec mem hs
  have hco : Coalesced maxOrder (freeBlocks fl) := by
    rw [hblocks]
    exact (seeded_coalesced hs.disjoint hsep).1
  refine ⟨z, hz, fun s hrun => ?_⟩
  obtain ⟨fl', hinv', -, hco'⟩ := BuddyStep.run_inv hinv hrun
  constructor
  · intro k hk p hp hbud
    rw [hinv'.freeList_eq hk.le] at hp hbud
    exact hco' hco ⟨p, k⟩ (mem_freeBlocks.mpr ⟨hk.le, hp⟩) hk (mem_freeBlocks.mpr ⟨hk.le, hbud⟩)
  · intro hnone k hk
    rw [hinv'.freeList_eq hk, hinv.freeList_eq hk]
    have htile := hinv'.tiling
    rw [hnone, add_zero] at htile
    have htile₀ := hinv.tiling
    rw [add_zero] at htile₀
    exact hinv'.perm_of_freeBlocks_eq hinv (htile.eq_of_coalesced htile₀ (hco' hco) hco
      (fun b hb => (mem_freeBlocks.mp hb).1) fun b hb => (mem_freeBlocks.mp hb).1) hk

/-- The same sixteen pages: freeing everything restores the seeded lists. -/
theorem buddy_maximal_coalescing_sixteen_pages :
    ∃ z, bootZone zeroMemory sixteenPages thirteenManaged = some z ∧
      ∀ s, ReflTransGen BuddyStep ⟨z, 0⟩ s → (∀ k < maxOrder, ∀ p ∈ s.zone.freeList k,
          buddyPfnOf p k ∉ s.zone.freeList k) ∧
        (s.allocated = 0 → ∀ k ≤ maxOrder, (s.zone.freeList k).Perm (z.freeList k)) :=
  buddy_maximal_coalescing zeroMemory _ _ ⟨by decide, by decide⟩ (by decide)

end Thylacine
