import Thylacine.Mm.Phys

/-!
# Specifications of the Page Interface

`PhysInv s live U` is the invariant of the physical allocator while callers hold the blocks
`live`: free blocks, blocks in magazines and the live ones tile the managed frames, no
magazine overflows, and the descriptor of every block outside the buddy carries its order.

## Main results

* `PhysInv.buddyAlloc_spec`, `PhysInv.buddyFree_spec`, `PhysInv.push`, `PhysInv.pop`,
  `PhysInv.stampPage`: the five ways in which ownership moves. The buddy hands a block out or takes
  it back, a magazine takes one or gives it up, a holder rewrites its descriptor.

The specifications of the magazine operations and of the page interface are put together from
these.
-/

namespace Thylacine

open Dyadic IntrusiveList ListFamily Multiset
open Option (bind_eq_bind bind_some)

/-! ### The invariant -/

/-- The magazines that exist. -/
def magSlotSet : Finset (ℕ × ℕ) := Finset.range nCpus ×ˢ Finset.range numMagOrders

/-- The blocks stored in the magazines. -/
def magBlocks (mags : ℕ × ℕ → List ℕ) : Multiset Block :=
  gather magSlotSet (fun i p => ⟨p, magIdxToOrder i.2⟩) mags

/-- The invariant of the physical allocator. -/
structure PhysInv (s : Phys) (live : Multiset Block) (U : Finset ℕ) : Prop where
  zone : ∃ fl, ZoneInv s.zone fl ∅ (live + magBlocks s.mags) U
  counts : ∀ i ∈ magSlotSet, (s.mags i).length ≤ magazineSize
  ordered : ∀ b ∈ live + magBlocks s.mags, (s.zone.page b.base).order = b.order

/-- What an operation leaves alone while `live` is held. -/
structure Phys.Frame (s s' : Phys) (live : Multiset Block) : Prop where
  zone : s.zone.Frame s'.zone (Kept live)
  charged : s'.userPoolCharged = s.userPoolCharged

theorem Phys.Frame.refl (s : Phys) (live : Multiset Block) : s.Frame s live :=
  ⟨Zone.Frame.refl _ _, rfl⟩

theorem Phys.Frame.trans {s s' s'' : Phys} {live : Multiset Block} (h : s.Frame s' live)
    (h' : s'.Frame s'' live) : s.Frame s'' live :=
  ⟨h.zone.trans h'.zone, h'.charged.trans h.charged⟩

theorem Phys.Frame.mono {s s' : Phys} {live live' : Multiset Block} (h : s.Frame s' live)
    (hsub : ∀ b ∈ live', b ∈ live) : s.Frame s' live' :=
  ⟨h.zone.mono (Kept.mono hsub), h.charged⟩

/-- The descriptor of a held block is kept. -/
theorem Phys.Frame.page_eq {s s' : Phys} {live : Multiset Block} (h : s.Frame s' live)
    {b : Block} (hb : b ∈ live) {x : ℕ} (hx : x ∈ b) : s'.zone.page x = s.zone.page x := by
  refine h.zone.page x ⟨nofun, fun y hy => ⟨b, hb, ?_⟩⟩
  exact PageRef.frame.inj hy ▸ hx

/-- No list from `order` up has a free block. -/
def Zone.CannotServe (z : Zone) (order : ℕ) : Prop :=
  ∀ k, order ≤ k → k ≤ maxOrder → z.freeList k = []

namespace PhysInv

variable {s : Phys} {live : Multiset Block} {U : Finset ℕ}

/-- Distinct held blocks have distinct heads. -/
theorem ordered_of_frame {z : Zone} {H : Multiset Block} (hframe : s.zone.Frame z (Kept H))
    (hord : ∀ b ∈ H, (s.zone.page b.base).order = b.order) :
    ∀ b ∈ H, (z.page b.base).order = b.order := by
  intro b hb
  rw [hframe.page b.base ⟨nofun, fun y hy => ⟨b, hb, PageRef.frame.inj hy ▸ b.base_mem⟩⟩]
  exact hord b hb

theorem kept_subset (s : Phys) (live : Multiset Block) :
    Kept live ⊆ Kept (live + magBlocks s.mags) :=
  Kept.mono fun _ hb => mem_add.mpr (.inl hb)

/-! ### Ownership moves -/

/-- **The buddy hands out** a block, or none can serve. -/
theorem buddyAlloc_spec (h : PhysInv s live U) (order : ℕ) :
    (buddyAlloc s.zone order = some (s.zone, none) ∧ s.zone.CannotServe order) ∨
    ∃ z p, buddyAlloc s.zone order = some (z, some p) ∧
      PhysInv { s with zone := z } (⟨p, order⟩ ::ₘ live) U ∧
      s.Frame { s with zone := z } live ∧ (z.page p).flags = { kernel := true } := by
  obtain ⟨fl, hinv⟩ := h.zone
  rcases hinv.buddyAlloc_spec order with ⟨heq, hnone⟩ |
    ⟨z, p, fl', heq, -, hinv', hframe, hord, hflags, -⟩
  · refine .inl ⟨heq, fun k hk hle => ?_⟩
    rw [hinv.freeList_eq hle]
    exact hnone k hk
  · refine .inr ⟨z, p, heq, ⟨⟨fl', ?_⟩, h.counts, ?_⟩, ⟨?_, rfl⟩, hflags⟩
    · rwa [cons_add]
    · rw [cons_add]
      exact Multiset.forall_mem_cons.mpr ⟨hord, ordered_of_frame hframe h.ordered⟩
    · exact hframe.mono (kept_subset s live)

variable {i : ℕ × ℕ} {p k order : ℕ}

/-- **The buddy takes back** a block. -/
theorem buddyFree_spec (h : PhysInv s (⟨p, k⟩ ::ₘ live) U) :
    ∃ z, buddyFree s.zone p k = some z ∧ PhysInv { s with zone := z } live U ∧
      s.Frame { s with zone := z } live := by
  obtain ⟨fl, hinv⟩ := h.zone
  rw [cons_add] at hinv
  obtain ⟨z, fl', hz, hinv', hframe, -⟩ := hinv.buddyFree_spec
  refine ⟨z, hz, ⟨⟨fl', hinv'⟩, h.counts, ordered_of_frame hframe fun b hb => h.ordered b ?_⟩,
    hframe.mono (kept_subset s live), rfl⟩
  rw [cons_add]
  exact mem_cons_of_mem hb

/-- **A magazine takes** a block. -/
theorem push (h : PhysInv s (⟨p, magIdxToOrder i.2⟩ ::ₘ live) U)
    (hi : i ∈ magSlotSet) (hlen : (s.mags i).length < magazineSize) :
    PhysInv (s.setMag i (p :: s.mags i)) live U := by
  have hblocks : live + magBlocks (s.setMag i (p :: s.mags i)).mags =
      ⟨p, magIdxToOrder i.2⟩ ::ₘ live + magBlocks s.mags := by
    have hpush : magBlocks (Function.update s.mags i (p :: s.mags i)) =
        ⟨p, magIdxToOrder i.2⟩ ::ₘ magBlocks s.mags := gather_push _ s.mags hi p
    rw [Phys.setMag, hpush, add_cons, cons_add]
  refine ⟨?_, ?_, ?_⟩
  · rw [hblocks]
    exact h.zone
  · intro j hj
    by_cases hji : j = i
    · subst hji
      simpa [Phys.setMag, Nat.succ_le_iff] using hlen
    · simpa [Phys.setMag, hji] using h.counts j hj
  · rw [hblocks]
    exact h.ordered

/-- **A magazine gives up** its top block. -/
theorem pop {m : List ℕ} (h : PhysInv s live U) (hi : i ∈ magSlotSet) (hm : s.mags i = p :: m) :
    PhysInv (s.setMag i m) (⟨p, magIdxToOrder i.2⟩ ::ₘ live) U := by
  have hblocks : ⟨p, magIdxToOrder i.2⟩ ::ₘ live + magBlocks (s.setMag i m).mags =
      live + magBlocks s.mags := by
    have hpop : ⟨p, magIdxToOrder i.2⟩ ::ₘ magBlocks (Function.update s.mags i m) =
        magBlocks s.mags := gather_pop hi hm
    rw [Phys.setMag, ← hpop, add_cons, cons_add]
  refine ⟨?_, ?_, ?_⟩
  · rw [hblocks]
    exact h.zone
  · intro j hj
    by_cases hji : j = i
    · subst hji
      have hlen := h.counts j hj
      rw [hm] at hlen
      simpa [Phys.setMag] using Nat.le_of_succ_le hlen
    · simpa [Phys.setMag, hji] using h.counts j hj
  · rw [hblocks]
    exact h.ordered

/-- **A holder rewrites** the descriptor of its block. -/
theorem stampPage (h : PhysInv s (⟨p, k⟩ ::ₘ live) U) (pg : Page)
    (hord : pg.order = k) (hfree : pg.flags.free = false) :
    PhysInv { s with zone := s.zone.stampPage p pg } (⟨p, k⟩ ::ₘ live) U ∧
      s.Frame { s with zone := s.zone.stampPage p pg } live := by
  obtain ⟨fl, hinv⟩ := h.zone
  rw [cons_add] at hinv
  have hne : ∀ x, PageRef.frame x ∈ Kept (live + magBlocks s.mags) → x ≠ p := by
    rintro x hx rfl
    exact hinv.kept_not_mem hx (Block.base_mem _)
  have hframe : s.zone.Frame (s.zone.stampPage p pg) (Kept (live + magBlocks s.mags)) := by
    refine ⟨rfl, rfl, rfl, rfl, fun r hr => ?_, fun x hx => ?_⟩
    · have hrp : r ≠ .frame p := fun e => hne p (e ▸ hr) rfl
      simp [Zone.stampPage, Links.setNext, Links.setPrev, hrp]
    · exact Function.update_of_ne (hne x hx) _ _
  refine ⟨⟨⟨fl, ?_⟩, h.counts, ?_⟩, hframe.mono (kept_subset s live), rfl⟩
  · rw [cons_add]
    exact (hinv.stamp hfree).mono (by simp)
  · have hlive := h.ordered
    rw [cons_add] at hlive ⊢
    refine Multiset.forall_mem_cons.mpr ⟨?_, ?_⟩
    · simpa [Zone.stampPage, Zone.setPage] using hord
    · exact ordered_of_frame hframe (Multiset.forall_mem_cons.mp hlive).2

section

variable (h : PhysInv s live U)
include h

/-- A holder rewrites the fields of its descriptor. -/
theorem setPage {b : Block} (hb : b ∈ live) (pg : Page) (hord : pg.order = b.order)
    (hfree : pg.flags.free = false) :
    PhysInv { s with zone := s.zone.setPage b.base pg } live U := by
  obtain ⟨fl, hinv⟩ := h.zone
  have hb' : b ∈ live + magBlocks s.mags := mem_add.mpr (.inl hb)
  refine ⟨⟨fl, (hinv.setPage_held hb' b.base_mem hfree).mono (by simp)⟩, h.counts, ?_⟩
  intro d hd
  by_cases hdb : d.base = b.base
  · have heq : d = b := hinv.tiling.eq_of_mem (mem_add.mpr (.inr hd))
      (mem_add.mpr (.inr hb')) d.base_mem (hdb ▸ b.base_mem)
    simpa [Zone.setPage, heq] using hord
  · simpa [Zone.setPage, hdb] using h.ordered d hd

/-- Holders write the links of their descriptors. -/
theorem setLinks {L : Links PageRef} {S : Set PageRef} (hag : AgreeOff s.zone.links L S)
    (hS : S ⊆ Kept live) :
    PhysInv { s with zone := { s.zone with links := L } } live U := by
  obtain ⟨fl, hinv⟩ := h.zone
  refine ⟨⟨fl, hinv.setLinks hag fun k r hr hmem => ?_⟩, h.counts, h.ordered⟩
  exact hinv.kept_not_node (kept_subset s live (hS hmem)) k hr

/-! ### Magazine operations -/

/-- **`mag_refill`** fills a magazine, unless the buddy cannot serve. -/
theorem magRefill_spec (hi : i ∈ magSlotSet) (fuel : ℕ) :
    ∃ s', magRefill i (magIdxToOrder i.2) fuel s = some s' ∧ PhysInv s' live U ∧
      s.Frame s' live ∧ (s.mags i).length ≤ (s'.mags i).length ∧
      (0 < fuel → s'.mags i = [] → s' = s ∧ s.zone.CannotServe (magIdxToOrder i.2)) := by
  induction fuel generalizing s with
  | zero => exact ⟨s, rfl, h, Phys.Frame.refl s live, le_rfl, fun hpos => absurd hpos (lt_irrefl 0)⟩
  | succ fuel ih =>
    by_cases hlt : (s.mags i).length < magazineSize / 2
    swap
    · refine ⟨s, by rw [magRefill, if_neg hlt], h, Phys.Frame.refl s live, le_rfl,
        fun _ hnil => absurd ?_ hlt⟩
      rw [hnil]
      decide
    rcases h.buddyAlloc_spec (magIdxToOrder i.2) with ⟨heq, hnone⟩ | ⟨z, p, heq, hinv, hframe, -⟩
    · exact ⟨s, by simp [magRefill, heq], h, Phys.Frame.refl s live, le_rfl,
        fun _ _ => ⟨rfl, hnone⟩⟩
    · have hroom : (s.mags i).length < magazineSize := hlt.trans (by decide)
      obtain ⟨s', hs', hinv', hframe', hlen, -⟩ := ih (hinv.push hi hroom)
      have hpush : (s.mags i).length + 1 ≤ (s'.mags i).length := by simpa [Phys.setMag] using hlen
      refine ⟨s', by simp [magRefill, hlt, heq, hs'], hinv',
        hframe.trans ⟨hframe'.zone, hframe'.charged⟩, by omega, fun _ hnil => ?_⟩
      rw [hnil, List.length_nil] at hpush
      omega

/-- **Draining** returns a magazine's top blocks. -/
theorem drainTo_spec (hi : i ∈ magSlotSet) (target fuel : ℕ) (hfuel : (s.mags i).length ≤ fuel) :
    ∃ s', drainTo i (magIdxToOrder i.2) target fuel s = some s' ∧
      PhysInv s' live U ∧ s.Frame s' live ∧ (s'.mags i).length ≤ target := by
  induction fuel generalizing s with
  | zero => exact ⟨s, rfl, h, Phys.Frame.refl s live, by omega⟩
  | succ fuel ih =>
    cases hm : s.mags i with
    | nil => exact ⟨s, by simp [drainTo, hm], h, Phys.Frame.refl s live, by simp [hm]⟩
    | cons p m =>
      by_cases hlt : target < m.length + 1
      swap
      · refine ⟨s, by simp [drainTo, hm, hlt], h, Phys.Frame.refl s live, ?_⟩
        rw [hm, List.length_cons]
        omega
      obtain ⟨z, hz, hinv, hframe⟩ := (h.pop hi hm).buddyFree_spec
      rw [hm, List.length_cons] at hfuel
      obtain ⟨s', hs', hinv', hframe', hlen⟩ := ih hinv (by simp [Phys.setMag]; omega)
      refine ⟨s', ?_, hinv', ⟨hframe.zone.trans hframe'.zone, hframe'.charged⟩, hlen⟩
      have hz' : buddyFree s.zone p (magIdxToOrder i.2) = some z := hz
      simp only [drainTo, hm, if_pos hlt, hz']
      exact hs'

end

/-- A managed order has its magazine. -/
theorem orderToMagIdx_spec {idx : ℕ} (h : orderToMagIdx order = some idx) (cpu : ℕ) :
    magIdxToOrder idx = order ∧ (myCpu cpu, idx) ∈ magSlotSet := by
  have hcpu : myCpu cpu < nCpus := by
    rw [myCpu]
    split
    · assumption
    · decide
  rw [orderToMagIdx] at h
  split_ifs at h with h0 h9
  · cases h
    exact ⟨h0.symm, Finset.mem_product.mpr ⟨Finset.mem_range.mpr hcpu, Finset.mem_range.mpr Nat.two_pos⟩⟩
  · cases h
    exact ⟨h9.symm, Finset.mem_product.mpr ⟨Finset.mem_range.mpr hcpu, Finset.mem_range.mpr Nat.one_lt_two⟩⟩

/-- A magazine empty after the refill: nothing happened. -/
theorem magFillEmpty_spec (h : PhysInv s live U) (hi : i ∈ magSlotSet) :
    ∃ s', magFillEmpty i s = some s' ∧ PhysInv s' live U ∧ s.Frame s' live ∧
      (s'.mags i = [] →
      s' = s ∧ s.mags i = [] ∧ s.zone.CannotServe (magIdxToOrder i.2)) := by
  by_cases hnil : (s.mags i).length = 0
  · obtain ⟨s', hs', hinv, hframe, -, hempty⟩ := h.magRefill_spec hi (magazineSize / 2)
    refine ⟨s', by rw [magFillEmpty, if_pos hnil]; exact hs', hinv, hframe, ?_⟩
    intro hn
    obtain ⟨heq, hserve⟩ := hempty (by decide) hn
    exact ⟨heq, List.length_eq_zero_iff.mp hnil, hserve⟩
  · exact ⟨s, by rw [magFillEmpty, if_neg hnil], h, Phys.Frame.refl s live,
      fun hn => absurd (by rw [hn]; rfl) hnil⟩

/-- After the drain step there is room for an entry. -/
theorem magDrainFull_spec (h : PhysInv s live U) (hi : i ∈ magSlotSet) :
    ∃ s', magDrainFull i s = some s' ∧ PhysInv s' live U ∧ s.Frame s' live ∧
      (s'.mags i).length < magazineSize := by
  by_cases hfull : (s.mags i).length = magazineSize
  · obtain ⟨s', hs', hinv, hframe, hlen⟩ := h.drainTo_spec hi (magazineSize / 2) _ le_rfl
    exact ⟨s', by rw [magDrainFull, if_pos hfull]; exact hs', hinv, hframe,
      hlen.trans_lt (by decide)⟩
  · exact ⟨s, by rw [magDrainFull, if_neg hfull], h, Phys.Frame.refl s live,
      lt_of_le_of_ne (h.counts i hi) hfull⟩

/-- **`mag_alloc`** hands out a block, or changes nothing: magazine and buddy could not serve. -/
theorem magAlloc_spec (h : PhysInv s live U) (cpu order : ℕ) :
    (magAlloc s cpu order = some (s, none) ∧ ∀ idx, orderToMagIdx order = some idx →
      s.mags (myCpu cpu, idx) = [] ∧ s.zone.CannotServe order) ∨
    ∃ s' p, magAlloc s cpu order = some (s', some p) ∧
      PhysInv s' (⟨p, order⟩ ::ₘ live) U ∧ s.Frame s' live ∧
      (s'.zone.page p).flags = { kernel := true } := by
  cases hidx : orderToMagIdx order with
  | none => exact .inl ⟨by simp [magAlloc, hidx], fun idx hi => absurd hi (by simp)⟩
  | some idx =>
    obtain ⟨rfl, hi⟩ := orderToMagIdx_spec hidx cpu
    have hcount : ¬ magazineSize < (s.mags (myCpu cpu, idx)).length := not_lt.mpr (h.counts _ hi)
    obtain ⟨s₁, hs₁, hinv₁, hframe₁, hempty⟩ := h.magFillEmpty_spec hi
    cases hm : s₁.mags (myCpu cpu, idx) with
    | nil =>
      obtain ⟨rfl, hnil, hserve⟩ := hempty hm
      refine .inl ⟨?_, fun idx' hidx' => ?_⟩
      · simp [magAlloc, hidx, hs₁, hm]
      · cases hidx'
        exact ⟨hnil, hserve⟩
    | cons p m =>
      have hpop := hinv₁.pop hi hm
      obtain ⟨hinv₂, hframe₂⟩ := hpop.stampPage { s₁.zone.page p with
        order := magIdxToOrder idx, flags := { kernel := true }, refcount := 1 } rfl rfl
      refine .inr ⟨_, p, ?_, hinv₂, hframe₁.trans ⟨hframe₂.zone, hframe₂.charged⟩, ?_⟩
      · simp only [magAlloc, hidx, if_neg hcount, hs₁, bind_eq_bind, bind_some, hm]
        rfl
      · simp [Zone.stampPage, Zone.setPage]

/-- **`mag_free`** takes a block of a managed order. -/
theorem magFree_spec (h : PhysInv s (⟨p, order⟩ ::ₘ live) U) (cpu : ℕ) :
    (magFree s cpu p order = some (s, false)) ∨
    ∃ s', magFree s cpu p order = some (s', true) ∧ PhysInv s' live U ∧ s.Frame s' live := by
  cases hidx : orderToMagIdx order with
  | none => exact .inl (by simp [magFree, hidx])
  | some idx =>
    obtain ⟨rfl, hi⟩ := orderToMagIdx_spec hidx cpu
    have hord : (s.zone.page p).order = magIdxToOrder idx :=
      h.ordered ⟨p, magIdxToOrder idx⟩ (mem_add.mpr (.inl (mem_cons_self _ _)))
    obtain ⟨hinv₁, hframe₁⟩ := h.stampPage { s.zone.page p with flags := {} } hord rfl
    obtain ⟨s₂, hs₂, hinv₂, hframe₂, hlen⟩ := hinv₁.magDrainFull_spec hi
    have hcount : ¬ magazineSize < (s.mags (myCpu cpu, idx)).length := not_lt.mpr (h.counts _ hi)
    have hkeep : Phys.Frame _ s₂ live := hframe₂.mono fun b hb => mem_cons_of_mem hb
    refine .inr ⟨s₂.setMag (myCpu cpu, idx) (p :: s₂.mags (myCpu cpu, idx)), ?_,
      hinv₂.push hi hlen, hframe₁.trans ⟨hkeep.zone, hkeep.charged⟩⟩
    simp only [magFree, hidx, if_neg hcount, hs₂, bind_eq_bind, bind_some]

end PhysInv

end Thylacine
