import Thylacine.Mm.BuddySystem
import Thylacine.Mm.PhysInvariant

/-!
# Runs of the Page Interface

`alloc_pages`, `free_pages` and `magazines_drain_all` called on any CPUs. A call of
`alloc_pages` is two atomic halves, `mag_alloc` and, on a miss, `buddy_alloc`, and other
calls may run between them; a call between its halves is *pending*. A pending call carries
the state its `mag_alloc` saw, which no step reads: it is there to say what the call found.

## Main results

* `page_conservation`: in every reachable state the blocks handed out, the blocks in
  magazines and the free blocks are disjoint and make up the managed frames, magazines are
  within their bounds and hold blocks of their order that are not marked free, nothing
  faults, and `NULL` is returned only for want of a block.
-/

namespace Thylacine

open Dyadic IntrusiveList ListFamily Multiset

/-! ### Whole calls -/

namespace PhysInv

variable {s : Phys} {live : Multiset Block} {U : Finset ℕ}

/-- **`free_pages`** of an untagged block. -/
theorem freePages_spec {p order : ℕ} (h : PhysInv s (⟨p, order⟩ ::ₘ live) U)
    (huser : (s.zone.page p).flags.user = false) (cpu : ℕ) :
    ∃ s', freePages s cpu p order = some s' ∧ PhysInv s' live U ∧ s.Frame s' live := by
  have huntag : untagUser s p order = s := by simp [untagUser, huser]
  rcases h.magFree_spec cpu with hmag | ⟨s', hmag, hinv, hframe⟩
  · obtain ⟨z, hz, hinv, hframe⟩ := h.buddyFree_spec
    exact ⟨_, by simp [freePages, huntag, hmag, hz], hinv, hframe⟩
  · exact ⟨s', by simp [freePages, huntag, hmag], hinv, hframe⟩

/-- **`alloc_pages`** without interference hands out a block, or nothing can serve. -/
theorem allocPages_spec (h : PhysInv s live U) (cpu order : ℕ) :
    (allocPages s cpu order = some (s, none) ∧ s.zone.CannotServe order ∧
      ∀ idx, orderToMagIdx order = some idx → s.mags (myCpu cpu, idx) = []) ∨
    ∃ s' p, allocPages s cpu order = some (s', some p) ∧
      PhysInv s' (⟨p, order⟩ ::ₘ live) U ∧ s.Frame s' live ∧
      (s'.zone.page p).flags = { kernel := true } := by
  rcases h.magAlloc_spec cpu order with ⟨hmag, hmiss⟩ | ⟨s', p, hmag, hinv, hframe, hflags⟩
  · rcases h.buddyAlloc_spec order with ⟨hb, hserve⟩ | ⟨z, p, hb, hinv, hframe, hflags⟩
    · exact .inl ⟨by simp [allocPages, hmag, hb], hserve, fun idx hidx => (hmiss idx hidx).1⟩
    · exact .inr ⟨_, p, by simp [allocPages, hmag, hb], hinv, hframe, hflags⟩
  · exact .inr ⟨s', p, by simp [allocPages, hmag], hinv, hframe, hflags⟩

/-- **`magazines_drain_all`** empties the magazines. -/
theorem magazinesDrainAll_spec (h : PhysInv s live U) :
    ∃ s', magazinesDrainAll s = some s' ∧ PhysInv s' live U ∧ s.Frame s' live := by
  have hslots : ∀ i ∈ magSlots, i ∈ magSlotSet := by decide
  rw [magazinesDrainAll]
  generalize magSlots = slots at hslots
  induction slots generalizing s with
  | nil => exact ⟨s, rfl, h, Phys.Frame.refl s live⟩
  | cons i slots ih =>
    obtain ⟨s₁, hs₁, hinv₁, hframe₁, -⟩ := h.drainTo_spec (hslots i List.mem_cons_self) 0 _ le_rfl
    obtain ⟨s', hs', hinv', hframe'⟩ := ih hinv₁ fun j hj => hslots j (List.mem_cons_of_mem i hj)
    refine ⟨s', ?_, hinv', hframe₁.trans hframe'⟩
    rw [List.foldlM_cons, hs₁]
    exact hs'

end PhysInv

/-! ### Runs -/

/-- `alloc_pages` between its halves, with the allocator `mag_alloc` saw. -/
structure PendingAlloc where
  cpu : ℕ
  order : ℕ
  atMiss : Phys

/-- The allocator, the callers' blocks and the calls between halves. -/
structure PhysState where
  phys : Phys
  live : Multiset Block
  pending : Multiset PendingAlloc

/-- One atomic step of some CPU. -/
inductive PhysStep : PhysState → PhysState → Prop
  /-- `alloc_pages` is served by the magazine of its CPU. -/
  | magHit {s : PhysState} {cpu order pfn : ℕ} {p : Phys}
      (h : magAlloc s.phys cpu order = some (p, some pfn)) :
      PhysStep s ⟨p, ⟨pfn, order⟩ ::ₘ s.live, s.pending⟩
  /-- `alloc_pages` misses in its magazine. -/
  | magMiss {s : PhysState} {cpu order : ℕ} {p : Phys}
      (h : magAlloc s.phys cpu order = some (p, none)) :
      PhysStep s ⟨p, s.live, ⟨cpu, order, s.phys⟩ ::ₘ s.pending⟩
  /-- A pending `alloc_pages` is served by the buddy. -/
  | buddyHit {s : PhysState} {c : PendingAlloc} {rest : Multiset PendingAlloc} {z : Zone}
      {pfn : ℕ} (hp : s.pending = c ::ₘ rest)
      (h : buddyAlloc s.phys.zone c.order = some (z, some pfn)) :
      PhysStep s ⟨{ s.phys with zone := z }, ⟨pfn, c.order⟩ ::ₘ s.live, rest⟩
  /-- A pending `alloc_pages` returns `NULL`. -/
  | buddyNull {s : PhysState} {c : PendingAlloc} {rest : Multiset PendingAlloc} {z : Zone}
      (hp : s.pending = c ::ₘ rest) (h : buddyAlloc s.phys.zone c.order = some (z, none)) :
      PhysStep s ⟨{ s.phys with zone := z }, s.live, rest⟩
  /-- `free_pages` of a live block at its order, on any CPU. -/
  | free {s : PhysState} {cpu order pfn : ℕ} {p : Phys} (hmem : ⟨pfn, order⟩ ∈ s.live)
      (h : freePages s.phys cpu pfn order = some p) :
      PhysStep s ⟨p, s.live.erase ⟨pfn, order⟩, s.pending⟩
  /-- `magazines_drain_all`. -/
  | drainAll {s : PhysState} {p : Phys} (h : magazinesDrainAll s.phys = some p) :
      PhysStep s ⟨p, s.live, s.pending⟩

/-- What a miss found: if the order has a magazine, it was empty and the buddy unable to serve. -/
def PendingAlloc.FoundNone (c : PendingAlloc) : Prop :=
  ∀ idx, orderToMagIdx c.order = some idx →
    c.atMiss.mags (myCpu c.cpu, idx) = [] ∧ c.atMiss.zone.CannotServe c.order

/-- A state's property, as stored; `U` are the managed frames. -/
structure PhysState.Ok (s : PhysState) (U : Finset ℕ) : Prop where
  /-- Each managed frame is in exactly one block that is free, in a magazine or handed
  out. -/
  cover : ∀ x, (s.phys.zone.freeBlocks + magBlocks s.phys.mags + s.live).countP (x ∈ ·) =
    if x ∈ U then 1 else 0
  /-- No block is handed out twice. -/
  nodup : s.live.Nodup
  /-- The total is constant. -/
  total : s.phys.zone.totalFreePages + ((magBlocks s.phys.mags).map Block.size).sum +
    (s.live.map Block.size).sum = U.card
  counts : ∀ cpu < nCpus, ∀ idx < numMagOrders, (s.phys.mags (cpu, idx)).length ≤ magazineSize
  /-- A stored entry is a block of the order of its magazine, and not marked free. -/
  entries : ∀ cpu < nCpus, ∀ idx < numMagOrders, ∀ p ∈ s.phys.mags (cpu, idx),
    2 ^ magIdxToOrder idx ∣ p ∧ (s.phys.zone.page p).order = magIdxToOrder idx ∧
    ∀ x ∈ (⟨p, magIdxToOrder idx⟩ : Block), x ∈ U ∧ (s.phys.zone.page x).flags.free = false
  /-- No half of a call faults. -/
  magAlloc : ∀ cpu order, ∃ r, magAlloc s.phys cpu order = some r
  free : ∀ b ∈ s.live, ∀ cpu, ∃ p, freePages s.phys cpu b.base b.order = some p
  drainAll : ∃ p, magazinesDrainAll s.phys = some p
  /-- A pending call does not fault, and if it returns `NULL` the buddy cannot serve it now
  and its magazine could not when it looked. -/
  pending : ∀ c ∈ s.pending, ∃ z r, buddyAlloc s.phys.zone c.order = some (z, r) ∧
    (r = none → s.phys.zone.CannotServe c.order ∧ c.FoundNone)
  /-- A call with nothing between its halves returns `NULL` only if neither the magazine of
  its CPU nor the buddy has a block for it. -/
  alloc : ∀ cpu order, ∃ p r, allocPages s.phys cpu order = some (p, r) ∧
    (r = none → s.phys.zone.CannotServe order ∧
      ∀ idx, orderToMagIdx order = some idx → s.phys.mags (myCpu cpu, idx) = [])

/-- The invariant of runs. -/
structure PhysState.Inv (s : PhysState) (U : Finset ℕ) : Prop where
  phys : PhysInv s.phys s.live U
  untagged : ∀ b ∈ s.live, (s.phys.zone.page b.base).flags.user = false
  found : ∀ c ∈ s.pending, c.FoundNone

theorem PhysState.Inv.ok {s : PhysState} {U : Finset ℕ} (h : s.Inv U) : s.Ok U := by
  obtain ⟨fl, hinv⟩ := h.phys.zone
  have hfb := hinv.freeBlocks_eq
  have htile := hinv.tiling
  rw [← hfb, Multiset.add_comm s.live, ← Multiset.add_assoc] at htile
  have hslot : ∀ cpu < nCpus, ∀ idx < numMagOrders, (cpu, idx) ∈ magSlotSet :=
    fun cpu hc idx hi => Finset.mem_product.mpr ⟨Finset.mem_range.mpr hc, Finset.mem_range.mpr hi⟩
  refine ⟨htile.cover, ?_, ?_, fun cpu hc idx hi => h.phys.counts _ (hslot cpu hc idx hi), ?_,
    ?_, ?_, ?_, ?_, ?_⟩
  · exact (nodup_add.mp htile.nodup).2.1
  · rw [hinv.total, ← hfb, ← sum_add, ← map_add, ← sum_add, ← map_add]
    exact htile.sum_size
  · intro cpu hc idx hi p hp
    have hb : (⟨p, magIdxToOrder idx⟩ : Block) ∈ s.live + magBlocks s.phys.mags :=
      mem_add.mpr (.inr (mem_gather.mpr ⟨(cpu, idx), hslot cpu hc idx hi, p, hp, rfl⟩))
    have hb' := mem_add.mpr (.inr hb : (⟨p, magIdxToOrder idx⟩ : Block) ∈ freeBlocks fl ∨ _)
    exact ⟨hinv.tiling.aligned _ hb', h.phys.ordered _ hb, fun x hx =>
      ⟨hinv.tiling.mem_of_mem hb' hx, hinv.flag_eq_false_of_held hb hx⟩⟩
  · intro cpu order
    rcases h.phys.magAlloc_spec cpu order with ⟨hmag, -⟩ | ⟨s', p, hmag, -⟩
    · exact ⟨_, hmag⟩
    · exact ⟨_, hmag⟩
  · intro b hb cpu
    have huser := h.untagged b hb
    have hphys := h.phys
    rw [← cons_erase hb] at hphys
    obtain ⟨p, hp, -⟩ := hphys.freePages_spec huser cpu
    exact ⟨p, hp⟩
  · obtain ⟨p, hp, -⟩ := h.phys.magazinesDrainAll_spec
    exact ⟨p, hp⟩
  · intro c hc
    rcases h.phys.buddyAlloc_spec c.order with ⟨hb, hserve⟩ | ⟨z, p, hb, -⟩
    · exact ⟨_, _, hb, fun _ => ⟨hserve, h.found c hc⟩⟩
    · exact ⟨_, _, hb, nofun⟩
  · intro cpu order
    rcases h.phys.allocPages_spec cpu order with ⟨ha, hserve, hmag⟩ | ⟨s', p, ha, -⟩
    · exact ⟨_, _, ha, fun _ => ⟨hserve, hmag⟩⟩
    · exact ⟨_, _, ha, nofun⟩

section

variable {s s' : Phys} {live : Multiset Block} (h : s.Frame s' live)
  (hun : ∀ b ∈ live, (s.zone.page b.base).flags.user = false)
include h hun

/-- A framed operation keeps the live blocks untagged. -/
theorem Phys.Frame.untagged : ∀ b ∈ live, (s'.zone.page b.base).flags.user = false := by
  intro b hb
  rw [h.page_eq hb b.base_mem]
  exact hun b hb

/-- A fresh block keeps the live ones untagged. -/
theorem Phys.Frame.untagged_cons {pfn order : ℕ}
    (hflags : (s'.zone.page pfn).flags = { kernel := true }) :
    ∀ b ∈ (⟨pfn, order⟩ : Block) ::ₘ live, (s'.zone.page b.base).flags.user = false := by
  refine Multiset.forall_mem_cons.mpr ⟨?_, h.untagged hun⟩
  rw [hflags]

end

/-- **One step** keeps the invariant. -/
theorem PhysStep.inv {s s' : PhysState} (hstep : PhysStep s s') {U : Finset ℕ}
    (h : s.Inv U) : s'.Inv U := by
  cases hstep with
  | @magHit cpu order pfn p heq =>
    obtain ⟨⟨⟩, -⟩ | ⟨_, ⟨⟩, hinv, hframe, hflags⟩ :=
      alloc_answer heq (h.phys.magAlloc_spec cpu order)
    exact ⟨hinv, hframe.untagged_cons h.untagged hflags, h.found⟩
  | @magMiss cpu order p heq =>
    obtain ⟨-, rfl, hfound⟩ | ⟨_, ⟨⟩, -⟩ := alloc_answer heq (h.phys.magAlloc_spec cpu order)
    exact ⟨h.phys, h.untagged, forall_mem_cons.mpr ⟨hfound, h.found⟩⟩
  | @buddyHit c rest z pfn hp heq =>
    have hfound : ∀ c' ∈ rest, c'.FoundNone := fun c' hc' => h.found c' (hp ▸ mem_cons_of_mem hc')
    obtain ⟨⟨⟩, -⟩ | ⟨_, ⟨⟩, hinv, hframe, hflags⟩ :=
      alloc_answer heq (h.phys.buddyAlloc_spec c.order)
    exact ⟨hinv, hframe.untagged_cons h.untagged hflags, hfound⟩
  | @buddyNull c rest z hp heq =>
    have hfound : ∀ c' ∈ rest, c'.FoundNone := fun c' hc' => h.found c' (hp ▸ mem_cons_of_mem hc')
    obtain ⟨-, rfl, -⟩ | ⟨_, ⟨⟩, -⟩ := alloc_answer heq (h.phys.buddyAlloc_spec c.order)
    exact ⟨h.phys, h.untagged, hfound⟩
  | @free cpu order pfn p hmem heq =>
    have huser := h.untagged _ hmem
    have hphys := h.phys
    rw [← cons_erase hmem] at hphys
    obtain ⟨p', hp', hinv, hframe⟩ := hphys.freePages_spec huser cpu
    rw [heq, Option.some.injEq] at hp'
    subst hp'
    exact ⟨hinv, hframe.untagged fun b hb => h.untagged b (mem_of_mem_erase hb), h.found⟩
  | @drainAll p heq =>
    obtain ⟨p', hp', hinv, hframe⟩ := h.phys.magazinesDrainAll_spec
    rw [heq, Option.some.injEq] at hp'
    subst hp'
    exact ⟨hinv, hframe.untagged h.untagged, h.found⟩

/-- **A run** keeps the invariant. -/
theorem PhysStep.run_inv {s s' : PhysState} (hrun : Relation.ReflTransGen PhysStep s s')
    {U : Finset ℕ} (h : s.Inv U) : s'.Inv U := by
  induction hrun with
  | refl => exact h
  | tail _ hstep ih => exact hstep.inv ih

/-- After boot: a seeded zone and empty magazines. -/
theorem physInv_boot {z : Zone} {fl : ℕ → List ℕ} {U : Finset ℕ} (h : ZoneInv z fl ∅ 0 U)
    (mags : ℕ × ℕ → List ℕ) (charged : ℕ) :
    PhysInv (magazinesInit ⟨z, mags, charged⟩) 0 U := by
  have hnil : ∀ i ∈ magSlotSet, (magazinesInit ⟨z, mags, charged⟩).mags i = [] := by
    intro i hi
    obtain ⟨hc, hx⟩ := Finset.mem_product.mp hi
    exact if_pos ⟨Finset.mem_range.mp hc, Finset.mem_range.mp hx⟩
  refine ⟨⟨fl, ?_⟩, fun i hi => ?_, fun b hb => ?_⟩
  · exact h
  · rw [hnil i hi]
    exact Nat.zero_le _
  · exact absurd hb (notMem_zero b)

/-- **Page conservation.** After boot, in every state that calls on any CPUs can reach, the
page interface is consistent. -/
theorem page_conservation (mem : Zone) (zone : PageRange) (regions : List PageRange)
    (hs : Seeding zone regions) (mags : ℕ × ℕ → List ℕ) (charged : ℕ) :
    ∃ z, bootZone mem zone regions = some z ∧
      ∀ s, Relation.ReflTransGen PhysStep ⟨magazinesInit ⟨z, mags, charged⟩, 0, 0⟩ s →
        s.Ok (managed regions) := by
  obtain ⟨z, fl, hz, hinv, -, -⟩ := bootZone_spec mem hs
  refine ⟨z, hz, fun s hrun => (PhysStep.run_inv hrun ⟨?_, ?_, ?_⟩).ok⟩
  · exact physInv_boot hinv mags charged
  · exact fun b hb => absurd hb (notMem_zero b)
  · exact fun c hc => absurd hc (notMem_zero c)

theorem page_conservation_sixteen_pages :
    ∃ z, bootZone zeroMemory sixteenPages thirteenManaged = some z ∧
      ∀ s, Relation.ReflTransGen PhysStep ⟨magazinesInit ⟨z, fun _ => [], 0⟩, 0, 0⟩ s →
        s.Ok (Finset.Ico 3 8 ∪ Finset.Ico 11 19) :=
  page_conservation zeroMemory _ _ ⟨by decide, by decide⟩ _ _

end Thylacine
