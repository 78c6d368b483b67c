import Thylacine.Lib.ListFamily
import Thylacine.Mm.Buddy

/-!
# The Buddy Representation Invariant

`ZoneInv z fl E H U` says what a zone stores: the free lists of `z` are `fl`, and the free
blocks together with the blocks `H` held outside the lists tile the managed frames `U`.
The descriptor words agree with the lists (a descriptor carries `PG_FREE` with order `k`
exactly if it heads a block on list `k`) except at the frames of `E`, which is how the
states inside an operation are described: an unlinked block still carries its flag until
the operation rewrites it.

## Main results

The moves the allocator makes. Each move that writes comes with a frame condition: descriptors of
frames that stay held, and list heads of other owners, are not written (`Zone.Frame`).

* `ZoneInv.zoneFreeChunk_spec`, `ZoneInv.unlink`: pushing and unlinking a block exchange it between
  the lists and the held blocks and leave the tiling alone.
* `ZoneInv.split`, `ZoneInv.merge`: halving and joining held blocks leave the zone alone.
-/

namespace Thylacine

open Multiset (add_cons mem_add)
open Function (forall_update_iff update update_of_ne update_self)
open Dyadic IntrusiveList List ListFamily

/-! ### The blocks on the free lists -/

/-- The blocks of a family of free lists. -/
def freeBlocks (fl : ℕ → List ℕ) : Multiset Block :=
  gather (Finset.range (maxOrder + 1)) (fun k p => ⟨p, k⟩) fl

variable {z z' : Zone} {fl : ℕ → List ℕ} {K : Set PageRef}

theorem mem_freeBlocks {b : Block} :
    b ∈ freeBlocks fl ↔ b.order ≤ maxOrder ∧ b.base ∈ fl b.order := by
  obtain ⟨p, k⟩ := b
  simp only [freeBlocks, mem_gather, Finset.mem_range, Block.mk.injEq]
  constructor
  · rintro ⟨j, hj, q, hq, rfl, rfl⟩
    exact ⟨by omega, hq⟩
  · rintro ⟨hk, hp⟩
    exact ⟨k, by omega, p, hp, rfl, rfl⟩

theorem freeBlocks_push {p k : ℕ} (hk : k ≤ maxOrder) :
    freeBlocks (update fl k (p :: fl k)) = ⟨p, k⟩ ::ₘ freeBlocks fl :=
  gather_push _ fl (Finset.mem_range.mpr (by omega)) p

theorem freeBlocks_erase {p k : ℕ} (hk : k ≤ maxOrder) (hp : p ∈ fl k) :
    ⟨p, k⟩ ::ₘ freeBlocks (update fl k ((fl k).erase p)) = freeBlocks fl :=
  gather_erase (Finset.mem_range.mpr (by omega)) hp

/-- The blocks of the free lists, as linked. -/
def Zone.freeBlocks (z : Zone) : Multiset Block := Thylacine.freeBlocks z.freeList

/-- A list of array frames is what its links read. -/
theorem Zone.listFrom_eq {h : PageRef} {ps : List ℕ}
    (hl : IsList z.links h (frames ps)) (hin : ∀ p ∈ ps, z.InArray p) : z.listFrom h = ps := by
  have hnd : ps.Nodup := (nodup_cons.mp hl.nodup).2.of_map _
  have hlen : ps.length ≤ z.numPages := by
    have hsub : ps.toFinset ⊆ z.span := fun p hp => mem_span.mpr (hin p (mem_toFinset.mp hp))
    have hcard := Finset.card_le_card hsub
    rw [toFinset_card_of_nodup hnd, span, Nat.card_Ico] at hcard
    omega
  have hw : z.links.walk (z.numPages + 1) h = frames ps := by
    refine walk_eq_of_isList hl ?_
    rw [length_map]
    omega
  rw [listFrom, hw, filterMap_map]
  exact filterMap_some

/-! ### The invariant -/

/-- What a zone stores: the free lists `fl`, the frames `E` with flags not yet rewritten, the blocks
held `H`, the managed frames `U`. -/
structure ZoneInv (z : Zone) (fl : ℕ → List ℕ) (E : Set ℕ) (H : Multiset Block)
    (U : Finset ℕ) : Prop where
  base_eq : z.basePa = z.basePfn * 2 ^ pageShift
  end_eq : z.endPa = (z.basePfn + z.numPages) * 2 ^ pageShift
  managed : U ⊆ z.span
  lists : ∀ k ≤ maxOrder, IsList z.links (.freeHead k) (frames (fl k))
  beyond : ∀ k, maxOrder < k → fl k = []
  flagged : ∀ x, z.InArray x → x ∉ E → ∀ k,
    ((z.page x).flags.free = true ∧ (z.page x).order = k) ↔ x ∈ fl k
  perOrder : ∀ k ≤ maxOrder, z.freePagesPerOrder k = (fl k).length
  total : z.totalFreePages = ((freeBlocks fl).map Block.size).sum
  heldLe : ∀ b ∈ H, b.order ≤ maxOrder
  tiling : Tiling U (freeBlocks fl + H)

/-- What an operation leaves alone while `H` is held: its frames, and list heads not a zone's. -/
def Kept (H : Multiset Block) : Set PageRef :=
  {r | (∀ k, r ≠ .freeHead k) ∧ ∀ x, r = .frame x → ∃ b ∈ H, x ∈ b}

theorem Kept.mono {H H' : Multiset Block} (h : H ⊆ H') : Kept H ⊆ Kept H' :=
  fun _ hr => ⟨hr.1, fun x hx => (hr.2 x hx).imp fun _ hb => ⟨h hb.1, hb.2⟩⟩

/-- `z'` has the bounds of `z` and its descriptors on `K`. -/
structure Zone.Frame (z z' : Zone) (K : Set PageRef) : Prop where
  basePa : z'.basePa = z.basePa
  endPa : z'.endPa = z.endPa
  basePfn : z'.basePfn = z.basePfn
  numPages : z'.numPages = z.numPages
  links : ∀ r ∈ K, z'.links.next r = z.links.next r ∧ z'.links.prev r = z.links.prev r
  page : ∀ x, .frame x ∈ K → z'.page x = z.page x

theorem Zone.Frame.refl (z : Zone) (K : Set PageRef) : z.Frame z K :=
  ⟨rfl, rfl, rfl, rfl, fun _ _ => ⟨rfl, rfl⟩, fun _ _ => rfl⟩

theorem Zone.Frame.trans {z'' : Zone} (h : z.Frame z' K) (h' : z'.Frame z'' K) : z.Frame z'' K where
  basePa := h'.basePa.trans h.basePa
  endPa := h'.endPa.trans h.endPa
  basePfn := h'.basePfn.trans h.basePfn
  numPages := h'.numPages.trans h.numPages
  links r hr := ⟨(h'.links r hr).1.trans (h.links r hr).1, (h'.links r hr).2.trans (h.links r hr).2⟩
  page x hx := (h'.page x hx).trans (h.page x hx)

theorem Zone.Frame.mono {K' : Set PageRef} (h : z.Frame z' K) (hK : K' ⊆ K) : z.Frame z' K' :=
  { h with
    links := fun r hr => h.links r (hK hr)
    page := fun x hx => h.page x (hK hx) }

theorem Zone.Frame.span_eq (h : z.Frame z' K) : z'.span = z.span := by
  rw [span, span, h.basePfn, h.numPages]

namespace ZoneInv

variable {z : Zone} {fl : ℕ → List ℕ} {E : Set ℕ} {H : Multiset Block} {U : Finset ℕ}

variable {k p x : ℕ} {b : Block} {L : Links PageRef}

section

variable (h : ZoneInv z fl E H U)
include h

/-- A held frame is in the descriptor array. -/
theorem inArray_of_held (hb : b ∈ H) (hx : x ∈ b) : z.InArray x :=
  Zone.mem_span.mp (h.managed (h.tiling.mem_of_mem (mem_add.mpr (.inr hb)) hx))

/-- A free block is aligned, inside the managed frames. -/
theorem mem_of_free (hk : k ≤ maxOrder) (hp : p ∈ fl k) :
    2 ^ k ∣ p ∧ ∀ x ∈ (⟨p, k⟩ : Block), x ∈ U := by
  have hb : (⟨p, k⟩ : Block) ∈ freeBlocks fl + H := mem_add.mpr (.inl (mem_freeBlocks.mpr ⟨hk, hp⟩))
  exact ⟨h.tiling.aligned _ hb, fun x hx => h.tiling.mem_of_mem hb hx⟩

theorem order_le_of_mem (hp : p ∈ fl k) : k ≤ maxOrder := by
  by_contra hk
  rw [h.beyond k (by omega)] at hp
  exact not_mem_nil hp

theorem inArray_of_free (hp : p ∈ fl k) : z.InArray p :=
  Zone.mem_span.mp (h.managed ((h.mem_of_free (h.order_le_of_mem hp) hp).2 p (Block.base_mem _)))

/-- A held frame heads no free block. -/
theorem not_mem_free_of_held (hb : b ∈ H) (hx : x ∈ b) (k : ℕ) : x ∉ fl k := by
  intro hf
  obtain ⟨H', rfl⟩ := Multiset.exists_cons_of_mem hb
  have ht := h.tiling
  rw [add_cons] at ht
  exact ht.not_mem_tail (c := ⟨x, k⟩)
    (mem_add.mpr (.inl (mem_freeBlocks.mpr ⟨h.order_le_of_mem hf, hf⟩))) hx
    (Block.base_mem _)

/-- Free lists of different orders share no frame. -/
theorem order_unique {j : ℕ} (hj : p ∈ fl j) (hk : p ∈ fl k) : j = k := by
  have hbj : (⟨p, j⟩ : Block) ∈ freeBlocks fl + H :=
    mem_add.mpr (.inl (mem_freeBlocks.mpr ⟨h.order_le_of_mem hj, hj⟩))
  have hbk : (⟨p, k⟩ : Block) ∈ freeBlocks fl + H :=
    mem_add.mpr (.inl (mem_freeBlocks.mpr ⟨h.order_le_of_mem hk, hk⟩))
  have heq := h.tiling.eq_of_mem hbj hbk (Block.base_mem ⟨p, j⟩) (Block.base_mem ⟨p, k⟩)
  exact (Block.mk.inj heq).2

/-- Free lists of different orders share no node. -/
theorem nodes_disjoint {j : ℕ} (hjk : j ≠ k) :
    ∀ r ∈ PageRef.freeHead j :: frames (fl j), r ∉ PageRef.freeHead k :: frames (fl k) := by
  intro r hr hmem
  simp only [mem_cons] at hr hmem
  rcases hr with rfl | hr
  · rcases hmem with e | e
    · exact hjk (PageRef.freeHead.inj e)
    · obtain ⟨x, -, hx⟩ := mem_map.mp e
      cases hx
  · obtain ⟨x, hx, rfl⟩ := mem_map.mp hr
    rcases hmem with e | e
    · cases e
    · exact hjk (h.order_unique hx (frame_mem_frames.mp e))

/-- One free list is written, and no node of the others. -/
theorem lists_update {xs : List ℕ} {S : Set PageRef} (hlist : IsList L (.freeHead k) (frames xs))
    (hag : AgreeOff z.links L S)
    (hS : ∀ j ≠ k, ∀ r ∈ PageRef.freeHead j :: frames (fl j), r ∉ S) :
    ∀ j ≤ maxOrder, IsList L (.freeHead j) (frames (update fl k xs j)) :=
  (forall_update_iff fl fun j ps => j ≤ maxOrder → IsList L (.freeHead j) (frames ps)).mpr
    ⟨fun _ => hlist, fun j hjk hj => (h.lists j hj).of_agreeOff hag (hS j hjk)⟩

theorem beyond_update {xs : List ℕ} (hk : k ≤ maxOrder) (j : ℕ) (hj : maxOrder < j) :
    update fl k xs j = [] := by
  rw [update_of_ne (by omega)]
  exact h.beyond j hj

theorem perOrder_update {xs : List ℕ} {n : ℕ} (hn : n = xs.length) (j : ℕ) (hj : j ≤ maxOrder) :
    update z.freePagesPerOrder k n j = (update fl k xs j).length := by
  by_cases hjk : j = k
  · subst hjk
    simp [hn]
  · simp [update_of_ne hjk, h.perOrder j hj]

/-- A kept descriptor is not a node of a free list. -/
theorem kept_not_node {r : PageRef} (hr : r ∈ Kept H) (k : ℕ) :
    r ∉ PageRef.freeHead k :: frames (fl k) := by
  intro hmem
  rcases mem_cons.mp hmem with e | hmem
  · exact hr.1 k e
  · obtain ⟨x, hx, rfl⟩ := mem_map.mp hmem
    obtain ⟨b, hb, hxb⟩ := hr.2 x rfl
    exact h.not_mem_free_of_held hb hxb k hx

end

/-- A frame of the block in hand is not kept. -/
theorem kept_not_mem (h : ZoneInv z fl E (b ::ₘ H) U) (hx : PageRef.frame x ∈ Kept H) : x ∉ b := by
  intro hb
  obtain ⟨c, hc, hxc⟩ := hx.2 x rfl
  have ht := h.tiling
  rw [add_cons] at ht
  exact ht.not_mem_tail (mem_add.mpr (.inr hc)) hb hxc

section

variable (h : ZoneInv z fl E H U)
include h

/-- Growing the exempt set weakens the invariant. -/
theorem mono {E' : Set ℕ} (hE : E ⊆ E') : ZoneInv z fl E' H U :=
  { h with flagged := fun x hx hxE => h.flagged x hx fun hx' => hxE (hE hx') }

theorem nodup (hk : k ≤ maxOrder) : (fl k).Nodup := (nodup_cons.mp (h.lists k hk).nodup).2.of_map _

/-- The free lists are those read off the links. -/
theorem freeList_eq (hk : k ≤ maxOrder) : z.freeList k = fl k :=
  Zone.listFrom_eq (h.lists k hk) fun _ hp => h.inArray_of_free hp

theorem freeBlocks_eq : z.freeBlocks = freeBlocks fl := by
  exact gather_congr fun k hk => h.freeList_eq (Nat.le_of_lt_succ (Finset.mem_range.mp hk))

end

/-- A tiled frame that heads no free block is unflagged. -/
theorem flag_eq_false (h : ZoneInv z fl ∅ H U)
    (hb : b ∈ freeBlocks fl + H) (hx : x ∈ b) (hne : ∀ k, x ∉ fl k) :
    (z.page x).flags.free = false := by
  have hin := Zone.mem_span.mp (h.managed (h.tiling.mem_of_mem hb hx))
  refine Bool.eq_false_iff.mpr fun hf => hne (z.page x).order ?_
  exact (h.flagged x hin (Set.notMem_empty x) _).mp ⟨hf, rfl⟩

/-- No frame of a held block carries `PG_FREE`. -/
theorem flag_eq_false_of_held (h : ZoneInv z fl ∅ H U) (hb : b ∈ H)
    (hx : x ∈ b) : (z.page x).flags.free = false :=
  h.flag_eq_false (mem_add.mpr (.inr hb)) hx (h.not_mem_free_of_held hb hx)

/-! ### Moves between the lists and the held blocks -/

/-- New flags of a held frame, without `PG_FREE`. -/
theorem setPage_held (h : ZoneInv z fl E H U) (hb : b ∈ H) (hx : x ∈ b)
    {pg : Page} (hpg : pg.flags.free = false) :
    ZoneInv (z.setPage x pg) fl (E \ {x}) H U := by
  refine { h with flagged := ?_ }
  intro y hy hyE k
  by_cases hyx : y = x
  · subst hyx
    simp [Zone.setPage, hpg, h.not_mem_free_of_held hb hx k]
  · simp only [Zone.setPage, update_of_ne hyx]
    exact h.flagged y hy (fun hE => hyE ⟨hE, hyx⟩) k

/-- Writing the links of a descriptor on no free list. -/
theorem setLinks (h : ZoneInv z fl E H U) {S : Set PageRef}
    (hag : AgreeOff z.links L S) (hS : ∀ k, ∀ r ∈ PageRef.freeHead k :: frames (fl k), r ∉ S) :
    ZoneInv { z with links := L } fl E H U :=
  { h with lists := fun k hk => (h.lists k hk).of_agreeOff hag (hS k) }

/-- **Pushing** a held block on its free list. -/
theorem zoneFreeChunk_spec (h : ZoneInv z fl E (⟨p, k⟩ ::ₘ H) U) :
    ∃ z', zoneFreeChunk z p k = some z' ∧
      ZoneInv z' (update fl k (p :: fl k)) (E \ {p}) H U ∧ z.Frame z' (Kept H) := by
  have hb : (⟨p, k⟩ : Block) ∈ ⟨p, k⟩ ::ₘ H := Multiset.mem_cons_self _ _
  have hk : k ≤ maxOrder := h.heldLe _ hb
  have hp := h.inArray_of_held hb (Block.base_mem _)
  have hfresh := h.not_mem_free_of_held hb (Block.base_mem _)
  have hnew : PageRef.frame p ∉ PageRef.freeHead k :: frames (fl k) := by simp [hfresh k]
  obtain ⟨L, hpush, hlist, hag⟩ := (h.lists k hk).pushFront hnew
  refine ⟨_, by simp [zoneFreeChunk, Zone.pfnToPage, hp, Zone.setPage, hpush]; rfl, ?_, ?_⟩
  · refine ⟨h.base_eq, h.end_eq, h.managed, h.lists_update hlist hag fun j hjk r hr hmem => ?_,
      h.beyond_update hk, ?_, h.perOrder_update (by simp [h.perOrder k hk]), ?_, ?_, ?_⟩
    · rcases mem_cons.mp hmem with rfl | hmem
      · simp [hfresh j] at hr
      · exact h.nodes_disjoint hjk r hr hmem
    · intro x hx hxE j
      by_cases hxp : x = p
      · subst hxp
        by_cases hjk : j = k
        · subst hjk
          simp
        · simp [update_of_ne hjk, hfresh j, Ne.symm hjk]
      · have hE : x ∉ E := fun hE => hxE ⟨hE, hxp⟩
        simp only [update_of_ne hxp]
        rw [h.flagged x hx hE j]
        by_cases hjk : j = k
        · subst hjk
          simp [hxp]
        · rw [update_of_ne hjk]
    · have htot := h.total
      rw [freeBlocks_push hk, Multiset.map_cons, Multiset.sum_cons, Block.size_mk]
      simp only
      omega
    · exact (Multiset.forall_mem_cons.mp h.heldLe).2
    · rw [freeBlocks_push hk, Multiset.cons_add, ← add_cons]
      exact h.tiling
  · have hne : ∀ x, PageRef.frame x ∈ Kept H → x ≠ p := by
      rintro x hx rfl
      exact h.kept_not_mem hx (Block.base_mem _)
    refine ⟨rfl, rfl, rfl, rfl, ?_, ?_⟩
    · intro r hr
      refine hag r ?_
      simp only [Set.mem_ofPred_eq, mem_cons, not_or]
      have hnode := h.kept_not_node (Kept.mono (Multiset.subset_cons ..) hr) k
      simp only [mem_cons, not_or] at hnode
      exact ⟨fun e => hne p (e ▸ hr) rfl, hnode⟩
    · intro x hx
      exact update_of_ne (hne x hx) _ _

/-- **Unlinking** a free block: its base frame, still flagged, is exempt. -/
theorem unlink (h : ZoneInv z fl E H U) (hp : p ∈ fl k)
    (hlist : IsList L (.freeHead k) (frames ((fl k).erase p)))
    (hag : AgreeOff z.links L {r | r ∈ PageRef.freeHead k :: frames (fl k)}) :
    ZoneInv { z with
        links := L
        freePagesPerOrder := update z.freePagesPerOrder k (z.freePagesPerOrder k - 1)
        totalFreePages := z.totalFreePages - 2 ^ k }
      (update fl k ((fl k).erase p)) (insert p E) (⟨p, k⟩ ::ₘ H) U := by
  have hk := h.order_le_of_mem hp
  refine ⟨h.base_eq, h.end_eq, h.managed,
    h.lists_update hlist hag fun j hjk => h.nodes_disjoint hjk, h.beyond_update hk, ?_,
    h.perOrder_update (by rw [h.perOrder k hk, length_erase_of_mem hp]), ?_, ?_, ?_⟩
  · intro x hx hxE j
    have hxp : x ≠ p := fun e => hxE (Set.mem_insert_iff.mpr (.inl e))
    have hE : x ∉ E := fun hE => hxE (Set.mem_insert_of_mem p hE)
    rw [h.flagged x hx hE j]
    by_cases hjk : j = k
    · subst hjk
      rw [update_self, mem_erase_of_ne hxp]
    · rw [update_of_ne hjk]
  · have htot := h.total
    rw [← freeBlocks_erase hk hp, Multiset.map_cons, Multiset.sum_cons, Block.size_mk] at htot
    simp only
    omega
  · exact Multiset.forall_mem_cons.mpr ⟨hk, h.heldLe⟩
  · rw [add_cons, ← Multiset.cons_add, freeBlocks_erase hk hp]
    exact h.tiling

/-- Unlinking a free block writes no kept descriptor. -/
theorem kept_of_agreeOff (h : ZoneInv z fl E H U)
    (hag : AgreeOff z.links L {r | r ∈ PageRef.freeHead k :: frames (fl k)}) :
    ∀ r ∈ Kept H, L.next r = z.links.next r ∧ L.prev r = z.links.prev r :=
  fun r hr => hag r (h.kept_not_node hr k)

/-! ### Moves on the held blocks -/

/-- **Adopting** frames not managed yet, as one held block. -/
theorem adopt (h : ZoneInv z fl E H U) (hal : b.Aligned)
    (hord : b.order ≤ maxOrder) (hin : ∀ x ∈ b, z.InArray x)
    (hd : Disjoint U (Finset.Ico b.base (b.base + 2 ^ b.order))) :
    ZoneInv z fl E (b ::ₘ H) (U ∪ Finset.Ico b.base (b.base + 2 ^ b.order)) := by
  refine { h with managed := ?_, heldLe := ?_, tiling := ?_ }
  · refine Finset.union_subset h.managed fun x hx => ?_
    exact Zone.mem_span.mpr (hin x (Finset.mem_Ico.mp hx))
  · exact Multiset.forall_mem_cons.mpr ⟨hord, h.heldLe⟩
  · rw [add_cons, ← Multiset.singleton_add, Multiset.add_comm]
    exact h.tiling.union (Tiling.singleton hal) hd

/-- **Halving** a held block. -/
theorem split (h : ZoneInv z fl E (⟨p, k + 1⟩ ::ₘ H) U) :
    ZoneInv z fl E (⟨p, k⟩ ::ₘ ⟨p + 2 ^ k, k⟩ ::ₘ H) U := by
  obtain ⟨hsucc, hheld⟩ := Multiset.forall_mem_cons.mp h.heldLe
  have hk : k ≤ maxOrder := Nat.le_of_succ_le hsucc
  refine { h with heldLe := ?_, tiling := ?_ }
  · exact Multiset.forall_mem_cons.mpr ⟨hk, Multiset.forall_mem_cons.mpr ⟨hk, hheld⟩⟩
  · have ht := h.tiling
    rw [add_cons] at ht
    rw [add_cons, add_cons]
    exact ht.split

/-- **Joining** two held buddies. -/
theorem merge (h : ZoneInv z fl E (⟨p, k⟩ ::ₘ ⟨p ^^^ 2 ^ k, k⟩ ::ₘ H) U)
    (hk : k < maxOrder) : ZoneInv z fl E (⟨min p (p ^^^ 2 ^ k), k + 1⟩ ::ₘ H) U := by
  obtain ⟨-, hheld⟩ := Multiset.forall_mem_cons.mp h.heldLe
  refine { h with heldLe := ?_, tiling := ?_ }
  · exact Multiset.forall_mem_cons.mpr ⟨hk, (Multiset.forall_mem_cons.mp hheld).2⟩
  · have ht := h.tiling
    rw [add_cons, add_cons] at ht
    rw [add_cons]
    exact ht.merge_buddy

end ZoneInv

end Thylacine
