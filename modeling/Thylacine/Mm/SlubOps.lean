import Thylacine.Mm.SlubInvariant

/-!
# Specifications of the Slab Operations

The functions of `mm/slub.c` over the invariant of one cache. An operation works on one slab, and
is put together from the moves below.

## Main results

* `CacheCore.pop`, `CacheCore.push`: an object moves between the free chain and the callers.
* `CacheCore.toFull`, `CacheCore.toPartial`: the slab moves between the two lists.
* `CacheCore.addSlab`, `CacheCore.dropSlab`: it is taken from the page allocator or given back.
-/

namespace Thylacine

open Multiset (add_cons card_cons cons_add mem_add)
open Dyadic IntrusiveList List ListFamily
open Option (bind_eq_bind bind_some)
open Function (update update_of_ne update_self)

/-- Threading a slab writes its own page only. -/
theorem slabInitFreelist_mem (σ : Slub) (c : CacheRef) (hs : (σ.cache c).Sized) {p a : ℕ}
    (hlim : p < pfnLimit) (ha : objPfn a ≠ p) : (slabInitFreelist σ c p).mem a = σ.mem a := by
  have hpos : 0 < (σ.cache c).actualSize := lt_of_lt_of_le (by omega) hs.min_le
  have hnil : PointerChain.Chain σ.mem none [] := rfl
  refine (threadObjects_spec (slabBase p) hpos (σ.cache c).objectsPerSlab hnil (by simp)).2 a ?_
  rintro j hj rfl
  refine ha (objPfn_of_mem hs hlim ?_)
  exact Multiset.mem_map.mpr ⟨j, Multiset.mem_range.mpr hj, rfl⟩

namespace CacheCore

variable {σ : Slub} {c : CacheRef} {P F : List ℕ} {fr : ℕ → List ℕ} {L : Multiset ℕ}

/-! ### Objects -/

variable (h : CacheCore σ c P F fr L)
include h

/-- **Popping** the first free object of a slab. -/
theorem pop {p obj : ℕ} {rest : List ℕ} (hp : p ∈ P ++ F) (hlim : p < pfnLimit)
    (hfr : fr p = obj :: rest) :
    CacheCore (takeObject σ c obj p) c P F (update fr p rest) (obj ::ₘ L) := by
  have hobj : objPfn obj = p := h.objPfn_of_free hp hlim (hfr ▸ mem_cons_self)
  refine ⟨h.sized.of_eq (by simp [takeObject]) (by simp [takeObject]) (by simp [takeObject]),
    h.partialList, h.fullList, h.nodup, ?_, ?_, ?_, ?_, ?_, ?_⟩
  · intro q hq
    by_cases hqp : q = p
    · subst hqp
      have hslab := h.slab q hq
      have hchain := hslab.chain
      have hlv : liveOn (obj ::ₘ L) q = obj ::ₘ liveOn L q := hobj ▸ liveOn_cons_self L obj
      rw [hfr] at hchain
      rw [hlv]
      refine ⟨by simpa [takeObject] using hslab.flags, by simpa [takeObject] using hslab.owner,
        by simpa [takeObject] using hchain.2, ?_, by simp [takeObject, hslab.inuse]⟩
      have hobjs := hslab.objects
      rw [hfr, ← Multiset.cons_coe, cons_add] at hobjs
      simpa [takeObject, slabObjects] using hobjs
    · rw [update_of_ne hqp, liveOn_cons_of_ne L fun e => hqp (e.symm.trans hobj)]
      refine (h.slab q hq).congr ?_ (fun _ _ => rfl) (by simp [takeObject, slabObjects])
      rw [takeObject, Slub.setCache_page, Slub.setPage_page_of_ne hqp]
  · exact Multiset.forall_mem_cons.mpr ⟨hobj ▸ hp, h.placed⟩
  · simpa [takeObject] using h.nrPartial
  · simpa [takeObject] using h.nrFull
  · simpa [takeObject] using h.slabsActive
  · have hcount := h.count
    simp only [takeObject, Slub.setPage_cache, Slub.setCache_cache_self, card_cons, UInt64.ofNat_add]
    grind

/-- **Pushing** a live object back on its slab's chain. -/
theorem push {obj : ℕ} (hobj : obj ∈ L) (hlim : ∀ p ∈ P ++ F, p < pfnLimit) :
    CacheCore (pushObject σ c obj (objPfn obj)) c P F
      (update fr (objPfn obj) (obj :: fr (objPfn obj))) (L.erase obj) := by
  have hcons := Multiset.cons_erase hobj
  refine ⟨h.sized.of_eq (by simp [pushObject]) (by simp [pushObject]) (by simp [pushObject]),
    h.partialList, h.fullList, h.nodup, ?_, ?_, ?_, ?_, ?_, ?_⟩
  · intro q hq
    have hslab := h.slab q hq
    by_cases hqp : q = objPfn obj
    · subst hqp
      have hlv : liveOn L (objPfn obj) = obj ::ₘ liveOn (L.erase obj) (objPfn obj) := by
        rw [← liveOn_cons_self, hcons]
      refine ⟨by simpa [pushObject] using hslab.flags, by simpa [pushObject] using hslab.owner,
        ?_, ?_, ?_⟩
      · simpa [pushObject] using hslab.chain.push (h.live_not_free hobj)
      · have hobjs := hslab.objects
        rw [hlv, add_cons, ← cons_add] at hobjs
        simpa [pushObject, slabObjects] using hobjs
      · have hin := hslab.inuse
        rw [hlv] at hin
        simp [pushObject, hin]
    · have hlv : liveOn (L.erase obj) q = liveOn L q := by
        rw [← liveOn_cons_of_ne (L.erase obj) fun e => hqp e.symm, hcons]
      rw [update_of_ne hqp, hlv]
      refine hslab.congr ?_ (fun a ha => ?_) (by simp [pushObject, slabObjects])
      · simp only [pushObject, Slub.setCache_page]
        rw [Slub.setPage_page_of_ne hqp]
        rfl
      · refine update_of_ne ?_ _ _
        rintro rfl
        exact hqp (h.objPfn_of_free hq (hlim q hq) ha).symm
  · exact fun a ha => h.placed a (Multiset.mem_of_mem_erase ha)
  · simpa [pushObject] using h.nrPartial
  · simpa [pushObject] using h.nrFull
  · simpa [pushObject] using h.slabsActive
  · have hcount := h.count
    rw [← hcons, card_cons, UInt64.ofNat_add] at hcount
    simp only [pushObject, Slub.setCache_cache_self, Slub.setPage_cache]
    grind

/-- A slab with room has a free object. -/
theorem exists_free {p : ℕ} (hp : p ∈ P ++ F)
    (hlt : (σ.page p).refcount < (σ.cache c).objectsPerSlab) : fr p ≠ [] := by
  intro hnil
  have hslab := h.slab p hp
  have hcard := congrArg Multiset.card hslab.objects
  rw [hnil, Multiset.card_add, ← hslab.inuse, slabObjects, Multiset.card_map,
    Multiset.card_range] at hcard
  simp only [Multiset.coe_nil, Multiset.card_zero] at hcard
  omega

/-! ### Lists -/

/-- Relinking the slabs of a cache over its two lists. -/
theorem setLists {P' F' : List ℕ} (hperm : (P' ++ F').Perm (P ++ F)) {Ls : Links PageRef}
    (hP : IsList Ls (.partialHead c) (frames P')) (hF : IsList Ls (.fullHead c) (frames F')) :
    CacheCore ((σ.setLinks Ls).setCache c
      { σ.cache c with nrPartial := P'.length, nrFull := F'.length }) c P' F' fr L := by
  have hlen := hperm.length_eq
  rw [length_append] at hlen
  refine ⟨h.sized.of_eq (by simp) (by simp) (by simp), hP, hF, hperm.nodup_iff.mpr h.nodup, ?_,
    fun a ha => hperm.mem_iff.mpr (h.placed a ha), by simp, by simp, ?_, ?_⟩
  · intro p hp
    exact (h.slab p (hperm.mem_iff.mp hp)).congr rfl (fun _ _ => rfl) (by simp [slabObjects])
  · simp [h.slabsActive, hlen]
  · simpa using h.count

theorem lists_disjoint :
    ∀ n ∈ PageRef.partialHead c :: frames P, n ∉ PageRef.fullHead c :: frames F := by
  intro n hn hmem
  rcases mem_cons.mp hn with rfl | hn
  · rcases mem_cons.mp hmem with e | hmem
    · cases e
    · obtain ⟨x, -, e⟩ := mem_map.mp hmem
      cases e
  · obtain ⟨p, hp, rfl⟩ := mem_map.mp hn
    rcases mem_cons.mp hmem with e | hmem
    · cases e
    · exact (nodup_append.mp h.nodup).2.2 p hp p (frame_mem_frames.mp hmem) rfl

/-- The slabs other than the partial slab `p`. -/
theorem mem_rest {p q : ℕ} (hp : p ∈ P) : q ∈ P.erase p ++ F ↔ q ≠ p ∧ q ∈ P ++ F := by
  rw [← erase_append_left F hp, h.nodup.mem_erase_iff]

/-- **A slab becomes full**: partial list to full list. -/
theorem toFull {p : ℕ} (hp : p ∈ P) : ∃ Ls, relist σ p (.fullHead c) = some (σ.setLinks Ls) ∧
      AgreeOff σ.links Ls (nodes c (P ++ F)) ∧ (P.erase p ++ p :: F).Perm (P ++ F) ∧
      CacheCore ((σ.setLinks Ls).setCache c { σ.cache c with
          nrPartial := (σ.cache c).nrPartial - 1, nrFull := (σ.cache c).nrFull + 1 })
        c (P.erase p) (p :: F) fr L := by
  obtain ⟨L₁, L₂, hrem, hpush, hP, hF, hag⟩ :=
    h.partialList.relist h.fullList h.lists_disjoint (frame_mem_frames.mpr hp)
  rw [frames_erase] at hP
  have hperm : (P.erase p ++ p :: F).Perm (P ++ F) :=
    perm_middle.trans ((perm_cons_erase hp).symm.append_right F)
  have hcore := h.setLists hperm hP hF
  rw [length_erase_of_mem hp, length_cons, ← h.nrPartial, ← h.nrFull] at hcore
  exact ⟨L₂, by simp [relist, hrem, hpush], hag.mono fun _ => nodes_of_lists, hperm, hcore⟩

/-- **A full slab gets a free object**: back to the partial list. -/
theorem toPartial {p : ℕ} (hp : p ∈ F) : ∃ Ls, relist σ p (.partialHead c) = some (σ.setLinks Ls) ∧
      AgreeOff σ.links Ls (nodes c (P ++ F)) ∧ (p :: P ++ F.erase p).Perm (P ++ F) ∧
      CacheCore ((σ.setLinks Ls).setCache c { σ.cache c with
          nrFull := (σ.cache c).nrFull - 1, nrPartial := (σ.cache c).nrPartial + 1 })
        c (p :: P) (F.erase p) fr L := by
  obtain ⟨L₁, L₂, hrem, hpush, hF, hP, hag⟩ :=
    h.fullList.relist h.partialList (fun n hn hmem => h.lists_disjoint n hmem hn)
      (frame_mem_frames.mpr hp)
  rw [frames_erase] at hF
  have hperm : (p :: P ++ F.erase p).Perm (P ++ F) :=
    perm_middle.symm.trans ((perm_cons_erase hp).symm.append_left P)
  have hcore := h.setLists hperm hP hF
  rw [length_erase_of_mem hp, length_cons, ← h.nrPartial, ← h.nrFull] at hcore
  exact ⟨L₂, by simp [relist, hrem, hpush], hag.mono fun _ hn => nodes_of_lists hn.symm, hperm,
    hcore⟩

/-! ### Slabs -/

/-- **A new slab** on page `p`: all free, first partial. -/
theorem addSlab {p : ℕ} (hp : p ∉ P ++ F) (hlim : p < pfnLimit)
    (hlims : ∀ q ∈ P ++ F, q < pfnLimit) :
    ∃ Ls, (slabInitFreelist σ c p).links.pushFront (.partialHead c) (.frame p) = some Ls ∧
      AgreeOff σ.links Ls (nodes c (p :: (P ++ F))) ∧
      CacheCore (((slabInitFreelist σ c p).setLinks Ls).setCache c { σ.cache c with
          slabsActive := (σ.cache c).slabsActive + 1
          nrPartial := (σ.cache c).nrPartial + 1 })
        c (p :: P) F (update fr p ((range (σ.cache c).objectsPerSlab).map
          fun i => slabBase p + i * (σ.cache c).actualSize)) L := by
  have hpos : 0 < (σ.cache c).actualSize := lt_of_lt_of_le (by omega) h.sized.min_le
  have hpP : p ∉ P := fun hmem => hp (mem_append_left F hmem)
  have hpF : p ∉ F := fun hmem => hp (mem_append_right P hmem)
  have hnew : PageRef.frame p ∉ PageRef.partialHead c :: frames P := by simp [hpP]
  obtain ⟨Ls, hpush, hP, hag⟩ := h.partialList.pushFront hnew
  have hF : IsList Ls (.fullHead c) (frames F) := by
    refine h.fullList.of_agreeOff hag fun n hn hmem => ?_
    rcases mem_cons.mp hmem with rfl | hmem
    · rcases mem_cons.mp hn with e | hn
      · cases e
      · exact hpF (frame_mem_frames.mp hn)
    · exact h.lists_disjoint n hmem hn
  have hlv : liveOn L p = 0 := by
    refine Multiset.filter_eq_nil.mpr fun a ha e => hp ?_
    rw [← e]
    exact h.placed a ha
  have hnil : PointerChain.Chain σ.mem none [] := rfl
  obtain ⟨hchain, -⟩ := threadObjects_spec (slabBase p) hpos (σ.cache c).objectsPerSlab
    hnil (by simp)
  refine ⟨Ls, hpush, hag.mono ?_, ⟨h.sized.of_eq (by simp) (by simp) (by simp), hP, hF, ?_, ?_,
    fun a ha => mem_cons_of_mem p (h.placed a ha), ?_, ?_, ?_, ?_⟩⟩
  · intro n hn
    simp only [Set.mem_ofPred_eq, mem_cons, map_cons, map_append, mem_append] at hn ⊢
    tauto
  · exact nodup_cons.mpr ⟨hp, h.nodup⟩
  · intro q hq
    by_cases hqp : q = p
    · subst hqp
      rw [hlv]
      refine ⟨by simp [slabInitFreelist], by simp [slabInitFreelist],
        by simpa [slabInitFreelist] using hchain, ?_, by simp [slabInitFreelist]⟩
      simp [slabObjects, Multiset.range]
    · have hq' : q ∈ P ++ F := (mem_cons.mp hq).resolve_left hqp
      rw [update_of_ne hqp]
      refine (h.slab q hq').congr ?_ (fun a ha => ?_) (by simp [slabObjects])
      · simp only [Slub.setCache_page, Slub.setLinks_page, slabInitFreelist]
        rw [Slub.setPage_page_of_ne hqp]
        rfl
      · refine slabInitFreelist_mem σ c h.sized hlim ?_
        rwa [h.objPfn_of_free hq' (hlims q hq') ha]
  · simp [h.nrPartial]
  · simpa using h.nrFull
  · simp only [Slub.setCache_cache_self, h.slabsActive, length_cons]
    omega
  · simpa using h.count

/-- **An empty slab** leaves the cache. -/
theorem dropSlab {p : ℕ} (hp : p ∈ P) (hzero : (σ.page p).refcount = 0) (pg : Page) :
    ∃ Ls, σ.links.remove (.frame p) = some Ls ∧ AgreeOff σ.links Ls (nodes c (P ++ F)) ∧
      CacheCore (((σ.setLinks Ls).setPage p pg).setCache c { σ.cache c with
          nrPartial := (σ.cache c).nrPartial - 1
          slabsActive := (σ.cache c).slabsActive - 1
          slabsDrained := (σ.cache c).slabsDrained + 1 })
        c (P.erase p) F fr L := by
  obtain ⟨Ls, hrem, hP, hag⟩ := h.partialList.remove (frame_mem_frames.mpr hp)
  rw [frames_erase] at hP
  have hF : IsList Ls (.fullHead c) (frames F) :=
    h.fullList.of_agreeOff hag fun n hn hmem => h.lists_disjoint n hmem hn
  have hpos := length_pos_of_mem hp
  refine ⟨Ls, hrem, hag.mono fun _ hn => nodes_of_lists (.inl hn),
    ⟨h.sized.of_eq (by simp) (by simp) (by simp), hP, hF, ?_, ?_, ?_, ?_, ?_, ?_, ?_⟩⟩
  · exact (erase_sublist.append_right F).nodup h.nodup
  · intro q hq
    obtain ⟨hne, hq⟩ := (h.mem_rest hp).mp hq
    refine (h.slab q hq).congr ?_ (fun _ _ => rfl) (by simp [slabObjects])
    rw [Slub.setCache_page, Slub.setPage_page_of_ne hne, Slub.setLinks_page]
  · intro a ha
    have hap : objPfn a ≠ p := by
      intro e
      have hinuse := (h.slab p (mem_append_left F hp)).inuse
      have hmem : a ∈ liveOn L p := mem_liveOn.mpr ⟨ha, e⟩
      have := Multiset.card_pos_iff_exists_mem.mpr ⟨a, hmem⟩
      omega
    exact (h.mem_rest hp).mpr ⟨hap, h.placed a ha⟩
  · simp [h.nrPartial, length_erase_of_mem hp]
  · simpa using h.nrFull
  · simp only [Slub.setCache_cache_self, h.slabsActive, length_erase_of_mem hp]
    omega
  · simpa using h.count

end CacheCore

/-! ### A cache over the page allocator -/

/-- The blocks of single-page slabs. -/
def pageBlocks (ps : List ℕ) : Multiset Block := ps.map fun p => (⟨p, 0⟩ : Block)

theorem pageBlocks_cons (p : ℕ) (ps : List ℕ) :
    pageBlocks (p :: ps) = ⟨p, 0⟩ ::ₘ pageBlocks ps := rfl

theorem pageBlocks_perm {ps qs : List ℕ} (h : ps.Perm qs) : pageBlocks ps = pageBlocks qs :=
  Multiset.coe_eq_coe.mpr (h.map _)

/-- A cache over the page allocator; `R` belongs to others. -/
structure CacheAt (σ : Slub) (c : CacheRef) (R : Multiset Block) (U : Finset ℕ)
    (P F : List ℕ) (fr : ℕ → List ℕ) (L : Multiset ℕ) : Prop where
  phys : PhysInv σ.phys (R + pageBlocks (P ++ F)) U
  limit : ∀ x ∈ U, x < pfnLimit
  core : CacheCore σ c P F fr L

/-- A held block is out of reach of the other holders. -/
theorem frame_mem_kept {R : Multiset Block} {b : Block} (hb : b ∈ R) {x : ℕ} (hx : x ∈ b) :
    PageRef.frame x ∈ Kept R := by
  refine ⟨nofun, fun y hy => ⟨b, hb, ?_⟩⟩
  rw [← PageRef.frame.inj hy]
  exact hx

namespace CacheAt

variable {σ : Slub} {c : CacheRef} {R : Multiset Block} {U : Finset ℕ} {P F : List ℕ}
  {fr : ℕ → List ℕ} {L : Multiset ℕ}

variable {obj p : ℕ} {phys : Phys}

theorem held (hp : p ∈ P ++ F) : (⟨p, 0⟩ : Block) ∈ R + pageBlocks (P ++ F) :=
  mem_add.mpr (.inr (by simpa [pageBlocks] using hp))

theorem held_lt (h : PhysInv phys (R + pageBlocks (P ++ F)) U) (hlim : ∀ x ∈ U, x < pfnLimit)
    (hp : p ∈ P ++ F) : p < pfnLimit := by
  obtain ⟨fl, hinv⟩ := h.zone
  refine hlim p (hinv.tiling.mem_of_mem (b := ⟨p, 0⟩) ?_ (Block.base_mem _))
  exact mem_add.mpr (.inr (mem_add.mpr (.inl (held hp))))

theorem lt_limit (h : CacheAt σ c R U P F fr L) (hp : p ∈ P ++ F) : p < pfnLimit :=
  held_lt h.phys h.limit hp

/-- The slabs are not among the blocks of others. -/
theorem not_kept (h : CacheAt σ c R U P F fr L) (hp : p ∈ P ++ F) : PageRef.frame p ∉ Kept R := by
  intro hkept
  have hphys := h.phys
  rw [pageBlocks_perm (perm_cons_erase hp), pageBlocks_cons, add_cons] at hphys
  obtain ⟨fl, hinv⟩ := hphys.zone
  rw [cons_add] at hinv
  refine hinv.kept_not_mem ?_ (Block.base_mem _)
  exact Kept.mono (fun b hb => mem_add.mpr (.inl (mem_add.mpr (.inl hb)))) hkept

theorem nodes_kept : nodes c (P ++ F) ⊆ Kept (R + pageBlocks (P ++ F)) := by
  rintro r (rfl | rfl | hr)
  · exact ⟨nofun, nofun⟩
  · exact ⟨nofun, nofun⟩
  · obtain ⟨p, hp, rfl⟩ := mem_map.mp hr
    exact frame_mem_kept (held hp) (Block.base_mem _)

/-- Rewriting the descriptor of a slab. -/
theorem physSetPage (h : CacheAt σ c R U P F fr L) (hp : p ∈ P ++ F) (pg : Page)
    (hord : pg.order = (σ.page p).order) (hfree : pg.flags.free = false) :
    PhysInv (σ.setPage p pg).phys (R + pageBlocks (P ++ F)) U :=
  h.phys.setPage (held hp) pg (hord.trans (h.phys.ordered _ (mem_add.mpr (.inl (held hp))))) hfree

/-- The page allocator, keeping the slabs, keeps the cache. -/
theorem core_setPhys (h : CacheCore σ c P F fr L)
    (hf : σ.phys.Frame phys (R + pageBlocks (P ++ F))) :
    CacheCore { σ with phys := phys } c P F fr L := by
  refine h.congr rfl (fun r hr => hf.zone.links r (nodes_kept hr)) (fun p hp => ?_)
    (fun _ _ _ _ => rfl) fun _ _ => rfl
  exact hf.page_eq (held hp) (Block.base_mem ⟨p, 0⟩)

/-! ### Allocation -/

/-- Only chains of the cache's pages change. -/
abbrev SameChains (R : Multiset Block) (fr fr' : ℕ → List ℕ) : Prop :=
  ∀ p, PageRef.frame p ∈ Kept R → fr' p = fr p

theorem sameChains_update (fr : ℕ → List ℕ) (hp : PageRef.frame p ∉ Kept R)
    (as : List ℕ) : SameChains R fr (update fr p as) := by
  intro q hq
  refine update_of_ne ?_ _ _
  rintro rfl
  exact hp hq

/-- **An operation** of cache `c` has led to `σ'`, with the slabs `P'` and `F'`. -/
structure Led (σ σ' : Slub) (c : CacheRef) (R : Multiset Block) (U : Finset ℕ) (fr : ℕ → List ℕ)
    (P' F' : List ℕ) (fr' : ℕ → List ℕ) (L' : Multiset ℕ) : Prop where
  cache : CacheAt σ' c R U P' F' fr' L'
  balanced : Balanced σ' c P' F'
  frame : σ.Frame σ' c R
  chains : SameChains R fr fr'
  size : (σ'.cache c).objectsPerSlab = (σ.cache c).objectsPerSlab

/-- A slab has moved between the lists. -/
theorem relisted (h : CacheAt σ c R U P F fr L) {P' F' : List ℕ} {Ls : Links PageRef}
    {m : KmemCache} (hag : AgreeOff σ.links Ls (nodes c (P ++ F)))
    (hperm : (P' ++ F').Perm (P ++ F))
    (hcore : CacheCore ((σ.setLinks Ls).setCache c m) c P' F' fr L) :
    CacheAt ((σ.setLinks Ls).setCache c m) c R U P' F' fr L ∧
      σ.Frame ((σ.setLinks Ls).setCache c m) c R := by
  refine ⟨⟨?_, h.limit, hcore⟩, (Slub.Frame.setLinks _ c hag fun q hq => h.not_kept hq).trans
    (Slub.Frame.setCache _ c _)⟩
  rw [pageBlocks_perm hperm]
  exact h.phys.setLinks hag nodes_kept

/-- **The tail of `cache_alloc_locked`** on a partial slab. -/
theorem popObject_spec (h : CacheAt σ c R U P F fr L) (hbal : Balanced σ c P F) (hp : p ∈ P) :
    ∃ σ' obj P' F' fr', popObject σ c p = some (σ', obj) ∧
      Led σ σ' c R U fr P' F' fr' (obj ::ₘ L) ∧ objPfn obj = p ∧ (P' ++ F').Perm (P ++ F) := by
  have hpPF : p ∈ P ++ F := mem_append_left F hp
  have hlt := hbal.partial_lt p hp
  obtain ⟨obj, rest, hfr⟩ := exists_cons_of_ne_nil (h.core.exists_free hpPF hlt)
  have hslab := h.core.slab p hpPF
  have hhead : (σ.page p).slabFreelist = some obj := by
    have hchain := hslab.chain
    rw [hfr] at hchain
    exact hchain.1
  have hobj : objPfn obj = p := h.core.objPfn_of_free hpPF (h.lt_limit hpPF) (hfr ▸ mem_cons_self)
  have hcore := h.core.pop hpPF (h.lt_limit hpPF) hfr
  have hFne : ∀ q ∈ F, q ≠ p := fun q hq => ((h.core.mem_rest hp).mp (mem_append_right _ hq)).1
  set τ := takeObject σ c obj p with hτ
  have hat : CacheAt τ c R U P F (update fr p rest) (obj ::ₘ L) :=
    ⟨h.physSetPage hpPF _ rfl (by simp [hslab.flags]), h.limit, hcore⟩
  have hframe : σ.Frame τ c R :=
    (Slub.Frame.setPage σ c (h.not_kept hpPF) _).trans (Slub.Frame.setCache _ c _)
  have hsame := sameChains_update fr (h.not_kept hpPF) rest
  have hpage : (τ.page p).refcount = (σ.page p).refcount + 1 := by simp [hτ, takeObject]
  have hpage' : ∀ q, q ≠ p → τ.page q = σ.page q := fun q hq => Slub.setPage_page_of_ne hq
  have hcount : (τ.cache c).objectsPerSlab = (σ.cache c).objectsPerSlab := by simp [hτ, takeObject]
  by_cases hfull : (σ.page p).refcount + 1 = (σ.cache c).objectsPerSlab
  · obtain ⟨Ls, hrel, hag, hperm, hcore'⟩ := hcore.toFull hp
    obtain ⟨hat', hframe'⟩ := hat.relisted hag hperm hcore'
    refine ⟨_, obj, P.erase p, p :: F, _, ?_, ⟨hat', ⟨?_, ?_⟩, hframe.trans hframe', hsame,
      by simp [hcount]⟩, hobj, hperm⟩
    · have hcond : (τ.page p).refcount = (τ.cache c).objectsPerSlab := by
        rw [hpage, hcount, hfull]
      simp only [popObject, hhead, bind_eq_bind, bind_some, ← hτ, if_pos hcond, hrel]
      rfl
    · intro q hq
      have hqp : q ≠ p := ((h.core.mem_rest hp).mp (mem_append_left F hq)).1
      have hlt' := hbal.partial_lt q (mem_of_mem_erase hq)
      simpa [hpage' q hqp, hcount] using hlt'
    · intro q hq
      rcases mem_cons.mp hq with rfl | hq
      · simpa [hpage, hcount] using hfull
      · simpa [hpage' q (hFne q hq), hcount] using hbal.full_eq q hq
  · refine ⟨τ, obj, P, F, _, ?_, ⟨hat, ⟨?_, ?_⟩, hframe, hsame, hcount⟩, hobj, .refl _⟩
    · have hcond : (τ.page p).refcount ≠ (τ.cache c).objectsPerSlab := by
        rw [hpage, hcount]
        exact hfull
      simp only [popObject, hhead, bind_eq_bind, bind_some, ← hτ, if_neg hcond]
    · intro q hq
      by_cases hqp : q = p
      · subst hqp
        omega
      · rw [hpage' q hqp, hcount]
        exact hbal.partial_lt q hq
    · intro q hq
      rw [hpage' q (hFne q hq), hcount]
      exact hbal.full_eq q hq

/-- A page newly taken is none of the slabs. -/
theorem fresh_page (h : CacheCore σ c P F fr L)
    (hinv : PhysInv phys (⟨p, 0⟩ ::ₘ (R + pageBlocks (P ++ F))) U)
    (hlim : ∀ x ∈ U, x < pfnLimit) (hf : σ.phys.Frame phys (R + pageBlocks (P ++ F))) :
    p ∉ P ++ F := by
  intro hmem
  have hat : CacheAt { σ with phys := phys } c (⟨p, 0⟩ ::ₘ R) U P F fr L :=
    ⟨by rwa [cons_add], hlim, core_setPhys h hf⟩
  exact hat.not_kept hmem (frame_mem_kept (Multiset.mem_cons_self _ _) (Block.base_mem _))

variable (h : CacheAt σ c R U P F fr L)
include h

/-- **A fresh page becomes the first partial slab.** -/
theorem newSlab (hbal : Balanced σ c P F)
    (hinv : PhysInv phys (⟨p, 0⟩ ::ₘ (R + pageBlocks (P ++ F))) U)
    (hf : σ.phys.Frame phys (R + pageBlocks (P ++ F))) :
    ∃ Ls σ' fr', (slabInitFreelist { σ with phys := phys } c p).links.pushFront
        (.partialHead c) (.frame p) = some Ls ∧
      σ' = ((slabInitFreelist { σ with phys := phys } c p).setLinks Ls).setCache c { σ.cache c with
          slabsActive := (σ.cache c).slabsActive + 1
          nrPartial := (σ.cache c).nrPartial + 1 } ∧
      Led σ σ' c R U fr (p :: P) F fr' L := by
  have hp : p ∉ P ++ F := fresh_page h.core hinv h.limit hf
  have hphys₁ : PhysInv phys (R + pageBlocks (p :: P ++ F)) U := by
    rw [cons_append, pageBlocks_cons, add_cons]
    exact hinv
  have hheld : (⟨p, 0⟩ : Block) ∈ R + pageBlocks (p :: P ++ F) := held mem_cons_self
  have hlim : p < pfnLimit := held_lt hphys₁ h.limit mem_cons_self
  obtain ⟨Ls, hpush, hag, hcore⟩ :=
    (core_setPhys h.core hf).addSlab hp hlim fun q hq => h.lt_limit hq
  have hphys₂ : PhysInv (slabInitFreelist { σ with phys := phys } c p).phys
      (R + pageBlocks (p :: P ++ F)) U :=
    hphys₁.setPage hheld _ (hphys₁.ordered _ (mem_add.mpr (.inl hheld))) rfl
  have hat : CacheAt _ c R U (p :: P) F _ L :=
    ⟨hphys₂.setLinks hag (nodes_kept (P := p :: P)), h.limit, hcore⟩
  have hkept : PageRef.frame p ∉ Kept R := hat.not_kept mem_cons_self
  have hrefs : ∀ q ∈ P ++ F, ((slabInitFreelist { σ with phys := phys } c p).page q) =
      σ.page q := by
    intro q hq
    have hqp : q ≠ p := fun e => hp (e ▸ hq)
    rw [slabInitFreelist, Slub.setPage_page_of_ne hqp]
    exact hf.page_eq (held hq) (Block.base_mem ⟨q, 0⟩)
  refine ⟨Ls, _, _, hpush, rfl, hat, ⟨fun q hq => ?_, fun q hq => ?_⟩, ?_,
    sameChains_update fr hkept _, by simp⟩
  · rcases mem_cons.mp hq with rfl | hq
    · simpa [slabInitFreelist] using h.core.sized.count_pos
    · simpa [hrefs q (mem_append_left F hq)] using hbal.partial_lt q hq
  · simpa [hrefs q (mem_append_right P hq)] using hbal.full_eq q hq
  · have h1 : σ.Frame { σ with phys := phys } c R :=
      Slub.Frame.setPhys σ c (hf.mono fun b hb => mem_add.mpr (.inl hb))
    have h2 : Slub.Frame { σ with phys := phys } { σ with
        phys := phys, mem := (slabInitFreelist { σ with phys := phys } c p).mem } c R :=
      Slub.Frame.setMem _ c fun a ha => slabInitFreelist_mem _ c h.core.sized hlim
        fun e => hkept (e ▸ ha)
    have h3 : Slub.Frame (slabInitFreelist { σ with phys := phys } c p)
        ((slabInitFreelist { σ with phys := phys } c p).setLinks Ls) c R :=
      Slub.Frame.setLinks _ c hag fun q hq => hat.not_kept hq
    exact h1.trans (h2.trans ((Slub.Frame.setPage _ c hkept _).trans
      (h3.trans (Slub.Frame.setCache _ c _))))

/-- **The head of `cache_alloc_locked`** finds or makes a partial slab, or there is no page. -/
theorem pickSlab_spec (hbal : Balanced σ c P F) (cpu : ℕ) : pickSlab σ c cpu = some (σ, none) ∨
    ∃ σ' p P' fr', pickSlab σ c cpu = some (σ', some p) ∧ p ∈ P' ∧
      Led σ σ' c R U fr P' F fr' L ∧ ∀ q ∈ P', q ∈ P ∨ q = p := by
  cases hP : P with
  | cons p rest =>
    subst hP
    have hne : σ.links.isEmpty (.partialHead c) = false := by
      refine Bool.eq_false_iff.mpr fun e => ?_
      simpa using h.core.partialList.isEmpty_iff.mp e
    refine .inr ⟨σ, p, p :: rest, fr, ?_, mem_cons_self,
      ⟨h, hbal, Slub.Frame.refl σ c R, fun _ _ => rfl, rfl⟩, fun _ => .inl⟩
    simp [pickSlab, hne, h.core.partialList.next_head]
  | nil =>
    subst hP
    have hempty : σ.links.isEmpty (.partialHead c) = true := h.core.partialList.isEmpty_iff.mpr rfl
    have hord := h.core.sized.order_eq
    rcases h.phys.allocPages_spec cpu 0 with ⟨ha, -⟩ | ⟨phys, p, ha, hinv, hf, -⟩
    · refine .inl ?_
      simp [pickSlab, hempty, slabNew, hord, ha]
    · obtain ⟨Ls, σ', fr', hpush, heq, hled⟩ := h.newSlab hbal hinv hf
      refine .inr ⟨σ', p, [p], fr', ?_, mem_cons_self, hled, fun q hq => .inr (mem_singleton.mp hq)⟩
      rw [← hord] at ha
      rw [heq]
      simp only [pickSlab, hempty, slabNew, ha, bind_eq_bind, bind_some, Slub.setCache_links, hpush,
        Slub.setCache_setLinks_setCache, Slub.setLinks_cache, Slub.setCache_cache_self]
      rfl

/-- **`cache_alloc_locked`** hands out an object, or changes nothing. -/
theorem cacheAllocLocked_spec (hbal : Balanced σ c P F) (cpu : ℕ) :
    cacheAllocLocked σ c cpu = some (σ, none) ∨
    ∃ σ' obj P' F' fr', cacheAllocLocked σ c cpu = some (σ', some obj) ∧
      Led σ σ' c R U fr P' F' fr' (obj ::ₘ L) ∧ ∀ q ∈ P' ++ F', q ∈ P ++ F ∨ q = objPfn obj := by
  rcases h.pickSlab_spec hbal cpu with hnone | ⟨σ₁, p, P₁, fr₁, hpick, hp, h₁, hsub⟩
  · exact .inl (by simp [cacheAllocLocked, hnone])
  · obtain ⟨σ', obj, P', F', fr', hpop, h', rfl, hperm⟩ := h₁.cache.popObject_spec h₁.balanced hp
    refine .inr ⟨σ', obj, P', F', fr', ?_, ⟨h'.cache, h'.balanced, h₁.frame.trans h'.frame,
      fun q hq => (h'.chains q hq).trans (h₁.chains q hq), h'.size.trans h₁.size⟩, fun q hq => ?_⟩
    · simp [cacheAllocLocked, hpick, hpop]
    · rcases mem_append.mp (hperm.mem_iff.mp hq) with hq | hq
      · exact (hsub q hq).imp_left (mem_append_left F)
      · exact .inl (mem_append_right P hq)

/-- Writing words of a live object keeps the cache. -/
theorem setMem {mem : ℕ → Option ℕ} (hmem : ∀ p ∈ P ++ F, ∀ a ∈ fr p, mem a = σ.mem a) :
    CacheAt { σ with mem := mem } c R U P F fr L :=
  ⟨h.phys, h.limit, h.core.congr rfl (fun _ _ => ⟨rfl, rfl⟩) (fun _ _ => rfl) hmem fun _ _ => rfl⟩

/-- A live object's word is on its page and not free. -/
theorem word_not_free {w : ℕ} (hobj : obj ∈ L) (hw : obj ≤ w ∧ w < obj + (σ.cache c).actualSize) :
    objPfn w = objPfn obj ∧ ∀ p ∈ P ++ F, w ∉ fr p := by
  have hslab := h.core.placed obj hobj
  obtain ⟨hpfn, hself⟩ := word_of_object h.core.sized (h.lt_limit hslab) (h.core.live_mem hobj) hw
  refine ⟨hpfn, fun p hp hfree => ?_⟩
  obtain rfl : objPfn w = p := h.core.objPfn_of_free hp (h.lt_limit hp) hfree
  rw [hpfn] at hfree
  have hmem : w ∈ slabObjects (σ.cache c) (objPfn obj) := by
    rw [← (h.core.slab _ hslab).objects]
    exact mem_add.mpr (.inl hfree)
  rw [hself hmem] at hfree
  exact h.core.live_not_free hobj hfree

/-- **`kmem_cache_alloc`** hands out an object, or without memory does nothing or panics. -/
theorem kmemCacheAlloc_spec (hbal : Balanced σ c P F) (zero : Bool) (cpu : ℕ) :
    (kmemCacheAlloc σ c zero cpu =
      if (σ.cache c).panicOnFail then none else some (σ, none)) ∨
    ∃ σ' obj P' F' fr', kmemCacheAlloc σ c zero cpu = some (σ', some obj) ∧
      Led σ σ' c R U fr P' F' fr' (obj ::ₘ L) ∧ ∀ q ∈ P' ++ F', q ∈ P ++ F ∨ q = objPfn obj := by
  rcases h.cacheAllocLocked_spec hbal cpu with hnone |
    ⟨σ', obj, P', F', fr', ha, ⟨hat, hbal', hf, hfr, hsize⟩, hsub⟩
  · exact .inl (by simp [kmemCacheAlloc, hnone])
  cases zero with
  | false =>
    exact .inr ⟨σ', obj, P', F', fr', by simp [kmemCacheAlloc, ha],
      ⟨hat, hbal', hf, hfr, hsize⟩, hsub⟩
  | true =>
    have hobj : obj ∈ obj ::ₘ L := Multiset.mem_cons_self _ _
    refine .inr ⟨zeroObject σ' obj (σ'.cache c).actualSize, obj, P', F', fr',
      by simp [kmemCacheAlloc, ha], ⟨hat.setMem fun p hp a hfree => if_neg ?_,
      ⟨hbal'.partial_lt, hbal'.full_eq⟩,
      hf.trans (Slub.Frame.setMem σ' c fun a hkept => if_neg ?_), hfr, hsize⟩, hsub⟩
    · exact fun hw => (hat.word_not_free hobj hw).2 p hp hfree
    · intro hw
      rw [(hat.word_not_free hobj hw).1] at hkept
      exact hat.not_kept (hat.core.placed obj hobj) hkept

/-! ### Free -/

/-- The live object goes back to its slab's chain. -/
theorem pushObject_spec (hobj : obj ∈ L) : CacheAt (pushObject σ c obj (objPfn obj)) c R U P F
      (update fr (objPfn obj) (obj :: fr (objPfn obj))) (L.erase obj) ∧
      σ.Frame (pushObject σ c obj (objPfn obj)) c R := by
  have hp := h.core.placed obj hobj
  have hkept := h.not_kept hp
  have hphys : PhysInv (pushObject σ c obj (objPfn obj)).phys (R + pageBlocks (P ++ F)) U :=
    h.physSetPage hp _ rfl (by simp [(h.core.slab _ hp).flags])
  refine ⟨⟨hphys, h.limit, h.core.push hobj fun q hq => h.lt_limit hq⟩, ?_⟩
  have hmem : σ.Frame { σ with
      mem := update σ.mem obj (σ.page (objPfn obj)).slabFreelist } c R := by
    refine Slub.Frame.setMem σ c fun a ha => update_of_ne ?_ _ _
    rintro rfl
    exact hkept ha
  exact hmem.trans ((Slub.Frame.setPage _ c hkept _).trans (Slub.Frame.setCache _ c _))

/-- **An empty partial slab is drained**: its page goes back. -/
theorem drainSlab (hp : p ∈ P) (hzero : (σ.page p).refcount = 0) (cpu : ℕ) :
    ∃ Ls σ', σ.links.remove (.frame p) = some Ls ∧ slabDrain ((σ.setLinks Ls).setCache c
      { σ.cache c with nrPartial := (σ.cache c).nrPartial - 1 }) c p cpu = some σ' ∧
      CacheAt σ' c R U (P.erase p) F fr L ∧ σ.Frame σ' c R ∧
      (∀ q ∈ P.erase p ++ F, σ'.page q = σ.page q) ∧
      (σ'.cache c).objectsPerSlab = (σ.cache c).objectsPerSlab := by
  have hpPF : p ∈ P ++ F := mem_append_left F hp
  obtain ⟨Ls, hrem, hag, hcore⟩ := h.core.dropSlab hp hzero
    { σ.page p with slabFreelist := none, slabCache := none, flags := {}, refcount := 0 }
  have hperm : (P ++ F).Perm (p :: (P.erase p ++ F)) := (perm_cons_erase hp).append_right F
  have hphys₁ : PhysInv ((σ.setLinks Ls).setPage p { σ.page p with
      slabFreelist := none, slabCache := none, flags := {}, refcount := 0 }).phys
      (⟨p, 0⟩ ::ₘ (R + pageBlocks (P.erase p ++ F))) U := by
    rw [← add_cons, ← pageBlocks_cons, ← pageBlocks_perm hperm]
    refine (h.phys.setLinks hag nodes_kept).setPage (held hpPF) _ ?_ rfl
    exact h.phys.ordered _ (mem_add.mpr (.inl (held hpPF)))
  obtain ⟨phys, hfree, hinv, hf⟩ := hphys₁.freePages_spec (by simp [Slub.setPage, Slub.setZone,
    Zone.setPage]) cpu
  refine ⟨Ls, _, hrem, ?_, ⟨hinv, h.limit, core_setPhys hcore hf⟩, ?_, fun q hq => ?_, ?_⟩
  · simp only [slabDrain, Slub.setCache_page, Slub.setLinks_page,
      Slub.setCache_setPage_setCache, Slub.setPage_cache, Slub.setCache_cache_self,
      Slub.setCache_phys, h.core.sized.order_eq, hfree, bind_eq_bind, bind_some]
  · have hkept := h.not_kept hpPF
    exact (Slub.Frame.setLinks σ c hag fun q hq => h.not_kept hq).trans
      ((Slub.Frame.setPage _ c hkept _).trans ((Slub.Frame.setCache _ c _).trans
        (Slub.Frame.setPhys _ c (hf.mono fun b hb => mem_add.mpr (.inl hb)))))
  · have hpage := hf.page_eq (held hq) (Block.base_mem ⟨q, 0⟩)
    exact hpage.trans (Slub.setPage_page_of_ne ((h.core.mem_rest hp).mp hq).1)
  · simp

/-- **`cache_free_locked`** drops the slab with its last object, unless that was full. -/
theorem cacheFreeLocked_spec (hbal : Balanced σ c P F) (hobj : obj ∈ L) (cpu : ℕ) :
    ∃ σ' P' F' fr', cacheFreeLocked σ c obj (objPfn obj) cpu = some σ' ∧
      Led σ σ' c R U fr P' F' fr' (L.erase obj) ∧ ∀ q, q ∈ P' ++ F' ↔ q ∈ P ++ F ∧
      ¬(q = objPfn obj ∧ liveOn (L.erase obj) q = 0 ∧ (σ.cache c).objectsPerSlab ≠ 1) := by
  have hp := h.core.placed obj hobj
  obtain ⟨hat, hframe⟩ := h.pushObject_spec hobj
  have hsame := sameChains_update fr (h.not_kept hp) (obj :: fr (objPfn obj))
  have hnd := nodup_append.mp h.core.nodup
  set τ := pushObject σ c obj (objPfn obj) with hτ
  have hpage : (τ.page (objPfn obj)).refcount = (σ.page (objPfn obj)).refcount - 1 := by
    simp [hτ, pushObject]
  have hpage' : ∀ q, q ≠ objPfn obj → τ.page q = σ.page q := fun q hq => Slub.setPage_page_of_ne hq
  have hcount : (τ.cache c).objectsPerSlab = (σ.cache c).objectsPerSlab := by simp [hτ, pushObject]
  have hn := h.core.sized.count_pos
  have hempty : liveOn (L.erase obj) (objPfn obj) = 0 ↔ (σ.page (objPfn obj)).refcount = 1 := by
    have hpos : 0 < (σ.page (objPfn obj)).refcount :=
      (h.core.slab _ hp).inuse ▸ Multiset.card_pos.mpr fun h0 =>
        Multiset.eq_zero_iff_forall_notMem.mp h0 obj (mem_liveOn.mpr ⟨hobj, rfl⟩)
    rw [← Multiset.card_eq_zero, ← (hat.core.slab _ hp).inuse]
    omega
  have hkeep (hnot : ¬((σ.page (objPfn obj)).refcount = 1 ∧ (σ.cache c).objectsPerSlab ≠ 1)) (q) :
      q ∈ P ++ F ↔ q ∈ P ++ F ∧
        ¬(q = objPfn obj ∧ liveOn (L.erase obj) q = 0 ∧ (σ.cache c).objectsPerSlab ≠ 1) := by
    refine (and_iff_left ?_).symm
    rintro ⟨rfl, h0, hne⟩
    exact hnot ⟨hempty.mp h0, hne⟩
  rcases mem_append.mp hp with hP | hF
  · have hlt := hbal.partial_lt _ hP
    have hne : ∀ q ∈ P.erase (objPfn obj) ++ F, q ≠ objPfn obj := fun q hq =>
      ((h.core.mem_rest hP).mp hq).1
    by_cases hzero : (τ.page (objPfn obj)).refcount = 0
    · obtain ⟨Ls, σ', hrem, hdrain, hat', hframe', hpg, hcnt⟩ := hat.drainSlab hP hzero cpu
      refine ⟨σ', _, F, _, ?_, ⟨hat', ⟨fun q hq => ?_, fun q hq => ?_⟩, hframe.trans hframe', hsame,
        hcnt.trans hcount⟩, fun q => ?_⟩
      · simp only [cacheFreeLocked, ← hτ, if_neg hlt.ne, if_pos hzero, hrem,
          bind_eq_bind, bind_some, Slub.setLinks_cache, hdrain]
      · have hmem := mem_append_left F hq
        rw [hpg q hmem, hpage' q (hne q hmem), hcnt, hcount]
        exact hbal.partial_lt q (mem_of_mem_erase hq)
      · have hmem := mem_append_right (P.erase (objPfn obj)) hq
        rw [hpg q hmem, hpage' q (hne q hmem), hcnt, hcount]
        exact hbal.full_eq q hq
      · have hone : (σ.page (objPfn obj)).refcount = 1 := hempty.mp (Multiset.card_eq_zero.mp
          ((hat.core.slab _ hp).inuse.symm.trans hzero))
        rw [h.core.mem_rest hP, and_comm]
        refine and_congr_right fun _ => not_congr ⟨fun hq => ?_, And.left⟩
        subst hq
        exact ⟨rfl, hempty.mpr hone, by omega⟩
    · refine ⟨_, P, F, _, ?_, ⟨hat, ⟨fun q hq => ?_, fun q hq => ?_⟩, hframe, hsame, hcount⟩,
        hkeep (by omega)⟩
      · simp only [cacheFreeLocked, ← hτ, if_neg hlt.ne, if_neg hzero]
      · by_cases hqp : q = objPfn obj
        · subst hqp
          omega
        · rw [hpage' q hqp, hcount]
          exact hbal.partial_lt q hq
      · rw [hpage' q (hne q (mem_append_right _ hq)), hcount]
        exact hbal.full_eq q hq
  · have hfull := hbal.full_eq _ hF
    obtain ⟨Ls, hrel, hag, hperm, hcore⟩ := hat.core.toPartial hF
    obtain ⟨hat', hframe'⟩ := hat.relisted hag hperm hcore
    refine ⟨_, objPfn obj :: P, F.erase (objPfn obj), _, ?_, ⟨hat', ⟨fun q hq => ?_, fun q hq => ?_⟩,
      hframe.trans hframe', hsame, by simp [hcount]⟩,
      fun q => hperm.mem_iff.trans (hkeep (by omega) q)⟩
    · simp only [cacheFreeLocked, ← hτ, if_pos hfull, hrel]
      rfl
    · rcases mem_cons.mp hq with rfl | hq
      · simp only [Slub.setCache_page, Slub.setLinks_page, Slub.setCache_cache_self]
        omega
      · have hqp : q ≠ objPfn obj := by
          rintro rfl
          exact hnd.2.2 _ hq _ hF rfl
        simpa [hpage' q hqp, hcount] using hbal.partial_lt q hq
    · have hqp : q ≠ objPfn obj := by
        rintro rfl
        exact hnd.2.1.not_mem_erase hq
      simpa [hpage' q hqp, hcount] using hbal.full_eq q (mem_of_mem_erase hq)

theorem inArray (hp : p ∈ P ++ F) : σ.phys.zone.InArray p := by
  obtain ⟨fl, hinv⟩ := h.phys.zone
  exact hinv.inArray_of_held (mem_add.mpr (.inl (held hp))) (Block.base_mem _)

/-- **`kmem_cache_free`** of a live object passes its check. -/
theorem kmemCacheFree_spec (hbal : Balanced σ c P F) (hobj : obj ∈ L) (cpu : ℕ) :
    ∃ σ' P' F' fr', kmemCacheFree σ c obj cpu = some σ' ∧
      Led σ σ' c R U fr P' F' fr' (L.erase obj) ∧ ∀ q, q ∈ P' ++ F' ↔ q ∈ P ++ F ∧
      ¬(q = objPfn obj ∧ liveOn (L.erase obj) q = 0 ∧ (σ.cache c).objectsPerSlab ≠ 1) := by
  obtain ⟨σ', P', F', fr', hfree, hrest⟩ := h.cacheFreeLocked_spec hbal hobj cpu
  have hp := h.core.placed obj hobj
  have hslab := h.core.slab _ hp
  refine ⟨σ', P', F', fr', ?_, hrest⟩
  simp [kmemCacheFree, h.inArray hp, hslab.flags, hslab.owner, hfree]

end CacheAt

end Thylacine
