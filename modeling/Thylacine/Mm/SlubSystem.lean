import Thylacine.Mm.SlubOps

/-!
# Runs of the Slab Allocator

The caches over one page allocator. A state carries the registered caches, the objects
handed out from each, and the blocks the rest of the kernel took with `alloc_pages`; the
steps create caches, allocate and free objects on any CPU, take and return pages, and write
to memory that is handed out.

`SlubState.Layout` puts the pieces together: the pages of all slabs and the foreign blocks
are what the page allocator has handed out, and each cache satisfies its own invariant.
`Layout.focus` and `Layout.refocus` pass between the whole and one cache over the rest, so
each step is one of the single-cache results of `Thylacine.Mm.SlubOps`.

## Main results

* `slab_accounting`: in every reachable state every cache is consistent.
* `empty_slab_kept_iff`: which caches keep a slab without live objects.
-/

namespace Thylacine

open Multiset (mem_add)
open Function (update update_of_ne update_self)
open Option (some_ne_none)
open Dyadic IntrusiveList List ListFamily Relation

/-! ### The caches together -/

/-- The slab layer, its caches, the objects handed out, and the kernel's other blocks. -/
structure SlubState where
  slub : Slub
  caches : Finset CacheRef
  live : CacheRef → Multiset ℕ
  pages : Multiset Block

/-- The pages of the slabs of the caches in `S`. -/
def slabPages (S : Finset CacheRef) (P F : CacheRef → List ℕ) : Multiset Block :=
  gather S (fun _ p => (⟨p, 0⟩ : Block)) fun c => P c ++ F c

section SlabPages

variable {S : Finset CacheRef} {P F : CacheRef → List ℕ} {c : CacheRef}

theorem slabPages_eq (hc : c ∈ S) :
    slabPages S P F = slabPages (S.erase c) P F + pageBlocks (P c ++ F c) :=
  gather_eq_erase_add hc

theorem mem_slabPages (hc : c ∈ S) {p : ℕ} (hp : p ∈ P c ++ F c) :
    (⟨p, 0⟩ : Block) ∈ slabPages S P F :=
  mem_gather.mpr ⟨c, hc, p, hp, rfl⟩

/-- One cache's slabs are no pages of the others. -/
theorem slabPages_update_of_notMem (hc : c ∉ S) (ps fs : List ℕ) :
    slabPages S (update P c ps) (update F c fs) = slabPages S P F := by
  refine gather_congr fun d hd => ?_
  have hdc : d ≠ c := fun e => hc (e ▸ hd)
  rw [update_of_ne hdc, update_of_ne hdc]

theorem slabPages_insert (hc : c ∉ S) : slabPages (insert c S) (update P c []) (update F c []) =
      slabPages S P F := by
  have hnil : (fun d => update P c [] d ++ update F c [] d) c = [] := by
    simp
  rw [slabPages, gather_insert_nil hc hnil]
  exact slabPages_update_of_notMem hc [] []

end SlabPages

/-! ### A new cache -/

section NewCache

variable (σ : Slub) (c : CacheRef) {size align : ℕ} (panicOnFail : Bool)

theorem agreeOff_initHeads (L : Links PageRef) :
    AgreeOff L ((L.initHead (.partialHead c)).initHead (.fullHead c)) (nodes c []) := by
  refine ((agreeOff_initHead L (PageRef.partialHead c)).mono ?_).trans
    ((agreeOff_initHead _ (PageRef.fullHead c)).mono ?_)
  · rintro r rfl
    exact .inl rfl
  · rintro r rfl
    exact .inr (.inl rfl)

/-- `init_cache` writes its own descriptor only. -/
theorem initCache_frame (R : Multiset Block) : σ.Frame (initCache σ c size align panicOnFail) c R :=
  (Slub.Frame.setCache σ c _).trans (Slub.Frame.setLinks _ c (agreeOff_initHeads c _) nofun)

/-- **`init_cache`** makes a cache without slabs. -/
theorem initCache_spec (hsize : size ≤ slubMaxObjectSize) (halign : ∃ j < 64, align = 2 ^ j)
    (hfit : cacheActualSize size align ≤ pageSize) (fr : ℕ → List ℕ) :
    CacheInv (initCache σ c size align panicOnFail) c [] [] fr 0 := by
  obtain ⟨hmin, hword⟩ := cacheActualSize_spec hsize halign
  have hhead : PageRef.partialHead c ≠ PageRef.fullHead c := nofun
  have hP : IsList ((σ.links.initHead (.partialHead c)).initHead (.fullHead c))
      (.partialHead c) [] := by
    refine (isList_initHead _ _).of_agreeOff (agreeOff_initHead _ _) fun r hr => ?_
    rw [mem_singleton.mp hr]
    exact hhead
  refine ⟨⟨⟨?_, ?_, ?_, ?_, ?_⟩, hP, isList_initHead _ _, nodup_nil, ?_, ?_, ?_, ?_, ?_,
    ?_⟩, ⟨?_, ?_⟩⟩
  · simp [initCache]
  · simpa [initCache] using hmin
  · simpa [initCache] using hword
  · simpa [initCache] using hfit
  · simp [initCache]
  · exact nofun
  · exact fun a ha => absurd ha (Multiset.notMem_zero a)
  · simp [initCache]
  · simp [initCache]
  · simp [initCache]
  · simp [initCache]
  · exact nofun
  · exact nofun

end NewCache

/-- **The whole layer**: `P c` and `F c` are the slabs of `c`, `fr p` the free chain of `p`. -/
structure SlubState.Layout (s : SlubState) (U : Finset ℕ) (P F : CacheRef → List ℕ)
    (fr : ℕ → List ℕ) : Prop where
  phys : PhysInv s.slub.phys (s.pages + slabPages s.caches P F) U
  limit : ∀ x ∈ U, x < pfnLimit
  cache : ∀ c ∈ s.caches, CacheInv s.slub c (P c) (F c) fr (s.live c)
  idle : ∀ c, c ∉ s.caches → s.live c = 0
  untagged : ∀ b ∈ s.pages, (s.slub.page b.base).flags.user = false
  descriptors : ∀ a, .created a ∈ s.caches → a ∈ s.live .metaCache

namespace SlubState.Layout

variable {s : SlubState} {U : Finset ℕ} {P F : CacheRef → List ℕ} {fr : ℕ → List ℕ}
  {c : CacheRef}

/-- **One cache** over the rest. -/
theorem focus (h : s.Layout U P F fr) (hc : c ∈ s.caches) :
    CacheAt s.slub c (s.pages + slabPages (s.caches.erase c) P F) U (P c) (F c) fr (s.live c) := by
  refine ⟨?_, h.limit, (h.cache c hc).core⟩
  rw [Multiset.add_assoc, ← slabPages_eq hc]
  exact h.phys

/-- Slab pages are below the limit of the direct map. -/
theorem lt_limit (h : s.Layout U P F fr) (hc : c ∈ s.caches) {p : ℕ} (hp : p ∈ P c ++ F c) :
    p < pfnLimit :=
  (h.focus hc).lt_limit hp

variable (h : s.Layout U P F fr)
include h

/-- **Back to the whole** after a step of cache `c`. -/
theorem refocus (hc : c ∈ s.caches) {σ : Slub} {P' F' : List ℕ} {fr' : ℕ → List ℕ} {L : Multiset ℕ}
    (hled : CacheAt.Led s.slub σ c (s.pages + slabPages (s.caches.erase c) P F) U fr P' F' fr' L)
    (hdesc : c = .metaCache → s.live c ≤ L) :
    Layout { s with slub := σ, live := update s.live c L } U
      (update P c P') (update F c F') fr' := by
  obtain ⟨hat, hbal, hf, hfr, -⟩ := hled
  refine ⟨?_, h.limit, fun d hd => ?_, fun d hd => ?_, fun b hb => ?_, fun a ha => ?_⟩
  · rw [slabPages_eq hc, slabPages_update_of_notMem (Finset.notMem_erase c _), update_self,
      update_self, ← Multiset.add_assoc]
    exact hat.phys
  · by_cases hdc : d = c
    · subst hdc
      simp only [update_self]
      exact ⟨hat.core, hbal⟩
    · simp only [update_of_ne hdc]
      have hkept : ∀ p ∈ P d ++ F d,
          PageRef.frame p ∈ Kept (s.pages + slabPages (s.caches.erase c) P F) := by
        intro p hp
        refine frame_mem_kept (mem_add.mpr (.inr ?_)) (Block.base_mem ⟨p, 0⟩)
        exact mem_slabPages (Finset.mem_erase.mpr ⟨hdc, hd⟩) hp
      exact (h.cache d hd).frame hf hdc (fun p hp => ⟨hkept p hp, h.lt_limit hd hp⟩)
        fun p hp => hfr p (hkept p hp)
  · have hdc : d ≠ c := fun e => hd (e ▸ hc)
    simp only [update_of_ne hdc]
    exact h.idle d hd
  · have hkept := frame_mem_kept (mem_add.mpr (.inl hb) :
      b ∈ s.pages + slabPages (s.caches.erase c) P F) (Block.base_mem b)
    have hpage : σ.page b.base = s.slub.page b.base := hf.zone.page b.base ⟨hkept, nofun, nofun⟩
    simpa only [hpage] using h.untagged b hb
  · have hmem := h.descriptors a ha
    by_cases hmeta : c = .metaCache
    · subst hmeta
      exact Multiset.mem_of_le (hdesc rfl) hmem
    · simp only [update_of_ne (Ne.symm hmeta)]
      exact hmem

/-- **A new cache** joins the layer. -/
theorem initCache_spec (hc : c ∉ s.caches) {size align : ℕ} (hsize : size ≤ slubMaxObjectSize)
    (halign : ∃ j < 64, align = 2 ^ j)
    (hfit : cacheActualSize size align ≤ pageSize) (panicOnFail : Bool)
    (hdesc : ∀ a, c = .created a → a ∈ s.live .metaCache) :
    Layout { s with
        slub := initCache s.slub c size align panicOnFail
        caches := insert c s.caches } U
      (update P c []) (update F c []) fr := by
  have hf : s.slub.Frame (initCache s.slub c size align panicOnFail) c
      (s.pages + slabPages s.caches P F) := initCache_frame s.slub c panicOnFail _
  refine ⟨?_, h.limit, fun d hd => ?_, fun d hd => ?_, h.untagged, fun a ha => ?_⟩
  · rw [slabPages_insert hc]
    refine h.phys.setLinks (agreeOff_initHeads c _) ?_
    rintro r (rfl | rfl | hr)
    · exact ⟨nofun, nofun⟩
    · exact ⟨nofun, nofun⟩
    · cases hr
  · rcases Finset.mem_insert.mp hd with rfl | hd
    · simp only [update_self, h.idle d hc]
      exact initCache_spec _ _ _ hsize halign hfit fr
    · have hdc : d ≠ c := fun e => hc (e ▸ hd)
      simp only [update_of_ne hdc]
      refine (h.cache d hd).frame hf hdc (fun p hp => ⟨?_, h.lt_limit hd hp⟩) fun _ _ => rfl
      exact frame_mem_kept (mem_add.mpr (.inr (mem_slabPages hd hp))) (Block.base_mem ⟨p, 0⟩)
  · exact h.idle d fun hmem => hd (Finset.mem_insert_of_mem hmem)
  · rcases Finset.mem_insert.mp ha with heq | ha
    · exact hdesc a heq.symm
    · exact h.descriptors a ha

/-- **The page allocator** serves others. -/
theorem setPhys {phys : Phys} {pages : Multiset Block}
    (hinv : PhysInv phys (pages + slabPages s.caches P F) U)
    (hf : s.slub.phys.Frame phys (slabPages s.caches P F))
    (huser : ∀ b ∈ pages, (phys.zone.page b.base).flags.user = false) :
    Layout { s with slub := { s.slub with phys := phys }, pages := pages } U P F fr := by
  refine ⟨hinv, h.limit, fun d hd => ?_, h.idle, huser, h.descriptors⟩
  have hf' := hf
  rw [slabPages_eq hd] at hf'
  refine ⟨CacheAt.core_setPhys (h.cache d hd).core hf',
    (h.cache d hd).balanced.congr rfl fun p hp => ?_⟩
  exact hf'.page_eq (CacheAt.held hp) (Block.base_mem ⟨p, 0⟩)

/-- **A write** that misses the free objects. -/
theorem setMem {mem : ℕ → Option ℕ}
    (hmem : ∀ c ∈ s.caches, ∀ p ∈ P c ++ F c, ∀ a ∈ fr p, mem a = s.slub.mem a) :
    Layout { s with slub := { s.slub with mem := mem } } U P F fr := by
  refine ⟨h.phys, h.limit, fun d hd => ?_, h.idle, h.untagged, h.descriptors⟩
  have hat := (h.focus hd).setMem (hmem d hd)
  exact ⟨hat.core, (h.cache d hd).balanced.congr rfl fun _ _ => rfl⟩

/-- Two slabs on one page are one slab. -/
theorem cache_eq_of_mem {d : CacheRef} (hc : c ∈ s.caches) (hd : d ∈ s.caches) {p : ℕ}
    (hpc : p ∈ P c ++ F c) (hpd : p ∈ P d ++ F d) : d = c := by
  have h1 := ((h.cache c hc).core.slab p hpc).owner
  have h2 := ((h.cache d hd).core.slab p hpd).owner
  exact Option.some.inj (h2.symm.trans h1)

/-- A live object's word is no free object of any cache. -/
theorem word_not_free (hc : c ∈ s.caches) {obj w : ℕ} (hobj : obj ∈ s.live c)
    (hw : obj ≤ w ∧ w < obj + (s.slub.cache c).actualSize) :
    ∀ d ∈ s.caches, ∀ p ∈ P d ++ F d, w ∉ fr p := by
  intro d hd p hp hfree
  obtain ⟨hpfn, hnot⟩ := (h.focus hc).word_not_free hobj hw
  have hslab := (h.cache c hc).core.placed obj hobj
  obtain rfl : objPfn w = p := (h.cache d hd).core.objPfn_of_free hp (h.lt_limit hd hp) hfree
  rw [hpfn] at hp hfree
  obtain rfl := h.cache_eq_of_mem hc hd hslab hp
  exact hnot _ hslab hfree

/-- A word of a page not a slab is no free object. -/
theorem page_not_free {b : Block} (hb : b ∈ s.pages) {w : ℕ} (hw : objPfn w ∈ b) :
    ∀ d ∈ s.caches, ∀ p ∈ P d ++ F d, w ∉ fr p := by
  intro d hd p hp hfree
  obtain rfl : objPfn w = p := (h.cache d hd).core.objPfn_of_free hp (h.lt_limit hd hp) hfree
  exact (h.focus hd).not_kept hp (frame_mem_kept (mem_add.mpr (.inl hb)) hw)

end SlubState.Layout

/-! ### Steps -/

/-- **One step**. Only `kmem_cache_create` uses the meta cache; writes go to live objects or the
kernel's pages. -/
inductive SlubStep : SlubState → SlubState → Prop
  | create {s : SlubState} {size align addr cpu : ℕ} {panicOnFail : Bool} {σ : Slub}
      (halign : ∃ j < 64, align = 2 ^ j)
      (heq : kmemCacheCreate s.slub size align panicOnFail cpu = some (σ, some (.created addr))) :
      SlubStep s { s with
        slub := σ
        caches := insert (.created addr) s.caches
        live := Function.update s.live .metaCache (addr ::ₘ s.live .metaCache) }
  | createNull {s : SlubState} {size align cpu : ℕ} {panicOnFail : Bool} {σ : Slub}
      (heq : kmemCacheCreate s.slub size align panicOnFail cpu = some (σ, none)) :
      SlubStep s { s with slub := σ }
  | alloc {s : SlubState} {c : CacheRef} {zero : Bool} {cpu obj : ℕ} {σ : Slub}
      (hc : c ∈ s.caches) (hmeta : c ≠ .metaCache)
      (heq : kmemCacheAlloc s.slub c zero cpu = some (σ, some obj)) :
      SlubStep s { s with
        slub := σ
        live := Function.update s.live c (obj ::ₘ s.live c) }
  | allocNull {s : SlubState} {c : CacheRef} {zero : Bool} {cpu : ℕ} {σ : Slub}
      (hc : c ∈ s.caches) (heq : kmemCacheAlloc s.slub c zero cpu = some (σ, none)) :
      SlubStep s { s with slub := σ }
  | free {s : SlubState} {c : CacheRef} {cpu obj : ℕ} {σ : Slub} (hc : c ∈ s.caches)
      (hmeta : c ≠ .metaCache) (hobj : obj ∈ s.live c)
      (heq : kmemCacheFree s.slub c obj cpu = some σ) :
      SlubStep s { s with
        slub := σ
        live := Function.update s.live c ((s.live c).erase obj) }
  | writeObject {s : SlubState} {c : CacheRef} {obj a : ℕ} (w : Option ℕ) (hc : c ∈ s.caches)
      (hobj : obj ∈ s.live c) (ha : obj ≤ a ∧ a < obj + (s.slub.cache c).actualSize) :
      SlubStep s { s with slub := { s.slub with mem := Function.update s.slub.mem a w } }
  | writePage {s : SlubState} {b : Block} {a : ℕ} (w : Option ℕ) (hb : b ∈ s.pages)
      (ha : objPfn a ∈ b) :
      SlubStep s { s with slub := { s.slub with mem := Function.update s.slub.mem a w } }
  | allocPages {s : SlubState} {cpu order pfn : ℕ} {phys : Phys}
      (heq : allocPages s.slub.phys cpu order = some (phys, some pfn)) :
      SlubStep s { s with slub := { s.slub with phys := phys }, pages := ⟨pfn, order⟩ ::ₘ s.pages }
  | freePages {s : SlubState} {cpu order pfn : ℕ} {phys : Phys} (hb : ⟨pfn, order⟩ ∈ s.pages)
      (heq : freePages s.slub.phys cpu pfn order = some phys) :
      SlubStep s { s with
        slub := { s.slub with phys := phys }
        pages := s.pages.erase ⟨pfn, order⟩ }

/-- The invariant of runs. -/
def SlubState.Inv (s : SlubState) (U : Finset ℕ) : Prop :=
  .metaCache ∈ s.caches ∧ ∃ P F fr, s.Layout U P F fr

variable {s : SlubState} {U : Finset ℕ} {c : CacheRef} {σ : Slub} {R : Multiset Block}
  {fr : ℕ → List ℕ} {L : Multiset ℕ}

/-- Where empty slabs are drained, a free leaves none. -/
theorem liveOn_erase_ne_zero {obj n : ℕ} {slabs slabs' : List ℕ} (hobj : obj ∈ L)
    (hocc : ∀ p ∈ slabs, liveOn L p ≠ 0) (hn : n ≠ 1)
    (hslabs : ∀ q, q ∈ slabs' ↔ q ∈ slabs ∧
      ¬(q = objPfn obj ∧ liveOn (L.erase obj) q = 0 ∧ n ≠ 1)) {p : ℕ} (hp : p ∈ slabs') :
    liveOn (L.erase obj) p ≠ 0 := by
  obtain ⟨hp, hkept⟩ := (hslabs p).mp hp
  by_cases hpo : p = objPfn obj
  · exact fun h0 => hkept ⟨hpo, h0, hn⟩
  · rw [← liveOn_cons_of_ne _ (Ne.symm hpo), Multiset.cons_erase hobj]
    exact hocc p hp

/-- A cache of several objects to a slab has a live one on each. -/
def SlubState.Occupied (s : SlubState) (P F : CacheRef → List ℕ) : Prop :=
  ∀ c ∈ s.caches, (s.slub.cache c).objectsPerSlab ≠ 1 → ∀ p ∈ P c ++ F c, liveOn (s.live c) p ≠ 0

/-- An operation of `c` that leaves no empty slab in it. -/
theorem SlubState.Occupied.refocus {P F : CacheRef → List ℕ} {P' F' : List ℕ} {fr' : ℕ → List ℕ}
    (h : s.Occupied P F) (hled : CacheAt.Led s.slub σ c R U fr P' F' fr' L)
    (hc : (s.slub.cache c).objectsPerSlab ≠ 1 → ∀ p ∈ P' ++ F', liveOn L p ≠ 0) :
    Occupied { s with slub := σ, live := update s.live c L } (update P c P') (update F c F') := by
  intro d hd hsize
  by_cases hdc : d = c
  · subst hdc
    simpa using hc (hled.size ▸ hsize)
  · simp only [update_of_ne hdc]
    exact h d hd (hled.frame.cache d hdc ▸ hsize)

/-- A new cache has no slab. -/
theorem SlubState.Occupied.initCache_spec {P F : CacheRef → List ℕ} {size align : ℕ} (panicOnFail : Bool)
    (h : s.Occupied P F) :
    Occupied { s with
        slub := initCache s.slub c size align panicOnFail
        caches := insert c s.caches } (update P c []) (update F c []) := by
  intro d hd hsize
  by_cases hdc : d = c
  · simp [hdc]
  · simp only [update_of_ne hdc]
    exact h d ((Finset.mem_insert.mp hd).resolve_left hdc)
      ((initCache_frame s.slub c panicOnFail 0).cache d hdc ▸ hsize)

/-- The invariant of runs, with the slabs in use. -/
def SlubState.Tidy (s : SlubState) (U : Finset ℕ) : Prop :=
  .metaCache ∈ s.caches ∧ ∃ P F fr, s.Layout U P F fr ∧ s.Occupied P F

namespace SlubState.Tidy

theorem inv (h : s.Tidy U) : s.Inv U := by
  obtain ⟨hmeta, P, F, fr, hl, -⟩ := h
  exact ⟨hmeta, P, F, fr, hl⟩

/-- **An allocation** from a cache, or nothing changes. -/
theorem kmemCacheAlloc_spec (h : s.Tidy U) (hc : c ∈ s.caches) {zero : Bool} {cpu : ℕ} {r : Option ℕ}
    (heq : kmemCacheAlloc s.slub c zero cpu = some (σ, r)) :
    (r = none ∧ σ = s.slub) ∨
    ∃ obj, r = some obj ∧ obj ∉ s.live c ∧
      Tidy { s with slub := σ, live := update s.live c (obj ::ₘ s.live c) } U := by
  obtain ⟨hmeta, P, F, fr, hl, hocc⟩ := h
  rcases (hl.focus hc).kmemCacheAlloc_spec (hl.cache c hc).balanced zero cpu with
    hnone | ⟨σ', obj, P', F', fr', halloc, hled, hsub⟩
  · rw [heq] at hnone
    split at hnone
    · cases hnone
    · cases hnone
      exact .inl ⟨rfl, rfl⟩
  · cases heq.symm.trans halloc
    refine .inr ⟨obj, rfl, (Multiset.nodup_cons.mp hled.cache.core.live_nodup).1, hmeta, _, _,
      fr', hl.refocus hc hled fun _ => Multiset.le_cons_self _ _, hocc.refocus hled
        fun hsize p hp => ?_⟩
    rcases hsub p hp with hp | rfl
    · exact fun h0 => hocc c hc hsize p hp (Multiset.le_zero.mp
        (h0 ▸ Multiset.filter_le_filter _ (Multiset.le_cons_self _ _)))
    · exact liveOn_cons_self .. ▸ Multiset.cons_ne_zero

/-- **`kmem_cache_create`** registers a cache or changes nothing. -/
theorem kmemCacheCreate_spec (h : s.Tidy U) {size align cpu : ℕ} {panicOnFail : Bool}
    {r : Option CacheRef}
    (heq : kmemCacheCreate s.slub size align panicOnFail cpu = some (σ, r)) :
    (r = none ∧ σ = s.slub) ∨
    ∃ addr, r = some (.created addr) ∧ ((∃ j < 64, align = 2 ^ j) → Tidy { s with
        slub := σ
        caches := insert (.created addr) s.caches
        live := update s.live .metaCache (addr ::ₘ s.live .metaCache) } U) := by
  rw [kmemCacheCreate] at heq
  split at heq
  · cases heq
    exact .inl ⟨rfl, rfl⟩
  next hsize =>
  split at heq
  · cases heq
    exact .inl ⟨rfl, rfl⟩
  next hfit =>
  obtain ⟨⟨σ₁, obj⟩, halloc, heq⟩ := Option.bind_eq_some_iff.mp heq
  rcases h.kmemCacheAlloc_spec h.1 halloc with ⟨rfl, rfl⟩ |
    ⟨addr, rfl, hfresh, hmeta, P, F, fr, hl, hocc⟩
  · cases heq
    exact .inl ⟨rfl, rfl⟩
  · cases heq
    obtain ⟨-, P₀, F₀, fr₀, hl₀, -⟩ := h
    have hnew := fun hmem => hfresh (hl₀.descriptors addr hmem)
    have hdesc : ∀ a, CacheRef.created addr = .created a →
        a ∈ update s.live .metaCache (addr ::ₘ s.live .metaCache) .metaCache := by
      intro a ha
      rw [← CacheRef.created.inj ha]
      exact Multiset.mem_cons_self _ _
    exact .inr ⟨addr, rfl, fun halign => ⟨Finset.mem_insert_of_mem hmeta, _, _, fr,
      hl.initCache_spec hnew (not_lt.mp hsize) halign (not_lt.mp hfit) panicOnFail hdesc,
      hocc.initCache_spec panicOnFail⟩⟩

end SlubState.Tidy

/-- **One step** keeps the invariant. -/
theorem SlubStep.tidy {s' : SlubState} (hstep : SlubStep s s') (h : s.Tidy U) : s'.Tidy U := by
  have htidy := h
  obtain ⟨hbase, P, F, fr, hl, hocc⟩ := htidy
  cases hstep with
  | create halign heq =>
    obtain ⟨⟨⟩, -⟩ | ⟨addr, ⟨⟩, hinv⟩ := h.kmemCacheCreate_spec heq
    exact hinv halign
  | createNull heq =>
    obtain ⟨-, rfl⟩ | ⟨addr, ⟨⟩, -⟩ := h.kmemCacheCreate_spec heq
    exact h
  | alloc hc hmeta heq =>
    obtain ⟨⟨⟩, -⟩ | ⟨obj, ⟨⟩, -, hinv⟩ := h.kmemCacheAlloc_spec hc heq
    exact hinv
  | allocNull hc heq =>
    obtain ⟨-, rfl⟩ | ⟨obj, ⟨⟩, -⟩ := h.kmemCacheAlloc_spec hc heq
    exact h
  | @free c cpu obj σ hc hmeta hobj heq =>
    obtain ⟨σ', P', F', fr', hfree, hled, hslabs⟩ :=
      (hl.focus hc).kmemCacheFree_spec (hl.cache c hc).balanced hobj cpu
    cases heq.symm.trans hfree
    exact ⟨hbase, _, _, fr', hl.refocus hc hled fun e => absurd e hmeta, hocc.refocus hled
      fun hsize p hp => liveOn_erase_ne_zero hobj (hocc c hc hsize) hsize hslabs hp⟩
  | @writeObject c obj a w hc hobj ha =>
    refine ⟨hbase, P, F, fr, hl.setMem fun d hd p hp b hb => update_of_ne ?_ _ _, hocc⟩
    rintro rfl
    exact hl.word_not_free hc hobj ha d hd p hp hb
  | @writePage b a w hb ha =>
    refine ⟨hbase, P, F, fr, hl.setMem fun d hd p hp x hx => update_of_ne ?_ _ _, hocc⟩
    rintro rfl
    exact hl.page_not_free hb ha d hd p hp hx
  | @allocPages cpu order pfn phys heq =>
    obtain ⟨⟨⟩, -⟩ | ⟨_, ⟨⟩, hinv, hf, hflags⟩ :=
      alloc_answer heq (hl.phys.allocPages_spec cpu order)
    refine ⟨hbase, P, F, fr, hl.setPhys (by rwa [Multiset.cons_add])
      (hf.mono fun b hb => mem_add.mpr (.inr hb)) ?_, hocc⟩
    exact (hf.mono fun b hb => mem_add.mpr (.inl hb)).untagged_cons hl.untagged hflags
  | @freePages cpu order pfn phys hb heq =>
    have hphys := hl.phys
    rw [← Multiset.cons_erase hb, Multiset.cons_add] at hphys
    obtain ⟨s', hfree, hinv, hf⟩ := hphys.freePages_spec (hl.untagged _ hb) cpu
    cases heq.symm.trans hfree
    refine ⟨hbase, P, F, fr, hl.setPhys hinv (hf.mono fun b hb => mem_add.mpr (.inr hb)) ?_, hocc⟩
    exact (hf.mono fun b hb => mem_add.mpr (.inl hb)).untagged fun b hb =>
      hl.untagged b (Multiset.mem_of_mem_erase hb)

/-- **A run** keeps the invariant. -/
theorem SlubStep.run_tidy {s' : SlubState} (hrun : ReflTransGen SlubStep s s')
    (h : s.Tidy U) : s'.Tidy U := by
  induction hrun with
  | refl => exact h
  | tail _ hstep ih => exact hstep.tidy ih

/-! ### The property -/

/-- The slabs on `partial_list`, first to last. -/
def partialSlabs (σ : Slub) (c : CacheRef) : List ℕ := σ.phys.zone.listFrom (.partialHead c)

/-- The slabs on `full_list`, first to last. -/
def fullSlabs (σ : Slub) (c : CacheRef) : List ℕ := σ.phys.zone.listFrom (.fullHead c)

/-- The free objects of slab `p`, along its chain. -/
def freeObjects (σ : Slub) (c : CacheRef) (p : ℕ) : List ℕ :=
  PointerChain.walk σ.mem ((σ.cache c).objectsPerSlab + 1) (σ.page p).slabFreelist

/-- A cache's property with live objects `L`, as stored. -/
structure CacheOk (σ : Slub) (c : CacheRef) (L : Multiset ℕ) : Prop where
  /-- A page holds at least one object. -/
  sizes : 0 < (σ.cache c).objectsPerSlab ∧
    (σ.cache c).objectsPerSlab * (σ.cache c).actualSize ≤ pageSize
  distinct : L.Nodup
  /-- A live object is at a multiple of the object size in a slab of the cache, and is not
  free. -/
  placed : ∀ a ∈ L, objPfn a ∈ partialSlabs σ c ++ fullSlabs σ c ∧
    (∃ i < (σ.cache c).objectsPerSlab, a = slabBase (objPfn a) + i * (σ.cache c).actualSize) ∧
    a ∉ freeObjects σ c (objPfn a)
  /-- The free and the live objects of a slab are its objects, each once. -/
  objects : ∀ p ∈ partialSlabs σ c ++ fullSlabs σ c,
    (freeObjects σ c p : Multiset ℕ) + liveOn L p = slabObjects (σ.cache c) p
  refcount : ∀ p ∈ partialSlabs σ c ++ fullSlabs σ c, (σ.page p).refcount = (liveOn L p).card
  /-- A slab is on one list, once. -/
  oneList : (partialSlabs σ c ++ fullSlabs σ c).Nodup
  full : ∀ p ∈ partialSlabs σ c ++ fullSlabs σ c,
    p ∈ fullSlabs σ c ↔ (σ.page p).refcount = (σ.cache c).objectsPerSlab
  nrPartial : (σ.cache c).nrPartial = (partialSlabs σ c).length
  nrFull : (σ.cache c).nrFull = (fullSlabs σ c).length
  slabsActive : (σ.cache c).slabsActive = (σ.cache c).nrPartial + (σ.cache c).nrFull
  count : ((σ.cache c).allocCount - (σ.cache c).freeCount).toNat = L.card
  /-- No operation on the cache faults. -/
  alloc : ∀ cpu, ∃ r, cacheAllocLocked σ c cpu = some r
  free : ∀ a ∈ L, ∀ cpu, ∃ σ', kmemCacheFree σ c a cpu = some σ'

/-- A state's property: each managed frame is in exactly one block that is free, in a magazine, the
kernel's or a slab of its cache, and every cache is consistent. -/
structure SlubState.Ok (s : SlubState) (U : Finset ℕ) : Prop where
  cover : ∀ x, (s.slub.phys.zone.freeBlocks + magBlocks s.slub.phys.mags + s.pages +
      slabPages s.caches (partialSlabs s.slub) (fullSlabs s.slub)).countP (x ∈ ·) =
    if x ∈ U then 1 else 0
  cache : ∀ c ∈ s.caches, CacheOk s.slub c (s.live c)

namespace CacheAt

variable {P F : List ℕ} (h : CacheAt σ c R U P F fr L)
include h

theorem partialSlabs_eq : partialSlabs σ c = P :=
  Zone.listFrom_eq h.core.partialList fun _ hp => h.inArray (mem_append_left F hp)

theorem fullSlabs_eq : fullSlabs σ c = F :=
  Zone.listFrom_eq h.core.fullList fun _ hp => h.inArray (mem_append_right P hp)

theorem freeObjects_eq {p : ℕ} (hp : p ∈ P ++ F) : freeObjects σ c p = fr p := by
  have hslab := h.core.slab p hp
  refine PointerChain.walk_eq hslab.chain ?_
  have hcard := congrArg Multiset.card hslab.objects
  rw [Multiset.card_add, Multiset.coe_card, slabObjects, Multiset.card_map,
    Multiset.card_range] at hcard
  omega

/-- The live objects are fewer than a counter can count. -/
theorem card_lt : L.card < 2 ^ 64 := by
  have hsub : L.toFinset ⊆ Finset.Ico (0xFFFF * 2 ^ 48) (2 ^ 64) := by
    intro a ha
    have hmem := Multiset.mem_toFinset.mp ha
    have hlim := h.lt_limit (h.core.placed a hmem)
    obtain ⟨i, hi, heq⟩ := Multiset.mem_map.mp (h.core.live_mem hmem)
    have hoff := h.core.sized.offset_lt (Multiset.mem_range.mp hi)
    have hmin := h.core.sized.min_le
    rw [slabBase_eq hlim] at heq
    rw [pfnLimit] at hlim
    rw [pageSize, pageShift] at hoff
    rw [pageShift] at heq
    rw [Finset.mem_Ico]
    omega
  have hcard := Finset.card_le_card hsub
  rw [Multiset.toFinset_card_of_nodup h.core.live_nodup, Nat.card_Ico] at hcard
  omega

/-- **The invariant gives the property** of a cache. -/
theorem ok (hbal : Balanced σ c P F) : CacheOk σ c L := by
  have hP := h.partialSlabs_eq
  have hF := h.fullSlabs_eq
  refine ⟨⟨h.core.sized.count_pos, ?_⟩, h.core.live_nodup, fun a ha => ?_, fun p hp => ?_,
    fun p hp => ?_, ?_, fun p hp => ?_, ?_, ?_, ?_, ?_, fun cpu => ?_, fun a ha cpu => ?_⟩
  · rw [h.core.sized.count]
    exact Nat.div_mul_le_self _ _
  · have hslab := h.core.placed a ha
    obtain ⟨i, hi, heq⟩ := Multiset.mem_map.mp (h.core.live_mem ha)
    rw [hP, hF, h.freeObjects_eq hslab]
    exact ⟨hslab, ⟨i, Multiset.mem_range.mp hi, heq.symm⟩, h.core.live_not_free ha⟩
  · rw [hP, hF] at hp
    rw [h.freeObjects_eq hp]
    exact (h.core.slab p hp).objects
  · rw [hP, hF] at hp
    exact (h.core.slab p hp).inuse
  · rw [hP, hF]
    exact h.core.nodup
  · rw [hP, hF] at hp
    rw [hF]
    constructor
    · exact hbal.full_eq p
    · intro hfull
      rcases mem_append.mp hp with hp | hp
      · have hlt := hbal.partial_lt p hp
        omega
      · exact hp
  · rw [hP]
    exact h.core.nrPartial
  · rw [hF]
    exact h.core.nrFull
  · rw [h.core.slabsActive, h.core.nrPartial, h.core.nrFull]
  · rw [h.core.count]
    exact Nat.mod_eq_of_lt h.card_lt
  · rcases h.cacheAllocLocked_spec hbal cpu with hnone | ⟨σ', obj, -, -, -, ha, -⟩
    · exact ⟨_, hnone⟩
    · exact ⟨_, ha⟩
  · obtain ⟨σ', -, -, -, hfree, -⟩ := h.kmemCacheFree_spec hbal ha cpu
    exact ⟨σ', hfree⟩

end CacheAt

/-- **The invariant gives the property** of a state. -/
theorem SlubState.Inv.ok (h : s.Inv U) : s.Ok U := by
  obtain ⟨-, P, F, fr, hl⟩ := h
  refine ⟨?_, fun c hc => (hl.focus hc).ok (hl.cache c hc).balanced⟩
  have hslabs : slabPages s.caches (partialSlabs s.slub) (fullSlabs s.slub) =
      slabPages s.caches P F :=
    gather_congr fun c hc => by rw [(hl.focus hc).partialSlabs_eq, (hl.focus hc).fullSlabs_eq]
  obtain ⟨fl, hinv⟩ := hl.phys.zone
  have htile := hinv.tiling
  rw [← hinv.freeBlocks_eq, Multiset.add_comm (s.pages + _), ← Multiset.add_assoc,
    ← Multiset.add_assoc, ← hslabs] at htile
  exact htile.cover

/-- Every slab of `c` holds one of the objects `L`. -/
def NoEmptySlab (σ : Slub) (c : CacheRef) (L : Multiset ℕ) : Prop :=
  ∀ p ∈ partialSlabs σ c ++ fullSlabs σ c, ∃ a ∈ L, objPfn a = p

theorem CacheAt.noEmptySlab_iff {P F : List ℕ} (h : CacheAt σ c R U P F fr L) :
    NoEmptySlab σ c L ↔ ∀ p ∈ P ++ F, liveOn L p ≠ 0 := by
  rw [NoEmptySlab, h.partialSlabs_eq, h.fullSlabs_eq]
  refine forall₂_congr fun p _ => ?_
  rw [Ne, Multiset.eq_zero_iff_forall_notMem, not_forall]
  simp only [mem_liveOn, not_not]

namespace SlubState.Tidy

/-- A cache of several objects to a slab keeps no empty one. -/
theorem noEmptySlab (h : s.Tidy U) (hc : c ∈ s.caches)
    (hsize : (s.slub.cache c).objectsPerSlab ≠ 1) : NoEmptySlab s.slub c (s.live c) := by
  obtain ⟨-, P, F, fr, hl, hocc⟩ := h
  exact (hl.focus hc).noEmptySlab_iff.mpr (hocc c hc hsize)

theorem slabsActive_eq_zero (h : s.Tidy U) (hc : c ∈ s.caches)
    (hsize : (s.slub.cache c).objectsPerSlab ≠ 1) (hlive : s.live c = 0) :
    (s.slub.cache c).slabsActive = 0 := by
  have hnone : partialSlabs s.slub c ++ fullSlabs s.slub c = [] := by
    refine eq_nil_iff_forall_not_mem.mpr fun p hp => ?_
    obtain ⟨a, ha, -⟩ := h.noEmptySlab hc hsize p hp
    exact Multiset.notMem_zero a (hlive ▸ ha)
  obtain ⟨hpart, hfull⟩ := append_eq_nil_iff.mp hnone
  have hok := h.inv.ok.cache c hc
  rw [hok.slabsActive, hok.nrPartial, hok.nrFull, hpart, hfull]
  rfl

theorem noEmptySlab_free_iff (h : s.Tidy U) (hc : c ∈ s.caches) {obj cpu : ℕ}
    (hobj : obj ∈ s.live c) (hfree : kmemCacheFree s.slub c obj cpu = some σ) :
    NoEmptySlab σ c ((s.live c).erase obj) ↔ (s.slub.cache c).objectsPerSlab ≠ 1 := by
  obtain ⟨-, P, F, fr, hl, hocc⟩ := h
  have hat := hl.focus hc
  obtain ⟨σ', P', F', fr', heq, hled, hslabs⟩ :=
    hat.kmemCacheFree_spec (hl.cache c hc).balanced hobj cpu
  cases hfree.symm.trans heq
  rw [hled.cache.noEmptySlab_iff]
  refine ⟨fun hocc' hone => ?_, fun hsize p hp =>
    liveOn_erase_ne_zero hobj (hocc c hc hsize) hsize hslabs hp⟩
  have hkept : objPfn obj ∈ P' ++ F' :=
    (hslabs _).mpr ⟨hat.core.placed obj hobj, fun hdrain => hdrain.2.2 hone⟩
  obtain ⟨a, ha⟩ := Multiset.exists_mem_of_ne_zero (hocc' _ hkept)
  obtain ⟨ha, hpage⟩ := mem_liveOn.mp ha
  -- the objects of a slab are all at its base
  have hbase : ∀ b ∈ s.live c, b = slabBase (objPfn b) := by
    intro b hb
    obtain ⟨i, hi, heq⟩ := Multiset.mem_map.mp (hat.core.live_mem hb)
    rw [hone, Multiset.mem_range, Nat.lt_one_iff] at hi
    rw [hi, Nat.zero_mul] at heq
    exact heq.symm
  have heq : a = obj := by rw [hbase a (Multiset.mem_of_mem_erase ha), hpage, ← hbase obj hobj]
  exact (hat.core.live_nodup.mem_erase_iff.mp ha).1 heq

end SlubState.Tidy

/-! ### Boot -/

/-- The caches of `slub_init`. -/
def bootCaches : Finset CacheRef :=
  (range' 3 9).foldl (fun S i => insert (.kmallocCache i) S) {.metaCache}

/-- The loop of `slub_init` registers the caches. Induction on the indices to come. -/
theorem SlubState.layout_initCaches (is : List ℕ) (hnd : is.Nodup)
    (his : ∀ i ∈ is, 2 ^ i ≤ slubMaxObjectSize ∧ cacheActualSize (2 ^ i) slubMinAlign ≤ pageSize)
    (hfresh : ∀ i ∈ is, CacheRef.kmallocCache i ∉ s.caches)
    {P F : CacheRef → List ℕ} (h : s.Layout U P F fr) (hocc : s.Occupied P F) :
    ∃ P' F', ∀ s' : SlubState, s' = { s with
        slub := is.foldl (fun σ i => initCache σ (.kmallocCache i) (2 ^ i) slubMinAlign false) s.slub
        caches := is.foldl (fun S i => insert (.kmallocCache i) S) s.caches } →
      s'.Layout U P' F' fr ∧ s'.Occupied P' F' := by
  induction is generalizing s P F with
  | nil => exact ⟨P, F, fun _ heq => heq ▸ ⟨h, hocc⟩⟩
  | cons i is ih =>
    obtain ⟨hi, hnd⟩ := nodup_cons.mp hnd
    obtain ⟨hsize, hfit⟩ := his i mem_cons_self
    have hnew := h.initCache_spec (hfresh i mem_cons_self) hsize ⟨3, by omega, rfl⟩ hfit false nofun
    refine ih hnd (fun j hj => his j (mem_cons_of_mem i hj)) (fun j hj => ?_) hnew
      (hocc.initCache_spec false)
    rw [Finset.mem_insert, not_or]
    refine ⟨fun e => ?_, hfresh j (mem_cons_of_mem i hj)⟩
    rw [CacheRef.kmallocCache.inj e] at hj
    exact hi hj

/-- **`slub_init`** establishes the invariant. -/
theorem SlubState.tidy_boot {phys : Phys} (h : PhysInv phys 0 U)
    (hlim : ∀ x ∈ U, x < pfnLimit) (words : ℕ → Option ℕ) (desc : CacheRef → KmemCache) :
    Tidy ⟨slubInit ⟨phys, words, desc⟩, bootCaches, fun _ => 0, 0⟩ U := by
  have hsize : sizeofKmemCache ≤ slubMaxObjectSize := by decide
  -- before the first registration there are no caches
  have hboot : Layout ⟨⟨phys, words, desc⟩, ∅, fun _ => 0, 0⟩ U (fun _ => [])
      (fun _ => []) fun _ => [] := by
    refine ⟨?_, hlim, fun c hc => ?_, fun _ _ => rfl, fun b hb => ?_, fun a ha => ?_⟩
    · exact h
    · exact absurd hc (Finset.notMem_empty c)
    · exact absurd hb (Multiset.notMem_zero b)
    · exact absurd ha (Finset.notMem_empty _)
  have hmeta := hboot.initCache_spec
    (Finset.notMem_empty .metaCache) hsize ⟨3, by omega, rfl⟩ (by decide) false
    nofun
  have hfresh : ∀ i ∈ range' 3 9,
      CacheRef.kmallocCache i ∉ (insert .metaCache ∅ : Finset CacheRef) := by decide
  have hbase : CacheRef.metaCache ∈ bootCaches := by decide
  obtain ⟨P, F, hl⟩ := layout_initCaches (range' 3 9) (by decide) (by decide)
    hfresh hmeta (Occupied.initCache_spec false fun c hc => absurd hc (Finset.notMem_empty c))
  exact ⟨hbase, P, F, _, hl _ rfl⟩

section

variable (mem : Zone) (zone : PageRange) (regions : List PageRange) (hs : Seeding zone regions)
  (hpa : zone.endPa ≤ 2 ^ 48) (mags : ℕ × ℕ → List ℕ) (charged : ℕ) (words : ℕ → Option ℕ)
  (desc : CacheRef → KmemCache)
include hs hpa

/-- The invariant holds in every state reached from boot. -/
theorem SlubStep.tidy_of_boot :
    ∃ z, bootZone mem zone regions = some z ∧ ∀ s, ReflTransGen SlubStep
      ⟨slubInit ⟨magazinesInit ⟨z, mags, charged⟩, words, desc⟩, bootCaches, fun _ => 0, 0⟩ s →
      s.Tidy (managed regions) := by
  obtain ⟨z, fl, hz, hinv, -, -⟩ := bootZone_spec mem hs
  have hlim : ∀ x ∈ managed regions, x < pfnLimit := by
    intro x hx
    obtain ⟨r, hr, hxr⟩ := mem_managed.mp hx
    have hend := (hs.inZone r hr).2
    have hlt := (Finset.mem_Ico.mp hxr).2
    rw [pageShift] at hlt
    rw [pfnLimit]
    omega
  refine ⟨z, hz, fun s hrun => run_tidy hrun ?_⟩
  exact SlubState.tidy_boot (physInv_boot hinv mags charged) hlim words desc

/-- **Slab accounting.** After boot on memory the direct map can address, in every state that
creating caches and allocating and freeing objects can reach, every cache is consistent. -/
theorem slab_accounting :
    ∃ z, bootZone mem zone regions = some z ∧ ∀ s, ReflTransGen SlubStep
          ⟨slubInit ⟨magazinesInit ⟨z, mags, charged⟩, words, desc⟩, bootCaches, fun _ => 0, 0⟩ s →
        s.Ok (managed regions) := by
  obtain ⟨z, hz, htidy⟩ := SlubStep.tidy_of_boot mem zone regions hs hpa mags charged words desc
  exact ⟨z, hz, fun s hrun => (htidy s hrun).inv.ok⟩

/-- **Empty slabs.** In every reachable state every slab of a cache with several objects to a slab
holds a live object, so that without live objects there is no slab. A free leaves every slab of its
cache with a live object exactly in these caches: where one object fills the slab, the slab it was
on stays, empty, on the partial list. -/
theorem empty_slab_kept_iff :
    ∃ z, bootZone mem zone regions = some z ∧ ∀ s, ReflTransGen SlubStep
          ⟨slubInit ⟨magazinesInit ⟨z, mags, charged⟩, words, desc⟩, bootCaches, fun _ => 0, 0⟩ s →
        ∀ c ∈ s.caches, ((s.slub.cache c).objectsPerSlab ≠ 1 → NoEmptySlab s.slub c (s.live c) ∧
            (s.live c = 0 → (s.slub.cache c).slabsActive = 0)) ∧
          ∀ obj ∈ s.live c, ∀ cpu σ, kmemCacheFree s.slub c obj cpu = some σ →
            (NoEmptySlab σ c ((s.live c).erase obj) ↔ (s.slub.cache c).objectsPerSlab ≠ 1) := by
  obtain ⟨z, hz, htidy⟩ := SlubStep.tidy_of_boot mem zone regions hs hpa mags charged words desc
  refine ⟨z, hz, fun s hrun c hc => ⟨fun hsize => ?_, fun obj hobj cpu σ hfree => ?_⟩⟩
  · exact ⟨(htidy s hrun).noEmptySlab hc hsize, (htidy s hrun).slabsActive_eq_zero hc hsize⟩
  · exact (htidy s hrun).noEmptySlab_free_iff hc hobj hfree

end

/-- The slab layer over `z`, right after boot. -/
def slubBoot (z : Zone) : Slub :=
  slubInit ⟨magazinesInit ⟨z, fun _ => [], 0⟩, fun _ => none,
    fun _ => ⟨0, 0, 0, false, 0, 0, 0, 0, 0, 0, 0, 0⟩⟩

theorem slab_accounting_sixteen_pages :
    ∃ z, bootZone zeroMemory sixteenPages thirteenManaged = some z ∧
      ∀ s, ReflTransGen SlubStep ⟨slubBoot z, bootCaches, fun _ => 0, 0⟩ s →
        s.Ok (Finset.Ico 3 8 ∪ Finset.Ico 11 19) :=
  slab_accounting zeroMemory _ _ ⟨by decide, by decide⟩ (by decide) _ _ _ _

/-- The run on sixteen pages, where a slab of `kmalloc` objects of 8 bytes holds 512. -/
theorem empty_slab_kept_sixteen_pages : ∃ z, bootZone zeroMemory sixteenPages thirteenManaged = some z ∧
    ∀ s, ReflTransGen SlubStep ⟨slubBoot z, bootCaches, fun _ => 0, 0⟩ s →
      ∀ c ∈ s.caches, (s.slub.cache c).objectsPerSlab ≠ 1 → s.live c = 0 →
        (s.slub.cache c).slabsActive = 0 := by
  obtain ⟨z, hz, h⟩ := empty_slab_kept_iff zeroMemory sixteenPages thirteenManaged
    ⟨by decide, by decide⟩ (by decide) (fun _ => []) 0 (fun _ => none)
    fun _ => ⟨0, 0, 0, false, 0, 0, 0, 0, 0, 0, 0, 0⟩
  exact ⟨z, hz, fun s hrun c hc hsize => ((h s hrun c hc).1 hsize).2⟩

/-- A cache of 2048-byte objects at page alignment: one object fills its slab, and the slab is
still there when the object has been freed. -/
theorem freed_single_object_keeps_slab :
    ∃ z, bootZone zeroMemory sixteenPages thirteenManaged = some z ∧
      ∃ s c, ReflTransGen SlubStep ⟨slubBoot z, bootCaches, fun _ => 0, 0⟩ s ∧
        c ∈ s.caches ∧ s.live c = 0 ∧ (s.slub.cache c).slabsActive = 1 := by
  have hrun : ((bootZone zeroMemory sixteenPages thirteenManaged).bind fun z =>
      (kmemCacheCreate (slubBoot z) 2048 4096 false 0).bind fun created =>
      (kmemCacheAlloc created.1 (.created 0xFFFF00000000E000) false 0).bind fun allocated =>
      (kmemCacheFree allocated.1 (.created 0xFFFF00000000E000) 0xFFFF00000000D000 0).map
        fun σ => (created.2, allocated.2, (σ.cache (.created 0xFFFF00000000E000)).slabsActive)) =
      some (some (.created 0xFFFF00000000E000), some 0xFFFF00000000D000, 1) := by decide +kernel
  simp only [Option.bind_eq_some_iff, Option.map_eq_some_iff, Prod.mk.injEq] at hrun
  obtain ⟨z, hz, ⟨σ₁, _⟩, hcreate, ⟨σ₂, _⟩, halloc, σ₃, hfree, rfl, rfl, hactive⟩ := hrun
  have hne : CacheRef.created 0xFFFF00000000E000 ≠ .metaCache := nofun
  refine ⟨z, hz, _, .created 0xFFFF00000000E000, ((ReflTransGen.single
    (SlubStep.create ⟨12, by omega, rfl⟩ hcreate)).tail
    (SlubStep.alloc (Finset.mem_insert_self _ _) hne halloc)).tail
    (SlubStep.free (Finset.mem_insert_self _ _) hne ?_ hfree), Finset.mem_insert_self _ _, ?_,
    hactive⟩
  · simp
  · simp

end Thylacine
