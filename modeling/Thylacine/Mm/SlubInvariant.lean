import Thylacine.Lib.PointerChain
import Thylacine.Mm.PhysSystem
import Thylacine.Mm.Slub

/-!
# The Slab Representation Invariant

`CacheCore σ c P F fr L` says what one cache stores: its partial slabs are `P`, its full
slabs `F`, the free chain of slab `p` is `fr p`, and the objects callers hold are `L`. The
objects of a slab are exactly the chain and the live objects on its page. `CacheInv` adds
what decides between the two lists, which fails inside an operation while a slab is on the
wrong one. `Slub.Frame σ σ' c R` says that a step is local to cache `c` while the blocks `R` belong
to others.

## Main results

* `CacheInv.frame`: the other caches keep their invariant across a local step.
-/

namespace Thylacine

open Dyadic IntrusiveList List ListFamily

/-! ### Sizes and addresses -/

/-- Clearing the low bits of a word rounds it down. -/
theorem and_not_low_eq {x j : ℕ} (hx : x < 2 ^ 64) (hj : j < 64) :
    x &&& (2 ^ 64 - 1 - (2 ^ j - 1)) = 2 ^ j * (x / 2 ^ j) := by
  have hmask : 2 ^ 64 - 1 - (2 ^ j - 1) = 2 ^ j * (2 ^ (64 - j) - 1) := by
    have hpow : 2 ^ j * 2 ^ (64 - j) = 2 ^ 64 := by
      rw [← pow_add]
      congr 1
      omega
    have hpos := Nat.two_pow_pos j
    rw [Nat.mul_sub]
    omega
  rw [hmask]
  refine Nat.eq_of_testBit_eq fun i => ?_
  rw [Nat.testBit_and, Nat.testBit_two_pow_mul, Nat.testBit_two_pow_mul, Nat.testBit_div_two_pow]
  by_cases hji : j ≤ i
  · rw [Nat.sub_add_cancel hji]
    by_cases hi : i < 64
    · simp [hji, show i - j < 64 - j by omega]
    · have hbit : x.testBit i = false :=
        Nat.testBit_lt_two_pow (hx.trans_le (Nat.pow_le_pow_right (by omega) (by omega)))
      simp [hbit]
  · simp [hji]

/-- `round_up_size` to a power of two: a multiple, no smaller. -/
theorem roundUpSize_spec {v j : ℕ} (hv : v ≤ slubMaxObjectSize) (hj : j < 64) :
    2 ^ j ∣ roundUpSize v (2 ^ j) ∧ v ≤ roundUpSize v (2 ^ j) := by
  have hle : 2 ^ j ≤ 2 ^ 63 := Nat.pow_le_pow_right (by omega) (by omega)
  have hsum : v + (2 ^ j - 1) < 2 ^ 64 := by
    have : slubMaxObjectSize = 2048 := rfl
    omega
  rw [roundUpSize, Nat.mod_eq_of_lt hsum, and_not_low_eq hsum hj]
  refine ⟨dvd_mul_right _ _, ?_⟩
  have hdiv := Nat.div_add_mod (v + (2 ^ j - 1)) (2 ^ j)
  omega

/-- A slab fits an object, and objects are whole words. -/
structure KmemCache.Sized (k : KmemCache) : Prop where
  order_eq : k.slabOrder = 0
  min_le : 8 ≤ k.actualSize
  word : 8 ∣ k.actualSize
  le_page : k.actualSize ≤ pageSize
  count : k.objectsPerSlab = pageSize / k.actualSize

/-- The sizes `kmem_cache_create` accepts. -/
theorem cacheActualSize_spec {size align : ℕ} (hsize : size ≤ slubMaxObjectSize)
    (halign : ∃ j < 64, align = 2 ^ j) :
    8 ≤ cacheActualSize size align ∧ 8 ∣ cacheActualSize size align := by
  obtain ⟨j, hj, hcalign, h8⟩ : ∃ j < 64, cacheAlign align = 2 ^ j ∧ 3 ≤ j := by
    obtain ⟨i, hi, rfl⟩ := halign
    rw [cacheAlign]
    split
    · exact ⟨3, by omega, rfl, le_rfl⟩
    · next hlt =>
        refine ⟨i, hi, rfl, ?_⟩
        by_contra hcon
        have hpow : 2 ^ i ≤ 2 ^ 2 := Nat.pow_le_pow_right (by omega) (by omega)
        rw [slubMinAlign] at hlt
        omega
  have hv : (if size < slubMinObjectSize then slubMinObjectSize else size) ≤ slubMaxObjectSize := by
    split
    · decide
    · exact hsize
  have hv8 : 8 ≤ if size < slubMinObjectSize then slubMinObjectSize else size := by
    split
    · exact le_rfl
    · next hlt => exact not_lt.mp hlt
  obtain ⟨hdvd, hle⟩ := roundUpSize_spec hv hj
  rw [cacheActualSize, hcalign]
  exact ⟨hv8.trans hle, (Nat.pow_dvd_pow 2 h8 : 2 ^ 3 ∣ 2 ^ j).trans hdvd⟩

namespace KmemCache.Sized

variable {k : KmemCache}

theorem of_eq (h : k.Sized) {k' : KmemCache} (horder : k'.slabOrder = k.slabOrder)
    (hsize : k'.actualSize = k.actualSize) (hcount : k'.objectsPerSlab = k.objectsPerSlab) :
    k'.Sized := by
  refine ⟨?_, ?_, ?_, ?_, ?_⟩
  · rw [horder]
    exact h.order_eq
  · rw [hsize]
    exact h.min_le
  · rw [hsize]
    exact h.word
  · rw [hsize]
    exact h.le_page
  · rw [hcount, hsize]
    exact h.count

theorem count_pos (h : k.Sized) : 0 < k.objectsPerSlab := by
  rw [h.count]
  exact Nat.div_pos h.le_page (lt_of_lt_of_le (by omega) h.min_le)

/-- Every object ends inside the page. -/
theorem offset_lt (h : k.Sized) {i : ℕ} (hi : i < k.objectsPerSlab) :
    i * k.actualSize + k.actualSize ≤ pageSize := by
  have hle : (i + 1) * k.actualSize ≤ k.objectsPerSlab * k.actualSize := Nat.mul_le_mul_right _ hi
  have hfit : k.objectsPerSlab * k.actualSize ≤ pageSize := by
    rw [h.count]
    exact Nat.div_mul_le_self _ _
  rw [Nat.add_mul, Nat.one_mul] at hle
  exact hle.trans hfit

end KmemCache.Sized

/-- The frames whose addresses fit the direct map. -/
def pfnLimit : ℕ := 2 ^ 36

variable {a p : ℕ} {k : KmemCache} {σ σ' : Slub} {c : CacheRef} {mem : ℕ → Option ℕ}
  {L : Multiset ℕ} {fr' : ℕ → List ℕ}

theorem slabBase_eq (hp : p < pfnLimit) : slabBase p = 0xFFFF * 2 ^ 48 + p * 2 ^ pageShift := by
  have hlt : p * 2 ^ pageShift < 2 ^ 48 := by
    rw [pfnLimit] at hp
    rw [pageShift]
    omega
  rw [slabBase, paToKva, Nat.shiftLeft_eq, Nat.or_comm]
  have hor := Nat.shiftLeft_add_eq_or_of_lt hlt 0xFFFF
  exact hor.symm

/-- An address in a slab page leads back to its frame. -/
theorem objPfn_slabBase {off : ℕ} (hp : p < pfnLimit) (hoff : off < pageSize) :
    objPfn (slabBase p + off) = p := by
  have hmask : 2 ^ 64 - 1 - kernelDirectMapBase = 2 ^ 48 - 1 := by decide
  rw [objPfn, kvaToPa, hmask, Nat.and_two_pow_sub_one_eq_mod, slabBase_eq hp,
    Nat.shiftRight_eq_div_pow]
  rw [pfnLimit] at hp
  rw [pageSize, pageShift] at hoff
  rw [pageShift]
  omega

/-! ### Slabs -/

/-- The objects of a slab of cache `k`. -/
def slabObjects (k : KmemCache) (p : ℕ) : Multiset ℕ :=
  (Multiset.range k.objectsPerSlab).map fun i => slabBase p + i * k.actualSize

theorem slabObjects_nodup (h : k.Sized) (p : ℕ) : (slabObjects k p).Nodup := by
  refine (Multiset.nodup_range _).map_on fun i _ j _ heq => ?_
  have hpos : 0 < k.actualSize := lt_of_lt_of_le (by omega) h.min_le
  exact Nat.eq_of_mul_eq_mul_right hpos (Nat.add_left_cancel heq)

theorem objPfn_of_mem (h : k.Sized) (hp : p < pfnLimit)
    (ha : a ∈ slabObjects k p) : objPfn a = p := by
  obtain ⟨i, hi, rfl⟩ := Multiset.mem_map.mp ha
  have hoff := h.offset_lt (Multiset.mem_range.mp hi)
  have hmin := h.min_le
  exact objPfn_slabBase hp (by omega)

/-- An object's word is on its page, and of no other. -/
theorem word_of_object (h : k.Sized) {w : ℕ} (hp : p < pfnLimit)
    (ha : a ∈ slabObjects k p) (hw : a ≤ w ∧ w < a + k.actualSize) :
    objPfn w = p ∧ (w ∈ slabObjects k p → w = a) := by
  obtain ⟨i, hi, rfl⟩ := Multiset.mem_map.mp ha
  have hoff := h.offset_lt (Multiset.mem_range.mp hi)
  constructor
  · obtain ⟨off, rfl⟩ := Nat.exists_eq_add_of_le ((Nat.le_add_right _ _).trans hw.1)
    exact objPfn_slabBase hp (by omega)
  · intro hwm
    obtain ⟨j, -, rfl⟩ := Multiset.mem_map.mp hwm
    have hpos : 0 < k.actualSize := lt_of_lt_of_le (by omega) h.min_le
    have h1 : i ≤ j := Nat.le_of_mul_le_mul_right (by omega) hpos
    have h2 : j < i + 1 := by
      refine Nat.lt_of_mul_lt_mul_right (a := k.actualSize) ?_
      rw [Nat.add_mul, Nat.one_mul]
      omega
    obtain rfl : i = j := by omega
    rfl

/-- The loop of `slab_init_freelist` chains the objects in order. Induction on those to come. -/
theorem threadObjects_spec (base : ℕ) {size : ℕ} (hsize : 0 < size) (i : ℕ)
    {prev : Option ℕ} {rest : List ℕ} (hchain : PointerChain.Chain mem prev rest)
    (hrest : ∀ j < i, base + j * size ∉ rest) :
    PointerChain.Chain (threadObjects base size i mem prev).1 (threadObjects base size i mem prev).2
      ((range i).map (fun j => base + j * size) ++ rest) ∧
      ∀ a, (∀ j < i, a ≠ base + j * size) →
      (threadObjects base size i mem prev).1 a = mem a := by
  induction i generalizing mem prev rest with
  | zero => exact ⟨by simpa [threadObjects] using hchain, fun a _ => rfl⟩
  | succ i ih =>
    have hpush := hchain.push (hrest i (Nat.lt_succ_self i))
    obtain ⟨h1, h2⟩ := ih hpush (by
      intro j hj hmem
      rcases mem_cons.mp hmem with e | hmem
      · have := Nat.eq_of_mul_eq_mul_right hsize (Nat.add_left_cancel e)
        omega
      · exact hrest j (by omega) hmem)
    constructor
    · rw [range_succ, map_append, append_assoc]
      exact h1
    · intro a ha
      rw [threadObjects, h2 a fun j hj => ha j (by omega)]
      exact Function.update_of_ne (ha i (Nat.lt_succ_self i)) _ _

/-- The live objects on page `p`. -/
def liveOn (L : Multiset ℕ) (p : ℕ) : Multiset ℕ := L.filter (objPfn · = p)

theorem mem_liveOn : a ∈ liveOn L p ↔ a ∈ L ∧ objPfn a = p := Multiset.mem_filter

theorem liveOn_cons_self (L : Multiset ℕ) (a : ℕ) :
    liveOn (a ::ₘ L) (objPfn a) = a ::ₘ liveOn L (objPfn a) := by
  simp [liveOn]

theorem liveOn_cons_of_ne (L : Multiset ℕ) (h : objPfn a ≠ p) :
    liveOn (a ::ₘ L) p = liveOn L p := by
  simp [liveOn, h]

/-- What a slab stores: its objects are the free chain `fr` and the live `lv`, which the refcount
counts. -/
structure SlabInv (σ : Slub) (c : CacheRef) (p : ℕ) (fr : List ℕ) (lv : Multiset ℕ) : Prop where
  flags : (σ.page p).flags = { slab := true }
  owner : (σ.page p).slabCache = some c
  chain : PointerChain.Chain σ.mem (σ.page p).slabFreelist fr
  objects : (fr : Multiset ℕ) + lv = slabObjects (σ.cache c) p
  inuse : (σ.page p).refcount = lv.card

/-! ### Caches -/

/-- What a cache stores, whichever list a slab is on. -/
structure CacheCore (σ : Slub) (c : CacheRef) (P F : List ℕ) (fr : ℕ → List ℕ)
    (L : Multiset ℕ) : Prop where
  sized : (σ.cache c).Sized
  partialList : IsList σ.links (.partialHead c) (frames P)
  fullList : IsList σ.links (.fullHead c) (frames F)
  nodup : (P ++ F).Nodup
  slab : ∀ p ∈ P ++ F, SlabInv σ c p (fr p) (liveOn L p)
  placed : ∀ a ∈ L, objPfn a ∈ P ++ F
  nrPartial : (σ.cache c).nrPartial = P.length
  nrFull : (σ.cache c).nrFull = F.length
  slabsActive : (σ.cache c).slabsActive = P.length + F.length
  count : (σ.cache c).allocCount - (σ.cache c).freeCount = UInt64.ofNat L.card

/-- The nodes of the lists of a cache with slabs `ps`. -/
abbrev nodes (c : CacheRef) (ps : List ℕ) : Set PageRef :=
  {r | r = .partialHead c ∨ r = .fullHead c ∨ r ∈ frames ps}

theorem nodes_of_lists {c : CacheRef} {P F : List ℕ} {n : PageRef}
    (hn : n ∈ PageRef.partialHead c :: frames P ∨ n ∈ PageRef.fullHead c :: frames F) :
    n ∈ nodes c (P ++ F) := by
  simp only [Set.mem_ofPred_eq, mem_cons, map_append, mem_append] at hn ⊢
  tauto

/-- The full list has the slabs without a free object. -/
structure Balanced (σ : Slub) (c : CacheRef) (P F : List ℕ) : Prop where
  partial_lt : ∀ p ∈ P, (σ.page p).refcount < (σ.cache c).objectsPerSlab
  full_eq : ∀ p ∈ F, (σ.page p).refcount = (σ.cache c).objectsPerSlab

/-- A cache between operations. -/
structure CacheInv (σ : Slub) (c : CacheRef) (P F : List ℕ) (fr : ℕ → List ℕ)
    (L : Multiset ℕ) : Prop where
  core : CacheCore σ c P F fr L
  balanced : Balanced σ c P F

/-! ### Locality -/

/-- What cache `c` leaves alone while `R` belongs to others. -/
def Foreign (c : CacheRef) (R : Multiset Block) : Set PageRef :=
  {r | r ∈ Kept R ∧ r ≠ .partialHead c ∧ r ≠ .fullHead c}

/-- A step local to cache `c`: other caches and the pages of `R` are as before. -/
structure Slub.Frame (σ σ' : Slub) (c : CacheRef) (R : Multiset Block) : Prop where
  cache : ∀ d, d ≠ c → σ'.cache d = σ.cache d
  zone : σ.phys.zone.Frame σ'.phys.zone (Foreign c R)
  mem : ∀ a, .frame (objPfn a) ∈ Kept R → σ'.mem a = σ.mem a

namespace Slub.Frame

variable {σ σ' σ'' : Slub} {c : CacheRef} {R : Multiset Block}

theorem trans (h : σ.Frame σ' c R) (h' : σ'.Frame σ'' c R) : σ.Frame σ'' c R where
  cache d hd := (h'.cache d hd).trans (h.cache d hd)
  zone := h.zone.trans h'.zone
  mem a ha := (h'.mem a ha).trans (h.mem a ha)

variable (σ : Slub) (c : CacheRef)

theorem refl (R : Multiset Block) : σ.Frame σ c R :=
  ⟨fun _ _ => rfl, Zone.Frame.refl _ _, fun _ _ => rfl⟩

theorem setPage {p : ℕ} (hp : .frame p ∉ Kept R) (pg : Page) : σ.Frame (σ.setPage p pg) c R := by
  refine ⟨fun _ _ => rfl, ⟨rfl, rfl, rfl, rfl, fun _ _ => ⟨rfl, rfl⟩, ?_⟩, fun _ _ => rfl⟩
  intro x hx
  refine Function.update_of_ne ?_ _ _
  rintro rfl
  exact hp hx.1

theorem setCache (k : KmemCache) : σ.Frame (σ.setCache c k) c R :=
  ⟨fun _ hd => Function.update_of_ne hd _ _, Zone.Frame.refl _ _, fun _ _ => rfl⟩

theorem setLinks {L : Links PageRef} {ps : List ℕ} (hag : AgreeOff σ.links L (nodes c ps))
    (hps : ∀ p ∈ ps, .frame p ∉ Kept R) :
    σ.Frame (σ.setLinks L) c R := by
  refine ⟨fun _ _ => rfl, ⟨rfl, rfl, rfl, rfl, fun r hr => hag r ?_, fun _ _ => rfl⟩,
    fun _ _ => rfl⟩
  rintro (rfl | rfl | hmem)
  · exact hr.2.1 rfl
  · exact hr.2.2 rfl
  · obtain ⟨p, hp, rfl⟩ := mem_map.mp hmem
    exact hps p hp hr.1

theorem setMem (hmem : ∀ a, .frame (objPfn a) ∈ Kept R → mem a = σ.mem a) :
    σ.Frame { σ with mem := mem } c R :=
  ⟨fun _ _ => rfl, Zone.Frame.refl _ _, hmem⟩

/-- A step of the page allocator that keeps `R`. -/
theorem setPhys {phys : Phys} (h : σ.phys.Frame phys R) : σ.Frame { σ with phys := phys } c R :=
  ⟨fun _ _ => rfl, h.zone.mono fun _ hr => hr.1, fun _ _ => rfl⟩

end Slub.Frame

/-- A slab is unaffected by steps elsewhere. -/
theorem SlabInv.congr {fr : List ℕ} {lv : Multiset ℕ}
    (h : SlabInv σ c p fr lv) (hpage : σ'.page p = σ.page p)
    (hmem : ∀ a ∈ fr, σ'.mem a = σ.mem a)
    (hobj : slabObjects (σ'.cache c) p = slabObjects (σ.cache c) p) :
    SlabInv σ' c p fr lv := by
  refine ⟨?_, ?_, ?_, ?_, ?_⟩
  · rw [hpage]
    exact h.flags
  · rw [hpage]
    exact h.owner
  · rw [hpage]
    exact h.chain.congr hmem
  · rw [hobj]
    exact h.objects
  · rw [hpage]
    exact h.inuse

namespace CacheCore

variable {σ : Slub} {c : CacheRef} {P F : List ℕ} {fr : ℕ → List ℕ} {L : Multiset ℕ} {a : ℕ}

variable (h : CacheCore σ c P F fr L)
include h

/-- A free object of a slab is on its page. -/
theorem objPfn_of_free {p : ℕ} (hp : p ∈ P ++ F) (hlim : p < pfnLimit) (ha : a ∈ fr p) :
    objPfn a = p := by
  refine objPfn_of_mem h.sized hlim ?_
  rw [← (h.slab p hp).objects]
  exact Multiset.mem_add.mpr (.inl ha)

/-- A live object is one of the slab on its page. -/
theorem live_mem (ha : a ∈ L) : a ∈ slabObjects (σ.cache c) (objPfn a) := by
  rw [← (h.slab _ (h.placed a ha)).objects]
  exact Multiset.mem_add.mpr (.inr (mem_liveOn.mpr ⟨ha, rfl⟩))

/-- A live object is not free. -/
theorem live_not_free (ha : a ∈ L) : a ∉ fr (objPfn a) := by
  intro hfree
  have hnd := slabObjects_nodup h.sized (objPfn a)
  rw [← (h.slab _ (h.placed a ha)).objects] at hnd
  exact (Multiset.disjoint_left.mp (Multiset.nodup_add.mp hnd).2.2) hfree (mem_liveOn.mpr ⟨ha, rfl⟩)

/-- Live objects are distinct. -/
theorem live_nodup : L.Nodup := by
  rw [Multiset.nodup_iff_count_le_one]
  intro a
  by_cases ha : a ∈ L
  · have hnd := slabObjects_nodup h.sized (objPfn a)
    rw [← (h.slab _ (h.placed a ha)).objects] at hnd
    have hle := Multiset.nodup_iff_count_le_one.mp (Multiset.nodup_add.mp hnd).2.1 a
    rwa [liveOn, Multiset.count_filter, if_pos rfl] at hle
  · rw [Multiset.count_eq_zero_of_notMem ha]
    exact Nat.zero_le _

/-- A cache depends on its record, its nodes' links, and its slabs' descriptors and memory. -/
theorem congr {σ' : Slub} (hcache : σ'.cache c = σ.cache c) (hlinks : ∀ r ∈ nodes c (P ++ F),
      σ'.links.next r = σ.links.next r ∧ σ'.links.prev r = σ.links.prev r)
    (hpage : ∀ p ∈ P ++ F, σ'.page p = σ.page p)
    (hmem : ∀ p ∈ P ++ F, ∀ a ∈ fr p, σ'.mem a = σ.mem a)
    (hfr : ∀ p ∈ P ++ F, fr' p = fr p) : CacheCore σ' c P F fr' L := by
  have hag : AgreeOff σ.links σ'.links (nodes c (P ++ F))ᶜ := fun r hr => hlinks r (not_not.mp hr)
  have hP : IsList σ'.links (.partialHead c) (frames P) :=
    h.partialList.of_agreeOff hag fun _ hr => not_not.mpr (nodes_of_lists (.inl hr))
  have hF : IsList σ'.links (.fullHead c) (frames F) :=
    h.fullList.of_agreeOff hag fun _ hr => not_not.mpr (nodes_of_lists (.inr hr))
  refine ⟨by rw [hcache]; exact h.sized, hP, hF, h.nodup, ?_, h.placed,
    by rw [hcache]; exact h.nrPartial, by rw [hcache]; exact h.nrFull,
    by rw [hcache]; exact h.slabsActive, by rw [hcache]; exact h.count⟩
  intro p hp
  rw [hfr p hp]
  exact (h.slab p hp).congr (hpage p hp) (hmem p hp) (by rw [hcache])

end CacheCore

theorem Balanced.congr {P F : List ℕ} (h : Balanced σ c P F)
    (hcache : σ'.cache c = σ.cache c) (hpage : ∀ p ∈ P ++ F, σ'.page p = σ.page p) :
    Balanced σ' c P F := by
  refine ⟨fun p hp => ?_, fun p hp => ?_⟩
  · rw [hpage p (mem_append_left F hp), hcache]
    exact h.partial_lt p hp
  · rw [hpage p (mem_append_right P hp), hcache]
    exact h.full_eq p hp

/-- **The other caches** keep their invariant in a step of `c`. -/
theorem CacheInv.frame {d : CacheRef} {P F : List ℕ} {fr : ℕ → List ℕ} {R : Multiset Block} (h : CacheInv σ d P F fr L)
    (hf : σ.Frame σ' c R) (hdc : d ≠ c)
    (hslabs : ∀ p ∈ P ++ F, PageRef.frame p ∈ Kept R ∧ p < pfnLimit)
    (hfr : ∀ p ∈ P ++ F, fr' p = fr p) : CacheInv σ' d P F fr' L := by
  have hnode : ∀ p ∈ P ++ F, PageRef.frame p ∈ Foreign c R := fun p hp =>
    ⟨(hslabs p hp).1, nofun, nofun⟩
  have hpart : PageRef.partialHead d ∈ Foreign c R :=
    ⟨⟨nofun, nofun⟩, fun e => hdc (PageRef.partialHead.inj e), nofun⟩
  have hfull : PageRef.fullHead d ∈ Foreign c R :=
    ⟨⟨nofun, nofun⟩, nofun, fun e => hdc (PageRef.fullHead.inj e)⟩
  have hpage : ∀ p ∈ P ++ F, σ'.page p = σ.page p := fun p hp => hf.zone.page p (hnode p hp)
  refine ⟨h.core.congr (hf.cache d hdc) (fun r hr => hf.zone.links r ?_) hpage
    (fun p hp a ha => hf.mem a ?_) hfr, h.balanced.congr (hf.cache d hdc) hpage⟩
  · rcases hr with rfl | rfl | hr
    · exact hpart
    · exact hfull
    · obtain ⟨p, hp, rfl⟩ := mem_map.mp hr
      exact hnode p hp
  · rw [h.core.objPfn_of_free hp (hslabs p hp).2 ha]
    exact (hslabs p hp).1

end Thylacine
