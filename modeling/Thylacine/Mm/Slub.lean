import Thylacine.Mm.Phys

/-!
# The Slab Allocator

The functions of `mm/slub.c` over the physical allocator. A slab is one page cut into
objects of its cache; its free objects are chained through their own first word, so the chain lives
in the memory that callers own while an object is live. Memory is modelled by the words a chain can
use: `mem a` is the pointer stored at address `a`.

As in the buddy model `none` is a fault: a null or out-of-range dereference, or an `extinction`. A
cache lock makes each operation atomic. `CacheRef` names the descriptors; their fields are a memory
of their own.
-/

namespace Thylacine

open Dyadic IntrusiveList
open Function (update update_of_ne update_self)

/-! ### Addresses and sizes -/

/-- `KERNEL_DIRECT_MAP_BASE`. -/
def kernelDirectMapBase : ℕ := 0xFFFF000000000000

/-- `pa_to_kva`. -/
def paToKva (pa : ℕ) : ℕ := pa ||| kernelDirectMapBase

/-- `kva_to_pa`: clear the bits of the base. -/
def kvaToPa (kva : ℕ) : ℕ := kva &&& (2 ^ 64 - 1 - kernelDirectMapBase)

/-- An object's page frame: `pa_to_page(kva_to_pa(obj))`. -/
def objPfn (obj : ℕ) : ℕ := kvaToPa obj >>> pageShift

/-- A slab's first object: `pa_to_kva(page_to_pa(slab))`. -/
def slabBase (pfn : ℕ) : ℕ := paToKva (pfn <<< pageShift)

/-- `SLUB_MAX_OBJECT_SIZE`. -/
def slubMaxObjectSize : ℕ := 2048

/-- `SLUB_MIN_OBJECT_SIZE`. -/
def slubMinObjectSize : ℕ := 8

/-- `SLUB_MIN_ALIGN`. -/
def slubMinAlign : ℕ := 8

/-- `round_up_size` on 64-bit words. -/
def roundUpSize (v a : ℕ) : ℕ := (v + (a - 1)) % 2 ^ 64 &&& (2 ^ 64 - 1 - (a - 1))

/-- The alignment a cache uses. -/
def cacheAlign (align : ℕ) : ℕ := if align < slubMinAlign then slubMinAlign else align

/-- The object size a cache uses. -/
def cacheActualSize (size align : ℕ) : ℕ :=
  roundUpSize (if size < slubMinObjectSize then slubMinObjectSize else size) (cacheAlign align)

/-! ### State -/

/-- `struct kmem_cache` with two totals; the list heads are link memory. -/
structure KmemCache where
  objectSize : ℕ
  actualSize : ℕ
  align : ℕ
  panicOnFail : Bool
  slabOrder : ℕ
  objectsPerSlab : ℕ
  nrPartial : ℕ
  nrFull : ℕ
  allocCount : UInt64
  freeCount : UInt64
  slabsActive : ℕ
  slabsDrained : UInt64
  deriving DecidableEq, Repr

/-- The physical allocator, memory's pointer words and the caches. -/
structure Slub where
  phys : Phys
  mem : ℕ → Option ℕ
  cache : CacheRef → KmemCache

namespace Slub

section

variable (σ : Slub)

/-- The descriptor fields of frame `pfn`. -/
def page (pfn : ℕ) : Page := σ.phys.zone.page pfn

/-- The link memory. -/
def links : Links PageRef := σ.phys.zone.links

/-- Write the zone. -/
def setZone (z : Zone) : Slub := { σ with phys := { σ.phys with zone := z } }

/-- Write the descriptor fields of frame `pfn`. -/
def setPage (pfn : ℕ) (pg : Page) : Slub := σ.setZone (σ.phys.zone.setPage pfn pg)

/-- Write the link memory. -/
def setLinks (L : Links PageRef) : Slub := σ.setZone { σ.phys.zone with links := L }

/-- Write a cache descriptor. -/
def setCache (c : CacheRef) (k : KmemCache) : Slub :=
  { σ with cache := update σ.cache c k }

end

variable (σ : Slub)

@[simp] theorem setPage_mem (pfn : ℕ) (pg : Page) : (σ.setPage pfn pg).mem = σ.mem := rfl

@[simp] theorem setPage_cache (pfn : ℕ) (pg : Page) : (σ.setPage pfn pg).cache = σ.cache := rfl

@[simp] theorem setPage_page_self (pfn : ℕ) (pg : Page) :
    (σ.setPage pfn pg).page pfn = pg := update_self ..

theorem setPage_page_of_ne {σ : Slub} {pfn x : ℕ} {pg : Page} (hx : x ≠ pfn) :
    (σ.setPage pfn pg).page x = σ.page x := update_of_ne hx ..

section

variable (L : Links PageRef)

@[simp] theorem setLinks_page : (σ.setLinks L).page = σ.page := rfl

@[simp] theorem setLinks_mem : (σ.setLinks L).mem = σ.mem := rfl

@[simp] theorem setLinks_cache : (σ.setLinks L).cache = σ.cache := rfl

end

section

variable (c : CacheRef) (k : KmemCache)

@[simp] theorem setCache_links : (σ.setCache c k).links = σ.links := rfl

@[simp] theorem setCache_page : (σ.setCache c k).page = σ.page := rfl

@[simp] theorem setCache_mem : (σ.setCache c k).mem = σ.mem := rfl

@[simp] theorem setCache_phys : (σ.setCache c k).phys = σ.phys := rfl

@[simp] theorem setCache_cache_self : (σ.setCache c k).cache c = k := update_self ..

end

theorem setCache_setLinks_setCache (c : CacheRef) (k k' : KmemCache) (L : Links PageRef) :
    ((σ.setCache c k).setLinks L).setCache c k' = (σ.setLinks L).setCache c k' := by
  simp [setCache, setLinks, setZone]

theorem setCache_setPage_setCache (c : CacheRef) (k k' : KmemCache) (pfn : ℕ) (pg : Page) :
    ((σ.setCache c k).setPage pfn pg).setCache c k' = (σ.setPage pfn pg).setCache c k' := by
  simp [setCache, setPage, setZone]

end Slub

/-! ### Slabs -/

/-- The loop of `slab_init_freelist`: objects `i - 1` to `0` go before `prev`. -/
def threadObjects (base size : ℕ) : ℕ → (ℕ → Option ℕ) → Option ℕ → (ℕ → Option ℕ) × Option ℕ
  | 0, mem, prev => (mem, prev)
  | i + 1, mem, prev =>
    let obj := base + i * size
    threadObjects base size i (update mem obj prev) (some obj)

section

variable (σ : Slub)

/-- `slab_init_freelist`. -/
def slabInitFreelist (c : CacheRef) (pfn : ℕ) : Slub :=
  let k := σ.cache c
  let (mem, head) := threadObjects (slabBase pfn) k.actualSize k.objectsPerSlab σ.mem none
  { σ with mem := mem }.setPage pfn
    { σ.page pfn with
      slabFreelist := head, slabCache := some c, flags := { slab := true }, refcount := 0 }

/-- `slab_new`. -/
def slabNew (c : CacheRef) (cpu : ℕ) : Option (Slub × Option ℕ) := do
  let (phys, slab) ← allocPages σ.phys cpu (σ.cache c).slabOrder
  let σ := { σ with phys := phys }
  match slab with
  | none => some (σ, none)
  | some pfn =>
    let σ := slabInitFreelist σ c pfn
    let k := σ.cache c
    some (σ.setCache c { k with slabsActive := k.slabsActive + 1 }, some pfn)

/-- `slab_drain`. -/
def slabDrain (c : CacheRef) (pfn cpu : ℕ) : Option Slub := do
  let σ := σ.setPage pfn
    { σ.page pfn with slabFreelist := none, slabCache := none, flags := {}, refcount := 0 }
  let k := σ.cache c
  let σ := σ.setCache c
    { k with slabsActive := k.slabsActive - 1, slabsDrained := k.slabsDrained + 1 }
  let phys ← freePages σ.phys cpu pfn k.slabOrder
  some { σ with phys := phys }

/-- Move a slab from its list to the front of another. -/
def relist (pfn : ℕ) (head : PageRef) : Option Slub := do
  let links ← σ.links.remove (.frame pfn)
  let links ← links.pushFront head (.frame pfn)
  some (σ.setLinks links)

/-! ### Allocation -/

section

variable (c : CacheRef)

/-- The head of `cache_alloc_locked`: a partial slab, or a new one. -/
def pickSlab (cpu : ℕ) : Option (Slub × Option ℕ) :=
  if !σ.links.isEmpty (.partialHead c) then
    match σ.links.next (.partialHead c) with
    | some (.frame pfn) => some (σ, some pfn)
    | _ => none
  else do
    let (σ, slab) ← slabNew σ c cpu
    match slab with
    | none => some (σ, none)
    | some pfn => do
      let links ← σ.links.pushFront (.partialHead c) (.frame pfn)
      let σ := σ.setLinks links
      let k := σ.cache c
      some (σ.setCache c { k with nrPartial := k.nrPartial + 1 }, some pfn)

/-- Take the first object `obj` off its slab's chain. -/
def takeObject (obj pfn : ℕ) : Slub :=
  let pg := σ.page pfn
  let σ := σ.setPage pfn { pg with slabFreelist := σ.mem obj, refcount := pg.refcount + 1 }
  let k := σ.cache c
  σ.setCache c { k with allocCount := k.allocCount + 1 }

/-- The tail of `cache_alloc_locked`: pop an object; a full slab is relisted. -/
def popObject (pfn : ℕ) : Option (Slub × ℕ) := do
  let obj ← (σ.page pfn).slabFreelist
  let σ := takeObject σ c obj pfn
  if (σ.page pfn).refcount = (σ.cache c).objectsPerSlab then do
    let σ ← relist σ pfn (.fullHead c)
    let k := σ.cache c
    some (σ.setCache c { k with nrPartial := k.nrPartial - 1, nrFull := k.nrFull + 1 }, obj)
  else some (σ, obj)

/-- `cache_alloc_locked`. -/
def cacheAllocLocked (cpu : ℕ) : Option (Slub × Option ℕ) := do
  let (σ, slab) ← pickSlab σ c cpu
  match slab with
  | none => some (σ, none)
  | some pfn => do
    let (σ, obj) ← popObject σ c pfn
    some (σ, some obj)

end

/-- Zero `size` bytes at `obj`. -/
def zeroObject (obj size : ℕ) : Slub :=
  { σ with mem := fun a => if obj ≤ a ∧ a < obj + size then none else σ.mem a }

section

variable (c : CacheRef)

/-- `kmem_cache_alloc`; `zero` is `KP_ZERO`. -/
def kmemCacheAlloc (zero : Bool) (cpu : ℕ) : Option (Slub × Option ℕ) := do
  let (σ, obj) ← cacheAllocLocked σ c cpu
  match obj with
  | none => if (σ.cache c).panicOnFail then none else some (σ, none)
  | some obj => some (if zero then zeroObject σ obj (σ.cache c).actualSize else σ, some obj)

/-! ### Free -/

/-- The head of `cache_free_locked`: push the object on its chain. -/
def pushObject (obj pfn : ℕ) : Slub :=
  let pg := σ.page pfn
  let σ := { σ with mem := update σ.mem obj pg.slabFreelist }
  let σ := σ.setPage pfn { pg with slabFreelist := some obj, refcount := pg.refcount - 1 }
  let k := σ.cache c
  σ.setCache c { k with freeCount := k.freeCount + 1 }

/-- `cache_free_locked`: a full slab turns partial, an empty one is drained. -/
def cacheFreeLocked (obj pfn cpu : ℕ) : Option Slub :=
  let wasFull := (σ.page pfn).refcount = (σ.cache c).objectsPerSlab
  let σ := pushObject σ c obj pfn
  if wasFull then do
    let σ ← relist σ pfn (.partialHead c)
    let k := σ.cache c
    some (σ.setCache c { k with nrFull := k.nrFull - 1, nrPartial := k.nrPartial + 1 })
  else if (σ.page pfn).refcount = 0 then do
    let links ← σ.links.remove (.frame pfn)
    let σ := σ.setLinks links
    let k := σ.cache c
    slabDrain (σ.setCache c { k with nrPartial := k.nrPartial - 1 }) c pfn cpu
  else some σ

/-- `kmem_cache_free` of an object that is not `NULL`. -/
def kmemCacheFree (obj cpu : ℕ) : Option Slub :=
  let pfn := objPfn obj
  if ¬ σ.phys.zone.InArray pfn then none
  else if !(σ.page pfn).flags.slab || (σ.page pfn).slabCache != some c then none
  else cacheFreeLocked σ c obj pfn cpu

/-! ### Caches -/

/-- `init_cache`. -/
def initCache (size align : ℕ) (panicOnFail : Bool) : Slub :=
  let actual := cacheActualSize size align
  let σ := σ.setCache c
    { objectSize := size
      actualSize := actual
      align := cacheAlign align
      panicOnFail := panicOnFail
      slabOrder := 0
      objectsPerSlab := (pageSize <<< 0) / actual
      nrPartial := 0
      nrFull := 0
      allocCount := 0
      freeCount := 0
      slabsActive := 0
      slabsDrained := 0 }
  σ.setLinks ((σ.links.initHead (.partialHead c)).initHead (.fullHead c))

end

/-- `kmem_cache_create`: refuses sizes no page holds; the descriptor is a meta object. -/
def kmemCacheCreate (size align : ℕ) (panicOnFail : Bool) (cpu : ℕ) :
    Option (Slub × Option CacheRef) :=
  if size > slubMaxObjectSize then some (σ, none)
  else if cacheActualSize size align > pageSize then some (σ, none)
  else do
    let (σ, obj) ← kmemCacheAlloc σ .metaCache true cpu
    match obj with
    | none => some (σ, none)
    | some addr => some (initCache σ (.created addr) size align panicOnFail, some (.created addr))

end

/-- `sizeof(struct kmem_cache)`. -/
def sizeofKmemCache : ℕ := 208

/-- `slub_init`: the meta cache, then sizes `2 ^ 3` to `2 ^ 11`. -/
def slubInit (σ : Slub) : Slub :=
  (List.range' 3 9).foldl (fun σ i => initCache σ (.kmallocCache i) (2 ^ i) slubMinAlign false)
    (initCache σ .metaCache sizeofKmemCache 8 false)

end Thylacine
