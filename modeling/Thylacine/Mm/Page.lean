import Thylacine.Lib.DyadicTiling
import Thylacine.Lib.IntrusiveList

/-!
# Page Descriptors

The descriptor of a physical frame (`struct page`, `kernel/include/thylacine/page.h`) and
the pointers to it. The allocators thread their lists through its two link fields; the sentinel
head of such a list is itself a descriptor, of which only the links are used. The link fields of
all descriptors are therefore one memory (`Links PageRef`), and the remaining fields of the frame
descriptors are another (`ℕ → Page`, by page frame number).
-/

namespace Thylacine

open Dyadic IntrusiveList

/-- `PAGE_SHIFT`: 4 KiB frames. -/
def pageShift : ℕ := 12

/-- `PAGE_SIZE`. -/
def pageSize : ℕ := 2 ^ pageShift

/-- `MAX_ORDER`: the largest block is `2 ^ 18` frames. -/
def maxOrder : ℕ := 18

/-- A descriptor's flags, a field for each `PG_*` bit. -/
structure PageFlags where
  free : Bool := false
  reserved : Bool := false
  kernel : Bool := false
  slab : Bool := false
  user : Bool := false
  deriving DecidableEq, Repr

/-- A `struct kmem_cache *`: a static one of `mm/slub.c`, or one of `kmem_cache_create`, by address. -/
inductive CacheRef
  | metaCache
  | kmallocCache (idx : ℕ)
  | created (addr : ℕ)
  deriving DecidableEq, Repr

/-- `struct page` without its links; `none` is `NULL`. -/
structure Page where
  order : ℕ
  flags : PageFlags
  refcount : ℕ
  slabFreelist : Option ℕ
  slabCache : Option CacheRef
  deriving DecidableEq, Repr

/-- A `struct page *`: a frame descriptor, by its frame number, or a list head in a zone
(`free_lists[k]`) or a cache (`partial_list`, `full_list`). -/
inductive PageRef
  | frame (pfn : ℕ)
  | freeHead (k : ℕ)
  | partialHead (c : CacheRef)
  | fullHead (c : CacheRef)
  deriving DecidableEq, Repr

/-- The descriptor pointers of a list of base frames. -/
abbrev frames (ps : List ℕ) : List PageRef := ps.map PageRef.frame

theorem frame_mem_frames {p : ℕ} {ps : List ℕ} : PageRef.frame p ∈ frames ps ↔ p ∈ ps := by
  simp

theorem frames_erase (ps : List ℕ) (p : ℕ) :
    (frames ps).erase (.frame p) = frames (ps.erase p) := by
  have hinj : Function.Injective PageRef.frame := fun _ _ h => PageRef.frame.inj h
  exact (List.map_erase hinj ps).symm

end Thylacine
