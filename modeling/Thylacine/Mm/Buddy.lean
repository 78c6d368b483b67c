import Thylacine.Mm.Page

/-!
# The Buddy Allocator

The functions of `mm/buddy.c` over an explicit zone state. Free blocks of order `k` hang
on the sentinel-headed list `free_lists[k]`, threaded through the descriptor of their
first frame; that descriptor also carries `PG_FREE` and the order, and the merge loop of
`freeLocked` reads these two words of a neighbour to decide whether to merge with it.

A function that dereferences a descriptor pointer returns `none` for a fault: an access outside the
descriptor array, a null link, or an `extinction`. The zone lock makes each operation atomic.
-/

namespace Thylacine

open Dyadic IntrusiveList

/-- `struct buddy_zone`, its descriptor array and base frame. -/
structure Zone where
  basePa : ℕ
  endPa : ℕ
  numPages : ℕ
  basePfn : ℕ
  links : Links PageRef
  page : ℕ → Page
  freePagesPerOrder : ℕ → ℕ
  totalFreePages : ℕ

namespace Zone

/-- The descriptor array has frame `pfn`. -/
def InArray (z : Zone) (pfn : ℕ) : Prop := z.basePfn ≤ pfn ∧ pfn < z.basePfn + z.numPages

instance (z : Zone) (pfn : ℕ) : Decidable (z.InArray pfn) :=
  inferInstanceAs (Decidable (z.basePfn ≤ pfn ∧ pfn < z.basePfn + z.numPages))

/-- The frames of the zone. -/
def span (z : Zone) : Finset ℕ := Finset.Ico z.basePfn (z.basePfn + z.numPages)

theorem mem_span {z : Zone} {x : ℕ} : x ∈ z.span ↔ z.InArray x := Finset.mem_Ico

/-- `pfn_to_page`: only inside the descriptor array. -/
def pfnToPage (z : Zone) (pfn : ℕ) : Option PageRef :=
  if z.InArray pfn then some (.frame pfn) else none

/-- Write the descriptor fields of frame `pfn`. -/
def setPage (z : Zone) (pfn : ℕ) (pg : Page) : Zone :=
  { z with page := Function.update z.page pfn pg }

/-- The frames on the list at `h`, first to last. -/
def listFrom (z : Zone) (h : PageRef) : List ℕ :=
  (z.links.walk (z.numPages + 1) h).filterMap fun
    | .frame pfn => some pfn
    | _ => none

/-- The base frames on free list `k`, first to last. -/
def freeList (z : Zone) (k : ℕ) : List ℕ := z.listFrom (.freeHead k)

end Zone

/-! ### Buddy arithmetic -/

/-- `buddy_pfn_of`. -/
def buddyPfnOf (pfn order : ℕ) : ℕ := pfn ^^^ 2 ^ order

/-- `pfn_in_zone`. -/
def pfnInZone (z : Zone) (pfn : ℕ) : Bool :=
  let pa := pfn <<< pageShift
  decide (z.basePa ≤ pa) && decide (pa < z.endPa)

/-- `floor_log2_u64`: the largest `n` with `2 ^ n ≤ v`, `-1` for `0`. -/
def floorLog2U64 (v : ℕ) : ℤ := if v = 0 then -1 else (Nat.log2 v : ℤ)

/-- `__builtin_ctzll` on 64 bits: the lowest set bit. -/
def ctzll (v : ℕ) : ℕ := ((List.range 64).find? fun i => v.testBit i).getD 64

/-- `pfn_max_align`: a frame number's alignment as an order, capped. -/
def pfnMaxAlign (pfn : ℕ) : ℤ :=
  if pfn = 0 then (maxOrder : ℤ)
  else if ctzll pfn > maxOrder then (maxOrder : ℤ) else (ctzll pfn : ℤ)

/-! ### Zone initialisation and bulk free -/

/-- `buddy_zone_init`: descriptors reserved and unlinked, free lists empty; slab fields keep what
memory held. -/
def buddyZoneInit (z : Zone) (basePa endPa : ℕ) : Zone :=
  let numPages := (endPa - basePa) >>> pageShift
  let basePfn := basePa >>> pageShift
  let inArray := fun pfn => decide (basePfn ≤ pfn ∧ pfn < basePfn + numPages)
  let cleared : Links PageRef :=
    { next := fun
        | .frame pfn => if inArray pfn then none else z.links.next (.frame pfn)
        | r => z.links.next r
      prev := fun
        | .frame pfn => if inArray pfn then none else z.links.prev (.frame pfn)
        | r => z.links.prev r }
  { basePa := basePa
    endPa := endPa
    numPages := numPages
    basePfn := basePfn
    links := (List.range (maxOrder + 1)).foldl (fun L k => L.initHead (.freeHead k)) cleared
    page := fun pfn =>
      if inArray pfn then
        { z.page pfn with order := 0, flags := { reserved := true }, refcount := 0 }
      else z.page pfn
    freePagesPerOrder := fun k => if k ≤ maxOrder then 0 else z.freePagesPerOrder k
    totalFreePages := 0 }

/-- `zone_free_chunk`: mark the block at `pfn` free and push it, as `alloc_locked` and `free_locked`
do. -/
def zoneFreeChunk (z : Zone) (pfn order : ℕ) : Option Zone := do
  let p ← z.pfnToPage pfn
  let z := z.setPage pfn
    { z.page pfn with order := order, flags := { free := true }, refcount := 0 }
  let links ← z.links.pushFront (.freeHead order) p
  pure { z with
    links := links
    freePagesPerOrder := Function.update z.freePagesPerOrder order (z.freePagesPerOrder order + 1)
    totalFreePages := z.totalFreePages + 2 ^ order }

/-- The order `buddy_free_region` frees next: the largest that `pfn`'s alignment, the range and
`MAX_ORDER` allow. -/
def chunkOrder (pfn endPfn : ℕ) : ℕ :=
  let maxAlign := pfnMaxAlign pfn
  let maxSize := floorLog2U64 (endPfn - pfn)
  let maxSize := if maxSize > maxOrder then (maxOrder : ℤ) else maxSize
  let order := if maxAlign < maxSize then maxAlign else maxSize
  let order := if order < 0 then 0 else order
  order.toNat

/-- The loop of `buddy_free_region`; `endPfn - pfn` turns suffice. -/
def freeRegionLoop (endPfn : ℕ) : ℕ → Zone → ℕ → Option Zone
  | 0, z, _ => some z
  | fuel + 1, z, pfn =>
    if pfn < endPfn then do
      let order := chunkOrder pfn endPfn
      let z ← zoneFreeChunk z pfn order
      freeRegionLoop endPfn fuel z (pfn + 2 ^ order)
    else some z

/-- `buddy_free_region`. -/
def buddyFreeRegion (z : Zone) (startPa endPa : ℕ) : Option Zone :=
  if startPa ≥ endPa then some z
  else
    let pfn := startPa >>> pageShift
    let endPfn := endPa >>> pageShift
    freeRegionLoop endPfn (endPfn - pfn) z pfn

/-! ### Allocation -/

/-- The search of `alloc_locked`: the least order from `src` with a free block, or `MAX_ORDER + 1`. -/
def findSrcOrder (z : Zone) : ℕ → ℕ → ℕ
  | 0, src => src
  | fuel + 1, src =>
    if src ≤ maxOrder && z.links.isEmpty (.freeHead src) then findSrcOrder z fuel (src + 1)
    else src

/-- The split loop of `alloc_locked`: halve a block too large and put the right half back. -/
def splitLoop (order pfn : ℕ) : ℕ → Zone → Option Zone
  | 0, z => some z
  | src + 1, z =>
    if src + 1 > order then do
      let bpfn := pfn ||| 2 ^ src
      let z ← zoneFreeChunk z bpfn src
      splitLoop order pfn src z
    else some z

/-- `alloc_locked`, returning the descriptor's frame number. -/
def allocLocked (z : Zone) (order : ℕ) : Option (Zone × Option ℕ) :=
  if order > maxOrder then some (z, none)
  else
    let src := findSrcOrder z (maxOrder + 1 - order) order
    if src > maxOrder then some (z, none)
    else do
      let (links, popped) ← z.links.popFront (.freeHead src)
      match popped with
      | some (.frame pfn) =>
        let z := { z with
          links := links
          freePagesPerOrder := Function.update z.freePagesPerOrder src (z.freePagesPerOrder src - 1)
          totalFreePages := z.totalFreePages - 2 ^ src }
        let z ← splitLoop order pfn src z
        let z := z.setPage pfn
          { z.page pfn with order := order, flags := { kernel := true }, refcount := 1 }
        pure ({ z with links := (z.links.setNext (.frame pfn) none).setPrev (.frame pfn) none },
          some pfn)
      | _ => none

/-- `buddy_alloc`. -/
def buddyAlloc (z : Zone) (order : ℕ) : Option (Zone × Option ℕ) := allocLocked z order

/-! ### Free -/

/-- The merge loop and the tail of `free_locked`. -/
def freeLocked : ℕ → Zone → ℕ → ℕ → Option Zone
  | 0, z, pfn, order => zoneFreeChunk z pfn order
  | fuel + 1, z, pfn, order =>
    if order < maxOrder then
      let bpfn := buddyPfnOf pfn order
      if !pfnInZone z bpfn then zoneFreeChunk z pfn order
      else do
        let bp ← z.pfnToPage bpfn
        if !(z.page bpfn).flags.free || (z.page bpfn).order != order then
          zoneFreeChunk z pfn order
        else do
          let links ← z.links.remove bp
          let z := { z with
            links := links
            freePagesPerOrder :=
              Function.update z.freePagesPerOrder order (z.freePagesPerOrder order - 1)
            totalFreePages := z.totalFreePages - 2 ^ order }
          let z := z.setPage bpfn { z.page bpfn with flags := {}, order := 0 }
          freeLocked fuel z (if bpfn < pfn then bpfn else pfn) (order + 1)
    else zoneFreeChunk z pfn order

/-- `buddy_free`: an order above `MAX_ORDER` is an `extinction`. -/
def buddyFree (z : Zone) (pfn order : ℕ) : Option Zone :=
  if order > maxOrder then none
  else freeLocked (maxOrder - order) z pfn order

end Thylacine
