import Mathlib.Data.Finset.Basic
import Thylacine.Kernel.Errno
import Thylacine.Lib.DoublyLinked
import Thylacine.Lib.Word

/-!
# The Mappings of an Address Space

The sorted list of mappings of an address space, from `kernel/vma.c`, with the parts of
`kernel/burrow.c` and `kernel/addrspace.c` that it calls. A mapping (`struct Vma`) covers a
page-aligned range of user addresses and shows bytes of a Burrow there, or, as a **guard**,
nothing at all.

An address space is its list head, its count of mappings, and the memory: the fields of each
`struct Vma`, which of them the slab has given out, and the Burrows. An operation that calls
`extinction` returns `none`. What the slab gives out is an argument (`pick`), as is whether a
Burrow can grow. Left out are the pages: the leaf entries that a detach clears, the resident
slots that it releases, and the counters charged for pages.
-/

namespace Thylacine

open DoublyLinked Word
open Function (update)

/-! ### Constants -/

/-- `PAGE_SIZE`. -/
def pageBytes : ℕ := 4096

/-- `USER_VA_TOP`. -/
def userVaTop : UInt64 := (1 : UInt64) <<< 47

/-- `PROC_VMA_MAX`. -/
def procVmaMax : UInt32 := 65536

/-- `VMA_PROT_READ`. -/
def vmaProtRead : UInt32 := 1

/-- `VMA_PROT_WRITE`. -/
def vmaProtWrite : UInt32 := 2

/-- `VMA_PROT_EXEC`. -/
def vmaProtExec : UInt32 := 4

/-- `VMA_PROT_RW`. -/
def vmaProtRw : UInt32 := vmaProtRead ||| vmaProtWrite

/-- `VMA_FLAG_SHARED_IN`. -/
def vmaFlagSharedIn : UInt32 := 1

/-- `VMA_FLAG_MAX_SHIFT`. -/
def vmaFlagMaxShift : UInt32 := 8

/-- `VMA_FLAG_MAX_MASK`. -/
def vmaFlagMaxMask : UInt32 := (7 : UInt32) <<< vmaFlagMaxShift

/-- `vma_prot_max`: the ceiling, from the flags. -/
def vmaProtMax (flags : UInt32) : UInt32 := (flags &&& vmaFlagMaxMask) >>> vmaFlagMaxShift

/-- `vma_set_prot_max`. -/
def vmaSetProtMax (flags prot : UInt32) : UInt32 :=
  (flags &&& ~~~vmaFlagMaxMask) ||| ((prot &&& 7) <<< vmaFlagMaxShift)

/-- `DIRECTMAP_USABLE_RAM_MAX` over the size of a `struct Vma`: no more fit in memory. -/
def vmaSlots : ℕ := 8 * 2 ^ 30 / 64

/-! ### State -/

abbrev VmaRef := Fin vmaSlots

abbrev BurrowRef := ℕ

/-- The type of a `struct Burrow`. -/
inductive BurrowType where
  | anon
  | mmio
  | dma
  | file
  | anonLazy
  | code
  | hostmem
  deriving DecidableEq, Repr

/-- What mappings read of a `struct Burrow`; `lazyVa0` is null until `lazy_va0_set`, the size in
bytes a 64-bit number. -/
structure Burrow where
  type : BurrowType
  pageCount : ℕ
  handleCount : ℕ
  mappingCount : ℕ
  lazyVa0 : Option UInt64
  lazyMultiBias : Bool
  fits : pageCount * pageBytes < 2 ^ 64

/-- The fields of a `struct Vma`, its links apart. -/
structure Vma where
  vaddrStart : UInt64
  vaddrEnd : UInt64
  prot : UInt32
  flags : UInt32
  burrow : Option BurrowRef
  burrowOffset : UInt64
  deriving DecidableEq, Repr

/-- An address space, with the memory of its mappings. -/
structure AddrSpace where
  vmas : Option VmaRef
  vmaCount : UInt32
  next : VmaRef → Option VmaRef
  prev : VmaRef → Option VmaRef
  vma : VmaRef → Vma
  live : Finset VmaRef
  burrows : BurrowRef → Burrow

namespace AddrSpace

/-- A new address space: no mapping, and none in use. -/
def init (burrows : BurrowRef → Burrow) : AddrSpace where
  vmas := none
  vmaCount := 0
  next := fun _ => none
  prev := fun _ => none
  vma := fun _ => ⟨0, 0, 0, 0, none, 0⟩
  live := ∅
  burrows := burrows

section

variable (s : AddrSpace)

/-- The mappings from `p` on. -/
def listFrom (p : Option VmaRef) : List VmaRef := PointerChain.walk s.next vmaSlots p

/-- The mappings of the address space. -/
def list : List VmaRef := s.listFrom s.vmas

/-- All mappings' links. The list has no tail pointer. -/
def links : DList VmaRef := ⟨s.vmas, none, s.next, s.prev⟩

def setLinks (l : DList VmaRef) : AddrSpace :=
  { s with vmas := l.first, next := l.next, prev := l.prev }

def setVma (v : VmaRef) (m : Vma) : AddrSpace :=
  { s with vma := update s.vma v m }

def setBurrow (b : BurrowRef) (w : Burrow) : AddrSpace :=
  { s with burrows := update s.burrows b w }

/-! ### Burrows -/

/-- `burrow_acquire_mapping`. -/
def burrowAcquireMapping (b : BurrowRef) : Option AddrSpace :=
  let w := s.burrows b
  if w.handleCount = 0 ∧ w.mappingCount = 0 then none
  else some (s.setBurrow b { w with mappingCount := w.mappingCount + 1 })

/-- `burrow_release_mapping_settled_deferred`: the Burrow, if it owes a free. -/
def burrowReleaseMapping (b : BurrowRef) : Option (AddrSpace × Option BurrowRef) :=
  let w := s.burrows b
  if w.mappingCount = 0 then none
  else
    let w := { w with mappingCount := w.mappingCount - 1 }
    some (s.setBurrow b w, if w.handleCount = 0 ∧ w.mappingCount = 0 then some b else none)

end

/-- `burrow_lazy_bind_va0`: the first mapping names a lazy Burrow's bias, one at another is
remembered. -/
def lazyBindVa0 (w : Burrow) (va0 : UInt64) : Burrow :=
  if w.type ≠ .anonLazy then w
  else
    match w.lazyVa0 with
    | none => { w with lazyVa0 := some va0 }
    | some va => if va ≠ va0 then { w with lazyMultiBias := true } else w

/-- `burrow_lazy_bind_va0`, for a mapping that becomes real. -/
def burrowLazyBindVa0 (s : AddrSpace) (v : VmaRef) : AddrSpace :=
  let m := s.vma v
  match m.burrow with
  | none => s
  | some b => s.setBurrow b (lazyBindVa0 (s.burrows b) (m.vaddrStart - m.burrowOffset))

/-! ### Making and freeing a mapping -/

/-- The checks of `vma_alloc` on the Burrow `w`. -/
def vmaAdmits (w : Burrow) (vaddrStart vaddrEnd : UInt64) (prot : UInt32)
    (burrowOffset : UInt64) : Prop :=
  let span := UInt64.ofNat (w.pageCount * pageBytes)
  vaddrStart < vaddrEnd ∧ Aligned vaddrStart ∧ Aligned vaddrEnd ∧
    ¬(prot &&& vmaProtWrite ≠ 0 ∧ prot &&& vmaProtExec ≠ 0) ∧
    ¬(prot &&& vmaProtWrite ≠ 0 ∧ prot &&& vmaProtRead = 0) ∧
    burrowOffset ≤ span ∧ vaddrEnd - vaddrStart ≤ span - burrowOffset

instance (w : Burrow) (vaddrStart vaddrEnd : UInt64) (prot : UInt32) (burrowOffset : UInt64) :
    Decidable (vmaAdmits w vaddrStart vaddrEnd prot burrowOffset) :=
  inferInstanceAs (Decidable (_ ∧ _))

/-- The prot of `vma_alloc`: execute-only is for code Burrows alone. -/
def normalProt (type : BurrowType) (prot : UInt32) : UInt32 :=
  if prot &&& vmaProtExec ≠ 0 ∧ prot &&& vmaProtRead = 0 ∧ type ≠ .code then prot ||| vmaProtRead
  else prot

section

variable (s : AddrSpace)

/-- `kmem_cache_alloc` of a `struct Vma`, filled with `m`. -/
def newVma (v : VmaRef) (m : Vma) : AddrSpace :=
  { s with
    live := insert v s.live
    vma := update s.vma v m
    next := update s.next v none
    prev := update s.prev v none }

/-- `vma_alloc`. -/
def vmaAlloc (pick : Option VmaRef) (vaddrStart vaddrEnd : UInt64) (prot : UInt32)
    (burrow : Option BurrowRef) (burrowOffset : UInt64) : Option (AddrSpace × Option VmaRef) :=
  match burrow, pick.filter (· ∉ s.live) with
  | some b, some v =>
    if vmaAdmits (s.burrows b) vaddrStart vaddrEnd prot burrowOffset then
      let prot := normalProt (s.burrows b).type prot
      let s := s.newVma v
        { vaddrStart, vaddrEnd, prot, flags := vmaSetProtMax 0 prot, burrow, burrowOffset }
      (s.burrowAcquireMapping b).map fun s => (s, some v)
    else some (s, none)
  | _, _ => some (s, none)

/-- `vma_alloc_guard`. -/
def vmaAllocGuard (pick : Option VmaRef) (vaddrStart vaddrEnd : UInt64) :
    AddrSpace × Option VmaRef :=
  match pick.filter (· ∉ s.live) with
  | none => (s, none)
  | some v =>
    if vaddrStart < vaddrEnd ∧ Aligned vaddrStart ∧ Aligned vaddrEnd then
      (s.newVma v
        { vaddrStart, vaddrEnd, prot := 0, flags := 0, burrow := none, burrowOffset := 0 },
        some v)
    else (s, none)

/-- `vma_free_deferred`: the Burrow, if it owes a free. -/
def vmaFree (v : VmaRef) : Option (AddrSpace × Option BurrowRef) :=
  if s.next v ≠ none ∨ s.prev v ≠ none then none
  else
    match (s.vma v).burrow with
    | none => some ({ s with live := s.live.erase v }, none)
    | some b =>
      (s.burrowReleaseMapping b).map fun (s, dead) => ({ s with live := s.live.erase v }, dead)

end

/-! ### The sorted list -/

/-- `ranges_overlap`. -/
def rangesOverlap (a b c d : UInt64) : Prop := a < d ∧ c < b

instance (a b c d : UInt64) : Decidable (rangesOverlap a b c d) :=
  inferInstanceAs (Decidable (_ ∧ _))

/-- `vma_linked_in`. -/
def vmaLinkedIn (s : AddrSpace) (v : VmaRef) : Bool :=
  (match s.prev v with
    | some p => s.next p == some v
    | none => s.vmas == some v) &&
  (match s.next v with
    | some n => s.prev n == some v
    | none => true)

/-- `addrspace_charge_vma`. -/
def addrspaceChargeVma (s : AddrSpace) (exempt : Bool) : Option AddrSpace :=
  if s.vmaCount = 0xFFFFFFFF then none
  else if !exempt && procVmaMax ≤ s.vmaCount then none
  else some { s with vmaCount := s.vmaCount + 1 }

/-- `addrspace_uncharge_vma`. -/
def addrspaceUnchargeVma (s : AddrSpace) : AddrSpace :=
  { s with vmaCount := if 0 < s.vmaCount then s.vmaCount - 1 else 0 }

/-- The walk of `vma_insert_in`: the neighbours of the place for `m`, unless it overlaps. -/
def insertWalk (s : AddrSpace) (m : Vma) :
    List VmaRef → Option VmaRef → Option (Option VmaRef × Option VmaRef)
  | [], prev => some (prev, none)
  | cur :: rest, prev =>
    let c := s.vma cur
    if rangesOverlap m.vaddrStart m.vaddrEnd c.vaddrStart c.vaddrEnd then none
    else if m.vaddrEnd ≤ c.vaddrStart then some (prev, some cur)
    else insertWalk s m rest (some cur)

/-- `vma_insert_in`. -/
def vmaInsertIn (s : AddrSpace) (exempt : Bool) (v : VmaRef) : Option (AddrSpace × ℤ) :=
  if s.next v ≠ none ∨ s.prev v ≠ none ∨ s.vmas = some v then none
  else
    match s.insertWalk (s.vma v) s.list none with
    | none => some (s, -1)
    | some (prev, cur) =>
      match s.addrspaceChargeVma exempt with
      | none => some (s, -tENomem)
      | some s => some ((s.setLinks (s.links.insertBetween prev cur v)).burrowLazyBindVa0 v, 0)

/-- `vma_remove_in`. -/
def vmaRemoveIn (s : AddrSpace) (v : VmaRef) : Option AddrSpace :=
  if s.vmaLinkedIn v then some (s.setLinks (s.links.unlink v)).addrspaceUnchargeVma else none

def overlapWalk (s : AddrSpace) (lo hi : UInt64) : List VmaRef → Option VmaRef
  | [] => none
  | cur :: rest =>
    if hi ≤ (s.vma cur).vaddrStart then none
    else if lo < (s.vma cur).vaddrEnd then some cur
    else overlapWalk s lo hi rest

/-- `vma_next_overlap_in`: the first mapping that meets the range. -/
def vmaNextOverlapIn (s : AddrSpace) (lo hi : UInt64) : Option VmaRef :=
  if hi ≤ lo then none else s.overlapWalk lo hi s.list

/-- What a loop over a range goes through: the first mapping that meets it, and the next ones that
start in it. -/
def rangeVmas (s : AddrSpace) (lo hi : UInt64) : List VmaRef :=
  (s.listFrom (s.vmaNextOverlapIn lo hi)).takeWhile fun v => (s.vma v).vaddrStart < hi

end AddrSpace

end Thylacine
