import Thylacine.Mm.BuddyOps

/-!
# Per-CPU Magazines and the Page Interface

`mm/magazines.c` and the page interface of `mm/phys.c` over the buddy zone. Each CPU keeps
one small stack of blocks for each of two orders; allocation pops it and refills it from
the buddy when it is empty, free pushes on it and drains half of it when it is full.
-/

namespace Thylacine

open Dyadic IntrusiveList ListFamily

/-! ### Magazines -/

/-- `NCPUS`. -/
def nCpus : ℕ := 8

/-- `MAGAZINE_SIZE`. -/
def magazineSize : ℕ := 16

/-- `NUM_MAG_ORDERS`. -/
def numMagOrders : ℕ := 2

/-- The physical allocator: zone, magazines by CPU and slot, top first, and user pool charge. -/
structure Phys where
  zone : Zone
  mags : ℕ × ℕ → List ℕ
  userPoolCharged : ℕ

/-- Write one magazine. -/
def Phys.setMag (s : Phys) (i : ℕ × ℕ) (m : List ℕ) : Phys :=
  { s with mags := Function.update s.mags i m }

/-- `magazines_init`. -/
def magazinesInit (s : Phys) : Phys :=
  { s with mags := fun i => if i.1 < nCpus ∧ i.2 < numMagOrders then [] else s.mags i }

/-- `order_to_mag_idx`, `none` for `-1`. -/
def orderToMagIdx (order : ℕ) : Option ℕ :=
  if order = 0 then some 0 else if order = 9 then some 1 else none

/-- `mag_idx_to_order`. -/
def magIdxToOrder (idx : ℕ) : ℕ := if idx = 0 then 0 else 9

/-- `my_cpu`: a CPU number out of range is slot `0`. -/
def myCpu (cpu : ℕ) : ℕ := if cpu < nCpus then cpu else 0

/-- `mag_refill`: fetch until half full or the buddy has none. -/
def magRefill (i : ℕ × ℕ) (order : ℕ) : ℕ → Phys → Option Phys
  | 0, s => some s
  | fuel + 1, s =>
    if (s.mags i).length < magazineSize / 2 then do
      let (z, p) ← buddyAlloc s.zone order
      match p with
      | none => some { s with zone := z }
      | some p => magRefill i order fuel ({ s with zone := z }.setMag i (p :: s.mags i))
    else some s

/-- Return top entries to the buddy until `target` are left. -/
def drainTo (i : ℕ × ℕ) (order target : ℕ) : ℕ → Phys → Option Phys
  | 0, s => some s
  | fuel + 1, s =>
    match s.mags i with
    | [] => some s
    | p :: m =>
      if target < m.length + 1 then do
        let z ← buddyFree s.zone p order
        drainTo i order target fuel ({ s with zone := z }.setMag i m)
      else some s

/-- `mag_drain`: down to half full. -/
def magDrain (i : ℕ × ℕ) (order : ℕ) (s : Phys) : Option Phys :=
  drainTo i order (magazineSize / 2) (s.mags i).length s

/-- The refill of an empty magazine in `mag_alloc`. -/
def magFillEmpty (i : ℕ × ℕ) (s : Phys) : Option Phys :=
  if (s.mags i).length = 0 then magRefill i (magIdxToOrder i.2) (magazineSize / 2) s
  else some s

/-- The drain of a full magazine in `mag_free`. -/
def magDrainFull (i : ℕ × ℕ) (s : Phys) : Option Phys :=
  if (s.mags i).length = magazineSize then magDrain i (magIdxToOrder i.2) s else some s

/-- Write the descriptor of `pfn`, links included. -/
def Zone.stampPage (z : Zone) (pfn : ℕ) (pg : Page) : Zone :=
  { z.setPage pfn pg with
    links := (z.links.setNext (.frame pfn) none).setPrev (.frame pfn) none }

/-- `mag_alloc`; a corrupt count is an `extinction`. -/
def magAlloc (s : Phys) (cpu order : ℕ) : Option (Phys × Option ℕ) :=
  match orderToMagIdx order with
  | none => some (s, none)
  | some idx => do
    let i := (myCpu cpu, idx)
    if (s.mags i).length > magazineSize then none
    else
      let s ← magFillEmpty i s
      match s.mags i with
      | [] => some (s, none)
      | p :: m =>
        let s := s.setMag i m
        let pg := { s.zone.page p with
          order := order, flags := { kernel := true }, refcount := 1 }
        some ({ s with zone := s.zone.stampPage p pg }, some p)

/-- `mag_free`: `false` when the order has no magazine. -/
def magFree (s : Phys) (cpu p order : ℕ) : Option (Phys × Bool) :=
  match orderToMagIdx order with
  | none => some (s, false)
  | some idx => do
    let s := { s with zone := s.zone.stampPage p { s.zone.page p with flags := {} } }
    let i := (myCpu cpu, idx)
    if (s.mags i).length > magazineSize then none
    else
      let s ← magDrainFull i s
      some (s.setMag i (p :: s.mags i), true)

/-- The magazines, as `magazines_drain_all` visits them. -/
def magSlots : List (ℕ × ℕ) :=
  (List.range nCpus).flatMap fun cpu => (List.range numMagOrders).map fun idx => (cpu, idx)

/-- `magazines_drain_all`. -/
def magazinesDrainAll (s : Phys) : Option Phys :=
  magSlots.foldlM (fun s i => drainTo i (magIdxToOrder i.2) 0 (s.mags i).length s) s

/-! ### The page interface -/

/-- What `pool_uncharge` stores over `cur`, clamped at zero. -/
def poolUncharge (cur npages : ℕ) : ℕ := if npages ≤ cur then cur - npages else 0

/-- `alloc_pages` without interference; zeroing does not touch the allocator. -/
def allocPages (s : Phys) (cpu order : ℕ) : Option (Phys × Option ℕ) := do
  let (s, p) ← magAlloc s cpu order
  match p with
  | some p => some (s, some p)
  | none => do
    let (z, p) ← buddyAlloc s.zone order
    some ({ s with zone := z }, p)

/-- Clear `PG_USER` on the head of a block. -/
def Zone.clearUser (z : Zone) (p : ℕ) : Zone :=
  z.setPage p { z.page p with flags := { (z.page p).flags with user := false } }

/-- The head of `free_pages` without interference: a user page loses tag and charge. -/
def untagUser (s : Phys) (p order : ℕ) : Phys :=
  if (s.zone.page p).flags.user then
    { s with
      zone := s.zone.clearUser p
      userPoolCharged := poolUncharge s.userPoolCharged (2 ^ order) }
  else s

/-- `free_pages`, of a block that is not `NULL`. -/
def freePages (s : Phys) (cpu p order : ℕ) : Option Phys := do
  let s := untagUser s p order
  let (s, done) ← magFree s cpu p order
  if done then some s
  else do
    let z ← buddyFree s.zone p order
    some { s with zone := z }

end Thylacine
