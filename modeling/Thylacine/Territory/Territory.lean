import Mathlib.Algebra.BigOperators.Group.Finset.Basic
import Thylacine.Territory.MountTable

/-!
# Territories

The operations of `kernel/territory.c`: `mount` and `unmount`, the root swaps, the lookups,
`bind` and `unbind`, and the lifecycle of a Territory. `Kernel` is all Territories and the memory
of their nodes, and `Kernel.step` the interface as a machine. A call on a Territory is made by a
holder of a strong reference; a call that nobody could make is not made. The `magic` fields, which
tell corrupted memory, are left out.
-/

namespace Thylacine

open DoublyLinked

namespace Table

variable (spoors : SpoorRef → Spoor)

/-! ### Mount and unmount -/

/-- What a mount allocates before it takes the lock. -/
structure MountAlloc where
  entry : Option MountRef
  covered : Option MountRef
  point : Option HeadRef

/-- What a mount leaves when it drops the lock: its result, what it unlinked, the nodes not used. -/
structure MountOut where
  table : Table
  rc : ℤ
  dead : MountDead
  entry : Option MountRef
  covered : Option MountRef
  point : Option HeadRef

/-- The entry of the pair (point, source), if there is one. -/
def findPair (T : Table) (h : Option HeadRef) (source : SpoorRef) : Option MountRef :=
  h.bind fun h => (T.members h).find? fun m => T.source m = source

/-- Unlinks these entries, first to last. -/
def unlinkAll (T : Table) (ms : List MountRef) : Option Table := ms.foldlM mountUnlink T

/-- What a mount removes: with `MREPL` the point's members, else the pair, to be placed anew. -/
def mountDisplaced (T : Table) (h : Option HeadRef) (source : SpoorRef) (flags : UInt32) :
    List MountRef :=
  if hasFlag flags mrepl then (h.map T.members).getD [] else (T.findPair h source).toList

/-- A mount that starts a union: ordered, nothing mounted there. -/
def startsUnion (h : Option HeadRef) (mountpoint : Spoor) (flags : UInt32) : Bool :=
  !hasFlag flags mrepl && hasFlag flags (mbefore ||| mafter) && mountpoint.isDir && h.isNone

section

variable (T : Table)

/-- Places the new entry, with `cov` for the covered directory. -/
def placeEntries (h : HeadRef) (m : MountRef) (cov : Option MountRef) (before : Bool) : Table :=
  match cov with
  | none => T.mountLink h m before
  | some c =>
    if before then (T.mountLink h m before).mountLink h c false
    else (T.mountLink h c false).mountLink h m before

/-- The infallible end of a mount. -/
def mountInstall (h : Option HeadRef) (source mountpoint : SpoorRef) (flags : UInt32)
    (entry covered : MountRef) (point : HeadRef) : Table × HeadRef :=
  let mp := spoors mountpoint
  let union := startsUnion h mp flags
  let (T, hd) := match h with
    | none => (T.mheadInsert point mp.key, point)
    | some h => (T, h)
  let T := T.setEntry entry source mp.path flags
  let T := if union then T.setEntry covered mountpoint mp.path mcovered else T
  (T.placeEntries hd entry (if union then some covered else none) (hasFlag flags mbefore), hd)

/-- The part of `mount` under the lock. -/
def mountLocked (source mountpoint : SpoorRef) (flags : UInt32) (entry covered : MountRef)
    (point : HeadRef) : Option MountOut := do
  let mp := spoors mountpoint
  let (cycle, T) ← T.wouldCreateMountCycle spoors (spoors source).key mp.key
  if cycle then some ⟨T, -3, ⟨[], []⟩, some entry, some covered, some point⟩
  else
    let h := T.mheadFind mp.key
    let union := startsUnion h mp flags
    let pair := if hasFlag flags mrepl then none else T.findPair h source
    match pair, hasFlag flags (mbefore ||| mafter) with
    | some m, false =>
      -- the flags of the entry converge in place
      some ⟨{ T with flags := Function.update T.flags m flags }, 0, ⟨[], []⟩, some entry,
        some covered, some point⟩
    | _, _ =>
      let dead := T.mountDisplaced h source flags
      let T ← T.unlinkAll dead
      if T.nmounts + (if union then 2 else 1) > pgrpMountCap then
        if (h.bind T.first).isNone ∧ h.isSome then none
        else some ⟨T, -2, ⟨dead, []⟩, some entry, some covered, some point⟩
      else
        let (T, hd) := T.mountInstall spoors h source mountpoint flags entry covered point
        if (T.first hd).isNone then none
        else
          some ⟨T, 0, ⟨dead, []⟩, none, if union then none else some covered,
            if h.isNone then none else some point⟩

/-- `mount`: 0, or -1 for a null argument, -2 for a full table, -3 for a cycle, -4 for no
memory. -/
def mount (mem : MountAlloc) (source mountpoint : Option SpoorRef) (flags : UInt32) :
    Option (Table × ℤ) :=
  match source, mountpoint with
  | some source, some mountpoint =>
    let (T, entry) := T.mountNodeAlloc mem.entry
    let (T, covered) := T.mountNodeAlloc mem.covered
    let (T, point) := T.mheadNodeAlloc mem.point
    match entry, covered, point with
    | some e, some c, some h => do
      let out ← T.mountLocked spoors source mountpoint flags e c h
      let T := out.table.mountDeadRelease out.dead
      some (((T.mountFree out.entry).mountFree out.covered).mheadFree out.point, out.rc)
    | _, _, _ => some (((T.mountFree entry).mountFree covered).mheadFree point, -4)
  | _, _ => some (T, -1)

/-- `unmount` under the lock: the first uncovered member goes; with the last the covered one, and
the point. -/
def unmountLocked (k : MKey) : Option (Table × ℤ × MountDead) :=
  match T.mheadFind k with
  | none => some (T, -1, ⟨[], []⟩)
  | some h =>
    match (T.members h).find? fun m => !hasFlag (T.flags m) mcovered with
    | none => some (T, -1, ⟨[], []⟩)
    | some m => do
      let T ← T.mountUnlink m
      let rest := T.members h
      let cov := (rest.filter fun m => hasFlag (T.flags m) mcovered).getLast?
      let mounted := rest.any fun m => !hasFlag (T.flags m) mcovered
      let last := if mounted then [] else cov.toList
      let T ← T.unlinkAll last
      match T.first h with
      | some _ => some (T, 0, ⟨m :: last, []⟩)
      | none =>
        let T ← T.mheadRemove h
        some (T, 0, ⟨m :: last, [h]⟩)

def unmount (mountpoint : Option SpoorRef) : Option (Table × ℤ) :=
  match mountpoint with
  | none => some (T, -1)
  | some mp => do
    let (T, rc, dead) ← T.unmountLocked (spoors mp).key
    some (T.mountDeadRelease dead, rc)

/-! ### Lookups -/

/-- `mount_members_snapshot`: the number of members, with sources and flags in search order if at
most `max`. -/
def mountMembersSnapshot (probe : SpoorRef) (max : ℕ) : ℕ × List (SpoorRef × UInt32) :=
  if max = 0 then (0, [])
  else
    match T.mheadFind (spoors probe).key with
    | none => (0, [])
    | some h =>
      let n := T.nmembers h
      (n, if n ≤ max then ((T.members h).take n).map fun m => (T.source m, T.flags m) else [])

/-! ### The root -/

/-- Drops the reference of a former root. -/
def clunkRoot (root : Option SpoorRef) : Table :=
  match root with
  | some r => T.spoorClunk r
  | none => T

/-- Takes a parent's root, with a reference of its own. -/
def copyRoot (root : Option SpoorRef) : Table :=
  match root with
  | some r => { T.spoorRef r with rootSpoor := some r }
  | none => { T with rootSpoor := none }

/-- The swap of `territory_chroot` and `territory_pivot_root`. -/
def swapRoot (source : SpoorRef) : Option (Table × ℤ) :=
  if T.rootSpoor = some source then some (T, 0)
  else do
    let old := T.rootSpoor
    let T := { T.spoorRef source with rootSpoor := some source }
    let (T, shed) ← T.territoryShedUnreachableLocked spoors (spoors source)
    let T := T.mountDeadRelease shed
    some (T.clunkRoot old, 0)

def territoryChroot (source : Option SpoorRef) : Option (Table × ℤ) :=
  match source with
  | none => some (T, -1)
  | some source => T.swapRoot spoors source

/-- As `territory_chroot`, at a Territory that has a root. -/
def territoryPivotRoot (source : Option SpoorRef) : Option (Table × ℤ) :=
  match source with
  | none => some (T, -1)
  | some source => if T.rootSpoor = none then some (T, -1) else T.swapRoot spoors source

end

/-! ### Copy and release -/

/-- Allocates a node for each pick, until that fails. -/
def allocPool {α : Type} (alloc : Table → Option α → Table × Option α) :
    List (Option α) → Table × List α → Table × List α × Bool
  | [], (T, pool) => (T, pool, true)
  | pick :: picks, (T, pool) =>
    match alloc T pick with
    | (T, none) => (T, pool, false)
    | (T, some a) => allocPool alloc picks (T, a :: pool)

/-- The pool of entries. -/
def allocEntries : List (Option MountRef) → Table × List MountRef → Table × List MountRef × Bool :=
  allocPool mountNodeAlloc

/-- The pool of points. -/
def allocPoints : List (Option HeadRef) → Table × List HeadRef → Table × List HeadRef × Bool :=
  allocPool mheadNodeAlloc

/-- `mount_pools_free`. -/
def mountPoolsFree (T : Table) (entries : List MountRef) (points : List HeadRef) : Table :=
  points.foldl (fun T h => T.mheadFree (some h)) (entries.foldl (fun T m => T.mountFree (some m)) T)

/-- Copies the parent's entries `ms` into the child's table. -/
def copyEntries : List MountRef → Table → List MountRef → List HeadRef →
    Option (Table × List MountRef × List HeadRef)
  | [], T, epool, ppool => some (T, epool, ppool)
  | pm :: ms, T, epool, ppool => do
    let ph ← T.head pm
    let (T, ch, ppool) ← match T.mheadFind (T.key ph) with
      | some ch => some (T, ch, ppool)
      | none =>
        match ppool with
        | [] => none
        | ch :: ppool => some (T.mheadInsert ch (T.key ph), ch, ppool)
    match epool with
    | [] => none
    | cm :: epool =>
      let T := T.setEntry cm (T.source pm) (T.mpPath pm) (T.flags pm)
      copyEntries ms (T.mountLink ch cm false) epool ppool

/-- The outcomes of a table copy's allocations. -/
structure CopyAlloc where
  entries : List (Option MountRef)
  points : List (Option HeadRef)

/-- The pools, sized by the parent's counts; a missing pick fails. -/
def mountPools (T : Table) (ns : NsTable) (mem : CopyAlloc) :
    Table × List MountRef × List HeadRef × Bool :=
  let picks {α : Type} (n : ℕ) (l : List (Option α)) : List (Option α) :=
    (List.range n).map fun i => (l[i]?).join
  match allocEntries (picks ns.nmounts mem.entries) (T, []) with
  | (T, epool, false) => (T, epool, [], false)
  | (T, epool, true) =>
    let (T, ppool, ok) := allocPoints (picks ns.npoints mem.points) (T, [])
    (T, epool, ppool, ok)

/-- The copy of the parent's table `ns` into the child's empty one, and whether there were nodes. -/
def copyTable (T : Table) (ns : NsTable) (mem : CopyAlloc) : Option (Table × Bool) :=
  match T.mountPools ns mem with
  | (T, epool, ppool, false) => some (T.mountPoolsFree epool ppool, false)
  | (T, epool, ppool, true) => do
    let parent : Table := { T with toNsTable := ns }
    let (T, epool, ppool) ← copyEntries parent.entries T epool ppool
    some ((T.copyRoot ns.rootSpoor).mountPoolsFree epool ppool, true)

/-- The last strong reference goes: entries and root are released. -/
def releaseTable (T : Table) : Table :=
  let entries := PointerChain.walk T.tprev fuel T.mlast
  let points := T.points
  let root := T.rootSpoor
  let T := { T with
    mhash := fun _ => none
    mfirst := none
    mlast := none
    nmounts := 0
    npoints := 0
    rootSpoor := none }
  (T.mountDeadRelease ⟨entries, points⟩).clunkRoot root

end Table

/-! ### Binds -/

abbrev PathId := UInt32

/-- `PGRP_MAX_BINDS`. -/
def pgrpMaxBinds : ℕ := 8

/-- `struct PgrpBind`. -/
structure PgrpBind where
  src : PathId
  dst : PathId
  deriving DecidableEq, Repr

/-- One run over the binds: the set reached, and whether it grew. A full array ends it. -/
def reachRound : List PgrpBind → List PathId → Bool → List PathId × Bool
  | [], reached, changed => (reached, changed)
  | e :: es, reached, changed =>
    if e.dst ∈ reached ∧ e.src ∉ reached then
      if reached.length ≥ pgrpMaxBinds + 1 then (reached, changed)
      else reachRound es (reached ++ [e.src]) true
    else reachRound es reached changed

/-- The loop until nothing changes. -/
def reachLoop (binds : List PgrpBind) : ℕ → List PathId → Option (List PathId)
  | 0, _ => none
  | fuel + 1, reached =>
    match reachRound binds reached false with
    | (reached, true) => reachLoop binds fuel reached
    | (reached, false) => some reached

section

variable (binds : List PgrpBind)

/-- Would the edge from `dst` to `src` close a cycle? -/
def wouldCreateCycle (src dst : PathId) : Option Bool :=
  if src = dst then some true
  else (reachLoop binds (pgrpMaxBinds + 2) [src]).map fun reached => decide (dst ∈ reached)

/-- `bind`: 0, or -1 for a cycle, -2 if it exists, -3 for a full table, -4 for a path to itself. -/
def bind (src dst : PathId) : Option (List PgrpBind × ℤ) :=
  if src = dst then some (binds, -4)
  else do
    let cycle ← wouldCreateCycle binds src dst
    if cycle then some (binds, -1)
    else if ⟨src, dst⟩ ∈ binds then some (binds, -2)
    else if binds.length ≥ pgrpMaxBinds then some (binds, -3)
    else some (binds ++ [⟨src, dst⟩], 0)

/-- Moves the last bind into the place of the one removed. -/
def unbind (src dst : PathId) : List PgrpBind × ℤ :=
  match binds.idxOf? ⟨src, dst⟩ with
  | none => (binds, -1)
  | some i => ((binds.set i (binds.getLastD ⟨src, dst⟩)).dropLast, 0)

end

/-! ### The lifecycle -/

abbrev TerritoryRef := ℕ

/-- `struct Territory`; `dotPath` is null for `/`. -/
structure Territory where
  ref : ℕ
  weak : ℕ
  binds : List PgrpBind
  flags : UInt32
  ns : NsTable
  dotPath : Option (List UInt8)

/-- `territory_init_fields`. -/
def Territory.init : Territory where
  ref := 1
  weak := 1
  binds := []
  flags := 0
  ns := .empty
  dotPath := none

/-- `territory_setdot`: `/` is stored as null, anything else if `alloc` has memory. -/
def territorySetdot (dot : Option (List UInt8)) (cleaned : List UInt8) (alloc : Bool) :
    Option (List UInt8) × ℤ :=
  if cleaned = [47] then (none, 0) else if alloc then (some cleaned, 0) else (dot, -1)

/-- All Territories, the structs in use, and their tables' memory. -/
structure Kernel where
  mem : NsMem
  territories : TerritoryRef → Territory
  live : Finset TerritoryRef
  kpgrp : TerritoryRef

namespace Kernel

variable (spoors : SpoorRef → Spoor)

section

variable (k : Kernel)

/-- The table of a Territory. -/
def table (p : TerritoryRef) : Table := { k.mem with toNsTable := (k.territories p).ns }

/-- Puts a table back. -/
def setTable (p : TerritoryRef) (T : Table) : Kernel :=
  { k with
    mem := T.toNsMem
    territories := Function.update k.territories p { k.territories p with ns := T.toNsTable } }

/-- An update of the other fields of a Territory. -/
def modify (p : TerritoryRef) (f : Territory → Territory) : Kernel :=
  { k with territories := Function.update k.territories p (f (k.territories p)) }

/-- `territory_alloc`: `pick`, if not in use. -/
def territoryAlloc (pick : Option TerritoryRef) : Kernel × Option TerritoryRef :=
  match pick with
  | none => (k, none)
  | some p =>
    if p ∈ k.live then (k, none)
    else ({ k.modify p fun _ => .init with live := insert p k.live }, some p)

/-- `territory_weak_unref`; the last one frees the struct. -/
def territoryWeakUnref (p : TerritoryRef) : Kernel :=
  let k' := k.modify p fun t => { t with weak := t.weak - 1 }
  if (k.territories p).weak = 1 then { k' with live := k'.live.erase p } else k'

/-- `territory_unref`; the last one releases the contents. -/
def territoryUnref (p : TerritoryRef) : Kernel :=
  let k' := k.modify p fun t => { t with ref := t.ref - 1 }
  if (k.territories p).ref = 1 then
    ((k'.setTable p (k'.table p).releaseTable).modify p fun t =>
      { t with dotPath := none }).territoryWeakUnref p
  else k'

end

/-- The outcomes of the allocations of a copy. -/
structure CloneAlloc where
  child : Option TerritoryRef
  table : Table.CopyAlloc
  dot : Bool

/-- The copy of the current directory in `territory_clone`. -/
def cloneDot (k : Kernel) (parent child : TerritoryRef) (alloc : Bool) :
    Kernel × Option TerritoryRef :=
  match (k.territories parent).dotPath with
  | none => (k, some child)
  | some path =>
    if alloc then (k.modify child fun t => { t with dotPath := some path }, some child)
    else (k.territoryUnref child, none)

/-- `territory_clone`. -/
def territoryClone (k : Kernel) (parent : TerritoryRef) (mem : CloneAlloc) :
    Option (Kernel × Option TerritoryRef) :=
  if (k.territories parent).binds.length > pgrpMaxBinds then none
  else
    match k.territoryAlloc mem.child with
    | (k, none) => some (k, none)
    | (k, some child) => do
      let ns := (k.territories parent).ns
      if ns.nmounts > pgrpMountCap ∨ ns.npoints > ns.nmounts then none
      else
        let (T, copied) ← (k.table child).copyTable ns mem.table
        let k := k.setTable child T
        if !copied then some (k.territoryUnref child, none)
        else
          let k := k.modify child fun t =>
            { t with binds := (k.territories parent).binds, flags := (k.territories parent).flags }
          some (k.cloneDot parent child mem.dot)

/-! ### The interface as a machine -/

/-- The calls of the namespace layer. -/
inductive Op
  | alloc (pick : Option TerritoryRef)
  | clone (parent : TerritoryRef) (mem : CloneAlloc)
  | mount (p : TerritoryRef) (mem : Table.MountAlloc) (source mountpoint : Option SpoorRef)
      (flags : UInt32)
  | unmount (p : TerritoryRef) (mountpoint : Option SpoorRef)
  | chroot (p : TerritoryRef) (source : Option SpoorRef)
  | pivotRoot (p : TerritoryRef) (source : Option SpoorRef)
  | bind (p : TerritoryRef) (src dst : PathId)
  | unbind (p : TerritoryRef) (src dst : PathId)
  | setdot (p : TerritoryRef) (cleaned : List UInt8) (alloc : Bool)
  | ref (p : TerritoryRef)
  | unref (p : TerritoryRef)
  | weakRef (p : TerritoryRef)
  | weakUnref (p : TerritoryRef)

/-- Somebody holds a strong reference. -/
def strong (k : Kernel) (p : TerritoryRef) : Bool := p ∈ k.live && (k.territories p).ref > 0

/-- Somebody has a weak reference beside that of the strong ones. -/
def weakHeld (k : Kernel) (p : TerritoryRef) : Bool :=
  p ∈ k.live && (k.territories p).weak > if (k.territories p).ref > 0 then 1 else 0

/-- A change of one table, by a strong holder. -/
def onTable (k : Kernel) (p : TerritoryRef) (f : Table → Option (Table × ℤ)) : Option Kernel :=
  if k.strong p then (f (k.table p)).map fun (T, _) => k.setTable p T else some k

/-- What a caller of `mount` may give: all but `MCOVERED`. -/
def callerFlags (flags : UInt32) : Bool := !hasFlag flags mcovered

/-- The kernel after a call; `none` is an extinction. -/
def step (k : Kernel) : Op → Option Kernel
  | .alloc pick => some (k.territoryAlloc pick).1
  | .clone parent mem =>
    if k.strong parent then (k.territoryClone parent mem).map Prod.fst else some k
  | .mount p mem source mountpoint flags =>
    if callerFlags flags then k.onTable p (·.mount spoors mem source mountpoint flags)
    else some k
  | .unmount p mountpoint => k.onTable p (·.unmount spoors mountpoint)
  | .chroot p source => k.onTable p (·.territoryChroot spoors source)
  | .pivotRoot p source => k.onTable p (·.territoryPivotRoot spoors source)
  | .bind p src dst =>
    if k.strong p then
      (Thylacine.bind (k.territories p).binds src dst).map fun (binds, _) =>
        k.modify p fun t => { t with binds := binds }
    else some k
  | .unbind p src dst =>
    if k.strong p then
      some (k.modify p fun t => { t with binds := (Thylacine.unbind t.binds src dst).1 })
    else some k
  | .setdot p cleaned alloc =>
    if k.strong p then
      some (k.modify p fun t =>
        { t with dotPath := (territorySetdot t.dotPath cleaned alloc).1 })
    else some k
  | .ref p => if k.strong p then some (k.modify p fun t => { t with ref := t.ref + 1 }) else some k
  | .unref p => if k.strong p ∧ p ≠ k.kpgrp then some (k.territoryUnref p) else some k
  | .weakRef p =>
    if p ∈ k.live then some (k.modify p fun t => { t with weak := t.weak + 1 }) else some k
  | .weakUnref p => if k.weakHeld p ∧ p ≠ k.kpgrp then some (k.territoryWeakUnref p) else some k

/-- The kernel after a list of calls. -/
def run (k : Kernel) (ops : List Op) : Option Kernel := ops.foldlM (step spoors) k

/-- The kernel after `territory_init`, in any memory. -/
def init (mem : NsMem) (kpgrp : TerritoryRef) : Kernel where
  mem := { mem with
    mountLive := ∅
    headLive := ∅
    spoorRefs := fun _ => 0
    pathRefs := fun _ => 0 }
  territories := fun _ => .init
  live := {kpgrp}
  kpgrp := kpgrp

end Kernel

end Thylacine
