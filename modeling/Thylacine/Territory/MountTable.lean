import Mathlib.Data.Finset.Basic
import Thylacine.Lib.DoublyLinked

/-!
# The Mount Table of a Territory

The nodes and primitives of the mount table in `kernel/territory.c`. A mount entry
(`struct PgrpMount`) is on two doubly linked lists, the table and the members of its mount
point; a point (`struct PgrpMhead`) is on a hash chain. Memory is one map for each field of
the nodes, and a pointer is the number of its node. A `Spoor` is read only.

`Table` is the part of a Territory that its `ns_lock` guards, the binds apart, with the memory
the table lives in. An operation that would dereference a null pointer, or that calls
`extinction`, returns `none`. A loop over a list looks at one node more than a table may hold.
-/

namespace Thylacine

open DoublyLinked
open Function (update)

abbrev SpoorRef := ℕ

abbrev PathRef := ℕ

abbrev MountRef := ℕ

abbrev HeadRef := ℕ

/-- `struct mkey`: a directory's identity, Plan 9's type, dev and qid. -/
structure MKey where
  dc : UInt32
  devno : UInt64
  path : UInt64
  deriving DecidableEq, Repr

/-- What the mount table reads of a `struct Spoor`: `key` is `dc`, `devno` and `qid.path`,
`unionPoint` is `union_snap->point`. -/
structure Spoor where
  key : MKey
  isDir : Bool
  devnoPerWalker : Bool
  unionPoint : Option SpoorRef
  path : Option PathRef

/-- `PGRP_MOUNT_CAP`. -/
def pgrpMountCap : ℕ := 1024

/-- `PGRP_MOUNT_HASH`. -/
def pgrpMountHash : ℕ := 64

/-- `MREPL`. -/
def mrepl : UInt32 := 0x0001

/-- `MBEFORE`. -/
def mbefore : UInt32 := 0x0002

/-- `MAFTER`. -/
def mafter : UInt32 := 0x0004

/-- `MCOVERED`. -/
def mcovered : UInt32 := 0x0040

/-- `flags & bits`. -/
def hasFlag (flags bits : UInt32) : Bool := flags &&& bits != 0

/-- The namespace layer's memory: the fields of `struct PgrpMount` and `struct PgrpMhead`, the nodes
in use, and the references on Spoors and Paths. A source is never null. -/
structure NsMem where
  tnext : MountRef → Option MountRef
  tprev : MountRef → Option MountRef
  next : MountRef → Option MountRef
  prev : MountRef → Option MountRef
  head : MountRef → Option HeadRef
  source : MountRef → SpoorRef
  mpPath : MountRef → Option PathRef
  flags : MountRef → UInt32
  hnext : HeadRef → Option HeadRef
  first : HeadRef → Option MountRef
  last : HeadRef → Option MountRef
  work : HeadRef → Option HeadRef
  key : HeadRef → MKey
  nmembers : HeadRef → ℕ
  visit : HeadRef → UInt32
  mountLive : Finset MountRef
  headLive : Finset HeadRef
  spoorRefs : SpoorRef → ℤ
  pathRefs : PathRef → ℤ

/-- The mount table and the root in `struct Territory`. -/
structure NsTable where
  mhash : ℕ → Option HeadRef
  mfirst : Option MountRef
  mlast : Option MountRef
  nmounts : ℕ
  npoints : ℕ
  mvisit : UInt32
  rootSpoor : Option SpoorRef

/-- A mount table in memory. -/
structure Table extends NsMem, NsTable

/-- The table of a new Territory. -/
def NsTable.empty : NsTable where
  mhash := fun _ => none
  mfirst := none
  mlast := none
  nmounts := 0
  npoints := 0
  mvisit := 0
  rootSpoor := none

/-- The hash of a key. -/
def mhashOf (k : MKey) : ℕ :=
  let h := (k.path ^^^ (k.dc.toUInt64 <<< 40)) + k.devno * 0x9E3779B97F4A7C15
  let h := h ^^^ (h >>> 31)
  let h := h * 0xBF58476D1CE4E5B9
  let h := h ^^^ (h >>> 29)
  (h.toUInt32 &&& 63).toNat

namespace Table

/-- The number of nodes a loop looks at, at most. -/
def fuel : ℕ := pgrpMountCap + 1

section

variable (T : Table)

/-- The points of one hash chain. -/
def chain (b : ℕ) : List HeadRef := PointerChain.walk T.hnext fuel (T.mhash b)

/-- The points of all chains. -/
def points : List HeadRef := (List.range pgrpMountHash).flatMap T.chain

/-- The entries in table order. -/
def entries : List MountRef := PointerChain.walk T.tnext fuel T.mfirst

/-- The members of a point, in search order. -/
def members (h : HeadRef) : List MountRef := PointerChain.walk T.next fuel (T.first h)

/-! ### References and nodes -/

def spoorRef (s : SpoorRef) : Table :=
  { T with spoorRefs := update T.spoorRefs s (T.spoorRefs s + 1) }

def spoorClunk (s : SpoorRef) : Table :=
  { T with spoorRefs := update T.spoorRefs s (T.spoorRefs s - 1) }

def pathRef : Option PathRef → Table
  | none => T
  | some p => { T with pathRefs := update T.pathRefs p (T.pathRefs p + 1) }

def pathUnref : Option PathRef → Table
  | none => T
  | some p => { T with pathRefs := update T.pathRefs p (T.pathRefs p - 1) }

/-- `mount_node_alloc`: the node `pick`, if not in use. -/
def mountNodeAlloc (pick : Option MountRef) : Table × Option MountRef :=
  match pick with
  | none => (T, none)
  | some m =>
    if m ∈ T.mountLive then (T, none)
    else ({ T with mountLive := insert m T.mountLive }, some m)

/-- `mount_node_alloc` for a point. -/
def mheadNodeAlloc (pick : Option HeadRef) : Table × Option HeadRef :=
  match pick with
  | none => (T, none)
  | some h =>
    if h ∈ T.headLive then (T, none)
    else ({ T with headLive := insert h T.headLive }, some h)

/-- `kmem_cache_free(g_mount_cache, m)`. -/
def mountFree : Option MountRef → Table
  | none => T
  | some m => { T with mountLive := T.mountLive.erase m }

/-- `kmem_cache_free(g_mhead_cache, h)`. -/
def mheadFree : Option HeadRef → Table
  | none => T
  | some h => { T with headLive := T.headLive.erase h }

/-! ### Points -/

/-- The point with this key. -/
def mheadFind (k : MKey) : Option HeadRef := (T.chain (mhashOf k)).find? fun h => T.key h = k

/-- Hashes a new point with no member yet. -/
def mheadInsert (h : HeadRef) (k : MKey) : Table :=
  let b := mhashOf k
  { T with
    key := update T.key h k
    first := update T.first h none
    last := update T.last h none
    work := update T.work h none
    nmembers := update T.nmembers h 0
    visit := update T.visit h 0
    hnext := update T.hnext h (T.mhash b)
    mhash := update T.mhash b (some h)
    npoints := T.npoints + 1 }

end

/-- The cell of chain `b` that points to `h`, from `c` on: the bucket (`none`) or a point's `hnext`. -/
def chainCell (T : Table) (b : ℕ) (h : HeadRef) : ℕ → Option HeadRef → Option (Option HeadRef)
  | 0, _ => none
  | fuel + 1, c =>
    match c.elim (T.mhash b) T.hnext with
    | none => none
    | some n => if n = h then some c else T.chainCell b h fuel (some n)

section

variable (T : Table)

/-- Takes a point out of its chain. -/
def mheadRemove (h : HeadRef) : Option Table := do
  let b := mhashOf (T.key h)
  let c ← T.chainCell b h fuel none
  let T := match c with
    | none => { T with mhash := update T.mhash b (T.hnext h) }
    | some a => { T with hnext := update T.hnext a (T.hnext h) }
  some { T with hnext := update T.hnext h none, npoints := T.npoints - 1 }

/-! ### Entries -/

/-- The list of all entries. -/
def tableList : DList MountRef := ⟨T.mfirst, T.mlast, T.tnext, T.tprev⟩

def setTableList (l : DList MountRef) : Table :=
  { T with mfirst := l.first, mlast := l.last, tnext := l.next, tprev := l.prev }

/-- The list of the members of point `h`. -/
def memberList (h : HeadRef) : DList MountRef := ⟨T.first h, T.last h, T.next, T.prev⟩

def setMemberList (h : HeadRef) (l : DList MountRef) : Table :=
  { T with
    first := update T.first h l.first
    last := update T.last h l.last
    next := l.next
    prev := l.prev }

/-- Links `m` as a member of `h`: with `first`, before its members in both lists; else last. -/
def mountLink (h : HeadRef) (m : MountRef) (first : Bool) : Table :=
  let before := if first then T.first h else none
  let T := { T with head := update T.head m (some h) }
  let T := match before with
    | some a =>
      (T.setTableList (T.tableList.linkBefore a m)).setMemberList h ((T.memberList h).pushFront a m)
    | none =>
      (T.setTableList (T.tableList.pushBack m)).setMemberList h ((T.memberList h).pushBack m)
  { T with
    nmembers := update T.nmembers h (T.nmembers h + 1)
    nmounts := T.nmounts + 1 }

/-- Unlinks `m` from the table and its point, which stays hashed. -/
def mountUnlink (m : MountRef) : Option Table := do
  let h ← T.head m
  let T := T.setTableList (T.tableList.unlink m)
  let T := T.setMemberList h ((T.memberList h).unlink m)
  some { T with
    head := update T.head m none
    nmembers := update T.nmembers h (T.nmembers h - 1)
    nmounts := T.nmounts - 1 }

/-- A new entry's fields, with its references to the source and the point's name. -/
def setEntry (m : MountRef) (source : SpoorRef) (path : Option PathRef) (flags : UInt32) : Table :=
  let T := T.spoorRef source
  let T := { T with
    source := update T.source m source
    mpPath := update T.mpPath m path }
  let T := T.pathRef path
  { T with flags := update T.flags m flags }

end

/-- `struct mount_dead`: what was unlinked, to release after the lock. -/
structure MountDead where
  entries : List MountRef
  points : List HeadRef

def mountDeadRelease (T : Table) (d : MountDead) : Table :=
  let T := d.entries.foldl
    (fun T m => ((T.pathUnref (T.mpPath m)).spoorClunk (T.source m)).mountFree (some m)) T
  d.points.foldl (fun T h => T.mheadFree (some h)) T

/-! ### Passes over the points -/

/-- Opens the pass of the new `mvisit`; a wrap clears all marks. -/
def mvisitNext (T : Table) : Table :=
  let n := T.mvisit + 1
  if n = 0 then
    { T with visit := fun h => if h ∈ T.points then 0 else T.visit h, mvisit := 1 }
  else { T with mvisit := n }

/-- Marks and queues a point for `pass`, unless marked. -/
def enqueue (pass : UInt32) (Tw : Table × Option HeadRef) (h : HeadRef) : Table × Option HeadRef :=
  if Tw.1.visit h = pass then Tw
  else
    ({ Tw.1 with
        visit := update Tw.1.visit h pass
        work := update Tw.1.work h Tw.2 }, some h)

/-- The loop over the worklist: scans its points, until it is empty or the scan finds what it looks
for. -/
def drain (scan : HeadRef → Table × Option HeadRef → Bool × Table × Option HeadRef) :
    ℕ → Table × Option HeadRef → Option (Bool × Table)
  | _, (T, none) => some (false, T)
  | 0, (_, some _) => none
  | fuel + 1, (T, some h) =>
    match scan h (T, T.work h) with
    | (true, T, _) => some (true, T)
    | (false, Tw) => drain scan fuel Tw

variable (spoors : SpoorRef → Spoor)

/-- The cycle check's scan: these entries' sources, up to one with key `dst`. -/
def cycleScan (pass : UInt32) (dst : MKey) :
    List MountRef → Table × Option HeadRef → Bool × Table × Option HeadRef
  | [], Tw => (false, Tw)
  | m :: ms, Tw =>
    let k := (spoors (Tw.1.source m)).key
    if k = dst then (true, Tw)
    else
      match Tw.1.mheadFind k with
      | some n => cycleScan pass dst ms (enqueue pass Tw n)
      | none => cycleScan pass dst ms Tw

/-- Would mounting a source of key `src` at a point of key `dst` close a cycle? -/
def wouldCreateMountCycle (T : Table) (src dst : MKey) : Option (Bool × Table) :=
  if src = dst then some (true, T)
  else
    let T := T.mvisitNext
    let Tw := match T.mheadFind src with
      | some h =>
        ({ T with
            visit := update T.visit h T.mvisit
            work := update T.work h none }, some h)
      | none => (T, none)
    drain (fun h Tw => cycleScan spoors T.mvisit dst (Tw.1.members h) Tw) fuel Tw

/-- The point is in the device instance of `s`: its `dc` alone if the walk does not preserve
`devno`. -/
def inInstance (s : Spoor) (k : MKey) : Bool :=
  k.dc = s.key.dc && (s.devnoPerWalker || k.devno = s.key.devno)

/-- Marks and queues the points in the instance of `s`. -/
def shedReach (pass : UInt32) (s : Spoor) (Tw : Table × Option HeadRef) : Table × Option HeadRef :=
  Tw.1.points.foldl (fun Tw h => if inInstance s (Tw.1.key h) then enqueue pass Tw h else Tw) Tw

/-- Drops the entries of points not reached, and the points left empty. -/
def shedEntries (pass : UInt32) : List MountRef → Table → MountDead → Option (Table × MountDead)
  | [], T, d => some (T, d)
  | m :: ms, T, d => do
    let h ← T.head m
    if T.visit h = pass then shedEntries pass ms T d
    else
      let T ← T.mountUnlink m
      let d := { d with entries := d.entries ++ [m] }
      match T.first h with
      | some _ => shedEntries pass ms T d
      | none =>
        let T ← T.mheadRemove h
        shedEntries pass ms T { d with points := h :: d.points }

/-- Drops every entry not reachable from `root`. -/
def territoryShedUnreachableLocked (T : Table) (root : Spoor) : Option (Table × MountDead) := do
  let T := T.mvisitNext
  let pass := T.mvisit
  let Tw := shedReach pass root (T, none)
  let Tw := match root.unionPoint with
    | some p => shedReach pass (spoors p) Tw
    | none => Tw
  let (_, T) ← drain (fun h Tw => (false,
    (Tw.1.members h).foldl (fun Tw m => shedReach pass (spoors (Tw.1.source m)) Tw) Tw)) fuel Tw
  shedEntries pass T.entries T ⟨[], []⟩

/-! ### The structural rules -/

/-- The first loop of `territory_mount_check`: the last entry and the number. -/
def checkTable (T : Table) : List MountRef → Option MountRef × ℕ → Except ℕ (Option MountRef × ℕ)
  | [], acc => .ok acc
  | m :: ms, (prev, n) =>
    if T.tprev m ≠ prev then .error 1
    else if n + 1 > pgrpMountCap then .error 2
    else T.checkTable ms (some m, n + 1)

/-- The loop over a point's members: the last, their number, the covered ones. -/
def checkMembers (T : Table) (h : HeadRef) : List MountRef → Option MountRef × ℕ × ℕ →
    Except ℕ (Option MountRef × ℕ × ℕ)
  | [], acc => .ok acc
  | m :: ms, (mp, k, covered) =>
    let isCovered := hasFlag (T.flags m) mcovered
    if T.prev m ≠ mp then .error 5
    else if T.head m ≠ some h then .error 6
    else if isCovered && (T.flags m ≠ mcovered || covered + 1 > 1 ||
        (spoors (T.source m)).key ≠ T.key h) then .error 9
    else if k + 1 > pgrpMountCap then .error 5
    else T.checkMembers h ms (some m, k + 1, if isCovered then covered + 1 else covered)

/-- The loop over chain `b`: the points and members so far. -/
def checkChain (T : Table) (b : ℕ) : List HeadRef → ℕ × ℕ → Except ℕ (ℕ × ℕ)
  | [], acc => .ok acc
  | h :: hs, (npts, members) => do
    if mhashOf (T.key h) ≠ b ∨ T.mheadFind (T.key h) ≠ some h then .error 3
    else if npts + 1 > pgrpMountCap then .error 4
    else
      let (mp, k, _) ← T.checkMembers spoors h (T.members h) (none, 0, 0)
      if T.last h ≠ mp ∨ k = 0 ∨ k ≠ T.nmembers h then .error 5
      else T.checkChain b hs (npts + 1, members + k)

/-- A point's search order against the table, from `want` on. -/
def checkOrder (T : Table) (h : HeadRef) : List MountRef → Option MountRef → Except ℕ Unit
  | [], want => if want.isSome then .error 8 else .ok ()
  | m :: ms, want =>
    if T.head m ≠ some h then T.checkOrder h ms want
    else if some m ≠ want then .error 8
    else T.checkOrder h ms (T.next m)

/-- The rules in the source's order; an error is the broken one. -/
def checkRules (T : Table) : Except ℕ Unit := do
  let (prev, n) ← T.checkTable T.entries (none, 0)
  if T.mlast ≠ prev then .error 1
  else if n ≠ T.nmounts then .error 2
  else
    let (npts, members) ← (List.range pgrpMountHash).foldlM
      (fun acc b => T.checkChain spoors b (T.chain b) acc) (0, 0)
    if npts ≠ T.npoints then .error 4
    else if members ≠ T.nmounts then .error 7
    else T.points.forM fun h => T.checkOrder h T.entries (T.first h)

/-- `territory_mount_check`: 0, or the first broken rule. -/
def territoryMountCheck (T : Table) : ℕ :=
  match T.checkRules spoors with
  | .ok () => 0
  | .error rule => rule

end Table

end Thylacine
