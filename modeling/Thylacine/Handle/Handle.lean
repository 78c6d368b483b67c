import Mathlib.Data.Finset.Basic
import Mathlib.Data.List.FinRange
import Thylacine.Kernel.Errno

/-!
# Handle Tables

`kernel/handle.c`: the tables of any number of Procs over one set of kernel objects. Every
function below is one hold of a table lock. What a call runs after the hold, the drop of a
descriptor and the release of a reference, is captured in `pending` and runs as a step of its
own, so that the calls of all Procs interleave at the holds.

`ref` is an object's own count of references and `fdRefs` a Spoor's count of descriptors. Two
fields are there for the reasoning only: `ext` counts the references that others hold (the caller
of `handle_alloc`, a mount, a registration, a lock call), and `given` lists what `handle_alloc`
and `handle_replace` were given.

`handle_table_free` takes no lock: no other thread reaches its table. It empties a slot only after
the drop and the release, which are steps of their own here too: `spent` marks the slot meanwhile.
Left out are the owners of POSIX locks, whose references are among `ext`, the diagnostic counters,
what the close hooks of a Dev do, and the status flags of an open file.
-/

namespace Thylacine

open Function (update)

/-- `PROC_HANDLE_MAX`. -/
def procHandleMax : ℕ := 1024

/-- `enum kobj_kind`, up to `KOBJ_KIND_COUNT`. -/
inductive KobjKind where
  | invalid
  | process
  | thread
  | burrow
  | spoor
  | mmio
  | irq
  | dma
  | interrupt
  | srv
  | loom
  | pci
  deriving DecidableEq, Repr

namespace KobjKind

/-- `kobj_kind_is_transferable`. -/
def isTransferable : KobjKind → Bool
  | process | thread | burrow | spoor => true
  | _ => false

/-- The kinds with a count that `handle_acquire_obj` and `handle_release_obj` move; a listener has
none. -/
def isCounted : KobjKind → Bool
  | burrow | mmio | irq | dma | spoor | loom | pci => true
  | _ => false

end KobjKind

/-- `RIGHT_ALL`. -/
def rightAll : UInt32 := 0x3f

/-- A live `struct Handle`. -/
structure Handle where
  kind : KobjKind
  rights : UInt32
  obj : Option ℕ
  deriving DecidableEq, Repr

/-- An object, by its kind and its address. -/
abbrev Kobj := KobjKind × ℕ

/-- A place in a table: the Proc and the index. -/
abbrev SlotId := ℕ × Fin procHandleMax

/-- What a hold has captured: `handle_fd_drop` if `fd` is set, then `handle_release_obj`. -/
structure Release where
  kind : KobjKind
  obj : Option ℕ
  fd : Bool
  /-- The slot that `handle_table_free` is at. -/
  slot : Option SlotId
  deriving DecidableEq, Repr

structure Handles where
  /-- The Procs with a table that make calls. -/
  procs : Finset ℕ
  /-- The Procs whose table `handle_table_free` is at. -/
  freeing : Finset ℕ
  slots : SlotId → Option Handle
  /-- A live slot whose descriptor and reference `handle_table_free` has begun to give back. -/
  spent : SlotId → Bool
  cloexec : SlotId → Bool
  ref : Kobj → ℕ
  fdRefs : ℕ → ℕ
  ext : Kobj → ℕ
  /-- The snapshots of `handle_get`. -/
  snaps : List Handle
  /-- The endowments of `handle_endow_spoor`. -/
  endowed : List Handle
  pending : List Release
  given : List (ℕ × Handle)
  /-- Whether a Spoor is one of devsrv (`dc == 's'`). -/
  devsrv : ℕ → Bool
  extinct : Bool

namespace Handles

/-- No tables and no objects. -/
def init (devsrv : ℕ → Bool) : Handles where
  procs := ∅
  freeing := ∅
  slots := fun _ => none
  spent := fun _ => false
  cloexec := fun _ => false
  ref := fun _ => 0
  fdRefs := fun _ => 0
  ext := fun _ => 0
  snaps := []
  endowed := []
  pending := []
  given := []
  devsrv := devsrv
  extinct := false

variable (s : Handles)

/-! ### References and descriptors -/

section

variable (kind : KobjKind) (obj : Option ℕ)

/-- `handle_acquire_obj`, with the strictest check: `loom_ref` has none, and `burrow_ref` accepts a
Burrow with mappings. -/
def acquireObj : Handles :=
  match obj with
  | none => s
  | some o =>
    if kind.isCounted then
      if s.ref (kind, o) = 0 then { s with extinct := true }
      else { s with ref := update s.ref (kind, o) (s.ref (kind, o) + 1) }
    else s

/-- `handle_release_obj`, with the checks of `spoor_clunk_rc`. -/
def releaseObj : Handles :=
  match obj with
  | none => s
  | some o =>
    if kind.isCounted then
      if s.ref (kind, o) = 0 then { s with extinct := true }
      else if kind = .spoor ∧ s.ref (kind, o) = 1 ∧ s.fdRefs o ≠ 0 then
        { s with extinct := true }
      else { s with ref := update s.ref (kind, o) (s.ref (kind, o) - 1) }
    else s

/-- `handle_fd_count`. -/
def fdCount : Handles :=
  match kind, obj with
  | .spoor, some o => { s with fdRefs := update s.fdRefs o (s.fdRefs o + 1) }
  | _, _ => s

/-- `handle_fd_drop`, checked as in `spoor_fd_drop`. -/
def fdDrop : Handles :=
  match kind, obj with
  | .spoor, some o =>
    if s.fdRefs o = 0 then { s with extinct := true }
    else { s with fdRefs := update s.fdRefs o (s.fdRefs o - 1) }
  | _, _ => s

end

/-! ### Slots -/

def setSlot (x : SlotId) (e : Option Handle) : Handles :=
  { s with slots := update s.slots x e }

/-- `cloexec_set_locked`. -/
def cloexecSetLocked (x : SlotId) (on : Bool) : Handles :=
  { s with cloexec := update s.cloexec x on }

/-- A release to be run after the hold. -/
def capture (r : Release) : Handles := { s with pending := r :: s.pending }

/-- The index of a `hidx_t`, if in range. -/
def hidx (h : ℤ) : Option (Fin procHandleMax) :=
  if hr : 0 ≤ h ∧ h < procHandleMax then some ⟨h.toNat, by omega⟩ else none

/-- `valid_alloc_args`. -/
def validAllocArgs (kind : KobjKind) (rights : UInt32) : Bool :=
  if kind = .invalid then false
  else if rights = 0 then false
  else if rights &&& ~~~rightAll ≠ 0 then false
  else true

/-- The scan of `handle_install_locked`: `n` slots from `i`. -/
def freeSlot (p : ℕ) : ℕ → ℕ → Option (Fin procHandleMax)
  | 0, _ => none
  | n + 1, i =>
    if hi : i < procHandleMax then
      if s.slots (p, ⟨i, hi⟩) = none then some ⟨i, hi⟩ else freeSlot p n (i + 1)
    else none

/-- `handle_install_locked`. -/
def handleInstallLocked (p : ℕ) (h : Handle) (start : ℤ) (cloexec : Bool) :
    Option (Fin procHandleMax) × Handles :=
  match s.freeSlot p procHandleMax start.toNat with
  | none => (none, s)
  | some i =>
    (some i, ((s.setSlot (p, i) (some h)).fdCount h.kind h.obj).cloexecSetLocked (p, i) cloexec)

/-- Does the caller of `handle_alloc` seem to hold the reference? -/
def accounted (h : Handle) : Bool :=
  match h.kind, h.obj with
  | .burrow, some o => decide (0 < s.ref (.burrow, o))
  | .loom, some o => decide (0 < s.ref (.loom, o))
  | _, _ => true

/-- `handle_alloc`. -/
def handleAlloc (p : ℕ) (h : Handle) : ℤ × Handles :=
  if validAllocArgs h.kind h.rights = false then (-1, s)
  else if s.accounted h = false then (-1, { s with extinct := true })
  else
    match s.handleInstallLocked p h 0 false with
    | (none, s) => (-1, s)
    | (some i, s) => (i.val, s)

/-- The caller's reference has become one of the table. -/
def handOver (p : ℕ) (h : Handle) : Handles :=
  { s with
    ext := match h.obj with
      | some o => update s.ext (h.kind, o) (s.ext (h.kind, o) - 1)
      | none => s.ext
    given := (p, h) :: s.given }

/-- `handle_close`, up to the unlock. -/
def handleClose (p : ℕ) (h : ℤ) : ℤ × Handles :=
  match hidx h with
  | none => (-1, s)
  | some i =>
    match s.slots (p, i) with
    | none => (-1, s)
    | some slot =>
      (0, ((s.setSlot (p, i) none).cloexecSetLocked (p, i) false).capture
        ⟨slot.kind, slot.obj, true, none⟩)

/-- `handle_replace`, up to the unlock. The close-on-exec bit stays. -/
def handleReplace (p : ℕ) (h : ℤ) (new : Handle) : ℤ × Handles :=
  match hidx h with
  | none => (-1, s)
  | some i =>
    if validAllocArgs new.kind new.rights = false then (-1, s)
    else if new.kind ≠ .spoor then (-1, s)
    else
      match s.slots (p, i) with
      | none => (-1, s)
      | some slot =>
        if slot.kind ≠ .spoor then (-1, s)
        else
          (0, ((s.setSlot (p, i) (some new)).fdCount new.kind new.obj).capture
            ⟨slot.kind, slot.obj, true, none⟩)

/-- `handle_get`: the snapshot joins `snaps`. -/
def handleGet (p : ℕ) (h : ℤ) : ℤ × Handles :=
  match hidx h with
  | none => (-1, s)
  | some i =>
    match s.slots (p, i) with
    | none => (-1, s)
    | some slot =>
      let s := s.acquireObj slot.kind slot.obj
      (0, { s with snaps := slot :: s.snaps })

/-- `handle_put`. -/
def handlePut (snap : Handle) : Handles :=
  { s with snaps := s.snaps.erase snap }.releaseObj snap.kind snap.obj

/-- `handle_endow_spoor`: the endowment joins `endowed`. -/
def handleEndowSpoor (p : ℕ) (h : ℤ) : ℤ × Handles :=
  match hidx h with
  | none => (-1, s)
  | some i =>
    match s.slots (p, i) with
    | none => (-1, s)
    | some slot =>
      if slot.kind ≠ .spoor then (-1, s)
      else
        let s := (s.acquireObj slot.kind slot.obj).fdCount slot.kind slot.obj
        (0, { s with endowed := slot :: s.endowed })

/-- `handle_endow_drop`. -/
def handleEndowDrop (e : Handle) : Handles :=
  { s with endowed := s.endowed.erase e }.capture ⟨e.kind, e.obj, true, none⟩

/-- A spawned child's thunk installs an endowment: `handle_alloc`, whose slot takes over the
reference, and `spoor_fd_drop`; the child runs no other thread. -/
def endowInstall (p : ℕ) (e : Handle) : ℤ × Handles :=
  let r := s.handleAlloc p e
  if r.1 < 0 then r
  else (r.1, { r.2 with endowed := r.2.endowed.erase e }.fdDrop e.kind e.obj)

/-! ### A second handle for an object -/

/-- `handle_slot_may_alias`. -/
def handleSlotMayAlias (h : Handle) : Bool :=
  if h.kind.isTransferable = false then false
  else
    match h.kind, h.obj with
    | .spoor, some o => !s.devsrv o
    | _, _ => true

/-- `handle_table_copy_into`, one turn of its loop. -/
def copySlot (dst src : ℕ) (acc : ℤ × Handles) (i : Fin procHandleMax) : ℤ × Handles :=
  match acc.2.slots (src, i) with
  | none => acc
  | some h =>
    if acc.2.handleSlotMayAlias h = false then acc
    else if acc.2.slots (dst, i) ≠ none then (acc.1, { acc.2 with extinct := true })
    else
      (acc.1 + 1, (((acc.2.acquireObj h.kind h.obj).setSlot (dst, i) (some h)).fdCount h.kind
          h.obj).cloexecSetLocked (dst, i) (acc.2.cloexec (src, i)))

/-- `handle_table_copy_into`. -/
def handleTableCopyInto (dst src : ℕ) : ℤ × Handles :=
  (List.finRange procHandleMax).foldl (copySlot dst src) (0, s)

/-- `handle_dup_common`; a full table releases its reference after the hold. -/
def handleDupCommon (p : ℕ) (h : ℤ) (newRights : Option UInt32) (minIdx : ℤ) (cloexec : Bool) :
    ℤ × Handles :=
  match hidx h with
  | none => (-tEBadf, s)
  | some i =>
    match s.slots (p, i) with
    | none => (-tEBadf, s)
    | some parent =>
      if minIdx < 0 ∨ procHandleMax ≤ minIdx then (-tEInval, s)
      else if s.handleSlotMayAlias parent = false then (-tEAcces, s)
      else
        -- no rights given means the rights of the parent
        let rights := newRights.getD parent.rights
        if rights &&& parent.rights ≠ rights then (-tEAcces, s)
        else if validAllocArgs parent.kind rights = false then (-tEAcces, s)
        else
          match (s.acquireObj parent.kind parent.obj).handleInstallLocked p
              ⟨parent.kind, rights, parent.obj⟩ minIdx cloexec with
          | (none, s) => (-tEMfile, s.capture ⟨parent.kind, parent.obj, false, none⟩)
          | (some child, s) => (child.val, s)

/-- The wrappers that report any error as `-1`. -/
def flat (r : ℤ × Handles) : ℤ × Handles := if r.1 < 0 then (-1, r.2) else r

section

variable (p : ℕ)

/-- `handle_dup`. -/
def handleDup (h : ℤ) (newRights : UInt32) : ℤ × Handles :=
  flat (s.handleDupCommon p h (some newRights) 0 false)

/-- `handle_dup_posix`. -/
def handleDupPosix (h minIdx : ℤ) (cloexec : Bool) : ℤ × Handles :=
  flat (s.handleDupCommon p h none minIdx cloexec)

/-- `handle_dup_to_checked`, up to the unlock. -/
def handleDupToChecked (old new : ℤ) (cloexec : Bool) : ℤ × Handles :=
  match hidx old, hidx new with
  | none, _ => (-tEBadf, s)
  | some _, none => (-tEBadf, s)
  | some i, some j =>
    if old = new then (-tEInval, s)
    else
      match s.slots (p, i) with
      | none => (-tEBadf, s)
      | some src =>
        if s.handleSlotMayAlias src = false then (-tEAcces, s)
        else
          let s' := (((s.acquireObj src.kind src.obj).setSlot (p, j) (some src)).fdCount
            src.kind src.obj).cloexecSetLocked (p, j) cloexec
          match s.slots (p, j) with
          | none => (new, s')
          | some dst => (new, s'.capture ⟨dst.kind, dst.obj, true, none⟩)

/-- `handle_dup_to`. -/
def handleDupTo (old new : ℤ) (cloexec : Bool) : ℤ × Handles :=
  flat (s.handleDupToChecked p old new cloexec)

/-- `handle_set_cloexec`. -/
def handleSetCloexec (h : ℤ) (on : Bool) : ℤ × Handles :=
  match hidx h with
  | none => (-1, s)
  | some i =>
    match s.slots (p, i) with
    | none => (-1, s)
    | some _ => (0, s.cloexecSetLocked (p, i) on)

/-! ### Close on exec, and the life of a table -/

/-- The hold of `handle_close_on_exec` clears the bits. -/
def cloexecTake : Handles :=
  { s with cloexec := fun x => if x.1 = p then false else s.cloexec x }

/-- The indices that `handle_close_on_exec` found set. -/
def flagged : List (Fin procHandleMax) :=
  (List.finRange procHandleMax).filter fun i => s.cloexec (p, i)

/-- One turn of the loop of `handle_close_on_exec`. -/
def closeFlagged (acc : ℤ × Handles) (i : Fin procHandleMax) : ℤ × Handles :=
  let r := acc.2.handleClose p i.val
  (if r.1 = 0 then acc.1 + 1 else acc.1, r.2)

/-- `handle_close_on_exec` by the only live thread: how many it closed. -/
def handleCloseOnExec : ℤ × Handles := (s.flagged p).foldl (closeFlagged p) (0, s.cloexecTake p)

/-- `handle_table_alloc`. -/
def handleTableAlloc : Handles :=
  { s with
    procs := insert p s.procs
    slots := fun x => if x.1 = p then none else s.slots x
    spent := fun x => if x.1 = p then false else s.spent x
    cloexec := fun x => if x.1 = p then false else s.cloexec x }

/-- The next step of `handle_table_free`: slots before the first live one are done. -/
def handleTableFree : Handles :=
  if p ∈ s.procs then { s with procs := s.procs.erase p, freeing := insert p s.freeing }
  else
    match (List.finRange procHandleMax).find? fun i => (s.slots (p, i)).isSome with
    | none =>
      -- `kfree`
      { s with
        freeing := s.freeing.erase p
        cloexec := fun x => if x.1 = p then false else s.cloexec x }
    | some i =>
      if s.spent (p, i) = false then
        match s.slots (p, i) with
        | none => s
        | some slot =>
          { s with spent := update s.spent (p, i) true }.capture
            ⟨slot.kind, slot.obj, true, some (p, i)⟩
      else if s.pending.any (·.slot = some (p, i)) then s
      else { s.setSlot (p, i) none with spent := update s.spent (p, i) false }

end

/-! ### The calls of all Procs -/

/-- A hold of a lock, a step of what was captured, or a move of others. -/
inductive Op where
  | tableAlloc (p : ℕ)
  | tableFree (p : ℕ)
  | alloc (p : ℕ) (h : Handle)
  | close (p : ℕ) (h : ℤ)
  | replace (p : ℕ) (h : ℤ) (new : Handle)
  | get (p : ℕ) (h : ℤ)
  | put (snap : Handle)
  | endow (p : ℕ) (h : ℤ)
  | endowDrop (e : Handle)
  | endowInstall (p : ℕ) (e : Handle)
  | dup (p : ℕ) (h : ℤ) (newRights : UInt32)
  | dupPosix (p : ℕ) (h minIdx : ℤ) (cloexec : Bool)
  | dupTo (p : ℕ) (old new : ℤ) (cloexec : Bool)
  | copyInto (dst src : ℕ)
  | setCloexec (p : ℕ) (h : ℤ) (on : Bool)
  | cloexecTake (p : ℕ)
  | fdDrop (r : Release)
  | release (r : Release)
  | create (o : Kobj)
  | extAcquire (o : Kobj)
  | extRelease (o : Kobj)

/-- `handle_fd_drop` of a captured release. -/
def runFdDrop (r : Release) : Handles :=
  { s with pending := { r with fd := false } :: s.pending.erase r }.fdDrop r.kind r.obj

/-- `handle_release_obj` of a captured release. -/
def runRelease (r : Release) : Handles :=
  { s with pending := s.pending.erase r }.releaseObj r.kind r.obj

/-- What a call returns, and the state after its hold. -/
def call : Op → ℤ × Handles
  | .tableAlloc p => (0, s.handleTableAlloc p)
  | .tableFree p => (0, s.handleTableFree p)
  | .alloc p h =>
    let r := s.handleAlloc p h
    if r.1 < 0 then r else (r.1, r.2.handOver p h)
  | .close p h => s.handleClose p h
  | .replace p h new =>
    let r := s.handleReplace p h new
    if r.1 < 0 then r else (r.1, r.2.handOver p new)
  | .get p h => s.handleGet p h
  | .put snap => (0, s.handlePut snap)
  | .endow p h => s.handleEndowSpoor p h
  | .endowDrop e => (0, s.handleEndowDrop e)
  | .endowInstall p e => s.endowInstall p e
  | .dup p h newRights => s.handleDup p h newRights
  | .dupPosix p h minIdx cloexec => s.handleDupPosix p h minIdx cloexec
  | .dupTo p old new cloexec => s.handleDupTo p old new cloexec
  | .copyInto dst src => s.handleTableCopyInto dst src
  | .setCloexec p h on => s.handleSetCloexec p h on
  | .cloexecTake p => (0, s.cloexecTake p)
  | .fdDrop r => (0, s.runFdDrop r)
  | .release r => (0, s.runRelease r)
  | .create o => (0, { s with ref := update s.ref o 1, ext := update s.ext o 1 })
  | .extAcquire o => (0, { s with ext := update s.ext o (s.ext o + 1) }.acquireObj o.1 (some o.2))
  | .extRelease o => (0, { s with ext := update s.ext o (s.ext o - 1) }.releaseObj o.1 (some o.2))

/-- Does the caller hold a reference on a handle's object? -/
def Holds (h : Handle) : Prop := ∀ o, h.obj = some o → h.kind.isCounted → 0 < s.ext (h.kind, o)

/-- What the callers promise: the Proc of a call has a table; the object of `handle_alloc` and
`handle_replace` comes with a reference; a fork copies into a fresh table; and a put, drop or
release is of something taken or captured before. -/
def Allowed : Op → Prop
  | .tableAlloc p => p ∉ s.procs ∧ p ∉ s.freeing
  | .tableFree p => p ∈ s.procs ∨ p ∈ s.freeing
  | .close p _ | .get p _ | .endow p _ | .dup p _ _ | .dupPosix p _ _ _ | .dupTo p _ _ _
  | .setCloexec p _ _ | .cloexecTake p => p ∈ s.procs
  | .alloc p h | .replace p _ h => p ∈ s.procs ∧ s.Holds h
  | .put snap => snap ∈ s.snaps
  | .endowDrop e => e ∈ s.endowed
  | .endowInstall p e => p ∈ s.procs ∧ e ∈ s.endowed
  | .copyInto dst src =>
    dst ∈ s.procs ∧ src ∈ s.procs ∧ dst ≠ src ∧
      ∀ i, s.slots (dst, i) = none ∧ s.cloexec (dst, i) = false
  | .fdDrop r => r ∈ s.pending ∧ r.fd = true
  | .release r => r ∈ s.pending ∧ r.fd = false
  | .create o => o.1.isCounted ∧ s.ref o = 0
  | .extAcquire o => o.1.isCounted ∧ 0 < s.ref o
  | .extRelease o => o.1.isCounted ∧ 0 < s.ext o

/-- The states of all interleavings, from no tables. -/
inductive Reachable : Handles → Prop
  | init (devsrv : ℕ → Bool) : Reachable (init devsrv)
  | call {s : Handles} (h : Reachable s) (op : Op) (hop : s.Allowed op) : Reachable (s.call op).2

end Handles

end Thylacine
