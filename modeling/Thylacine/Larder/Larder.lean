import Mathlib.Algebra.Group.Nat.Defs
import Thylacine.Lib.ClockTable
import Thylacine.Lib.SeqLog

/-!
# The 9P File Cache

The cache of a 9P client: attributes of files, bindings of names in directories, and pages of file
content, in three tables under one lock. Every call below is one critical section.

A fill is guarded against the race with an invalidation. It takes the sequence number `gen`
before it asks the server, and its install is skipped if an invalidation named the file (for a
name binding: the directory) since then. The last `larderInvalRing` invalidations are
remembered; a wider window counts as named.
-/

namespace Thylacine

open ClockTable SeqLog

def larderAttrEntries : ℕ := 4096
def larderDentryEntries : ℕ := 4096
def larderDentryNameMax : ℕ := 88
def larderPageEntries : ℕ := 32768
def larderPageSize : ℕ := 4096
def larderInvalRing : ℕ := 128

/-- The record of a file's metadata. -/
structure Stat where
  size : ℕ
  qidPath : UInt64
  atimeSec : ℕ
  mtimeSec : ℕ
  ctimeSec : ℕ
  mode : ℕ
  nlink : ℕ
  qidVers : ℕ
  qidType : ℕ
  blksize : ℕ
  blocks : ℕ
  uid : ℕ
  gid : ℕ
  devno : ℕ
  deriving DecidableEq, Inhabited

/-- What a permission check reads. -/
def Stat.perm (st : Stat) : ℕ × ℕ × ℕ := (st.mode, st.uid, st.gid)

/-- A component of a path. -/
abbrev Name := List UInt8

/-- Fetched attributes; `permOnly` once only mode, owner and group are current. -/
structure AttrEnt where
  cvers : ℕ
  permOnly : Bool
  gen : Option ℕ
  attr : Stat
  deriving Inhabited

/-- A name's binding: the child, or that there is none. -/
structure DentryEnt where
  child : UInt64
  negative : Bool
  deriving Inhabited

/-- The start of a page; `buffer` once the slot has memory. -/
structure PageEnt where
  cvers : ℕ
  own : Bool
  buffer : Bool
  bytes : List UInt8
  deriving Inhabited

/-! ### The indexes -/

/-- Double `nb` until it is at least `n`. -/
def pow2From (n : ℕ) : ℕ → ℕ → ℕ
  | 0, nb => nb
  | fuel + 1, nb => if nb < n then pow2From n fuel (2 * nb) else nb

def nbuckets (cap : ℕ) : ℕ := pow2From (cap * 2) 32 1

def larderBucket2 (nbuckets : ℕ) (a b : UInt64) : ℕ :=
  let h := (a + 0x9E3779B97F4A7C15) * 0xBF58476D1CE4E5B9
  let h := h ^^^ (b + 0x94D049BB133111EB)
  let h := h * 0xBF58476D1CE4E5B9
  ((h >>> 33) &&& (UInt64.ofNat nbuckets - 1)).toNat

def dentryNameHash (name : Name) : UInt64 :=
  name.foldl (fun h c => (h ^^^ c.toUInt64) * 0x100000001b3) 0xcbf29ce484222325

def attrShape : Shape Unit UInt64 where
  cap := larderAttrEntries
  bucket _ q := larderBucket2 (nbuckets larderAttrEntries) q 0
  main := ()

def dentryShape : Shape Unit (UInt64 × Name) where
  cap := larderDentryEntries
  bucket _ k := larderBucket2 (nbuckets larderDentryEntries) k.1 (dentryNameHash k.2)
  main := ()

/-- Pages are found by file and index, or all of a file. -/
inductive PageIndex where
  | byPage
  | byFile

def pageBucket : PageIndex → UInt64 × ℕ → ℕ
  | .byPage, k => larderBucket2 (nbuckets larderPageEntries) k.1 (UInt64.ofNat k.2)
  | .byFile, k => larderBucket2 (nbuckets larderPageEntries) k.1 0

def pageShape : Shape PageIndex (UInt64 × ℕ) where
  cap := larderPageEntries
  bucket := pageBucket
  main := .byPage

/-- The ring of invalidations and its 64-bit counter. -/
def invalShape : SeqLog.Shape := ⟨larderInvalRing, 2 ^ 64⟩

structure Larder where
  log : Log UInt64
  epoch : ℕ
  attr : Table Unit UInt64 AttrEnt
  dentry : Table Unit (UInt64 × Name) DentryEnt
  page : Table PageIndex (UInt64 × ℕ) PageEnt

/-- The answer of a serve; a miss has the sequence number for the fill. -/
inductive Served (α : Type) where
  | refused
  | miss (seq0 : ℕ)
  | hit (a : α)

namespace Larder

def init : Larder where
  log := ⟨0, fun _ => 0⟩
  epoch := 0
  attr := .blank false
  dentry := .blank false
  page := .blank false

section

variable (l : Larder)

def gen : ℕ := l.log.gen

def invalLog (q : UInt64) : Larder := { l with log := l.log.push invalShape q }

def invalHits (seq0 : ℕ) (q : UInt64) : Bool := l.log.hits invalShape seq0 q

def genSnapshot : ℕ := l.gen

/-! ### Attributes -/

def attrFind (q : UInt64) : Option ℕ := l.attr.find attrShape l.epoch q

def attrServe (q : UInt64) : Larder × Served Stat :=
  match l.attrFind q with
  | none => (l, .miss l.gen)
  | some i =>
    -- The size and times of such an entry are stale.
    if (l.attr.slots i).val.permOnly then (l, .miss l.gen)
    else ({ l with attr := l.attr.touch i }, .hit (l.attr.slots i).val.attr)

def attrInstall (seq0 : ℕ) (q : UInt64) (cvers : ℕ) (attr : Stat) (gen : Option ℕ) (oom : Bool) :
    Larder :=
  if l.invalHits seq0 q then l
  else
    match l.attr.ensure oom with
    | none => l
    | some t =>
      let slot := t.installSlot attrShape l.epoch q
      { l with attr := slot.2.put slot.1 l.epoch ⟨cvers, false, gen, attr⟩ }

def attrInvalidate (q : UInt64) : Larder :=
  { l.invalLog q with attr := l.attr.dropKey attrShape l.epoch q }

def attrDowngrade (q : UInt64) : Larder :=
  match l.attrFind q with
  | none => l.invalLog q
  | some i =>
    if (l.attr.slots i).val.permOnly then l.invalLog q
    else
      { l.invalLog q with
        attr := l.attr.setVal i { (l.attr.slots i).val with permOnly := true } }

end

/-! ### Names -/

/-- Is a name short enough to be cached? -/
def cacheable (name : Name) : Bool := name.length != 0 && name.length ≤ larderDentryNameMax

def dentryFind (l : Larder) (parent : UInt64) (name : Name) : Option ℕ :=
  if cacheable name then l.dentry.find dentryShape l.epoch (parent, name) else none

def dentryInstall (l : Larder) (seq0 : ℕ) (parent : UInt64) (name : Name) (child : UInt64)
    (negative : Bool) (oom : Bool) : Larder :=
  if !cacheable name then l
  else if l.invalHits seq0 parent then l
  else
    match l.dentry.ensure oom with
    | none => l
    | some t =>
      let slot := t.installSlot dentryShape l.epoch (parent, name)
      { l with
        dentry := slot.2.put slot.1 l.epoch ⟨if negative then 0 else child, negative⟩ }

def dentryInvalidateName (l : Larder) (parent : UInt64) (name : Name) : Larder :=
  if cacheable name then
    { l.invalLog parent with dentry := l.dentry.dropKey dentryShape l.epoch (parent, name) }
  else l.invalLog parent

/-- What a walk is served: the resolved components' attributes, whether the next is known not to
exist, and whether the last one's permissions alone are current. -/
structure WalkReply where
  sts : List Stat
  isMiss : Bool
  leafPermOnly : Bool
  deriving DecidableEq

/-- The components of a walk from `cur`; `leafOk` accepts a last one with permissions only. -/
def walkFrom (leafOk : Bool) : Larder → UInt64 → List Name → Larder × Option WalkReply
  | l, _, [] => (l, some ⟨[], false, false⟩)
  | l, cur, name :: rest =>
    match l.dentryFind cur name with
    | none => (l, none)
    | some d =>
      if (l.dentry.slots d).val.negative then
        ({ l with dentry := l.dentry.touch d }, some ⟨[], true, false⟩)
      else
        match l.attrFind (l.dentry.slots d).val.child with
        | none => (l, none)
        | some a =>
          if (l.attr.slots a).val.permOnly && rest.isEmpty && !leafOk then (l, none)
          else
            let next := walkFrom leafOk
              { l with attr := l.attr.touch a, dentry := l.dentry.touch d }
              (l.dentry.slots d).val.child rest
            (next.1, next.2.map fun r =>
              ⟨(l.attr.slots a).val.attr :: r.sts, r.isMiss,
                if rest.isEmpty then (l.attr.slots a).val.permOnly else r.leafPermOnly⟩)

section

variable (l : Larder)

def walkServe (base : UInt64) (names : List Name) (leafOk : Bool) : Larder × Option WalkReply :=
  if names.isEmpty then (l, none) else walkFrom leafOk l base names

/-! ### Pages -/

def pageFind (q : UInt64) (idx : ℕ) : Option ℕ := l.page.find pageShape l.epoch (q, idx)

def pageServe (q : UInt64) (idx pageOff want wantCvers : ℕ) : Larder × Served (List UInt8) :=
  if want = 0 then (l, .refused)
  else
    match l.pageFind q idx with
    | none => (l, .miss l.gen)
    | some i =>
      let e := (l.page.slots i).val
      if (e.cvers == wantCvers || e.own) && pageOff < e.bytes.length then
        ({ l with page := l.page.touch i }, .hit ((e.bytes.drop pageOff).take want))
      else (l, .miss l.gen)

def pageInstall (seq0 : ℕ) (q : UInt64) (idx cvers : ℕ) (data : List UInt8)
    (oomArray oomBuffer : Bool) : Larder :=
  if l.invalHits seq0 q then l
  else
    match l.page.ensure oomArray with
    | none => l
    | some t =>
      let slot := t.installSlot pageShape l.epoch (q, idx)
      if !(slot.2.slots slot.1).val.buffer && oomBuffer then
        { l with page := slot.2.unlink pageShape slot.1 }
      else
        { l with
          page := slot.2.put slot.1 l.epoch
            { cvers, own := false, buffer := true, bytes := data.take larderPageSize } }

/-- The slots that an invalidation of a file's pages `p` visits. -/
def pageDrop (q : UInt64) (p : ℕ → Bool) : Table PageIndex (UInt64 × ℕ) PageEnt :=
  l.page.dropMatching pageShape (fun k => k.1 == q && p k.2)
    (l.page.chains .byFile (pageBucket .byFile (q, 0)))

def pageInvalidate (q : UInt64) : Larder :=
  { l.invalLog q with page := l.pageDrop q fun _ => true }

def pageInvalidateRange (q : UInt64) (first last : ℕ) : Larder :=
  { l.invalLog q with page := l.pageDrop q fun idx => first ≤ idx && idx ≤ last }

end

/-- The `n` pages from index `i`: the piece of each that `[0, size)` needs. -/
def pagesCover (q : UInt64) (cvers size : ℕ) : Larder → ℕ → ℕ → Larder × Option (List (List UInt8))
  | l, _, 0 => (l, some [])
  | l, i, n + 1 =>
    match l.pageFind q i with
    | none => (l, none)
    | some s =>
      let e := (l.page.slots s).val
      let need := min larderPageSize (size - i * larderPageSize)
      if e.cvers != cvers && !e.own then (l, none)
      else if e.bytes.length < need then (l, none)
      else
        let next := pagesCover q cvers size { l with page := l.page.touch s } (i + 1) n
        (next.1, next.2.map (e.bytes.take need :: ·))

/-- The pages of a file of `size` bytes, in 64 bits. -/
def npages (size : ℕ) : ℕ := (size + larderPageSize - 1) % 2 ^ 64 / larderPageSize

def pagesSnapshot (l : Larder) (q : UInt64) (cvers size seq0 : ℕ) :
    Larder × Option (List (List UInt8)) :=
  if l.invalHits seq0 q then (l, none) else pagesCover q cvers size l 0 (npages size)

/-! ### Forgetting -/

def forgetAll (l : Larder) : Larder :=
  { l with log := l.log.skip invalShape, epoch := (l.epoch + 1) % 2 ^ 64 }

end Larder

end Thylacine
