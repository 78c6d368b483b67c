import Thylacine.Vma.Vma

/-!
# Operations on a Range of Addresses

The range operations of `kernel/vma.c`: detach, replace, reprotect, extension and drain. Each
first decides its refusals and allocates, then changes the list. A loop over mappings that are
unlinked on the way follows the pointers, for at most one step more than there can be mappings.
-/

namespace Thylacine

open DoublyLinked Word

namespace AddrSpace

/-- The loops follow this many pointers at most. -/
def loopFuel : ℕ := vmaSlots + 1

/-- A new mapping with prot, flags and Burrow of `v`. -/
def allocLike (s : AddrSpace) (pick : Option VmaRef) (v : VmaRef)
    (vaddrStart vaddrEnd burrowOffset : UInt64) : Option (AddrSpace × Option VmaRef) :=
  let m := s.vma v
  (s.vmaAlloc pick vaddrStart vaddrEnd m.prot m.burrow burrowOffset).map fun (s, piece) =>
    match piece with
    | none => (s, none)
    | some p => (s.setVma p { s.vma p with flags := m.flags }, some p)

/-- After the headroom check a refused insert is an extinction. -/
def mustInsert (s : AddrSpace) (exempt : Bool) (v : VmaRef) : Option AddrSpace :=
  (s.vmaInsertIn exempt v).bind fun (s, rc) => if rc = 0 then some s else none

/-! ### Detach -/

/-- PHASE 1 of a detach: the range's last mapping, and how many lie in it whole. -/
def detachScan (s : AddrSpace) (vaddr vend : UInt64) :
    List VmaRef → VmaRef → UInt32 → Except ℤ (VmaRef × UInt32)
  | [], last, wholeN => .ok (last, wholeN)
  | v :: vs, _, wholeN =>
    let m := s.vma v
    let whole := vaddr ≤ m.vaddrStart ∧ m.vaddrEnd ≤ vend
    if m.burrow.map (fun b => (s.burrows b).type) = some .code then .error (-tEAcces)
    else if m.flags &&& vmaFlagSharedIn ≠ 0 ∧ ¬whole then .error (-tEAcces)
    else detachScan s vaddr vend vs v (if whole then wholeN + 1 else wholeN)

/-- The tail of `v` from `vend`, for a range strictly inside. -/
def detachPiece (s : AddrSpace) (pick : Option VmaRef) (v : VmaRef) (vend : UInt64) :
    Option (AddrSpace × Option VmaRef) :=
  let m := s.vma v
  match m.burrow with
  | some _ => s.allocLike pick v vend m.vaddrEnd (m.burrowOffset + (vend - m.vaddrStart))
  | none =>
    match s.vmaAllocGuard pick vend m.vaddrEnd with
    | (s, none) => some (s, none)
    | (s, some p) => some (s.setVma p { s.vma p with flags := m.flags }, some p)

/-- PHASE 3 of a detach: a mapping goes, is trimmed, or its tail goes into `piece`. -/
def detachOne (s : AddrSpace) (exempt : Bool) (vaddr vend : UInt64) (piece : Option VmaRef)
    (v : VmaRef) : Option (AddrSpace × Option VmaRef × Option BurrowRef) :=
  let m := s.vma v
  let lo := if vaddr < m.vaddrStart then m.vaddrStart else vaddr
  let hi := if m.vaddrEnd < vend then m.vaddrEnd else vend
  if lo = m.vaddrStart ∧ hi = m.vaddrEnd then
    (s.vmaRemoveIn v).bind fun s => (s.vmaFree v).map fun (s, dead) => (s, piece, dead)
  else if lo = m.vaddrStart then
    some (s.setVma v { m with
      vaddrStart := hi
      burrowOffset := m.burrowOffset + (hi - m.vaddrStart) }, piece, none)
  else if hi = m.vaddrEnd then some (s.setVma v { m with vaddrEnd := lo }, piece, none)
  else
    -- strictly inside
    piece.bind fun p =>
      ((s.setVma v { m with vaddrEnd := lo }).mustInsert exempt p).map fun s => (s, none, none)

/-- PHASE 3 of a detach. The successor is read before the free. -/
def detachLoop (exempt : Bool) (vaddr vend : UInt64) :
    ℕ → AddrSpace → Option VmaRef → Option VmaRef → List BurrowRef →
      Option (AddrSpace × List BurrowRef)
  | 0, _, _, _, _ => none
  | _ + 1, s, none, _, dead => some (s, dead)
  | fuel + 1, s, some v, piece, dead =>
    if vend ≤ (s.vma v).vaddrStart then some (s, dead)
    else
      let nx := s.next v
      (s.detachOne exempt vaddr vend piece v).bind fun (s, piece, d) =>
        detachLoop exempt vaddr vend fuel s nx piece (d.toList ++ dead)

/-- A call's range is well formed, and does not wrap around. -/
def RangeOk (vaddr length : UInt64) : Prop :=
  length ≠ 0 ∧ Aligned vaddr ∧ Aligned length ∧ vaddr ≤ vaddr + length

instance (vaddr length : UInt64) : Decidable (RangeOk vaddr length) :=
  inferInstanceAs (Decidable (_ ∧ _))

/-- The range is strictly inside the one mapping it meets. -/
def Middle (s : AddrSpace) (first last : VmaRef) (vaddr vend : UInt64) : Prop :=
  first = last ∧ (s.vma first).vaddrStart < vaddr ∧ vend < (s.vma first).vaddrEnd

instance (s : AddrSpace) (first last : VmaRef) (vaddr vend : UInt64) :
    Decidable (s.Middle first last vaddr vend) :=
  inferInstanceAs (Decidable (_ ∧ _))

/-- A detach not refused: the tail piece, if any, is allocated, the mappings released and re-shaped. -/
def detachCommit (s : AddrSpace) (exempt : Bool) (pick : Option VmaRef) (first last : VmaRef)
    (vaddr vend : UInt64) : Option (AddrSpace × ℤ × List BurrowRef) :=
  if s.Middle first last vaddr vend then
    (s.detachPiece pick first vend).bind fun (s, piece) =>
      match piece with
      | none => some (s, -tENomem, [])
      | some p =>
        (detachLoop exempt vaddr vend loopFuel s (some first) (some p) []).map
          fun (s, dead) => (s, 0, dead)
  else
    (detachLoop exempt vaddr vend loopFuel s (some first) none []).map fun (s, dead) => (s, 0, dead)

/-- `vma_detach_range_in`: the code, and the Burrows whose last mapping went. -/
def vmaDetachRangeIn (s : AddrSpace) (exempt : Bool) (pick : Option VmaRef)
    (vaddr length : UInt64) (extraVmas : UInt32) : Option (AddrSpace × ℤ × List BurrowRef) :=
  let vend := vaddr + length
  if ¬RangeOk vaddr length ∨ userVaTop < vend then some (s, -tEInval, [])
  else
    match s.vmaNextOverlapIn vaddr vend with
    | none => some (s, 0, [])
    | some first =>
      match s.detachScan vaddr vend (s.rangeVmas vaddr vend) first 0 with
      | .error e => some (s, e, [])
      | .ok (last, wholeN) =>
        if !exempt && procVmaMax < s.vmaCount - wholeN +
            (if s.Middle first last vaddr vend then 1 else 0) + extraVmas then
          some (s, -tENomem, [])
        else s.detachCommit exempt pick first last vaddr vend

/-- `vma_replace_range_in`. -/
def vmaReplaceRangeIn (s : AddrSpace) (exempt : Bool) (pick pickPiece : Option VmaRef)
    (vaddr length : UInt64) (nb : Option BurrowRef) (prot : UInt32) (nbOffset : UInt64) :
    Option (AddrSpace × ℤ × List BurrowRef) :=
  if nb = none ∨ ¬RangeOk vaddr length then some (s, -tEInval, [])
  else
    (s.vmaAlloc pick vaddr (vaddr + length) prot nb nbOffset).bind fun (s, nv) =>
      match nv with
      | none => some (s, -tENomem, [])
      | some nv =>
        (s.vmaDetachRangeIn exempt pickPiece vaddr length 1).bind fun (s, rc, dead) =>
          if rc ≠ 0 then
            (s.vmaFree nv).map fun (s, d) => (s, rc, d.toList ++ dead)
          else (s.mustInsert exempt nv).map fun s => (s, 0, dead)

/-! ### Reprotect -/

/-- `reprotect_admits`. -/
def reprotectAdmits : BurrowType → Bool
  | .anon => true
  | .anonLazy => true
  | .file => true
  | _ => false

/-- The precheck's loop: where the covered part ends. -/
def precheckWalk (s : AddrSpace) (prot : UInt32) : List VmaRef → UInt64 → Except ℤ UInt64
  | [], cur => .ok cur
  | v :: vs, cur =>
    let m := s.vma v
    if cur < m.vaddrStart then .error (-tENomem)
    else
      match m.burrow with
      | none => .error (-tENomem)
      | some b =>
        if m.flags &&& vmaFlagSharedIn ≠ 0 then .error (-tEAcces)
        else if !reprotectAdmits (s.burrows b).type then .error (-tEAcces)
        else if prot &&& ~~~(vmaProtMax m.flags) ≠ 0 then .error (-tEAcces)
        else precheckWalk s prot vs m.vaddrEnd

/-- `vma_reprotect_precheck_in`. -/
def vmaReprotectPrecheckIn (s : AddrSpace) (vaddr length : UInt64) (prot : UInt32) : ℤ :=
  let vend := vaddr + length
  if ¬RangeOk vaddr length then -tEInval
  else if prot &&& vmaProtExec ≠ 0 then -tEAcces
  else if prot &&& vmaProtWrite ≠ 0 ∧ prot &&& vmaProtRead = 0 then -tEInval
  else if prot &&& ~~~(vmaProtRead ||| vmaProtWrite) ≠ 0 then -tEInval
  else if s.vmaNextOverlapIn vaddr vend = none then -tENomem
  else
    match s.precheckWalk prot (s.rangeVmas vaddr vend) vaddr with
    | .error e => e
    | .ok cur => if cur < vend then -tENomem else 0

/-- `reprotect_mergeable`. -/
def reprotectMergeable (a b : Vma) : Prop :=
  a.burrow ≠ none ∧ b.burrow ≠ none ∧ a.burrow = b.burrow ∧ a.vaddrEnd = b.vaddrStart ∧
    a.prot = b.prot ∧ a.flags = b.flags ∧ a.flags &&& vmaFlagSharedIn = 0 ∧
    a.burrowOffset + (a.vaddrEnd - a.vaddrStart) = b.burrowOffset

instance (a b : Vma) : Decidable (reprotectMergeable a b) := inferInstanceAs (Decidable (_ ∧ _))

/-- The loop of `reprotect_merge_in`. -/
def mergeLoop (hi : UInt64) : ℕ → AddrSpace → VmaRef → Option AddrSpace
  | 0, _, _ => none
  | fuel + 1, s, a =>
    match s.next a with
    | none => some s
    | some b =>
      if hi ≤ (s.vma a).vaddrStart then some s
      else if ¬reprotectMergeable (s.vma a) (s.vma b) then mergeLoop hi fuel s b
      else
        let s := s.setVma a { s.vma a with vaddrEnd := (s.vma b).vaddrEnd }
        (s.vmaRemoveIn b).bind fun s =>
          (s.vmaFree b).bind fun (s, dead) =>
            -- the neighbour still maps the Burrow, or it is an extinction
            if dead = none then mergeLoop hi fuel s a else none

/-- `reprotect_merge_in`. -/
def reprotectMergeIn (s : AddrSpace) (lo hi : UInt64) : Option AddrSpace :=
  match s.vmaNextOverlapIn lo hi with
  | none => some s
  | some v => mergeLoop hi loopFuel s ((s.prev v).getD v)

/-- `vma_reprotect_is_noop_in`. -/
def vmaReprotectIsNoopIn (s : AddrSpace) (vaddr length : UInt64) (prot : UInt32) (sealed : Bool) :
    Bool :=
  (s.rangeVmas vaddr (vaddr + length)).all fun v =>
    (s.vma v).prot == prot && (!sealed || vmaProtMax (s.vma v).flags == prot)

/-- What a reprotect writes to a mapping of the range. -/
def reprotected (prot : UInt32) (sealed : Bool) (m : Vma) : Vma :=
  { m with prot := prot, flags := if sealed then vmaSetProtMax m.flags prot else m.flags }

section

variable (s : AddrSpace)

/-- The pieces that a reprotect cuts off, allocated before the list is touched; `none` if the slab
has no room. -/
def reprotectPieces (pickL pickR : Option VmaRef) (first last : VmaRef) (vaddr vend : UInt64) :
    Option (AddrSpace × Option (Option VmaRef × Option VmaRef)) :=
  let f := s.vma first
  let l := s.vma last
  let left : Option (AddrSpace × Option (Option VmaRef)) :=
    if f.vaddrStart < vaddr then
      (s.allocLike pickL first f.vaddrStart vaddr f.burrowOffset).map fun (s, p) => (s, p.map some)
    else some (s, some none)
  left.bind fun (s, lpiece) =>
    match lpiece with
    | none => some (s, none)
    | some lpiece =>
      if vend < l.vaddrEnd then
        (s.allocLike pickR last vend l.vaddrEnd (l.burrowOffset + (vend - l.vaddrStart))).bind
          fun (s, p) =>
            match p with
            | some p => some (s, some (lpiece, some p))
            | none =>
              match lpiece with
              | none => some (s, none)
              | some lp => (s.vmaFree lp).map fun (s, _) => (s, none)
      else some (s, some (lpiece, none))

/-- `vma_free` of a piece, if there is one. -/
def freePiece (piece : Option VmaRef) : Option AddrSpace :=
  match piece with
  | none => some s
  | some p => (s.vmaFree p).map Prod.fst

/-- The insert of a piece, if any; whether not refused. -/
def insertPiece (exempt : Bool) (piece : Option VmaRef) : Option (AddrSpace × Bool) :=
  match piece with
  | none => some (s, true)
  | some p => (s.vmaInsertIn exempt p).map fun (s, rc) => (s, rc == 0)

/-- The first and the last mapping shrink to the range. -/
def reprotectShrink (first last : VmaRef) (vaddr vend : UInt64) : AddrSpace :=
  let f := s.vma first
  let s := if f.vaddrStart < vaddr then
      s.setVma first { f with
        vaddrStart := vaddr
        burrowOffset := f.burrowOffset + (vaddr - f.vaddrStart) }
    else s
  let l := s.vma last
  if vend < l.vaddrEnd then s.setVma last { l with vaddrEnd := vend } else s

/-- The originals get back the ranges they had in `old`. -/
def reprotectRollback (lpiece rpiece : Option VmaRef) (first last : VmaRef) (old : AddrSpace) :
    Option (AddrSpace × ℤ) :=
  (s.freePiece lpiece).bind fun s =>
    (s.freePiece rpiece).map fun s =>
      let s := s.setVma first { s.vma first with
        vaddrStart := (old.vma first).vaddrStart
        burrowOffset := (old.vma first).burrowOffset }
      (s.setVma last { s.vma last with vaddrEnd := (old.vma last).vaddrEnd }, -tENomem)

/-- The new prot, for the mappings of the range. -/
def reprotectApply (vaddr vend : UInt64) (prot : UInt32) (sealed : Bool) : AddrSpace :=
  (s.rangeVmas vaddr vend).foldl (fun s v => s.setVma v (reprotected prot sealed (s.vma v))) s

/-- A reprotect changes the list, with its pieces there. -/
def reprotectCut (exempt : Bool) (lpiece rpiece : Option VmaRef) (first last : VmaRef)
    (vaddr vend : UInt64) (prot : UInt32) (sealed : Bool) :
    Option (AddrSpace × ℤ) :=
  let old := s
  ((s.reprotectShrink first last vaddr vend).insertPiece exempt lpiece).bind fun (s, ok) =>
    if !ok then s.reprotectRollback lpiece rpiece first last old
    else
      (s.insertPiece exempt rpiece).bind fun (s, ok) =>
        if !ok then
          match lpiece with
          | none => s.reprotectRollback lpiece rpiece first last old
          | some lp =>
            (s.vmaRemoveIn lp).bind fun s => s.reprotectRollback lpiece rpiece first last old
        else
          ((s.reprotectApply vaddr vend prot sealed).reprotectMergeIn vaddr vend).map
            fun s => (s, 0)

/-- `vma_reprotect_range_in`. -/
def vmaReprotectRangeIn (exempt : Bool) (pickL pickR : Option VmaRef) (vaddr length : UInt64)
    (prot : UInt32) (sealed : Bool) : Option (AddrSpace × ℤ) :=
  let rc := s.vmaReprotectPrecheckIn vaddr length prot
  let vend := vaddr + length
  if rc ≠ 0 then some (s, rc)
  else if s.vmaReprotectIsNoopIn vaddr length prot sealed then some (s, 0)
  else
    (s.vmaNextOverlapIn vaddr vend).bind fun first =>
      let last := (s.rangeVmas vaddr vend).getLastD first
      (s.reprotectPieces pickL pickR first last vaddr vend).bind fun (s, pieces) =>
        match pieces with
        | none => some (s, -tENomem)
        | some (lpiece, rpiece) =>
          let adding : UInt32 := (if lpiece.isSome then 1 else 0) + (if rpiece.isSome then 1 else 0)
          if !exempt && adding != 0 && procVmaMax - adding < s.vmaCount then
            (s.freePiece lpiece).bind fun s => (s.freePiece rpiece).map fun s => (s, -tENomem)
          else s.reprotectCut exempt lpiece rpiece first last vaddr vend prot sealed

/-! ### Extension -/

/-- `extend_admits`. -/
def extendAdmits (v : VmaRef) (prot : UInt32) (winLo winHi : UInt64) : Prop :=
  let m := s.vma v
  m.burrow.map (fun b => (s.burrows b).type) = some .anonLazy ∧ m.prot = prot ∧
    m.flags = vmaProtRw <<< vmaFlagMaxShift ∧ winLo ≤ m.vaddrStart ∧ m.vaddrEnd ≤ winHi

end

instance (s : AddrSpace) (v : VmaRef) (prot : UInt32) (winLo winHi : UInt64) :
    Decidable (s.extendAdmits v prot winLo winHi) :=
  inferInstanceAs (Decidable (_ ∧ _))

/-- `mappings_here`. -/
def mappingsHere (s : AddrSpace) (b : BurrowRef) : ℕ :=
  s.list.countP fun v => (s.vma v).burrow = some b

/-- `SIZE_MAX / PAGE_SIZE`. -/
def maxPages : ℕ := 2 ^ 52 - 1

/-- `burrow_lazy_extend`, or a refusal; `grows`: can the pagemap grow? -/
def burrowLazyExtend (s : AddrSpace) (grows : Bool) (b : BurrowRef) (mapsHere first n : ℕ) :
    Option AddrSpace :=
  let w := s.burrows b
  if n = 0 ∨ w.type ≠ .anonLazy then none
  else if h : maxPages < n ∨ maxPages - n < first then none
  else if w.handleCount ≠ 0 ∨ w.mappingCount ≠ mapsHere ∨ w.lazyMultiBias then none
  else if first + n ≤ w.pageCount then some s
  else if grows then
    some (s.setBurrow b { w with
      pageCount := first + n
      fits := by
        unfold maxPages at h
        unfold pageBytes
        omega })
  else none

/-- The walk of `vma_extend_anon_in`: the last mapping starting below `vaddr`, and the next. -/
def extendWalk (s : AddrSpace) (vaddr : UInt64) :
    List VmaRef → Option VmaRef → Option VmaRef × Option VmaRef
  | [], prev => (prev, none)
  | v :: vs, prev =>
    if (s.vma v).vaddrStart < vaddr then extendWalk s vaddr vs (some v) else (prev, some v)

/-- The predecessor grows forward. -/
def extendPrev (s : AddrSpace) (grows : Bool) (prev : Option VmaRef) (vaddr length : UInt64)
    (prot : UInt32) (winLo winHi : UInt64) : Option AddrSpace :=
  prev.bind fun v =>
    let m := s.vma v
    if m.vaddrEnd = vaddr ∧ s.extendAdmits v prot winLo winHi then
      m.burrow.bind fun b =>
        let off := m.burrowOffset + (m.vaddrEnd - m.vaddrStart)
        (s.burrowLazyExtend grows b (s.mappingsHere b) (off.toNat / pageBytes)
          (length.toNat / pageBytes)).map fun s => s.setVma v { m with vaddrEnd := vaddr + length }
    else none

/-- The successor grows backward, into lower offsets. -/
def extendNext (s : AddrSpace) (grows : Bool) (next : Option VmaRef) (vaddr length : UInt64)
    (prot : UInt32) (winLo winHi : UInt64) : Option AddrSpace :=
  next.bind fun v =>
    let m := s.vma v
    if m.vaddrStart = vaddr + length ∧ s.extendAdmits v prot winLo winHi ∧
        length ≤ m.burrowOffset then
      m.burrow.bind fun b =>
        let off := m.burrowOffset - length
        (s.burrowLazyExtend grows b (s.mappingsHere b) (off.toNat / pageBytes)
          (length.toNat / pageBytes)).map fun s =>
            s.setVma v { m with burrowOffset := off, vaddrStart := vaddr }
    else none

/-- `vma_extend_anon_in`. -/
def vmaExtendAnonIn (s : AddrSpace) (growsPrev growsNext : Bool) (vaddr length : UInt64)
    (prot : UInt32) (winLo winHi : UInt64) : Option (AddrSpace × ℤ) :=
  let vend := vaddr + length
  if ¬RangeOk vaddr length ∨ vaddr < winLo ∨ winHi < vend then some (s, -1)
  else
    let (prev, next) := s.extendWalk vaddr s.list none
    if prev.any (fun v => vaddr < (s.vma v).vaddrEnd) ∨
        next.any (fun v => (s.vma v).vaddrStart < vend) then some (s, -1)
    else
      match s.extendPrev growsPrev prev vaddr length prot winLo winHi with
      | some s => (s.reprotectMergeIn vaddr vend).map fun s => (s, 0)
      | none =>
        match s.extendNext growsNext next vaddr length prot winLo winHi with
        | some s => (s.reprotectMergeIn vaddr vend).map fun s => (s, 0)
        | none => some (s, -1)

/-! ### Drain -/

/-- The loop of `vma_drain_in`. -/
def drainLoop : ℕ → AddrSpace → List BurrowRef → Option (AddrSpace × List BurrowRef)
  | 0, _, _ => none
  | fuel + 1, s, dead =>
    match s.vmas with
    | none => some (s, dead)
    | some v =>
      (s.vmaRemoveIn v).bind fun s =>
        (s.vmaFree v).bind fun (s, d) => drainLoop fuel s (d.toList ++ dead)

/-- `vma_drain_in`: the Burrows whose last mapping went. -/
def vmaDrainIn (s : AddrSpace) : Option (AddrSpace × List BurrowRef) := drainLoop loopFuel s []

end AddrSpace

end Thylacine
