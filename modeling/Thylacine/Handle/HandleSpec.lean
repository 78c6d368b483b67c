import Thylacine.Handle.Handle

/-!
# What a Handle Call Does

A call is refused and the state is as it was, or it does one thing to one slot: its `Outcome`. The
results on references and on rights are case analyses over the outcomes.
-/

namespace Thylacine

open Function (update)

namespace Handles

variable {s : Handles} {p dst src : ℕ} {h : Handle} {k : ℤ} {x : SlotId} {i : Fin procHandleMax}
  {r : ℤ × Handles}

/-- A call was refused, and nothing has happened. -/
def Refused (s : Handles) (r : ℤ × Handles) : Prop := r.1 < 0 ∧ r.2 = s

theorem Refused.one (s : Handles) : s.Refused (-1, s) := ⟨Int.neg_neg_of_pos Int.one_pos, rfl⟩

/-- Two states that differ only in counts. -/
structure SameTables (s s' : Handles) : Prop where
  procs : s'.procs = s.procs
  freeing : s'.freeing = s.freeing
  slots : s'.slots = s.slots
  cloexec : s'.cloexec = s.cloexec
  endowed : s'.endowed = s.endowed
  given : s'.given = s.given

theorem SameTables.trans {s s' s'' : Handles} (h : SameTables s s') (h' : SameTables s' s'') :
    SameTables s s'' where
  procs := h'.procs.trans h.procs
  freeing := h'.freeing.trans h.freeing
  slots := h'.slots.trans h.slots
  cloexec := h'.cloexec.trans h.cloexec
  endowed := h'.endowed.trans h.endowed
  given := h'.given.trans h.given

section

variable (s : Handles)

section

variable (kind : KobjKind) (obj : Option ℕ)

theorem acquireObj_same : SameTables s (s.acquireObj kind obj) := by
  unfold acquireObj
  repeat' split
  all_goals exact ⟨rfl, rfl, rfl, rfl, rfl, rfl⟩

theorem releaseObj_same : SameTables s (s.releaseObj kind obj) := by
  unfold releaseObj
  repeat' split
  all_goals exact ⟨rfl, rfl, rfl, rfl, rfl, rfl⟩

theorem fdCount_same : SameTables s (s.fdCount kind obj) := by
  unfold fdCount
  split
  all_goals exact ⟨rfl, rfl, rfl, rfl, rfl, rfl⟩

theorem fdDrop_same : SameTables s (s.fdDrop kind obj) := by
  unfold fdDrop
  repeat' split
  all_goals exact ⟨rfl, rfl, rfl, rfl, rfl, rfl⟩

end

/-- A handle put into a slot, with a reference that is there. -/
def placed (x : SlotId) (h : Handle) (cloexec : Bool) : Handles :=
  ((s.setSlot x (some h)).fdCount h.kind h.obj).cloexecSetLocked x cloexec

theorem placed_slots (x : SlotId) (h : Handle) (cloexec : Bool) :
    (s.placed x h cloexec).slots = update s.slots x (some h) :=
  (fdCount_same (s.setSlot x (some h)) h.kind h.obj).slots

end

/-- The release of the handle that a slot has held. -/
def leaving (h : Handle) : Release := ⟨h.kind, h.obj, true, none⟩

/-- A slot emptied. -/
def closed (s : Handles) (x : SlotId) (slot : Handle) : Handles :=
  ((s.setSlot x none).cloexecSetLocked x false).capture (leaving slot)

/-- An endowment has become a handle of the child. -/
def settled (s : Handles) (x : SlotId) (e : Handle) : Handles :=
  { s.placed x e false with endowed := (s.placed x e false).endowed.erase e }.fdDrop e.kind e.obj

section

variable (s : Handles)

/-- A Spoor in the place of a Spoor. -/
def replaced (x : SlotId) (new slot : Handle) : Handles :=
  ((s.setSlot x (some new)).fdCount new.kind new.obj).capture (leaving slot)

/-- A snapshot of a slot. -/
def snapped (slot : Handle) : Handles :=
  { s.acquireObj slot.kind slot.obj with
    snaps := slot :: (s.acquireObj slot.kind slot.obj).snaps }

/-- An endowment of the Spoor of a slot. -/
def endowedWith (slot : Handle) : Handles :=
  { (s.acquireObj slot.kind slot.obj).fdCount slot.kind slot.obj with
    endowed := slot :: ((s.acquireObj slot.kind slot.obj).fdCount slot.kind slot.obj).endowed }

/-- A second handle found no slot: its reference is to be released. -/
def rolledBack (parent : Handle) : Handles :=
  (s.acquireObj parent.kind parent.obj).capture ⟨parent.kind, parent.obj, false, none⟩

end

/-- A slot that may be aliased, and no more rights. -/
structure MayDup (s : Handles) (parent new : Handle) : Prop where
  may : s.handleSlotMayAlias parent = true
  kind : new.kind = parent.kind
  obj : new.obj = parent.obj
  rights : new.rights &&& parent.rights = new.rights

/-- The handle of a slot also in another, perhaps occupied. -/
def aliased (s : Handles) (x : SlotId) (src : Handle) (cloexec : Bool) : Handles :=
  match s.slots x with
  | none => (s.acquireObj src.kind src.obj).placed x src cloexec
  | some dst => ((s.acquireObj src.kind src.obj).placed x src cloexec).capture (leaving dst)

/-- What a call **does** when it succeeds. -/
inductive Done (s : Handles) : Handles → Prop
  | tableAlloc {p : ℕ} (hp : p ∉ s.procs ∧ p ∉ s.freeing) : Done s (s.handleTableAlloc p)
  | tableFree {p : ℕ} (hp : p ∈ s.procs ∨ p ∈ s.freeing) : Done s (s.handleTableFree p)
  | alloc {x : SlotId} {h : Handle} (hx : x.1 ∈ s.procs) (hfree : s.slots x = none)
      (hvalid : validAllocArgs h.kind h.rights = true) (hh : s.Holds h) :
      Done s ((s.placed x h false).handOver x.1 h)
  | close {x : SlotId} {slot : Handle} (hx : x.1 ∈ s.procs) (hslot : s.slots x = some slot) :
      Done s (s.closed x slot)
  | replace {x : SlotId} {new slot : Handle} (hx : x.1 ∈ s.procs) (hslot : s.slots x = some slot)
      (hvalid : validAllocArgs new.kind new.rights = true) (hh : s.Holds new) :
      Done s ((s.replaced x new slot).handOver x.1 new)
  | get {x : SlotId} {slot : Handle} (hx : x.1 ∈ s.procs) (hslot : s.slots x = some slot) :
      Done s (s.snapped slot)
  | put {snap : Handle} (hh : snap ∈ s.snaps) : Done s (s.handlePut snap)
  | endow {x : SlotId} {slot : Handle} (hx : x.1 ∈ s.procs) (hslot : s.slots x = some slot)
      (hkind : slot.kind = .spoor) : Done s (s.endowedWith slot)
  | endowDrop {e : Handle} (he : e ∈ s.endowed) : Done s (s.handleEndowDrop e)
  | endowInstall {x : SlotId} {e : Handle} (hx : x.1 ∈ s.procs) (hfree : s.slots x = none)
      (he : e ∈ s.endowed) : Done s (s.settled x e)
  | dup {x y : SlotId} {parent new : Handle} {cloexec : Bool} (hx : x.1 ∈ s.procs)
      (hfree : s.slots x = none) (hy : y.1 ∈ s.procs) (hparent : s.slots y = some parent)
      (hdup : s.MayDup parent new) (hvalid : validAllocArgs new.kind new.rights = true) :
      Done s ((s.acquireObj new.kind new.obj).placed x new cloexec)
  | dupTo {x y : SlotId} {src : Handle} {cloexec : Bool} (hx : x.1 ∈ s.procs) (hy : y.1 ∈ s.procs)
      (hsrc : s.slots y = some src) (halias : s.handleSlotMayAlias src = true) :
      Done s (s.aliased x src cloexec)
  | copyInto {dst src : ℕ} (hdst : dst ∈ s.procs) (hsrc : src ∈ s.procs)
      (hfree : ∀ i, s.slots (dst, i) = none) :
      Done s (s.handleTableCopyInto dst src).2
  | setCloexec {x : SlotId} {slot : Handle} {on : Bool} (hslot : s.slots x = some slot) :
      Done s (s.cloexecSetLocked x on)
  | cloexecTake {p : ℕ} : Done s (s.cloexecTake p)
  | fdDrop {r : Release} (hr : r ∈ s.pending ∧ r.fd = true) : Done s (s.runFdDrop r)
  | release {r : Release} (hr : r ∈ s.pending ∧ r.fd = false) : Done s (s.runRelease r)
  | create {o : Kobj} (ho : o.1.isCounted ∧ s.ref o = 0) : Done s (s.call (.create o)).2
  | extAcquire {o : Kobj} (ho : o.1.isCounted ∧ 0 < s.ref o) :
      Done s ({ s with ext := update s.ext o (s.ext o + 1) }.acquireObj o.1 (some o.2))
  | extRelease {o : Kobj} (ho : o.1.isCounted ∧ 0 < s.ext o) :
      Done s ({ s with ext := update s.ext o (s.ext o - 1) }.releaseObj o.1 (some o.2))

/-- What a call **comes to**; a refused duplicate may leave a release. -/
inductive Outcome (s : Handles) : ℤ × Handles → Prop
  | refused {rc : ℤ} (hrc : rc < 0) : Outcome s (rc, s)
  | rolledBack {rc : ℤ} {x : SlotId} {parent : Handle} (hrc : rc < 0) (hx : x.1 ∈ s.procs)
      (hparent : s.slots x = some parent) : Outcome s (rc, s.rolledBack parent)
  | done {r : ℤ × Handles} (hrc : 0 ≤ r.1) (h : Done s r.2) : Outcome s r

theorem Outcome.flat (h : Outcome s r) : Outcome s (flat r) := by
  unfold Handles.flat
  cases h with
  | refused hrc =>
    rw [if_pos hrc]
    exact .refused (by decide)
  | rolledBack hrc hx hparent =>
    rw [if_pos hrc]
    exact .rolledBack (by decide) hx hparent
  | done hrc h =>
    rw [if_neg hrc.not_gt]
    exact .done hrc h

theorem hidx_eq (hi : hidx k = some i) : k = (i.val : ℤ) := by
  unfold hidx at hi
  split at hi
  · rename_i hr
    cases hi
    exact (Int.toNat_of_nonneg hr.1).symm
  · cases hi

theorem freeSlot_spec {n start : ℕ}
    (hi : s.freeSlot p n start = some i) : s.slots (p, i) = none := by
  fun_induction freeSlot s p n start with
  | case1 | case4 => cases hi
  | case2 _ _ _ hfree =>
    cases hi
    exact hfree
  | case3 _ _ _ _ ih => exact ih hi

theorem handleInstallLocked_cases (s : Handles) (p : ℕ) (h : Handle) (start : ℤ) (cloexec : Bool) :
    s.handleInstallLocked p h start cloexec = (none, s) ∨ ∃ i, s.slots (p, i) = none ∧
      s.handleInstallLocked p h start cloexec = (some i, s.placed (p, i) h cloexec) := by
  unfold handleInstallLocked
  split
  · exact .inl rfl
  · rename_i i hi
    exact .inr ⟨i, freeSlot_spec hi, rfl⟩

theorem validAllocArgs_iff {kind : KobjKind} {rights : UInt32} : validAllocArgs kind rights = true ↔
      kind ≠ .invalid ∧ rights ≠ 0 ∧ rights &&& ~~~rightAll = 0 := by
  unfold validAllocArgs
  split <;> rename_i hkind
  · simp [hkind]
  · split <;> rename_i hrights
    · simp [hrights]
    · split <;> rename_i hall <;> simp_all

/-- `handle_alloc` with an object accounted for. -/
theorem handleAlloc_cases (hacc : s.accounted h = true) : s.Refused (s.handleAlloc p h) ∨
      ∃ i, validAllocArgs h.kind h.rights = true ∧ s.slots (p, i) = none ∧
      s.handleAlloc p h = ((i.val : ℤ), s.placed (p, i) h false) := by
  unfold handleAlloc
  split
  · exact .inl (.one s)
  · rename_i hvalid
    rw [if_neg (by rw [hacc]; decide)]
    rcases handleInstallLocked_cases s p h 0 false with heq | ⟨i, hfree, heq⟩ <;> rw [heq]
    · exact .inl (.one s)
    · exact .inr ⟨i, by simpa using hvalid, hfree, rfl⟩

/-- A call that is refused or followed up. -/
theorem Outcome.of_refused (f : Handles → Handles) (hr : s.Refused r ∨ 0 ≤ r.1 ∧ Done s (f r.2)) :
    Outcome s (if r.1 < 0 then r else (r.1, f r.2)) := by
  rcases hr with ⟨hneg, rfl⟩ | ⟨hnonneg, hdone⟩
  · rw [if_pos hneg]
    exact .refused hneg
  · rw [if_neg hnonneg.not_gt]
    exact .done hnonneg hdone

theorem call_alloc_outcome (hacc : s.accounted h = true) (hop : s.Allowed (.alloc p h)) :
    Outcome s (s.call (.alloc p h)) := by
  refine Outcome.of_refused (handOver · p h) ((handleAlloc_cases hacc).imp_right ?_)
  rintro ⟨i, hvalid, hfree, heq⟩
  rw [heq]
  exact ⟨Int.natCast_nonneg _, .alloc hop.1 hfree hvalid hop.2⟩

theorem endowInstall_outcome (hacc : s.accounted h = true)
    (hop : s.Allowed (.endowInstall p h)) : Outcome s (s.endowInstall p h) := by
  refine Outcome.of_refused (fun s => { s with endowed := s.endowed.erase h }.fdDrop h.kind h.obj)
    ((handleAlloc_cases hacc).imp_right ?_)
  rintro ⟨i, -, hfree, heq⟩
  rw [heq]
  exact ⟨Int.natCast_nonneg _, .endowInstall hop.1 hfree hop.2⟩

theorem handleClose_outcome (hp : p ∈ s.procs) : Outcome s (s.handleClose p k) := by
  fun_cases handleClose with
  | case1 | case2 => exact .refused (by decide)
  | case3 i _ _ hslot => exact .done le_rfl (.close hp hslot)

theorem call_replace_outcome {new : Handle} (hp : p ∈ s.procs) (hh : s.Holds new) :
    Outcome s (s.call (.replace p k new)) := by
  refine Outcome.of_refused (handOver · p new) ?_
  fun_cases handleReplace s p k new with
  | case1 | case2 | case3 | case4 | case5 => exact .inl (.one s)
  | case6 i _ hvalid _ _ hslot =>
    exact .inr ⟨le_rfl, .replace hp hslot (by simpa using hvalid) hh⟩

theorem handleGet_outcome (hp : p ∈ s.procs) : Outcome s (s.handleGet p k) := by
  fun_cases handleGet with
  | case1 | case2 => exact .refused (by decide)
  | case3 i _ _ hslot => exact .done le_rfl (.get hp hslot)

theorem handleEndowSpoor_outcome (hp : p ∈ s.procs) : Outcome s (s.handleEndowSpoor p k) := by
  fun_cases handleEndowSpoor with
  | case1 | case2 | case3 => exact .refused (by decide)
  | case4 i _ _ hslot hkind => exact .done le_rfl (.endow hp hslot (not_not.mp hkind))

theorem handleDupCommon_outcome (hp : p ∈ s.procs) (newRights : Option UInt32) (minIdx : ℤ)
    (cloexec : Bool) : Outcome s (s.handleDupCommon p k newRights minIdx cloexec) := by
  unfold handleDupCommon
  split
  · exact .refused (by decide)
  · split
    · exact .refused (by decide)
    · rename_i parent hparent
      split
      · exact .refused (by decide)
      · split
        · exact .refused (by decide)
        · rename_i halias
          dsimp only
          split
          · exact .refused (by decide)
          · rename_i hrights
            split
            · exact .refused (by decide)
            · rename_i hvalid
              rcases handleInstallLocked_cases (s.acquireObj parent.kind parent.obj) p
                ⟨parent.kind, newRights.getD parent.rights, parent.obj⟩ minIdx cloexec with
                heq | ⟨j, hfree, heq⟩ <;> rw [heq]
              · exact .rolledBack (by decide) hp hparent
              · rw [(acquireObj_same s _ _).slots] at hfree
                exact .done (Int.natCast_nonneg _) (.dup hp hfree hp hparent
                  ⟨by simpa using halias, rfl, rfl, not_not.mp hrights⟩ (by simpa using hvalid))

theorem handleDupToChecked_outcome (hp : p ∈ s.procs) (old new : ℤ) (cloexec : Bool) :
    Outcome s (s.handleDupToChecked p old new cloexec) := by
  fun_cases handleDupToChecked s p old new cloexec with
  | case1 | case2 | case3 | case4 | case5 => exact .refused (by decide)
  | case6 i j hj _ _ src hsrc halias _ hdst | case7 i j hj _ _ src hsrc halias _ _ hdst =>
    have hdone : Done s (s.aliased (p, j) src cloexec) := .dupTo hp hp hsrc (by simpa using halias)
    have hnew : 0 ≤ new := hidx_eq hj ▸ Int.natCast_nonneg _
    unfold aliased at hdone
    exact .done hnew (by rwa [hdst] at hdone)

theorem handleSetCloexec_outcome (on : Bool) : Outcome s (s.handleSetCloexec p k on) := by
  fun_cases handleSetCloexec with
  | case1 | case2 => exact .refused (by decide)
  | case3 i _ _ hslot => exact .done le_rfl (.setCloexec hslot)

/-- A turn of `handle_table_copy_into` at a free slot: still free, or the parent's handle. -/
theorem copySlot_cases (hfree : s.slots (dst, i) = none) (n : ℤ) :
    copySlot dst src (n, s) i = (n, s) ∨
      ∃ h, s.slots (src, i) = some h ∧ s.handleSlotMayAlias h = true ∧
      copySlot dst src (n, s) i =
      (n + 1, (s.acquireObj h.kind h.obj).placed (dst, i) h (s.cloexec (src, i))) := by
  unfold copySlot
  split
  · exact .inl rfl
  · rename_i h hsrc
    split
    · exact .inl rfl
    · rename_i halias
      rw [if_neg (not_not.mpr hfree)]
      exact .inr ⟨h, hsrc, by simpa using halias, rfl⟩

/-- A loop rule for `handle_table_copy_into`: `I` is kept while the slots to come are free. -/
theorem copy_invariant {I : Handles → Prop}
    (hstep : ∀ s i h, I s → s.slots (dst, i) = none → s.slots (src, i) = some h →
      s.handleSlotMayAlias h = true →
      I ((s.acquireObj h.kind h.obj).placed (dst, i) h (s.cloexec (src, i))))
    (l : List (Fin procHandleMax)) (hl : l.Nodup) (hI : I s) (n : ℤ)
    (hfree : ∀ i ∈ l, s.slots (dst, i) = none) :
    I (l.foldl (copySlot dst src) (n, s)).2 := by
  induction l generalizing s n with
  | nil => exact hI
  | cons i l ih =>
    obtain ⟨hi, hl⟩ := List.nodup_cons.mp hl
    rw [List.foldl_cons]
    have hrest : ∀ j ∈ l, s.slots (dst, j) = none := fun j hj => hfree j (List.mem_cons_of_mem i hj)
    rcases copySlot_cases (hfree i List.mem_cons_self) n with heq | ⟨h, hsrc, halias, heq⟩ <;>
      rw [heq]
    · exact ih hl hI n hrest
    · refine ih hl (hstep s i h hI (hfree i List.mem_cons_self) hsrc halias) _ fun j hj => ?_
      have hne : (dst, j) ≠ (dst, i) := by
        rintro ⟨⟩
        exact hi hj
      rw [placed_slots, (acquireObj_same s _ _).slots, Function.update_of_ne hne]
      exact hrest j hj

end Handles

end Thylacine
