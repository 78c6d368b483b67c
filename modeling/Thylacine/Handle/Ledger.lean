import Mathlib.Data.Fintype.Basic
import Thylacine.Handle.HandleSpec
import Thylacine.Lib.CountedTable

/-!
# The Ledger of Handle References

Every reference that the handle layer holds has a place: a live slot, a snapshot, an endowment,
or a release that is captured and has not run. The reference of a slot that `handle_table_free`
is at goes with the release, though the slot is still in the table. `layerRefs` adds the places up,
and `Balanced` says that an object's own count is that sum and what others hold. The same for the
descriptors of a Spoor, of which a snapshot is none.

The functions of the code that move a count are first written as plain updates (`acquireObj_eq`
and its like); each call then keeps the balance by what it does to the places.

## Main results

* `reference_conservation`: in every interleaving the counts are those of the places.
* `descriptors_during_close`: between the halves of a close a descriptor has no slot.
-/

namespace Thylacine

open Function (update update_apply update_of_ne update_self)
open Finset (mem_univ univ)
open CountedTable List

/-- Do a kind and an object pointer name the object `o`? -/
def names (o : Kobj) (kind : KobjKind) (obj : Option ℕ) : Bool :=
  decide (kind = o.1 ∧ obj = some o.2)

def Handle.names (o : Kobj) (h : Handle) : Bool := Thylacine.names o h.kind h.obj

def Release.names (o : Kobj) (r : Release) : Bool := Thylacine.names o r.kind r.obj

/-- The descriptor of a captured release, until it is dropped. -/
def Release.descriptor (c : ℕ) (r : Release) : Bool := r.fd && r.names (.spoor, c)

namespace Handles

variable {s : Handles} {p dst src : ℕ} {o : Kobj} {kind : KobjKind} {obj : Option ℕ} {x : SlotId}
  {h slot : Handle} {r : Release} {i : ℕ} {op : Op} {α : Type*}

/-- What a slot holds a reference by. -/
def held (spent : SlotId → Bool) (slots : SlotId → Option Handle) (x : SlotId) : Option Handle :=
  if spent x then none else slots x

/-- The slots that name `o` and hold a reference. -/
def slotRefs (s : Handles) (o : Kobj) : ℕ :=
  countIf ((s.procs ∪ s.freeing) ×ˢ univ) (Option.any (Handle.names o)) (held s.spent s.slots)

/-- The references of the **handle layer** on `o`: slots, snapshots, endowments and captured
releases. -/
def layerRefs (s : Handles) (o : Kobj) : ℕ :=
  s.slotRefs o + s.snaps.countP (Handle.names o) + s.endowed.countP (Handle.names o) +
    s.pending.countP (Release.names o)

/-- The **descriptors** of a Spoor: live slots, endowments, and releases that have not dropped
theirs. -/
def descriptors (s : Handles) (c : ℕ) : ℕ :=
  s.slotRefs (.spoor, c) + s.endowed.countP (Handle.names (.spoor, c)) +
    s.pending.countP (Release.descriptor c)

/-- The objects' counts **agree** with the places that hold references. -/
structure Balanced (s : Handles) : Prop where
  ref : ∀ o, o.1.isCounted → s.ref o = s.ext o + s.layerRefs o
  fd : ∀ c, s.fdRefs c = s.descriptors c
  /-- A Proc without a table has no handles. -/
  gone : ∀ x : SlotId, x.1 ∉ s.procs ∪ s.freeing → s.slots x = none
  /-- A Proc that makes calls is not freeing its table. -/
  whole : ∀ x : SlotId, x.1 ∈ s.procs → s.spent x = false
  live : s.extinct = false

/-! ### Counts as plain updates -/

theorem names_none (o : Kobj) (kind : KobjKind) : names o kind none = false := by simp [names]

theorem names_some (o : Kobj) (kind : KobjKind) (i : ℕ) :
    names o kind (some i) = decide (o = (kind, i)) := by
  rw [names, decide_eq_decide, Prod.ext_iff, Option.some_inj, eq_comm, @eq_comm _ i]

/-- What `handle_acquire_obj` and `handle_release_obj` move. -/
def refWeight (kind : KobjKind) (obj : Option ℕ) (o : Kobj) : ℕ :=
  if kind.isCounted then (names o kind obj).toNat else 0

theorem refWeight_of_counted (kind : KobjKind) (obj : Option ℕ) (ho : o.1.isCounted) :
    refWeight kind obj o = (names o kind obj).toNat := by
  unfold refWeight
  split
  · rfl
  · rename_i hkind
    have hne : kind ≠ o.1 := by
      rintro rfl
      exact hkind ho
    simp [names, hne]

theorem weight_handle (h : Handle) (ho : o.1.isCounted) :
    refWeight h.kind h.obj o = (h.names o).toNat := refWeight_of_counted _ _ ho

/-- A counted object that is named has a reference. -/
def Alive (s : Handles) (kind : KobjKind) (obj : Option ℕ) : Prop :=
  ∀ i, obj = some i → kind.isCounted → 0 < s.ref (kind, i)

theorem Alive.accounted (hlive : s.Alive h.kind h.obj) : s.accounted h = true := by
  unfold Handles.accounted
  split
  · rename_i i hk hi
    rw [hk, hi] at hlive
    exact decide_eq_true (hlive i rfl rfl)
  · rename_i i hk hi
    rw [hk, hi] at hlive
    exact decide_eq_true (hlive i rfl rfl)
  · rfl

theorem acquireObj_eq (hlive : s.Alive kind obj) :
    s.acquireObj kind obj = { s with ref := fun o => s.ref o + refWeight kind obj o } := by
  cases obj with
  | none => simp [acquireObj, refWeight, names_none]
  | some i =>
    by_cases hk : kind.isCounted
    · have hne : s.ref (kind, i) ≠ 0 := (hlive i rfl hk).ne'
      rw [acquireObj, if_pos hk, if_neg hne]
      congr 1
      funext o
      by_cases ho : o = (kind, i) <;> simp [ho, refWeight, hk, names_some]
    · simp [acquireObj, refWeight, hk]

/-- A Spoor's last reference goes after its last descriptor. -/
theorem releaseObj_eq (hlive : s.Alive kind obj)
    (hlast : ∀ i, obj = some i → kind = .spoor → s.fdRefs i < s.ref (.spoor, i)) :
    s.releaseObj kind obj = { s with ref := fun o => s.ref o - refWeight kind obj o } := by
  cases obj with
  | none => simp [releaseObj, refWeight, names_none]
  | some i =>
    by_cases hk : kind.isCounted
    · have hne : s.ref (kind, i) ≠ 0 := (hlive i rfl hk).ne'
      have hfd : ¬(kind = .spoor ∧ s.ref (kind, i) = 1 ∧ s.fdRefs i ≠ 0) := by
        rintro ⟨rfl, hone, hpos⟩
        have hlt := hlast i rfl rfl
        omega
      rw [releaseObj, if_pos hk, if_neg hne, if_neg hfd]
      congr 1
      funext o
      by_cases ho : o = (kind, i) <;> simp [ho, refWeight, hk, names_some]
    · simp [releaseObj, refWeight, hk]

/-- Where the calls for a descriptor do nothing. -/
theorem names_spoor_eq_false (hno : ∀ i, kind = .spoor → obj = some i → False) (c : ℕ) :
    names (.spoor, c) kind obj = false :=
  decide_eq_false fun ⟨hkind, hobj⟩ => hno c hkind hobj

theorem fdCount_eq (s : Handles) (kind : KobjKind) (obj : Option ℕ) : s.fdCount kind obj =
      { s with fdRefs := fun c => s.fdRefs c + (names (.spoor, c) kind obj).toNat } := by
  unfold fdCount
  split
  · rename_i i
    congr 1
    funext c
    by_cases hc : c = i <;> simp [hc, names_some]
  · rename_i hno
    simp [names_spoor_eq_false hno]

theorem fdDrop_eq (hpos : ∀ i, kind = .spoor → obj = some i → 0 < s.fdRefs i) : s.fdDrop kind obj =
      { s with fdRefs := fun c => s.fdRefs c - (names (.spoor, c) kind obj).toNat } := by
  unfold fdDrop
  split
  · rename_i i
    rw [if_neg (hpos i rfl rfl).ne']
    congr 1
    funext c
    by_cases hc : c = i <;> simp [hc, names_some]
  · rename_i hno
    simp [names_spoor_eq_false hno]

/-! ### Places -/

theorem countP_cons_toNat (q : α → Bool) (a : α) (l : List α) :
    (a :: l).countP q = l.countP q + (q a).toNat := by
  rw [countP_cons]
  cases q a <;> rfl

theorem countP_erase_add [BEq α] [LawfulBEq α] {a : α} {l : List α} (ha : a ∈ l)
    (q : α → Bool) : (l.erase a).countP q + (q a).toNat = l.countP q := by
  rw [← countP_cons_toNat, (perm_cons_erase ha).countP_eq]

theorem mem_places (hx : x.1 ∈ s.procs ∪ s.freeing) : x ∈ (s.procs ∪ s.freeing) ×ˢ univ :=
  Finset.mem_product.mpr ⟨hx, mem_univ _⟩

theorem held_eq {spent : SlotId → Bool} {slots : SlotId → Option Handle} (hx : spent x = false) :
    held spent slots x = slots x := by
  rw [held, hx]
  rfl

theorem held_update {spent : SlotId → Bool} (hx : spent x = false) (slots : SlotId → Option Handle)
    (e : Option Handle) : held spent (update slots x e) = update (held spent slots) x e := by
  funext y
  by_cases hy : y = x
  · rw [hy, held_eq hx, update_self, update_self]
  · simp only [held, update_of_ne hy]

theorem names_self (hobj : obj = some i) : names (kind, i) kind obj = true := by
  rw [hobj, names_some]
  exact decide_eq_true rfl

theorem countP_pending_split (l : List Release) (c : ℕ) : l.countP (Release.names (.spoor, c)) =
      l.countP (Release.descriptor c) + l.countP fun r => !r.fd && r.names (.spoor, c) := by
  induction l with
  | nil => rfl
  | cons r l ih =>
    simp only [countP_cons_toNat, Release.descriptor]
    cases r.fd <;> simp <;> omega

/-- A descriptor holds a reference; other holders, snapshots and later halves of releases are none. -/
theorem Balanced.fdRefs_le (hb : Balanced s) (c : ℕ) :
    s.fdRefs c + s.ext (.spoor, c) + s.snaps.countP (Handle.names (.spoor, c)) +
      s.pending.countP (fun r => !r.fd && r.names (.spoor, c)) ≤ s.ref (.spoor, c) := by
  rw [hb.fd, hb.ref _ rfl, descriptors, layerRefs, countP_pending_split]
  omega

theorem Balanced.layerRefs_slot (hb : Balanced s) (hx : s.slots x = some h)
    (hspent : s.spent x = false) (hi : h.obj = some i) : 0 < s.layerRefs (h.kind, i) := by
  have hmem : x.1 ∈ s.procs ∪ s.freeing := by
    by_contra hno
    rw [hb.gone x hno] at hx
    cases hx
  have hpos : 0 < s.slotRefs (h.kind, i) :=
    countIf_pos (mem_places hmem) (by rw [held_eq hspent, hx]; exact names_self hi)
  rw [layerRefs]
  omega

theorem layerRefs_snap (hh : h ∈ s.snaps) (hi : h.obj = some i) : 0 < s.layerRefs (h.kind, i) := by
  have hpos : 0 < s.snaps.countP (Handle.names (h.kind, i)) :=
    countP_pos_iff.mpr ⟨h, hh, names_self hi⟩
  rw [layerRefs]
  omega

theorem layerRefs_endowed (hh : h ∈ s.endowed) (hi : h.obj = some i) :
    0 < s.layerRefs (h.kind, i) := by
  have hpos : 0 < s.endowed.countP (Handle.names (h.kind, i)) :=
    countP_pos_iff.mpr ⟨h, hh, names_self hi⟩
  rw [layerRefs]
  omega

theorem layerRefs_pending (hr : r ∈ s.pending) (hi : r.obj = some i) :
    0 < s.layerRefs (r.kind, i) := by
  have hpos : 0 < s.pending.countP (Release.names (r.kind, i)) :=
    countP_pos_iff.mpr ⟨r, hr, names_self hi⟩
  rw [layerRefs]
  omega

/-- What a place of the layer names is alive. -/
theorem Balanced.alive (hb : Balanced s) (hpos : ∀ i, obj = some i → 0 < s.layerRefs (kind, i)) :
    s.Alive kind obj := by
  intro i hi hk
  have hpos := hpos i hi
  rw [hb.ref _ hk]
  omega

theorem Balanced.alive_slot (hb : Balanced s) (hp : x.1 ∈ s.procs) (hx : s.slots x = some h) :
    s.Alive h.kind h.obj :=
  hb.alive fun _ => hb.layerRefs_slot hx (hb.whole x hp)

/-! ### What the calls keep -/

theorem placed_eq (s : Handles) (x : SlotId) (h : Handle) (cloexec : Bool) : s.placed x h cloexec =
      { s with
        slots := update s.slots x (some h)
        cloexec := update s.cloexec x cloexec
        fdRefs := fun c => s.fdRefs c + (h.names (.spoor, c)).toNat } := by
  rw [placed, fdCount_eq]
  rfl

theorem gone_update (hb : Balanced s) (hx : x.1 ∈ s.procs ∪ s.freeing) (e : Option Handle)
    (y : SlotId) (hy : y.1 ∉ s.procs ∪ s.freeing) : update s.slots x e y = none := by
  rw [update_of_ne, hb.gone y hy]
  rintro rfl
  exact hy hx

variable {f g : Kobj → ℕ} {d : ℕ → ℕ} {b : SlotId → Bool} {v : List (ℕ × Handle)}

/-- A slot is **written**: the old handle's reference is captured, the new one brings its own. -/
theorem Balanced.write {slots : SlotId → Option Handle} {spent : SlotId → Bool} (hb : Balanced s)
    (hx : x.1 ∈ s.procs ∪ s.freeing) (e : Option Handle) (l : List Release)
    (hheld : held spent slots = update (held s.spent s.slots) x e)
    (hgone : ∀ y : SlotId, y.1 ∉ s.procs ∪ s.freeing → slots y = none)
    (hwhole : ∀ y : SlotId, y.1 ∈ s.procs → spent y = false)
    (href : ∀ o, o.1.isCounted → f o + s.ext o = s.ref o + g o + (e.any (Handle.names o)).toNat)
    (hfd : ∀ c, d c = s.fdRefs c + (e.any (Handle.names (.spoor, c))).toNat)
    (hl : ∀ o, l.countP (Release.names o) = s.pending.countP (Release.names o) +
      ((held s.spent s.slots x).any (Handle.names o)).toNat)
    (hld : ∀ c, l.countP (Release.descriptor c) = s.pending.countP (Release.descriptor c) +
      ((held s.spent s.slots x).any (Handle.names (.spoor, c))).toNat) :
    Balanced { s with slots := slots, spent := spent, cloexec := b, ref := f, ext := g,
                      fdRefs := d, pending := l, given := v } where
  ref := fun o ho => by
    have hcount :=
      countIf_update (mem_places hx) (Option.any (Handle.names o)) (held s.spent s.slots) e
    have hbal := hb.ref o ho
    have hmove := href o ho
    have hpend := hl o
    simp only [layerRefs, slotRefs, hheld] at hcount hbal ⊢
    omega
  fd := fun c => by
    have hcount := countIf_update (mem_places hx) (Option.any (Handle.names (.spoor, c)))
      (held s.spent s.slots) e
    have hbal := hb.fd c
    have hmove := hfd c
    have hpend := hld c
    simp only [descriptors, slotRefs, hheld] at hcount hbal ⊢
    omega
  gone := hgone
  whole := hwhole
  live := hb.live

theorem handOver_eq (s : Handles) (p : ℕ) (h : Handle) : s.handOver p h =
      { s with ext := fun o => s.ext o - (h.names o).toNat, given := (p, h) :: s.given } := by
  unfold handOver
  congr 1
  cases hobj : h.obj with
  | none => simp [Handle.names, hobj, names_none]
  | some i =>
    funext o
    by_cases ho : o = (h.kind, i) <;> simp [ho, Handle.names, hobj, names_some]

theorem Holds.le_ext (hh : s.Holds h) (ho : o.1.isCounted) : (h.names o).toNat ≤ s.ext o := by
  by_cases hn : h.names o
  · obtain ⟨hkind, hobj⟩ := of_decide_eq_true hn
    have hpos := hh o.2 hobj (hkind ▸ ho)
    rw [hkind] at hpos
    rw [hn]
    exact hpos
  · simp [hn]

section

variable (hb : Balanced s)
include hb

/-- A live Proc's slot is written; the old handle leaves a release. -/
theorem Balanced.setHandle (hx : x.1 ∈ s.procs) (e : Option Handle) {l : List Release}
    (hl : l = ((s.slots x).map leaving).toList ++ s.pending)
    (href : ∀ o, o.1.isCounted → f o + s.ext o = s.ref o + g o + (e.any (Handle.names o)).toNat)
    (hfd : ∀ c, d c = s.fdRefs c + (e.any (Handle.names (.spoor, c))).toNat) :
    Balanced { s with slots := update s.slots x e, cloexec := b, ref := f, ext := g,
                      fdRefs := d, pending := l, given := v } := by
  have hmem : x.1 ∈ s.procs ∪ s.freeing := Finset.mem_union_left _ hx
  refine hb.write hmem e _ (held_update (hb.whole x hx) s.slots e) (gone_update hb hmem e) hb.whole
    href hfd (fun o => ?_) (fun c => ?_)
  all_goals
    rw [hl, held_eq (hb.whole x hx)]
    cases s.slots x with
    | none => rfl
    | some slot => exact countP_cons_toNat ..

theorem Balanced.closed (hx : x.1 ∈ s.procs) (hslot : s.slots x = some slot) :
    Balanced (s.closed x slot) :=
  hb.setHandle hx none (by rw [hslot]; rfl) (fun _ _ => rfl) fun _ => rfl

theorem Balanced.alloc (hx : x.1 ∈ s.procs) (hfree : s.slots x = none) (hh : s.Holds h) (p : ℕ)
    (cloexec : Bool) :
    Balanced ((s.placed x h cloexec).handOver p h) := by
  rw [placed_eq, handOver_eq]
  refine hb.setHandle hx (some h) (by rw [hfree]; rfl) (fun o ho => ?_) fun _ => rfl
  have hle := hh.le_ext ho
  dsimp only [Option.any]
  omega

theorem Balanced.replaced (hx : x.1 ∈ s.procs) (hslot : s.slots x = some slot) (hh : s.Holds h)
    (p : ℕ) :
    Balanced ((s.replaced x h slot).handOver p h) := by
  rw [handOver_eq, Handles.replaced, fdCount_eq]
  refine hb.setHandle hx (some h) (by rw [hslot]; rfl) (fun o ho => ?_) fun _ => rfl
  have hle := hh.le_ext ho
  dsimp only [capture, setSlot, Option.any]
  omega

/-- A second handle in a free slot. -/
theorem Balanced.dup (hx : x.1 ∈ s.procs) (hfree : s.slots x = none) (hlive : s.Alive h.kind h.obj)
    (cloexec : Bool) :
    Balanced ((s.acquireObj h.kind h.obj).placed x h cloexec) := by
  rw [acquireObj_eq hlive, placed_eq]
  refine hb.setHandle hx (some h) (by rw [hfree]; rfl) (fun o ho => ?_) fun _ => rfl
  have hw := weight_handle h ho
  dsimp only [Option.any]
  omega

theorem Balanced.aliased (hx : x.1 ∈ s.procs) (hlive : s.Alive h.kind h.obj) (cloexec : Bool) :
    Balanced (s.aliased x h cloexec) := by
  unfold Handles.aliased
  split
  · rename_i hfree
    exact hb.dup hx hfree hlive cloexec
  · rename_i dst hdst
    rw [acquireObj_eq hlive, placed_eq]
    refine hb.setHandle hx (some h) (by rw [hdst]; rfl) (fun o ho => ?_) fun _ => rfl
    have hw := weight_handle h ho
    dsimp only [capture, Option.any]
    omega

/-! ### Snapshots, endowments and captured releases -/

section

variable (hlive : s.Alive h.kind h.obj)
include hlive

theorem Balanced.snapped : Balanced (s.snapped h) := by
  rw [Handles.snapped, acquireObj_eq hlive]
  refine ⟨fun o ho => ?_, hb.fd, hb.gone, hb.whole, hb.live⟩
  have hw := weight_handle h ho
  have hbal := hb.ref o ho
  simp only [layerRefs, slotRefs, countP_cons_toNat] at hbal ⊢
  omega

theorem Balanced.rolledBack : Balanced (s.rolledBack h) := by
  rw [Handles.rolledBack, acquireObj_eq hlive]
  refine ⟨fun o ho => ?_, fun c => ?_, hb.gone, hb.whole, hb.live⟩
  · have hw : refWeight h.kind h.obj o = (names o h.kind h.obj).toNat :=
      refWeight_of_counted _ _ ho
    have hbal := hb.ref o ho
    simp only [layerRefs, slotRefs, capture, countP_cons_toNat, Release.names] at hbal ⊢
    omega
  · have hbal := hb.fd c
    simpa only [descriptors, slotRefs, capture, countP_cons_toNat, Release.descriptor,
      Bool.false_and, Bool.toNat_false, add_zero] using hbal

theorem Balanced.endowedWith : Balanced (s.endowedWith h) := by
  rw [Handles.endowedWith, acquireObj_eq hlive, fdCount_eq]
  refine ⟨fun o ho => ?_, fun c => ?_, hb.gone, hb.whole, hb.live⟩
  · have hw := weight_handle h ho
    have hbal := hb.ref o ho
    simp only [layerRefs, slotRefs, countP_cons_toNat] at hbal ⊢
    omega
  · have hbal := hb.fd c
    simp only [descriptors, slotRefs, countP_cons_toNat, Handle.names] at hbal ⊢
    omega

end

theorem Balanced.handlePut (hh : h ∈ s.snaps) : Balanced (s.handlePut h) := by
  rw [Handles.handlePut, releaseObj_eq]
  · refine ⟨fun o ho => ?_, hb.fd, hb.gone, hb.whole, hb.live⟩
    have hw := weight_handle h ho
    have hcount := countP_erase_add hh (Handle.names o)
    have hbal := hb.ref o ho
    simp only [layerRefs, slotRefs] at hbal ⊢
    omega
  · exact hb.alive fun _ => layerRefs_snap hh
  · intro i hi hk
    have hle := hb.fdRefs_le i
    have hpos : 0 < s.snaps.countP (Handle.names (.spoor, i)) :=
      countP_pos_iff.mpr ⟨h, hh, hk ▸ names_self hi⟩
    dsimp only
    omega

theorem Balanced.runRelease (hr : r ∈ s.pending) (hfd : r.fd = false) :
    Balanced (s.runRelease r) := by
  rw [Handles.runRelease, releaseObj_eq]
  · refine ⟨fun o ho => ?_, fun c => ?_, hb.gone, hb.whole, hb.live⟩
    · have hw : refWeight r.kind r.obj o = (r.names o).toNat := refWeight_of_counted _ _ ho
      have hcount := countP_erase_add hr (Release.names o)
      have hbal := hb.ref o ho
      simp only [layerRefs, slotRefs] at hbal ⊢
      omega
    · have hcount := countP_erase_add hr (Release.descriptor c)
      have hno : r.descriptor c = false := by rw [Release.descriptor, hfd]; rfl
      have hbal := hb.fd c
      simp only [hno, descriptors, slotRefs, Bool.toNat_false] at hcount hbal ⊢
      omega
  · exact hb.alive fun _ => layerRefs_pending hr
  · intro i hi hk
    have hle := hb.fdRefs_le i
    have hpos : 0 < s.pending.countP fun r => !r.fd && r.names (.spoor, i) :=
      countP_pos_iff.mpr ⟨r, hr, by rw [hfd]; exact hk ▸ names_self hi⟩
    dsimp only
    omega

theorem Balanced.runFdDrop (hr : r ∈ s.pending) (hfd : r.fd = true) : Balanced (s.runFdDrop r) := by
  rw [Handles.runFdDrop, fdDrop_eq]
  · refine ⟨fun o ho => ?_, fun c => ?_, hb.gone, hb.whole, hb.live⟩
    · have hcount := countP_erase_add hr (Release.names o)
      have hbal := hb.ref o ho
      simp only [layerRefs, slotRefs, countP_cons_toNat, Release.names] at hcount hbal ⊢
      omega
    · have hcount := countP_erase_add hr (Release.descriptor c)
      have hbal := hb.fd c
      simp only [descriptors, slotRefs, countP_cons_toNat, Release.descriptor, hfd, Release.names,
        Bool.true_and, Bool.false_and, Bool.toNat_false] at hcount hbal ⊢
      omega
  · intro i hk hi
    have hpos : 0 < s.pending.countP (Release.descriptor i) :=
      countP_pos_iff.mpr ⟨r, hr, by rw [Release.descriptor, hfd]; exact hk ▸ names_self hi⟩
    rw [hb.fd, descriptors]
    omega

theorem Balanced.handleEndowDrop (hh : h ∈ s.endowed) : Balanced (s.handleEndowDrop h) := by
  refine ⟨fun o ho => ?_, fun c => ?_, hb.gone, hb.whole, hb.live⟩
  · have hcount := countP_erase_add hh (Handle.names o)
    have hbal := hb.ref o ho
    simp only [Handles.handleEndowDrop, capture, layerRefs, slotRefs, countP_cons_toNat,
      Release.names, Handle.names] at hcount hbal ⊢
    omega
  · have hcount := countP_erase_add hh (Handle.names (.spoor, c))
    have hbal := hb.fd c
    simp only [Handles.handleEndowDrop, capture, descriptors, slotRefs, countP_cons_toNat,
      Release.descriptor, Release.names, Handle.names, Bool.true_and] at hcount hbal ⊢
    omega

/-- The child's slot takes over the endowment. -/
theorem Balanced.settled (hx : x.1 ∈ s.procs) (hfree : s.slots x = none) (hh : h ∈ s.endowed) :
    Balanced (s.settled x h) := by
  have hmem : x.1 ∈ s.procs ∪ s.freeing := Finset.mem_union_left _ hx
  have hheld := held_update (hb.whole x hx) s.slots (some h)
  have hold : held s.spent s.slots x = none := by rw [held_eq (hb.whole x hx), hfree]
  rw [Handles.settled, placed_eq, fdDrop_eq]
  · refine ⟨fun o ho => ?_, fun c => ?_, gone_update hb hmem _, hb.whole, hb.live⟩
    · have hcount := countIf_update (mem_places hmem) (Option.any (Handle.names o))
        (held s.spent s.slots) (some h)
      have herase := countP_erase_add hh (Handle.names o)
      have hbal := hb.ref o ho
      simp only [layerRefs, slotRefs, hheld, hold, Option.any, Bool.toNat_false] at hcount hbal ⊢
      omega
    · have hcount := countIf_update (mem_places hmem) (Option.any (Handle.names (.spoor, c)))
        (held s.spent s.slots) (some h)
      have herase := countP_erase_add hh (Handle.names (.spoor, c))
      have hbal := hb.fd c
      simp only [descriptors, slotRefs, hheld, hold, Option.any, Bool.toNat_false, Handle.names]
        at hcount herase hbal ⊢
      omega
  · intro i hk hi
    have hname : h.names (.spoor, i) = true := hk ▸ names_self hi
    simp only [hname, Bool.toNat_true]
    omega

end

/-! ### Tables -/

/-- The slots of a Proc without handles do not count. -/
theorem countIf_procs {a b : Finset ℕ} {f : SlotId → Option Handle} (hab : a ⊆ b)
    (hf : ∀ x : SlotId, x.1 ∉ a → f x = none) (o : Kobj) :
    countIf (b ×ˢ univ) (Option.any (Handle.names o)) f =
      countIf (a ×ˢ univ) (Option.any (Handle.names o)) f := by
  refine countIf_of_subset (Finset.product_subset_product_left hab) fun x _ hx => ?_
  rw [hf x fun hxa => hx (Finset.mem_product.mpr ⟨hxa, mem_univ _⟩)]
  rfl

section

variable (hb : Balanced s)
include hb

/-- The tables change, and no slot that holds a reference. -/
theorem Balanced.tables {procs freeing : Finset ℕ} {slots : SlotId → Option Handle}
    {spent : SlotId → Bool} (hheld : held spent slots = held s.spent s.slots)
    (hsub : procs ∪ freeing ⊆ s.procs ∪ s.freeing ∨ s.procs ∪ s.freeing ⊆ procs ∪ freeing)
    (hgone : ∀ x : SlotId, x.1 ∉ procs ∪ freeing → slots x = none)
    (hwhole : ∀ x : SlotId, x.1 ∈ procs → spent x = false) :
    Balanced { s with procs, freeing, slots, spent, cloexec := b } := by
  have hcount (o : Kobj) : countIf ((procs ∪ freeing) ×ˢ univ) (Option.any (Handle.names o))
      (held spent slots) = s.slotRefs o := by
    rw [slotRefs, ← hheld]
    rcases hsub with hsub | hsub
    · refine (countIf_procs hsub (fun x hx => ?_) o).symm
      rw [held, hgone x hx, ite_self]
    · refine countIf_procs hsub (fun x hx => ?_) o
      rw [hheld, held, hb.gone x hx, ite_self]
  refine ⟨fun o ho => ?_, fun c => ?_, hgone, hwhole, hb.live⟩
  · rw [layerRefs, slotRefs, hcount]
    exact hb.ref o ho
  · rw [descriptors, slotRefs, hcount]
    exact hb.fd c

theorem Balanced.handleTableAlloc (hp : p ∉ s.procs ∧ p ∉ s.freeing) :
    Balanced (s.handleTableAlloc p) := by
  have hnone (x : SlotId) (hx : x.1 = p) : s.slots x = none := hb.gone x (by simpa [hx] using hp)
  refine hb.tables (funext fun x => ?_) (.inr ?_) (fun x hx => ?_) fun x hx => ?_
  · by_cases hxp : x.1 = p
    · simp [held, hxp, hnone]
    · simp [held, hxp]
  · exact Finset.union_subset_union_left (Finset.subset_insert p s.procs)
  · by_cases hxp : x.1 = p
    · exact if_pos hxp
    · rw [if_neg hxp]
      exact hb.gone x fun hxs => hx (Finset.union_subset_union_left (Finset.subset_insert p s.procs) hxs)
  · by_cases hxp : x.1 = p
    · exact if_pos hxp
    · rw [if_neg hxp]
      exact hb.whole x (Finset.mem_of_mem_insert_of_ne hx hxp)

section

variable (hx : x.1 ∉ s.procs)
include hx

/-- A mark on a slot of a table that is being freed. -/
theorem Balanced.whole_update (b : Bool) (y : SlotId) (hy : y.1 ∈ s.procs) :
    update s.spent x b y = false := by
  rw [update_of_ne, hb.whole y hy]
  rintro rfl
  exact hx hy

/-- `handle_table_free` at a slot: the release has its reference. -/
theorem Balanced.spend (hmem : x.1 ∈ s.procs ∪ s.freeing) (hslot : s.slots x = some slot)
    (hspent : s.spent x = false) :
    Balanced ({ s with spent := update s.spent x true }.capture
      ⟨slot.kind, slot.obj, true, some x⟩) := by
  refine hb.write hmem none _ (funext fun y => ?_) hb.gone (hb.whole_update hx true)
    (fun _ _ => rfl) (fun _ => rfl) (fun o => ?_) (fun c => ?_)
  · by_cases hy : y = x
    · simp [held, hy]
    · simp [held, hy]
  all_goals
    rw [countP_cons_toNat, held_eq hspent, hslot]
    rfl

/-- And empties it in the end. -/
theorem Balanced.unspend (hmem : x.1 ∈ s.procs ∪ s.freeing) (hspent : s.spent x = true) :
    Balanced { s.setSlot x none with spent := update s.spent x false } := by
  refine hb.tables (funext fun y => ?_) (.inl (Finset.Subset.refl _)) (gone_update hb hmem none)
    (hb.whole_update hx false)
  by_cases hy : y = x
  · simp [held, setSlot, hy, hspent]
  · simp [held, setSlot, hy]

end

theorem Balanced.handleTableFree (hp : p ∈ s.procs ∨ p ∈ s.freeing) :
    Balanced (s.handleTableFree p) := by
  have hmem : p ∈ s.procs ∪ s.freeing := Finset.mem_union.mpr hp
  fun_cases Handles.handleTableFree s p with
  | case1 hcalls =>
    have hunion : s.procs.erase p ∪ insert p s.freeing = s.procs ∪ s.freeing := by
      rw [Finset.union_insert, ← Finset.insert_union, Finset.insert_erase hcalls]
    refine hb.tables rfl (.inl hunion.le) (fun x hx => hb.gone x (hunion ▸ hx)) fun x hx =>
      hb.whole x (Finset.mem_of_mem_erase hx)
  | case2 hcalls hfind =>
    -- the walk is through, so that the table is empty
    refine hb.tables rfl (.inl (Finset.union_subset_union_right (Finset.erase_subset p _)))
      (fun x hx => ?_) hb.whole
    by_cases hxp : x.1 = p
    · have hnone := find?_eq_none.mp hfind x.2 (mem_finRange _)
      rw [← hxp] at hnone
      exact Option.not_isSome_iff_eq_none.mp hnone
    · exact hb.gone x (by simpa [hxp] using hx)
  | case3 | case5 => exact hb
  | case4 hcalls i _ hspent slot hslot => exact hb.spend hcalls hmem hslot hspent
  | case6 hcalls i _ hspent => exact hb.unspend hcalls hmem (by simpa using hspent)

theorem Balanced.handleTableCopyInto (hdst : dst ∈ s.procs) (hsrc : src ∈ s.procs)
    (hfree : ∀ i, s.slots (dst, i) = none) : Balanced (s.handleTableCopyInto dst src).2 := by
  refine (copy_invariant (I := fun s => Balanced s ∧ dst ∈ s.procs ∧ src ∈ s.procs) ?_ _
    (nodup_finRange _) ⟨hb, hdst, hsrc⟩ 0 fun i _ => hfree i).1
  rintro s i h ⟨hb, hdst, hsrc⟩ hfree hslot -
  refine ⟨hb.dup hdst hfree (hb.alive_slot hsrc hslot) _, ?_⟩
  rw [placed_eq, (acquireObj_same s _ _).procs]
  exact ⟨hdst, hsrc⟩

/-! ### Other holders -/

theorem Balanced.create (hk : o.1.isCounted) (ho : s.ref o = 0) :
    Balanced { s with ref := update s.ref o 1, ext := update s.ext o 1 } := by
  refine ⟨fun o' ho' => ?_, hb.fd, hb.gone, hb.whole, hb.live⟩
  have hbal := hb.ref o' ho'
  by_cases heq : o' = o
  · subst heq
    simp only [update_self, layerRefs, slotRefs] at hbal ⊢
    omega
  · simp only [update_of_ne heq] at hbal ⊢
    exact hbal

end

/-- Other holders' references are none of the layer. -/
theorem refWeight_self (ho : o.1.isCounted) (o' : Kobj) :
    refWeight o.1 (some o.2) o' = if o' = o then 1 else 0 := by
  rw [refWeight, if_pos ho, names_some]
  split <;> simp [*]

theorem Balanced.extAcquire (hb : Balanced s) (hk : o.1.isCounted) (ho : 0 < s.ref o) :
    Balanced ({ s with ext := update s.ext o (s.ext o + 1) }.acquireObj o.1 (some o.2)) := by
  rw [acquireObj_eq]
  · refine ⟨fun o' ho' => ?_, hb.fd, hb.gone, hb.whole, hb.live⟩
    have hbal := hb.ref o' ho'
    simp only [layerRefs, slotRefs, refWeight_self hk, update_apply] at hbal ⊢
    split
    · subst_vars
      omega
    · omega
  · rintro i ⟨⟩ -
    exact ho

theorem Balanced.extRelease (hb : Balanced s) (hk : o.1.isCounted) (ho : 0 < s.ext o) :
    Balanced ({ s with ext := update s.ext o (s.ext o - 1) }.releaseObj o.1 (some o.2)) := by
  have href := hb.ref o hk
  rw [releaseObj_eq]
  · refine ⟨fun o' ho' => ?_, hb.fd, hb.gone, hb.whole, hb.live⟩
    have hbal := hb.ref o' ho'
    simp only [layerRefs, slotRefs, refWeight_self hk, update_apply] at hbal ⊢
    split
    · subst_vars
      omega
    · omega
  · rintro i ⟨⟩ -
    show 0 < s.ref o
    omega
  · rintro i ⟨⟩ hspoor
    have hle := hb.fdRefs_le o.2
    rw [show (KobjKind.spoor, o.2) = o from Prod.ext hspoor.symm rfl] at hle ⊢
    dsimp only
    omega

/-! ### Runs -/

theorem Balanced.holds_alive (hb : Balanced s) (hh : s.Holds h) : s.Alive h.kind h.obj := by
  intro i hi hk
  have hpos := hh i hi hk
  rw [hb.ref _ hk]
  omega

theorem foldl_copySlot_nonneg (l : List (Fin procHandleMax)) (acc : ℤ × Handles)
    (hacc : 0 ≤ acc.1) : 0 ≤ (l.foldl (copySlot dst src) acc).1 := by
  induction l generalizing acc with
  | nil => exact hacc
  | cons i l ih =>
    refine ih _ ?_
    unfold copySlot
    repeat' split
    all_goals first | exact hacc | exact Int.add_nonneg hacc Int.one_nonneg

/-- What a call comes to, by the counts of the objects. -/
theorem Balanced.outcome (hb : Balanced s) (hop : s.Allowed op) : Outcome s (s.call op) := by
  cases op with
  | tableAlloc => exact .done le_rfl (.tableAlloc hop)
  | tableFree p =>
    have hdone : Done s (s.handleTableFree p) := .tableFree hop
    exact .done le_rfl hdone
  | alloc => exact call_alloc_outcome (hb.holds_alive hop.2).accounted hop
  | close => exact handleClose_outcome hop
  | replace => exact call_replace_outcome hop.1 hop.2
  | get => exact handleGet_outcome hop
  | put => exact .done le_rfl (.put hop)
  | endow => exact handleEndowSpoor_outcome hop
  | endowDrop => exact .done le_rfl (.endowDrop hop)
  | endowInstall => exact endowInstall_outcome (hb.alive fun _ => layerRefs_endowed hop.2).accounted hop
  | dup => exact (handleDupCommon_outcome hop _ 0 false).flat
  | dupPosix => exact (handleDupCommon_outcome hop none _ _).flat
  | dupTo => exact (handleDupToChecked_outcome hop _ _ _).flat
  | copyInto =>
    exact .done (foldl_copySlot_nonneg _ _ le_rfl) (.copyInto hop.1 hop.2.1 fun i =>
      (hop.2.2.2 i).1)
  | setCloexec => exact handleSetCloexec_outcome _
  | cloexecTake => exact .done le_rfl .cloexecTake
  | fdDrop => exact .done le_rfl (.fdDrop hop)
  | release => exact .done le_rfl (.release hop)
  | create => exact .done le_rfl (.create hop)
  | extAcquire => exact .done le_rfl (.extAcquire hop)
  | extRelease => exact .done le_rfl (.extRelease hop)

theorem Balanced.done {s' : Handles} (hb : Balanced s) (h : Done s s') : Balanced s' := by
  cases h with
  | tableAlloc hp => exact hb.handleTableAlloc hp
  | tableFree hp => exact hb.handleTableFree hp
  | alloc hx hfree hvalid hh => exact hb.alloc hx hfree hh _ false
  | close hx hslot => exact hb.closed hx hslot
  | replace hx hslot hvalid hh => exact hb.replaced hx hslot hh _
  | get hx hslot => exact hb.snapped (hb.alive_slot hx hslot)
  | put hh => exact hb.handlePut hh
  | endow hx hslot => exact hb.endowedWith (hb.alive_slot hx hslot)
  | endowDrop he => exact hb.handleEndowDrop he
  | endowInstall hx hfree he => exact hb.settled hx hfree he
  | dup hx hfree hy hparent hdup =>
    refine hb.dup hx hfree ?_ _
    rw [hdup.kind, hdup.obj]
    exact hb.alive_slot hy hparent
  | dupTo hx hy hsrc => exact hb.aliased hx (hb.alive_slot hy hsrc) _
  | copyInto hdst hsrc hfree => exact hb.handleTableCopyInto hdst hsrc hfree
  | setCloexec | cloexecTake => exact ⟨hb.ref, hb.fd, hb.gone, hb.whole, hb.live⟩
  | fdDrop hr => exact hb.runFdDrop hr.1 hr.2
  | release hr => exact hb.runRelease hr.1 hr.2
  | create ho => exact hb.create ho.1 ho.2
  | extAcquire ho => exact hb.extAcquire ho.1 ho.2
  | extRelease ho => exact hb.extRelease ho.1 ho.2

/-- **Every call** keeps the balance. -/
theorem Balanced.call (hb : Balanced s) (hop : s.Allowed op) : Balanced (s.call op).2 := by
  have hout := hb.outcome hop
  generalize s.call op = r at hout ⊢
  cases hout with
  | refused => exact hb
  | rolledBack _ hx hparent => exact hb.rolledBack (hb.alive_slot hx hparent)
  | done _ h => exact hb.done h

theorem Reachable.balanced (hs : Reachable s) : Balanced s := by
  induction hs with
  | init devsrv => exact ⟨fun _ _ => rfl, fun _ => rfl, fun _ _ => rfl, fun _ _ => rfl, rfl⟩
  | call _ op hop ih => exact ih.call hop

/-! ### Refused calls -/

/-- A Proc that has opened a Spoor. -/
def opened : Handles :=
  ((((init fun _ => false).call (.tableAlloc 0)).2.call (.create (.spoor, 0))).2.call
    (.alloc 0 ⟨.spoor, 1, some 0⟩)).2

theorem opened_reachable : Reachable opened := by
  refine .call (.call (.call (.init _) (.tableAlloc 0) ?_) (.create (.spoor, 0)) ?_)
    (.alloc 0 ⟨.spoor, 1, some 0⟩) ?_
  · exact ⟨Finset.notMem_empty 0, Finset.notMem_empty 0⟩
  · exact ⟨rfl, rfl⟩
  · refine ⟨Finset.mem_insert_self 0 ∅, ?_⟩
    rintro o ⟨⟩ -
    exact one_pos

/-- It has closed it and not yet dropped the descriptor. -/
def closing : Handles := (opened.call (.close 0 0)).2

/-- It exits instead: `handle_table_free` has given back descriptor and reference, and not yet
emptied the slot. -/
def exiting : Handles :=
  ((((opened.call (.tableFree 0)).2.call (.tableFree 0)).2.call
    (.fdDrop ⟨.spoor, some 0, true, some (0, ⟨0, by decide⟩)⟩)).2.call
    (.release ⟨.spoor, some 0, false, some (0, ⟨0, by decide⟩)⟩)).2

end Handles

end Thylacine
