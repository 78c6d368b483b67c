import Thylacine.Handle.Ledger

/-!
# Handles as Capabilities

What a handle may do was given with `handle_alloc` or `handle_replace` and only gets less: along
chains of duplicates, forks and endowments, and across slots that are used again.

## Main results

* `capability_laws`: rights are within those given, an object that may not be transferred is named
  by one slot of the Proc that allocated it, and an exec closes exactly the flagged slots.
-/

namespace Thylacine

open List

namespace Handles

open Function (update update_of_ne update_self)

variable {s s' : Handles} {p : ℕ} {x : SlotId} {e : Option Handle} {h : Handle}

/-- A handle has some rights, within those **given** with its object. -/
def Granted (s : Handles) (h : Handle) : Prop :=
  h.rights ≠ 0 ∧ ∃ g ∈ s.given, g.2.kind = h.kind ∧ g.2.obj = h.obj ∧
    h.rights &&& g.2.rights = h.rights

/-- The object of a handle of `p` was allocated by `p`. -/
def AtOrigin (s : Handles) (p : ℕ) (h : Handle) : Prop :=
  ∃ g ∈ s.given, g.1 = p ∧ g.2.kind = h.kind ∧ g.2.obj = h.obj

/-- An object that may not be transferred got a handle **at most once**. -/
def MintedOnce (s : Handles) : Prop :=
  ∀ o : Kobj, o.1.isTransferable = false → (s.given.countP fun g => g.2.names o) ≤ 1

/-- Two handles of one object that may not be transferred. -/
def Rivals (h h' : Handle) : Prop :=
  h.kind.isTransferable = false ∧ h.kind = h'.kind ∧ h.obj = h'.obj ∧ h.obj ≠ none

theorem Rivals.symm {h h' : Handle} (hr : Rivals h h') : Rivals h' h := by
  obtain ⟨ht, hk, ho, hn⟩ := hr
  exact ⟨hk ▸ ht, hk.symm, ho.symm, ho ▸ hn⟩

structure Lawful (s : Handles) : Prop where
  granted : ∀ x h, s.slots x = some h → s.Granted h
  endowed : ∀ h ∈ s.endowed, h.kind = .spoor ∧ s.Granted h
  origin : ∀ x h, s.slots x = some h → h.kind.isTransferable = false → s.AtOrigin x.1 h
  alone : s.MintedOnce → ∀ x y h h', s.slots x = some h → s.slots y = some h' → Rivals h h' → x = y
  cloexec : ∀ x, x.1 ∉ s.freeing → s.cloexec x = true → s.slots x ≠ none

theorem Granted.mono (hg : s.Granted h) (hsub : s.given ⊆ s'.given) : s'.Granted h := by
  obtain ⟨hne, g, hmem, hrest⟩ := hg
  exact ⟨hne, g, hsub hmem, hrest⟩

theorem AtOrigin.mono (ho : s.AtOrigin p h) (hsub : s.given ⊆ s'.given) : s'.AtOrigin p h := by
  obtain ⟨g, hmem, hrest⟩ := ho
  exact ⟨g, hsub hmem, hrest⟩

theorem MintedOnce.anti (hm : s'.MintedOnce) (hsub : s.given <:+ s'.given) : s.MintedOnce :=
  fun o ho => (hsub.sublist.countP_le).trans (hm o ho)

/-- Handles may go, and counts may change. -/
theorem Lawful.shrink (hl : Lawful s) (hslots : ∀ y h, s'.slots y = some h → s.slots y = some h)
    (hgiven : s'.given = s.given) (hendowed : ∀ h ∈ s'.endowed, h ∈ s.endowed)
    (hcloexec : ∀ y, y.1 ∉ s'.freeing → s'.cloexec y = true → s'.slots y ≠ none) :
    Lawful s' := by
  have hsub : s.given ⊆ s'.given := by rw [hgiven]; exact .refl _
  refine ⟨fun y h hy => ?_, fun h hh => ?_, fun y h hy ht => ?_, fun hm y z h h' hy hz => ?_,
    hcloexec⟩
  · exact (hl.granted y h (hslots y h hy)).mono hsub
  · exact ⟨(hl.endowed h (hendowed h hh)).1, (hl.endowed h (hendowed h hh)).2.mono hsub⟩
  · exact (hl.origin y h (hslots y h hy) ht).mono hsub
  · exact hl.alone (hm.anti (hgiven ▸ suffix_refl _)) y z h h' (hslots y h hy) (hslots z h' hz)

theorem Lawful.same (hl : Lawful s) (hs : SameTables s s') : Lawful s' :=
  hl.shrink (fun y h hy => by rwa [hs.slots] at hy) hs.given (fun h hh => by rwa [hs.endowed] at hh)
    (fun y hf hy => by
      rw [hs.slots]
      exact hl.cloexec y (hs.freeing ▸ hf) (by rwa [hs.cloexec] at hy))

/-- A handle is **written** into a slot. -/
theorem Lawful.put (hl : Lawful s) (hslots : s'.slots = update s.slots x (some h))
    (hfreeing : s'.freeing = s.freeing)
    (hgiven : s.given <:+ s'.given) (hendowed : ∀ h ∈ s'.endowed, h ∈ s.endowed)
    (hcloexec : ∀ y, y ≠ x → s'.cloexec y = true → s.cloexec y = true)
    (hg : s'.Granted h) (horigin : h.kind.isTransferable = false → s'.AtOrigin x.1 h)
    (halone : s'.MintedOnce → ∀ y h', y ≠ x → s.slots y = some h' → ¬Rivals h h') :
    Lawful s' := by
  have hold (y : SlotId) (h' : Handle) (hy : s'.slots y = some h') :
      (y = x ∧ h' = h) ∨ (y ≠ x ∧ s.slots y = some h') := by
    rw [hslots] at hy
    by_cases hyx : y = x
    · rw [hyx, update_self] at hy
      exact .inl ⟨hyx, (Option.some_inj.mp hy).symm⟩
    · rw [update_of_ne hyx] at hy
      exact .inr ⟨hyx, hy⟩
  refine ⟨fun y h' hy => ?_, fun h' hh => ?_, fun y h' hy ht => ?_,
    fun hm y z h₁ h₂ hy hz hr => ?_, fun y hf hy => ?_⟩
  · rcases hold y h' hy with ⟨-, rfl⟩ | ⟨-, hy⟩
    · exact hg
    · exact (hl.granted y h' hy).mono hgiven.subset
  · exact ⟨(hl.endowed h' (hendowed h' hh)).1, (hl.endowed h' (hendowed h' hh)).2.mono hgiven.subset⟩
  · rcases hold y h' hy with ⟨rfl, rfl⟩ | ⟨-, hy⟩
    · exact horigin ht
    · exact (hl.origin y h' hy ht).mono hgiven.subset
  · rcases hold y h₁ hy with ⟨rfl, rfl⟩ | ⟨hyx, hy⟩ <;>
      rcases hold z h₂ hz with ⟨rfl, rfl⟩ | ⟨hzx, hz⟩
    · rfl
    · exact absurd hr (halone hm z h₂ hzx hz)
    · exact absurd hr.symm (halone hm y h₁ hyx hy)
    · exact hl.alone (hm.anti hgiven) y z h₁ h₂ hy hz hr
  · rw [hslots]
    by_cases hyx : y = x
    · rw [hyx, update_self]
      exact Option.some_ne_none h
    · rw [update_of_ne hyx]
      exact hl.cloexec y (hfreeing ▸ hf) (hcloexec y hyx hy)

/-! ### What the calls keep -/

theorem handleSlotMayAlias_transferable (ha : s.handleSlotMayAlias h = true) :
    h.kind.isTransferable = true := by
  unfold handleSlotMayAlias at ha
  split at ha
  · cases ha
  · rename_i ht
    exact Bool.not_eq_false _ ▸ ht

theorem Granted.reduce {new : Handle} (hg : s.Granted h) (hd : s.MayDup h new)
    (hne : new.rights ≠ 0) : s.Granted new := by
  obtain ⟨-, g, hmem, hk, ho, hr⟩ := hg
  refine ⟨hne, g, hmem, hk.trans hd.kind.symm, ho.trans hd.obj.symm, ?_⟩
  calc new.rights &&& g.2.rights
      = new.rights &&& h.rights &&& g.2.rights := by rw [hd.rights]
    _ = new.rights &&& (h.rights &&& g.2.rights) := UInt32.and_assoc _ _ _
    _ = new.rights := by rw [hr, hd.rights]

/-- A second handle, in any slot, may be transferred. -/
theorem Lawful.second (hl : Lawful s) (hg : s.Granted h) (ht : h.kind.isTransferable = true)
    (hslots : s'.slots = update s.slots x (some h)) (hfreeing : s'.freeing = s.freeing)
    (hgiven : s'.given = s.given) (hendowed : ∀ h ∈ s'.endowed, h ∈ s.endowed)
    (hcloexec : ∀ y, y ≠ x → s'.cloexec y = true → s.cloexec y = true) : Lawful s' := by
  refine hl.put hslots hfreeing (hgiven ▸ suffix_refl _) hendowed hcloexec
    (hg.mono (by rw [hgiven]; exact .refl _)) (fun hf => ?_) fun _ y h' _ _ hr => ?_
  · rw [ht] at hf
    cases hf
  · rw [hr.1] at ht
    cases ht

theorem slots_of_update_none {y : SlotId} (hy : update s.slots x none y = some h) :
    s.slots y = some h := by
  rw [Function.update_apply] at hy
  exact (Option.ite_none_left_eq_some.mp hy).2

theorem update_of_ne_true {f : SlotId → Bool} {b : Bool} (y : SlotId) (hy : y ≠ x)
    (hf : update f x b y = true) : f y = true := by
  rwa [update_of_ne hy] at hf

section

variable (hl : Lawful s)
include hl

theorem Lawful.placed (hg : s.Granted h) (ht : h.kind.isTransferable = true)
    (kind : KobjKind) (obj : Option ℕ) (b : Bool) :
    Lawful ((s.acquireObj kind obj).placed x h b) := by
  have hsame := acquireObj_same s kind obj
  refine hl.second (x := x) hg ht ?_ ?_ ?_ ?_ ?_ <;> rw [placed_eq]
  · exact congrArg (update · x (some h)) hsame.slots
  · exact hsame.freeing
  · exact hsame.given
  · intro e he
    rwa [← hsame.endowed]
  · rw [hsame.cloexec]
    exact update_of_ne_true

theorem Lawful.aliased (hg : s.Granted h) (ht : h.kind.isTransferable = true)
    (b : Bool) : Lawful (s.aliased x h b) := by
  have hp := hl.placed (x := x) hg ht h.kind h.obj b
  unfold Handles.aliased
  split
  · exact hp
  · exact hp.same ⟨rfl, rfl, rfl, rfl, rfl, rfl⟩

/-- A handle given to `handle_alloc` or `handle_replace`. -/
theorem Lawful.given (hne : h.rights ≠ 0)
    (hslots : s'.slots = update s.slots x (some h)) (hfreeing : s'.freeing = s.freeing)
    (hgiven : s'.given = (x.1, h) :: s.given) (hendowed : ∀ h ∈ s'.endowed, h ∈ s.endowed)
    (hcloexec : ∀ y, y ≠ x → s'.cloexec y = true → s.cloexec y = true) : Lawful s' := by
  have hmem : (x.1, h) ∈ s'.given := by
    rw [hgiven]
    exact mem_cons_self
  refine hl.put hslots hfreeing (hgiven ▸ suffix_cons _ _) hendowed hcloexec
    ⟨hne, _, hmem, rfl, rfl, UInt32.and_self⟩ (fun _ => ⟨_, hmem, rfl, rfl, rfl⟩) ?_
  -- a slot that names the object already was given it before, so this would be a second time
  rintro hm y h' - hy ⟨ht, hk, ho, hn⟩
  obtain ⟨i, hi⟩ := Option.ne_none_iff_exists'.mp hn
  obtain ⟨g, hg, -, hgk, hgo⟩ := hl.origin y h' hy (hk ▸ ht)
  have hname : g.2.names (h.kind, i) = true := by
    rw [Handle.names, hgk, hgo, ← hk, ← ho]
    exact names_self hi
  have hself : h.names (h.kind, i) = true := names_self hi
  have htwo := hm (h.kind, i) ht
  have hpos : 0 < s.given.countP (·.2.names (h.kind, i)) := countP_pos_iff.mpr ⟨_, hg, hname⟩
  simp only [hgiven, countP_cons_toNat, hself, Bool.toNat_true] at htwo
  omega

theorem Lawful.endowedWith (hk : h.kind = .spoor) (hg : s.Granted h) :
    Lawful (s.endowedWith h) := by
  have hsame : SameTables s ((s.acquireObj h.kind h.obj).fdCount h.kind h.obj) :=
    (acquireObj_same s _ _).trans (fdCount_same _ _ _)
  have hl' := hl.same hsame
  refine ⟨hl'.granted, forall_mem_cons.mpr ⟨?_, hl'.endowed⟩, hl'.origin, hl'.alone, hl'.cloexec⟩
  exact ⟨hk, hg.mono fun g hgiven => hsame.given ▸ hgiven⟩

theorem Lawful.settled (hh : h ∈ s.endowed) : Lawful (s.settled x h) := by
  obtain ⟨hk, hg⟩ := hl.endowed h hh
  refine same ?_ (fdDrop_same _ _ _)
  refine hl.second (x := x) hg (by rw [hk]; rfl) ?_ ?_ ?_ ?_ ?_ <;> rw [placed_eq]
  · exact fun e he => mem_of_mem_erase he
  · exact update_of_ne_true

theorem Lawful.closed {slot : Handle} : Lawful (s.closed x slot) := by
  refine hl.shrink (fun y h hy => ?_) rfl (fun _ => id) fun y hf hy => ?_
  · exact slots_of_update_none hy
  · by_cases hyx : y = x
    · rw [hyx] at hy
      simp [Handles.closed, capture, cloexecSetLocked] at hy
    · have hold : s.cloexec y = true := update_of_ne_true y hyx hy
      show update s.slots x none y ≠ none
      rw [update_of_ne hyx]
      exact hl.cloexec y hf hold

end

section

variable (hl : Lawful s)
include hl

theorem Lawful.handleTableAlloc : Lawful (s.handleTableAlloc p) := by
  refine hl.shrink (fun y h hy => ?_) rfl (fun _ => id) fun y hf hy => ?_
  · exact (Option.ite_none_left_eq_some.mp hy).2
  · dsimp only [Handles.handleTableAlloc] at hy ⊢
    split at hy
    · cases hy
    · rw [if_neg ‹_›]
      exact hl.cloexec y hf hy

/-- The bits of emptied slots stay set. -/
theorem Lawful.handleTableFree (hp : p ∈ s.procs ∨ p ∈ s.freeing) :
    Lawful (s.handleTableFree p) := by
  fun_cases Handles.handleTableFree s p with
  | case1 =>
    refine hl.shrink (fun _ _ => id) rfl (fun _ => id) fun y hf => hl.cloexec y ?_
    exact fun hy => hf (Finset.mem_insert_of_mem hy)
  | case2 =>
    refine hl.shrink (fun _ _ => id) rfl (fun _ => id) fun y hf hy => ?_
    dsimp only at hf hy
    split at hy
    · cases hy
    · exact hl.cloexec y (fun hmem => hf (Finset.mem_erase.mpr ⟨‹_›, hmem⟩)) hy
  | case3 | case5 => exact hl
  | case4 => exact hl.same ⟨rfl, rfl, rfl, rfl, rfl, rfl⟩
  | case6 hproc i =>
    refine hl.shrink (fun y h hy => ?_) rfl (fun _ => id) fun y hf hy => ?_
    · exact slots_of_update_none hy
    · have hne : y ≠ (p, i) := by
        rintro rfl
        exact hf (hp.resolve_left hproc)
      show update s.slots (p, i) none y ≠ none
      rw [update_of_ne hne]
      exact hl.cloexec y hf hy

theorem Lawful.cloexecTake : Lawful (s.cloexecTake p) := by
  refine hl.shrink (fun _ _ => id) rfl (fun _ => id) fun y hf hy => ?_
  dsimp only [Handles.cloexecTake] at hy
  split at hy
  · cases hy
  · exact hl.cloexec y hf hy

theorem Lawful.handleTableCopyInto {dst src : ℕ} (hfree : ∀ i, s.slots (dst, i) = none) :
    Lawful (s.handleTableCopyInto dst src).2 := by
  refine copy_invariant ?_ _ (nodup_finRange _) hl 0 fun i _ => hfree i
  intro s i h hl _ hsrc halias
  exact hl.placed (hl.granted _ h hsrc) (handleSlotMayAlias_transferable halias) _ _ _

/-- A step on counts and lists of references only. -/
theorem Lawful.counts {t : Handles} (hs : SameTables t s') (ht : SameTables s t) : Lawful s' :=
  hl.same (ht.trans hs)

theorem Lawful.done (h : Done s s') : Lawful s' := by
  cases h with
  | tableAlloc => exact hl.handleTableAlloc
  | tableFree hp => exact hl.handleTableFree hp
  | alloc hx hfree hvalid =>
    rw [placed_eq, handOver_eq]
    exact hl.given (validAllocArgs_iff.mp hvalid).2.1 rfl rfl rfl (fun _ => id) update_of_ne_true
  | close => exact hl.closed
  | replace hx hslot hvalid =>
    rw [handOver_eq, replaced, fdCount_eq]
    exact hl.given (validAllocArgs_iff.mp hvalid).2.1 rfl rfl rfl (fun _ => id) fun _ _ => id
  | get => exact (hl.same (acquireObj_same s _ _)).same ⟨rfl, rfl, rfl, rfl, rfl, rfl⟩
  | put | release | extRelease => exact hl.counts (releaseObj_same _ _ _) ⟨rfl, rfl, rfl, rfl, rfl, rfl⟩
  | endow hx hslot hkind => exact hl.endowedWith hkind (hl.granted _ _ hslot)
  | endowDrop => exact hl.shrink (fun _ _ => id) rfl (fun _ hh => mem_of_mem_erase hh) hl.cloexec
  | endowInstall hx hfree he => exact hl.settled he
  | dup hx hfree hy hparent hdup hvalid =>
    refine hl.placed ((hl.granted _ _ hparent).reduce hdup (validAllocArgs_iff.mp hvalid).2.1) ?_
      _ _ _
    rw [hdup.kind]
    exact handleSlotMayAlias_transferable hdup.may
  | dupTo hx hy hsrc halias =>
    exact hl.aliased (hl.granted _ _ hsrc) (handleSlotMayAlias_transferable halias) _
  | copyInto hdst hsrc hfree => exact hl.handleTableCopyInto hfree
  | setCloexec hslot =>
    refine hl.shrink (fun _ _ => id) rfl (fun _ => id) fun y hf hy => ?_
    rename_i x slot on
    by_cases hyx : y = x
    · rw [hyx]
      exact fun hnone => Option.some_ne_none slot (hslot.symm.trans hnone)
    · exact hl.cloexec y hf (update_of_ne_true y hyx hy)
  | cloexecTake => exact hl.cloexecTake
  | fdDrop => exact hl.counts (fdDrop_same _ _ _) ⟨rfl, rfl, rfl, rfl, rfl, rfl⟩
  | create => exact hl.same ⟨rfl, rfl, rfl, rfl, rfl, rfl⟩
  | extAcquire => exact hl.counts (acquireObj_same _ _ _) ⟨rfl, rfl, rfl, rfl, rfl, rfl⟩

/-- **Every call** keeps the laws. -/
theorem Lawful.call (hb : Balanced s) {op : Op} (hop : s.Allowed op) : Lawful (s.call op).2 := by
  have hout := hb.outcome hop
  generalize s.call op = r at hout ⊢
  cases hout with
  | refused => exact hl
  | rolledBack => exact (hl.same (acquireObj_same s _ _)).same ⟨rfl, rfl, rfl, rfl, rfl, rfl⟩
  | done _ h => exact hl.done h

end

theorem Reachable.lawful (hs : Reachable s) : Lawful s := by
  induction hs with
  | init devsrv => exact ⟨nofun, nofun, nofun, (fun _ _ _ _ _ hx => nomatch hx), nofun⟩
  | call hs op hop ih => exact ih.call hs.balanced hop

/-! ### Fork and exec -/

/-- The table of `dst` was copied from that of `src`, which is as in `s`. -/
def CopiedFrom (s : Handles) (dst src : ℕ) (t : Handles) : Prop :=
  (∀ i, t.slots (src, i) = s.slots (src, i) ∧ t.cloexec (src, i) = s.cloexec (src, i)) ∧
    ∀ i, t.slots (dst, i) = none ∨
      t.slots (dst, i) = s.slots (src, i) ∧ t.cloexec (dst, i) = s.cloexec (src, i)

/-- A forked child's slots: **copies** of the parent's, or empty. -/
theorem handleTableCopyInto_slots {dst src : ℕ} (hne : dst ≠ src)
    (hfree : ∀ i, s.slots (dst, i) = none) (i : Fin procHandleMax) :
    (s.handleTableCopyInto dst src).2.slots (dst, i) = none ∨
      (s.handleTableCopyInto dst src).2.slots (dst, i) = s.slots (src, i) ∧
      (s.handleTableCopyInto dst src).2.cloexec (dst, i) = s.cloexec (src, i) := by
  have hinit : CopiedFrom s dst src s := ⟨fun _ => ⟨rfl, rfl⟩, fun i => .inl (hfree i)⟩
  suffices hI : CopiedFrom s dst src (s.handleTableCopyInto dst src).2 from hI.2 i
  refine copy_invariant ?_ _ (nodup_finRange _) hinit 0 fun i _ => hfree i
  rintro t i h ⟨hsrc, hdst⟩ - hslot -
  have hsame := acquireObj_same t h.kind h.obj
  rw [placed_eq, CopiedFrom, hsame.slots, hsame.cloexec]
  dsimp only
  constructor
  · intro j
    have hj : (src, j) ≠ (dst, i) := fun h => hne (congrArg Prod.fst h).symm
    rw [update_of_ne hj, update_of_ne hj]
    exact hsrc j
  · intro j
    by_cases hj : j = i
    · subst hj
      rw [update_self, update_self, ← (hsrc j).1, ← (hsrc j).2]
      exact .inr ⟨hslot.symm, rfl⟩
    · have hj : (dst, j) ≠ (dst, i) := fun h => hj (congrArg Prod.snd h)
      rw [update_of_ne hj, update_of_ne hj]
      exact hdst j

theorem hidx_val (i : Fin procHandleMax) : hidx (i.val : ℤ) = some i := by
  have hr : 0 ≤ (i.val : ℤ) ∧ (i.val : ℤ) < procHandleMax := ⟨Int.natCast_nonneg _, by omega⟩
  rw [hidx, dif_pos hr]
  rfl

theorem mem_flagged {i : Fin procHandleMax} : i ∈ s.flagged p ↔ s.cloexec (p, i) = true := by
  rw [flagged, mem_filter]
  exact and_iff_right (mem_finRange _)

/-- The loop of `handle_close_on_exec` over live slots. -/
theorem foldl_closeFlagged (l : List (Fin procHandleMax)) (hl : l.Nodup) (n : ℤ)
    (hlive : ∀ i ∈ l, s.slots (p, i) ≠ none) (x : SlotId) :
    (l.foldl (closeFlagged p) (n, s)).1 = n + l.length ∧
      (l.foldl (closeFlagged p) (n, s)).2.slots x =
      if x.1 = p ∧ x.2 ∈ l then none else s.slots x := by
  induction l generalizing s n with
  | nil => simp
  | cons i l ih =>
    obtain ⟨hi, hl⟩ := nodup_cons.mp hl
    obtain ⟨slot, hslot⟩ := Option.ne_none_iff_exists'.mp (hlive i mem_cons_self)
    have hstep : closeFlagged p (n, s) i = (n + 1, s.closed (p, i) slot) := by
      simp only [closeFlagged, handleClose, hidx_val, hslot]
      rfl
    rw [foldl_cons, hstep]
    obtain ⟨hcount, hslots⟩ := ih (s := s.closed (p, i) slot) hl (n + 1) fun j hj => by
      have hne : (p, j) ≠ (p, i) := by
        rintro ⟨⟩
        exact hi hj
      show update s.slots (p, i) none (p, j) ≠ none
      rw [update_of_ne hne]
      exact hlive j (mem_cons_of_mem i hj)
    rw [hcount, hslots, length_cons]
    refine ⟨by omega, ?_⟩
    show (if x.1 = p ∧ x.2 ∈ l then none else update s.slots (p, i) none x) = _
    by_cases hx : x = (p, i)
    · simp [hx]
    · have hne : ¬(x.1 = p ∧ x.2 = i) := fun h => hx (Prod.ext h.1 h.2)
      simp only [update_of_ne hx, mem_cons, and_or_left, or_iff_right hne]

/-- `handle_close_on_exec` closes **exactly the flagged**. -/
theorem Lawful.handleCloseOnExec (hl : Lawful s) (p : ℕ) (hp : p ∉ s.freeing) (x : SlotId) :
    (s.handleCloseOnExec p).1 = (s.flagged p).length ∧ (s.handleCloseOnExec p).2.slots x =
      if x.1 = p ∧ s.cloexec x = true then none else s.slots x := by
  have hnodup : (s.flagged p).Nodup := (nodup_finRange _).filter _
  have hlive : ∀ i ∈ s.flagged p, (s.cloexecTake p).slots (p, i) ≠ none := fun i hi =>
    hl.cloexec (p, i) hp (mem_flagged.mp hi)
  obtain ⟨hcount, hslots⟩ := foldl_closeFlagged (s.flagged p) hnodup 0 hlive x
  rw [Int.zero_add] at hcount
  rw [Handles.handleCloseOnExec]
  refine ⟨hcount, hslots.trans ?_⟩
  have hmem : x.1 = p ∧ x.2 ∈ s.flagged p ↔ x.1 = p ∧ s.cloexec x = true := by
    refine and_congr_right fun hx => ?_
    rw [mem_flagged, ← hx]
  simp only [hmem]
  rfl

/-- **The laws of handles.** In every interleaving a live slot has some rights, within those that
`handle_alloc` or `handle_replace` was given for the same object. If every object that may not be
transferred was allocated a handle at most once, at most one live slot names it, in the table of the
Proc that allocated it. A fork gives the child, at each index, nothing or the parent's handle with
its close-on-exec bit; and since such a bit stands only with a live slot, as long as nobody frees
the table, an exec closes exactly the flagged descriptors. -/
theorem capability_laws (hs : Reachable s) :
    (∀ x h, s.slots x = some h → s.Granted h) ∧
      (s.MintedOnce → ∀ x y h h', s.slots x = some h → s.slots y = some h' → Rivals h h' → x = y) ∧
      (∀ x h, s.slots x = some h → h.kind.isTransferable = false → s.AtOrigin x.1 h) ∧
      (∀ dst src, s.Allowed (.copyInto dst src) → ∀ i,
        (s.handleTableCopyInto dst src).2.slots (dst, i) = none ∨
          (s.handleTableCopyInto dst src).2.slots (dst, i) = s.slots (src, i) ∧
            (s.handleTableCopyInto dst src).2.cloexec (dst, i) = s.cloexec (src, i)) ∧
      (∀ x : SlotId, x.1 ∉ s.freeing → s.cloexec x = true → s.slots x ≠ none) ∧
      ∀ p, p ∉ s.freeing → ∀ x, (s.handleCloseOnExec p).1 = (s.flagged p).length ∧
        (s.handleCloseOnExec p).2.slots x =
          if x.1 = p ∧ s.cloexec x = true then none else s.slots x := by
  have hl := hs.lawful
  refine ⟨hl.granted, hl.alone, hl.origin, fun dst src hop i => ?_, hl.cloexec,
    hl.handleCloseOnExec⟩
  exact handleTableCopyInto_slots hop.2.2.1 (fun i => (hop.2.2.2 i).1) i

/-- The Proc has duplicated the descriptor, close-on-exec, and is about to fork. -/
def forking : Handles := ((opened.call (.dupPosix 0 0 0 true)).2.call (.tableAlloc 1)).2

theorem forking_reachable : Reachable forking := by
  refine .call (.call opened_reachable (.dupPosix 0 0 0 true) ?_) (.tableAlloc 1) ?_
  · exact Finset.mem_insert_self 0 ∅
  · exact ⟨by decide +kernel, by decide +kernel⟩

/-- The laws at the fork: the duplicate has the right that the Spoor was given, the child gets it
with its bit, and an exec of the parent closes it and nothing else. -/
theorem capability_laws_opened :
    forking.Granted ⟨.spoor, 1, some 0⟩ ∧
      (forking.handleTableCopyInto 1 0).2.slots (1, ⟨1, by decide⟩) = some ⟨.spoor, 1, some 0⟩ ∧
      (forking.handleTableCopyInto 1 0).2.cloexec (1, ⟨1, by decide⟩) = true ∧
      (forking.handleCloseOnExec 0).1 = 1 ∧
      (forking.handleCloseOnExec 0).2.slots (0, ⟨1, by decide⟩) = none := by
  have hslot : forking.slots (0, ⟨1, by decide⟩) = some ⟨.spoor, 1, some 0⟩ := by decide +kernel
  have hbit : forking.cloexec (0, ⟨1, by decide⟩) = true := by decide +kernel
  obtain ⟨hgranted, -, -, hfork, -, hexec⟩ := capability_laws forking_reachable
  obtain ⟨hcount, hclosed⟩ := hexec 0 (by decide +kernel) (0, ⟨1, by decide⟩)
  have hallowed : forking.Allowed (.copyInto 1 0) :=
    ⟨by decide +kernel, by decide +kernel, by decide, fun _ => ⟨rfl, rfl⟩⟩
  obtain ⟨hchild, hchildBit⟩ := (hfork 1 0 hallowed ⟨1, by decide⟩).resolve_left (by decide +kernel)
  refine ⟨hgranted _ _ hslot, hchild.trans hslot, hchildBit.trans hbit, ?_, ?_⟩
  · rw [hcount]
    decide +kernel
  · rw [hclosed, if_pos ⟨rfl, hbit⟩]

end Handles

end Thylacine
