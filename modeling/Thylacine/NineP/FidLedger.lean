import Thylacine.NineP.SessionLedger

/-!
# The Ledger of the Fid Table

A request that may bind a fid when it ends holds a slot of the fid table, so that fids bound
and slots held together never outgrow it: `load`. The one exception is a reply that binds a
fid for a walk whose slot is gone, `Overbinds`. `FidStep` says what a call can do to the fid table;
the invariant `Ledger` and the bound on the load follow from it.

## Main results

* `session_bookkeeping`: the books are in order, and the load fits iff no call overbinds.
* `session_bookkeeping_second_reply`: a run that overbinds.
-/

namespace Thylacine

open List MsgKind Outstanding Session
open Function (update update_eq_self update_idem)

namespace Session

/-- The fids bound and the slots reserved. -/
def load (s : Session) : ℕ := s.boundFids.length + s.nReservedSlots

/-- The reply is applied to a walk that **holds no slot**, and binds its destination though every
slot is taken. -/
def Overbinds (s : Session) (op : Op) : Prop :=
  ∃ msg t, s.Active t ∧ s.FullWalk msg t ∧ (s.tags t).holdsSlot = false ∧
    (s.tags t).newFid ∉ s.boundFids ∧ s.boundFids.length < p9SessionMaxFids ∧
    p9SessionMaxFids ≤ s.load ∧
    (op = .dispatchRmsg msg ∧ (s.tags t).awaitingFlush = false ∨
      op = .dispatchFlushedRmsg msg ∧ (s.tags t).awaitingFlush = true)

/-- What a call can do to the **fid table**. -/
inductive FidStep (s : Session) (op : Op) (s' : Session) : Prop
  | kept (hstate : s'.state = s.state) (hbound : s'.boundFids = s.boundFids)
      (hslots : s'.nReservedSlots ≤ s.nReservedSlots) : FidStep s op s'
  | versioned (hinit : s.state = .init) (hstate : s'.state = .versioned)
      (hbound : s'.boundFids = s.boundFids) (hslots : s'.nReservedSlots = s.nReservedSlots) :
      FidStep s op s'
  | closed (hstate : s'.state = .closed) (hbound : s'.boundFids = [])
      (hslots : s'.nReservedSlots = s.nReservedSlots) (hidle : s'.nActive = 0) : FidStep s op s'
  | reserved (hopen : s.state = .opened) (hstate : s'.state = .opened)
      (hbound : s'.boundFids = s.boundFids) (hroom : s.load < p9SessionMaxFids)
      (hslots : s'.nReservedSlots = s.nReservedSlots + 1) : FidStep s op s'
  | unbound {fid : UInt32} (hopen : s.state = .opened) (hstate : s'.state = .opened)
      (hroot : fid ≠ s.rootFid) (hbound : (fid :: s'.boundFids).Perm s.boundFids)
      (hslots : s'.nReservedSlots = s.nReservedSlots + 1) : FidStep s op s'
  | bound {fid : UInt32} {t : ℕ} (hact : s.Active t) (hattach : (s.tags t).kind ≠ some .attach)
      (hflush : (s.tags t).kind ≠ some .flush) (hstate : s'.state = s.state)
      (hfid : fid ∉ s.boundFids) (hbound : s'.boundFids = s.boundFids ++ [fid])
      (hslots : s'.nReservedSlots + (s.tags t).holdsSlot.toNat = s.nReservedSlots)
      (hover : (s.tags t).holdsSlot = false → p9SessionMaxFids ≤ s.load → Overbinds s op) :
      FidStep s op s'
  | attached (hstate : s'.state = .opened) (hroot : s.rootFid ∉ s.boundFids)
      (hbound : s'.boundFids = s.boundFids ++ [s.rootFid])
      (hslots : s'.nReservedSlots ≤ s.nReservedSlots) : FidStep s op s'

theorem fidBind_cases (s : Session) (fid : UInt32) : (s.fidBind fid).1 = s ∨
      fid ∉ s.boundFids ∧ s.boundFids.length < p9SessionMaxFids ∧
      (s.fidBind fid).1 = { s with boundFids := s.boundFids ++ [fid] } := by
  rw [fidBind]
  split_ifs with hbound hfull
  · exact .inl rfl
  · exact .inl rfl
  · refine .inr ⟨fun hmem => hbound (contains_iff_mem.mpr hmem), not_le.mp hfull, rfl⟩

/-- Clearing an entry gives up its slot. -/
theorem clear_fids (s : Session) (t : ℕ) : (s.clearOutstanding t).state = s.state ∧
      (s.clearOutstanding t).boundFids = s.boundFids ∧
      (s.clearOutstanding t).nReservedSlots =
      s.nReservedSlots - (s.tags t).holdsSlot.toNat := by
  rw [clearOutstanding, slotRelease_eq]
  exact ⟨rfl, rfl, rfl⟩

variable {s s' : Session} {op : Op} {t : ℕ} {fid : UInt32} {msg : List UInt8}

theorem FidStep.clear (op : Op) (t : ℕ) : FidStep s op (s.clearOutstanding t) := by
  obtain ⟨hstate, hbound, hslots⟩ := clear_fids s t
  exact .kept hstate hbound (hslots.trans_le (Nat.sub_le ..))

section

variable (h : Counted s) (hact : s.Active t) (hattach : (s.tags t).kind ≠ some .attach)
  (hflush : (s.tags t).kind ≠ some .flush)
  (hover : (s.tags t).holdsSlot = false → fid ∉ s.boundFids → s.boundFids.length < p9SessionMaxFids → p9SessionMaxFids ≤ s.load → Overbinds s op)
include h hact hattach hflush hover

/-- A **bind into the slot** of the request under `t`. -/
theorem FidStep.slotBind (hstate : s'.state = (s.slotBind t fid).1.state)
    (hbound : s'.boundFids = (s.slotBind t fid).1.boundFids)
    (hslots : s'.nReservedSlots = (s.slotBind t fid).1.nReservedSlots) : FidStep s op s' := by
  have hpos : (s.tags t).holdsSlot.toNat ≤ s.nReservedSlots := by
    cases hslot : (s.tags t).holdsSlot
    · exact Nat.zero_le _
    · rw [h.slots]
      exact CountedTable.countIf_pos hact.1 (by rw [activeSlot, hact.2, hslot]; rfl)
  rw [Session.slotBind, slotRelease_eq] at hstate hbound hslots
  rcases fidBind_cases _ fid with heq | ⟨hfid, hroom, heq⟩
  · rw [heq] at hstate hbound hslots
    exact .kept hstate hbound (hslots.trans_le (Nat.sub_le ..))
  · rw [heq] at hstate hbound hslots
    refine .bound hact hattach hflush hstate hfid hbound ?_ fun hslot => hover hslot hfid hroom
    rw [hslots]
    exact Nat.sub_add_cancel hpos

/-- As `FidStep.slotBind`, the entry cleared after it. -/
theorem FidStep.slotBind_clear : FidStep s op ((s.slotBind t fid).1.clearOutstanding t) := by
  obtain ⟨hstate, hbound, hslots⟩ := clear_fids (s.slotBind t fid).1 t
  rw [(slotBind_writes s t fid).entry_self] at hslots
  exact .slotBind h hact hattach hflush hover hstate hbound hslots

end

theorem fidUnbind_perm (h : fid ∈ s.boundFids) :
    (fid :: (s.fidUnbind fid).boundFids).Perm s.boundFids := by
  rw [fidUnbind]
  split
  · rename_i hnone
    exact absurd h (idxOf?_eq_none_iff.mp hnone)
  · rename_i i hi
    exact ((CountedTable.swapRemove_perm_erase hi 0).cons fid).trans (perm_cons_erase h).symm

theorem Commit.fids {s₁ : Session} {req : Send} (hcommit : Commit s s₁ t req s')
    (hgrown : Grown s s₁) (op : Op) : FidStep s op s' := by
  cases hcommit with
  | issued | flushed => exact .kept hgrown.state hgrown.boundFids hgrown.nReservedSlots.le
  | reserved hreq hshare hflush hstate hslot =>
    refine .reserved hstate ?_ ?_ (by simpa [slotAvailable, load] using hslot) ?_
    all_goals dsimp only [slotReserve, modify, markOutstanding]
    exacts [hgrown.state.trans hstate, hgrown.boundFids, congrArg (· + 1) hgrown.nReservedSlots]
  | @clunked req fid hreq hshare hstate hbound hroot =>
    have hperm := fidUnbind_perm (hgrown.boundFids.symm ▸ hbound)
    rw [hgrown.boundFids] at hperm
    obtain ⟨l, hl⟩ := fidUnbind_eq s₁ fid
    rw [hl] at hperm ⊢
    exact .unbound hstate (hgrown.state.trans hstate) hroot hperm
      (congrArg (· + 1) hgrown.nReservedSlots)

theorem kind_of_fullWalk (h : s.FullWalk msg t) :
    (s.tags t).kind ≠ some .attach ∧ (s.tags t).kind ≠ some .flush := by
  obtain ⟨tag, -, ⟨hkind, -⟩ | ⟨hkind, -⟩⟩ := h
  all_goals simp [hkind]

/-- **Every call** does to the fids what `FidStep` lists. -/
theorem Effect.fids (heffect : Effect s op s') (h : Counted s)
    (hclunk : ∀ t, s.Active t → (s.tags t).kind = some .clunk → (s.tags t).holdsSlot = true) :
    FidStep s op s' := by
  cases heffect with
  | grown hgrown => exact .kept hgrown.state hgrown.boundFids hgrown.nReservedSlots.le
  | versioned msize hstate => exact .versioned hstate rfl rfl rfl
  | closed hidle => exact .closed rfl rfl rfl hidle
  | sent hgrown hfree hcommit => exact hcommit.fids hgrown _
  | ended => exact .clear ..
  | reclaimed hact hawait hab hkind =>
    refine .slotBind_clear h hact (by simp [hkind]) (by simp [hkind]) fun hslot => ?_
    rw [hclunk _ hact hkind] at hslot
    cases hslot
  | @walked msg t hacc hawait hwalk =>
    obtain ⟨hattach, hflush⟩ := kind_of_fullWalk hwalk
    have hact := hacc.1.1
    exact .slotBind_clear h hact hattach hflush fun hslot hfid hroom hfull =>
      ⟨msg, t, hact, hwalk, hslot, hfid, hroom, hfull, .inl ⟨rfl, hawait⟩⟩
  | @attached msg t hacc hawait hkind hroot =>
    obtain ⟨hstate, hbound, hslots⟩ := clear_fids
      { s with boundFids := s.boundFids ++ [s.rootFid], state := .opened } t
    exact .attached hstate hroot hbound (hslots.trans_le (Nat.sub_le ..))
  | @acknowledged msg tag hact hkind hmsg =>
    obtain ⟨hstate₁, hbound₁, hslots₁⟩ := clear_fids s (s.tags tag.toNat).flushOldtag
    obtain ⟨hstate, hbound, hslots⟩ := clear_fids
      (s.clearOutstanding (s.tags tag.toNat).flushOldtag) tag.toNat
    exact .kept (hstate.trans hstate₁) (hbound.trans hbound₁) (by omega)
  | @honoured msg t haddr hawait hslot hkind =>
    refine .slotBind h haddr.1 ?_ ?_ (fun hnot => ?_) rfl rfl rfl
    · rcases hkind with hk | hk <;> simp [hk]
    · rcases hkind with hk | hk <;> simp [hk]
    · rw [hslot] at hnot
      cases hnot
  | answered | touched => exact .kept rfl rfl le_rfl
  | @answeredWalk msg t f haddr hawait hwalk =>
    obtain ⟨hattach, hflush⟩ := kind_of_fullWalk hwalk
    exact .slotBind h haddr.1 hattach hflush (fun hslot hfid hroom hfull =>
      ⟨msg, t, haddr.1, hwalk, hslot, hfid, hroom, hfull, .inr ⟨rfl, hawait⟩⟩) rfl rfl rfl
  | answeredAttach haddr hawait hkind hroot => exact .attached rfl hroot rfl le_rfl
  | @unstaged op oldtag fl =>
    obtain ⟨hstate, hbound, hslots⟩ := clear_fids s fl
    exact .kept hstate hbound (hslots.trans_le (Nat.sub_le ..))
  | owned hact =>
    rw [p9SessionSetOwner, activeEntry_eq_some.mpr ⟨hact, rfl⟩]
    exact .kept rfl rfl le_rfl
  | asyncMarked hact hasync hkind =>
    rw [p9SessionMarkAsync, activeEntry_eq_some.mpr ⟨hact, rfl⟩]
    dsimp only
    rw [hasync, hkind]
    exact .kept rfl rfl le_rfl

/-! ### The invariant -/

/-- The **books** are in order. Unless open nothing is bound or reserved, and only a `Tattach` or
its flush in flight. -/
structure Ledger (s : Session) : Prop where
  wellFormed : WellFormed s
  counted : Counted s
  share : s.opCount ≤ s.opsMax
  nodup : s.boundFids.Nodup
  clunk : ∀ t, s.Active t → (s.tags t).kind = some .clunk → (s.tags t).holdsSlot = true
  quiet : s.state ≠ .opened → s.boundFids = [] ∧ s.nReservedSlots = 0
  quietKind : s.state ≠ .opened → ∀ t, s.Active t →
    (s.tags t).kind = some .attach ∨ (s.tags t).kind = some .flush
  root : s.state = .opened → s.rootFid ∈ s.boundFids

theorem Counted.not_active (h : Counted s) (hidle : s.nActive = 0) (t : ℕ) : ¬s.Active t := by
  rintro ⟨hmem, hact⟩
  rw [h.active, CountedTable.countIf_eq_zero] at hidle
  rw [hidle t hmem] at hact
  cases hact

theorem Counted.nReservedSlots_eq_zero (h : Counted s) (hidle : s.nActive = 0) :
    s.nReservedSlots = 0 := by
  have hle : s.nReservedSlots ≤ s.nActive := by
    rw [h.slots, h.active]
    exact CountedTable.countIf_le_of_imp fun e he => (Bool.and_eq_true_iff.mp he).1
  omega

section

variable (hfids : FidStep s op s')
include hfids

theorem Ledger.nodup_step (h : Ledger s) : s'.boundFids.Nodup := by
  cases hfids with
  | kept hstate hbound | versioned hinit hstate hbound | reserved hopen hstate hbound =>
    exact hbound ▸ h.nodup
  | closed hstate hbound => exact hbound ▸ nodup_nil
  | unbound hopen hstate hroot hbound => exact (nodup_cons.mp (hbound.nodup_iff.mpr h.nodup)).2
  | bound hact hattach hflush hstate hfid hbound =>
    rw [hbound, ← concat_eq_append]
    exact h.nodup.concat hfid
  | attached hstate hroot hbound =>
    rw [hbound, ← concat_eq_append]
    exact h.nodup.concat hroot

theorem Ledger.root_step (h : Ledger s)
    (hopen' : s'.state = .opened) : s.rootFid ∈ s'.boundFids := by
  cases hfids with
  | kept hstate hbound => exact hbound ▸ h.root (hstate ▸ hopen')
  | versioned hinit hstate | closed hstate => cases hstate.symm.trans hopen'
  | reserved hopen hstate hbound => exact hbound ▸ h.root hopen
  | unbound hopen hstate hroot hbound =>
    have hmem := hbound.mem_iff.mpr (h.root hopen)
    exact (mem_cons.mp hmem).resolve_left hroot.symm
  | bound hact hattach hflush hstate hfid hbound =>
    rw [hbound]
    exact mem_append_left _ (h.root (hstate ▸ hopen'))
  | attached hstate hroot hbound =>
    rw [hbound]
    exact mem_append_right _ mem_cons_self

theorem Ledger.quiet_step (h : Ledger s) (hcounted : Counted s') (hquiet : s'.state ≠ .opened) :
    s'.boundFids = [] ∧ s'.nReservedSlots = 0 := by
  cases hfids with
  | kept hstate hbound hslots =>
    obtain ⟨hnil, hzero⟩ := h.quiet (hstate ▸ hquiet)
    exact ⟨hbound.trans hnil, by omega⟩
  | versioned hinit hstate hbound hslots =>
    obtain ⟨hnil, hzero⟩ := h.quiet (by simp [hinit])
    exact ⟨hbound.trans hnil, by omega⟩
  | closed hstate hbound hslots hidle => exact ⟨hbound, hcounted.nReservedSlots_eq_zero hidle⟩
  | reserved hopen hstate | unbound hopen hstate | attached hstate => exact absurd hstate hquiet
  | bound hact hattach hflush hstate =>
    rcases h.quietKind (hstate ▸ hquiet) _ hact with hkind | hkind
    · exact absurd hkind hattach
    · exact absurd hkind hflush

/-- A session not open after a call was so before, or is idle. -/
theorem FidStep.not_opened (hquiet : s'.state ≠ .opened) : s.state ≠ .opened ∨ s'.nActive = 0 := by
  cases hfids with
  | kept hstate | bound hact hattach hflush hstate => exact .inl (hstate ▸ hquiet)
  | versioned hinit => exact .inl (by simp [hinit])
  | closed hstate hbound hslots hidle => exact .inr hidle
  | reserved hopen hstate | unbound hopen hstate | attached hstate => exact absurd hstate hquiet

theorem Ledger.quietKind_step (h : Ledger s) (heffect : Effect s op s') (hcounted : Counted s')
    (hquiet : s'.state ≠ .opened) (t : ℕ) (ht : s'.Active t) :
    (s'.tags t).kind = some .attach ∨ (s'.tags t).kind = some .flush := by
  rcases hfids.not_opened hquiet with hold | hidle
  · cases heffect.entry ht with
    | kept hact hsame | cancelled hact hsame | restored hact hsame =>
      exact hsame.kind ▸ h.quietKind hold t hact
    | fresh kind hfree hlimit hkind hawait hclunk hopId hnext hstate =>
      rw [hkind]
      exact ((hstate.resolve_left hold).2).imp (congrArg some) (congrArg some)
  · exact absurd ht (hcounted.not_active hidle t)

end

theorem Ledger.clunk_step (h : Ledger s) (heffect : Effect s op s')
    (t : ℕ) (ht : s'.Active t) (hkind' : (s'.tags t).kind = some .clunk) :
    (s'.tags t).holdsSlot = true := by
  have hold (hact : s.Active t) (hsame : SameRequest (s.tags t) (s'.tags t)) :
      (s'.tags t).holdsSlot = true := by
    have hkind := hsame.kind.symm.trans hkind'
    exact (hsame.clunk hkind).trans (h.clunk t hact hkind)
  cases heffect.entry ht with
  | kept hact hsame | cancelled hact hsame | restored hact hsame => exact hold hact hsame
  | fresh kind hfree hlimit hkind hawait hclunk =>
    exact hclunk (Option.some.inj (hkind.symm.trans hkind'))

/-- **Every call keeps the books in order.** -/
theorem step_ledger (h : Ledger s) (op : Op) : Ledger (s.step op) := by
  have heffect := step_effect h.wellFormed.back op
  have hfids := heffect.fids h.counted h.clunk
  have hcounted := heffect.counted h.wellFormed.back h.counted
  have hlimits := heffect.sameLimits
  exact {
    wellFormed := step_wellFormed h.wellFormed op
    counted := hcounted
    share := hlimits.opsMax.symm ▸ heffect.opCount h.counted hcounted h.share
    nodup := h.nodup_step hfids
    clunk := h.clunk_step heffect
    quiet := h.quiet_step hfids hcounted
    quietKind := h.quietKind_step hfids heffect hcounted
    root := fun hopen => hlimits.rootFid.symm ▸ h.root_step hfids hopen }

/-! ### The load -/

/-- A call that does not overbind keeps the **load** within the table. -/
theorem Ledger.load_step (h : Ledger s)
    (hload : s.load ≤ p9SessionMaxFids) (hover : ¬Overbinds s op) :
    (s.step op).load ≤ p9SessionMaxFids := by
  have hfids := (step_effect h.wellFormed.back op).fids h.counted h.clunk
  rw [load] at hload ⊢
  cases hfids with
  | kept hstate hbound hslots | versioned hinit hstate hbound hslots =>
    rw [hbound]
    omega
  | closed hstate hbound hslots hidle =>
    rw [hbound, length_nil]
    omega
  | reserved hopen hstate hbound hroom hslots =>
    rw [load] at hroom
    rw [hbound]
    omega
  | unbound hopen hstate hroot hbound hslots =>
    have hlen := hbound.length_eq
    rw [length_cons] at hlen
    omega
  | @bound fid t hact hattach hflush hstate hfid hbound hslots hover' =>
    rw [hbound, length_append, length_singleton]
    cases hslot : (s.tags t).holdsSlot
    · have hlt : s.load < p9SessionMaxFids := by
        by_contra hfull
        exact hover (hover' hslot (not_lt.mp hfull))
      rw [load] at hlt
      omega
    · rw [hslot, Bool.toNat_true] at hslots
      omega
  | attached hstate hroot hbound hslots =>
    have hquiet : s.state ≠ .opened := fun hopen => hroot (h.root hopen)
    obtain ⟨hnil, hzero⟩ := h.quiet hquiet
    rw [hbound, hnil, nil_append, length_singleton, p9SessionMaxFids]
    omega

/-- The reply to a full walk binds the destination. -/
theorem FullWalk.applyRmsg (h : s.FullWalk msg t) :
    ∃ size type tag, tag.toNat = t ∧ type ≠ version.r ∧
      p9PeekHeader msg = some (size, type, tag) ∧
      ∃ r, s.applyRmsg (s.tags t) tag type msg = ((s.slotBind t (s.tags t).newFid).1, some r) := by
  obtain ⟨tag, rfl, ⟨hkind, qids, hmsg, hlen⟩ | ⟨hkind, hfid, qids, body, hmsg, hlen⟩⟩ := h
  · obtain ⟨size, hpeek⟩ := parseExact_eq_some hmsg
    refine ⟨size, walk.r, tag, rfl, by decide, hpeek, ?_⟩
    rw [applyRmsg, if_neg (by simp [hkind, expectedR]), applyBody, if_neg (by decide), hkind]
    simp only [checked, hmsg, ne_eq, not_true_eq_false, if_false, hlen]
    obtain ⟨r, heq⟩ := s.exists_bindWalked_eq (s.tags tag.toNat) tag _
    exact ⟨_, by rw [heq]; rfl⟩
  · obtain ⟨size, hpeek⟩ := p9ParseRwalkgetattr_eq_some hmsg
    refine ⟨size, walkgetattr.r, tag, rfl, by decide, hpeek, ?_⟩
    rw [applyRmsg, if_neg (by simp [hkind, expectedR]), applyBody, if_neg (by decide), hkind]
    simp only [checked, hmsg, ne_eq, not_true_eq_false, if_false, hlen, hfid, not_false_eq_true,
      and_self, if_true]
    obtain ⟨r, heq⟩ := s.exists_bindWalked_eq (s.tags tag.toNat) tag _
    exact ⟨_, by rw [heq]; rfl⟩

/-- The reply to a full walk **binds the destination**. -/
theorem dispatch_fullWalk (hact : s.Active t)
    (hwalk : s.FullWalk msg t) (hawait : (s.tags t).awaitingFlush = false) :
    s.step (.dispatchRmsg msg) = (s.slotBind t (s.tags t).newFid).1.clearOutstanding t := by
  obtain ⟨size, type, tag, rfl, htype, hpeek, r, happly⟩ := hwalk.applyRmsg
  rw [step, p9SessionDispatchRmsg, hpeek]
  dsimp only
  rw [if_neg htype, activeEntry_eq_some.mpr ⟨hact, rfl⟩]
  dsimp only
  rw [hawait, if_neg (by decide), happly]

/-- A bind **without a slot** adds to the load. -/
theorem load_slotBind (hslot : (s.tags t).holdsSlot = false) (hfid : fid ∉ s.boundFids)
    (hroom : s.boundFids.length < p9SessionMaxFids) :
    (s.slotBind t fid).1.load = s.load + 1 := by
  rw [slotBind, slotRelease, hslot, Bool.not_false, if_pos rfl, fidBind, if_neg, if_neg]
  · change (s.boundFids ++ [fid]).length + s.nReservedSlots =
      s.boundFids.length + s.nReservedSlots + 1
    rw [length_append, length_singleton]
    omega
  · exact not_le.mpr hroom
  · exact fun hmem => hfid (contains_iff_mem.mp hmem)

theorem Overbinds.load_step (h : Overbinds s op) : p9SessionMaxFids < (s.step op).load := by
  obtain ⟨msg, t, hact, hwalk, hslot, hfid, hroom, hfull, hop⟩ := h
  have hload := load_slotBind hslot hfid hroom
  rcases hop with ⟨rfl, hawait⟩ | ⟨rfl, hawait⟩
  · obtain ⟨-, hbound, hslots⟩ := clear_fids (s.slotBind t (s.tags t).newFid).1 t
    rw [(slotBind_writes ..).entry_self] at hslots
    rw [dispatch_fullWalk hact hwalk hawait, load, hbound, hslots]
    exact (Nat.lt_succ_of_le hfull).trans_eq hload.symm
  · obtain ⟨size, type, tag, rfl, htype, hpeek, r, happly⟩ := hwalk.applyRmsg
    have hstep : (s.step (.dispatchFlushedRmsg msg)).load =
        (s.slotBind tag.toNat (s.tags tag.toNat).newFid).1.load := by
      rw [step, p9SessionDispatchFlushedRmsg, hpeek]
      dsimp only
      rw [activeEntry_eq_some.mpr ⟨hact, rfl⟩]
      dsimp only
      rw [hawait, if_neg (by decide), happly]
      rfl
    rw [hstep, hload]
    exact Nat.lt_succ_of_le hfull

/-! ### Runs -/

theorem init_ledger {raw : ℕ → Outstanding} {rootFid msize : UInt32}
    (h : p9SessionInit raw rootFid msize = some s) : Ledger s ∧ s.load = 0 := by
  have hidle := init_not_active h
  have hwf := init_wellFormed h
  rw [p9SessionInit] at h
  split_ifs at h
  cases h
  refine ⟨?_, rfl⟩
  exact {
    wellFormed := hwf
    counted := .of_idle hidle rfl rfl rfl rfl (fun _ => rfl) fun _ => rfl
    share := Nat.zero_le _
    nodup := nodup_nil
    clunk := fun t ht => absurd ht (hidle t)
    quiet := fun _ => ⟨rfl, rfl⟩
    quietKind := fun _ t ht => absurd ht (hidle t)
    root := by rintro ⟨⟩ }

theorem run_ledger (h : Ledger s) (ops : List Op) : Ledger (s.run ops) :=
  Runs.foldl_invariant (fun _ _ => True) (fun _ op h _ => step_ledger h op) h fun _ _ _ _ => trivial

/-- What the bookkeeping promises but for the load. -/
structure Books (s : Session) : Prop where
  counted : Counted s
  nodup : s.boundFids.Nodup
  share : s.nActive - s.nFlush ≤ s.opsMax
  below : ∀ t, s.tagLimit ≤ t → ¬s.Active t
  notag : ¬s.Active p9Notag.toNat

theorem Ledger.books (h : Ledger s) : Books s where
  counted := h.counted
  nodup := h.nodup
  share := h.share
  below := fun t hle hact => by
    have hlt := h.wellFormed.below t hact
    rw [h.wellFormed.tagLimit] at hle
    omega
  notag := fun hact => absurd (h.wellFormed.below _ hact) (by decide)

end Session

/-- **The books of a session** are in order after every run from `p9_session_init`, and bound and
reserved fids fit the table in all of its states iff no call of the run binds a fid for a walk
without a slot into a full table. -/
theorem session_bookkeeping (raw : ℕ → Outstanding) (rootFid msize : UInt32) {s₀ : Session}
    (h : p9SessionInit raw rootFid msize = some s₀) (ops : List Session.Op) :
    (s₀.run ops).Books ∧ ((∀ pre, pre <+: ops →
          (s₀.run pre).boundFids.length + (s₀.run pre).nReservedSlots ≤ p9SessionMaxFids) ↔
        ∀ pre op, pre ++ [op] <+: ops → ¬(s₀.run pre).Overbinds op) := by
  obtain ⟨hledger, hload⟩ := init_ledger h
  refine ⟨(run_ledger hledger ops).books, ?_⟩
  refine Runs.forall_prefix_iff (J := Session.Ledger)
    (P := fun s => load s ≤ p9SessionMaxFids) (fun s op => ¬Session.Overbinds s op)
    (fun s op hs => step_ledger hs op) (fun s op hs hle => ?_) hledger
    (hload.trans_le (Nat.zero_le _))
  exact ⟨fun hle' hover => not_lt.mpr hle' hover.load_step, hs.load_step hle⟩

namespace Session

open ByteCodec

/-! ### Sessions at rest -/

/-- A session with **nothing in flight**, the fids `l` bound, `n` requests sent. -/
def resting (state : SessState) (negotiatedMsize : UInt32) (l : List UInt32) (n : UInt32) :
    Session where
  state := state
  rootFid := 0
  msize := 8192
  negotiatedMsize := negotiatedMsize
  boundFids := l
  nReservedSlots := 0
  tags := fun _ => zero false
  chunkActive := fun _ => 0
  chunkSync := fun _ => 0
  hasDir := false
  nChunks := 1
  nActive := 0
  nFlush := 0
  nAsync := 0
  opsMax := p9OpsMax
  asyncMax := p9AsyncMax
  tagLimit := p9TagLimit
  nextOpId := n

theorem init_resting {s₀ : Session} (h : p9SessionInit (fun _ => zero false) 0 8192 = some s₀) :
    s₀ = resting .init 0 [] 0 := by
  cases h
  refine Session.ext rfl rfl rfl rfl rfl rfl (funext fun t => ?_) rfl rfl rfl rfl rfl rfl rfl rfl
    rfl rfl rfl
  exact ite_self _

theorem exists_init : ∃ s₀, p9SessionInit (fun _ => zero false) 0 8192 = some s₀ := ⟨_, rfl⟩

/-- What is written and written back is as before. -/
theorem update_restored {α : Type*} {f : ℕ → α} {t : ℕ} {a b : α} (h : b = f t) :
    update (update f t a) t b = f := by
  rw [update_idem, h, update_eq_self]

theorem sendOp_eq {s : Session} {mem : Kmalloc} {pre flush : Bool}
    {build : UInt16 → Option Built} {commit : Session → ℕ → Session} {t : ℕ} {b : Built}
    (hpre : pre = true) (halloc : s.allocTag mem flush = (s, some t))
    (hbuild : build (UInt16.ofNat t) = some b) (hacc : b.accepted) :
    s.sendOp mem pre flush build commit = (commit s t, some b) := by
  rw [sendOp, hpre, if_neg (by decide), halloc]
  dsimp only
  rw [hbuild]
  exact if_pos hacc

/-- The calls that open a session. -/
def bootOps : List Op :=
  [.dispatchRmsg rversion, .sendNow (.attach (.bytes []) (.bytes []) 0),
    .dispatchRmsg (frame attach.r 0 (Qid.bytes ⟨0, 0, 0⟩))]

theorem boot_resting {s₀ : Session} (h : p9SessionInit (fun _ => zero false) 0 8192 = some s₀) :
    s₀.run bootOps = resting .opened 8192 [0] 1 := by
  have hversion : (resting .init 0 [] 0).step (.dispatchRmsg rversion) =
      resting .versioned 8192 [] 0 := rfl
  have hattach : (resting .versioned 8192 [] 0).step
      (.sendNow (.attach (.bytes []) (.bytes []) 0)) =
        (resting .versioned 8192 [] 0).markOutstanding 0 .attach 0 0 :=
    congrArg Prod.fst (sendOp_eq rfl rfl rfl (by decide))
  rw [init_resting h, bootOps, run_cons, run_cons, run_cons, run_nil, hversion, hattach]
  exact Session.ext rfl rfl rfl rfl rfl rfl (update_restored rfl) (update_restored rfl) rfl rfl rfl
    rfl rfl rfl rfl rfl rfl rfl

/-- The reply to a walk of no names. -/
def rwalk (tag : UInt16) : List UInt8 := frame walk.r tag (u16Bytes 0)

/-- A walk of no names to `fid`, and its reply. -/
def bindOps (fid : UInt32) : List Op :=
  [.sendNow (.walk 0 fid (.names [])), .dispatchRmsg (rwalk 0)]

/-- The session between the two. -/
def walking (l : List UInt32) (n fid : UInt32) : Session :=
  (((resting .opened 8192 l n).markOutstanding 0 .walk 0 fid).modify 0 fun e =>
    { e with walkNwname := 0 }).slotReserve 0

section

variable {l : List UInt32} {n fid : UInt32} (hroot : 0 ∈ l) (hfid : fid ∉ l)
  (hnofid : fid ≠ p9Nofid) (hroom : l.length < p9SessionMaxFids)
include hroot hfid hnofid hroom

theorem walk_resting :
    (resting .opened 8192 l n).step (.sendNow (.walk 0 fid (.names []))) = walking l n fid := by
  set s := resting .opened 8192 l n
  refine congrArg Prod.fst (sendOp_eq ?_ rfl rfl ?_)
  swap
  · exact show 0 ≤ cInt 17 by decide
  have hopen : s.isOpen = true := rfl
  have hsrc : s.fidBound 0 = true := contains_iff_mem.mpr hroot
  have hdst : s.fidBound fid = false := by simpa [s, fidBound, resting] using hfid
  have hne : (fid != s.rootFid) = true := bne_iff_ne.mpr fun h => hfid (h ▸ hroot)
  have hany : s.anyOutstandingOnFid fid = false := rfl
  have hslots : s.slotAvailable = true := by simpa [s, slotAvailable, resting] using hroom
  rw [hopen, hsrc, hdst, bne_iff_ne.mpr hnofid, hne, hany, hslots]
  rfl

/-- A walk and its reply leave the session at rest, **one fid more**. -/
theorem bind_resting :
    (resting .opened 8192 l n).run (bindOps fid) = resting .opened 8192 (l ++ [fid]) (n + 1) := by
  have hwalk : (walking l n fid).FullWalk (rwalk 0) 0 := ⟨0, rfl, .inl ⟨rfl, [], rfl, rfl⟩⟩
  have hbind : ((walking l n fid).slotBind 0 fid).1 =
      { (walking l n fid).slotRelease 0 with boundFids := l ++ [fid] } := by
    have hl : ((walking l n fid).slotRelease 0).boundFids = l := rfl
    rw [slotBind, fidBind, fidBound, hl, if_neg (by simpa using hfid), if_neg (not_le.mpr hroom)]
  rw [bindOps, run_cons, run_cons, run_nil, walk_resting hroot hfid hnofid hroom,
    dispatch_fullWalk ⟨mem_tagSet.mpr zero_lt_one, rfl⟩ hwalk rfl]
  change ((walking l n fid).slotBind 0 fid).1.clearOutstanding 0 = _
  rw [hbind]
  refine Session.ext rfl rfl rfl rfl rfl rfl ?_ ?_ rfl rfl rfl rfl rfl rfl rfl rfl rfl rfl
  · change update (update (update (update (update (fun _ => zero false) 0 _) 0 _) 0 _) 0 _) 0 _ = _
    simp only [update_idem]
    exact update_eq_self ..
  · exact update_restored rfl

end

/-- Walks to the fids `1, …, n`. -/
def fillOps (n : ℕ) : List Op := (range n).flatMap fun i => bindOps (UInt32.ofNat (i + 1))

theorem fill_resting {n : ℕ} (hn : n < p9SessionMaxFids) :
    (resting .opened 8192 [0] 1).run (fillOps n) =
      resting .opened 8192 ((range (n + 1)).map UInt32.ofNat) (UInt32.ofNat (n + 1)) := by
  induction n with
  | zero => rfl
  | succ n ih =>
    have hlt : n + 1 < 1024 := hn
    have htoNat {i : ℕ} (hi : i ≤ n + 1) : (UInt32.ofNat i).toNat = i :=
      UInt32.toNat_ofNat_of_lt (show i < 4294967296 by omega)
    have hfid : UInt32.ofNat (n + 1) ∉ (range (n + 1)).map UInt32.ofNat := by
      intro hmem
      obtain ⟨i, hi, heq⟩ := mem_map.mp hmem
      rw [mem_range] at hi
      have hnat := congrArg UInt32.toNat heq
      rw [htoNat hi.le, htoNat le_rfl] at hnat
      omega
    have hnofid : UInt32.ofNat (n + 1) ≠ p9Nofid := by
      intro heq
      have hnat := congrArg UInt32.toNat heq
      rw [htoNat le_rfl] at hnat
      change n + 1 = 4294967295 at hnat
      omega
    have hroot : (0 : UInt32) ∈ (range (n + 1)).map UInt32.ofNat :=
      mem_map.mpr ⟨0, mem_range.mpr (Nat.succ_pos n), rfl⟩
    rw [fillOps, range_succ, flatMap_append, run_append, ← fillOps,
      ih (Nat.lt_of_succ_lt hn), flatMap_singleton,
      bind_resting hroot hfid hnofid (by simpa using hn), UInt32.ofNat_add (n + 1) 1]
    congr 1
    rw [range_succ (n := n + 1), map_append]
    rfl

/-- The reply of a flushed walk comes before the `Rflush`, which the client gives up on; the new fid
is closed, and the reply comes again. -/
def lateReplyOps : List Op :=
  [.sendNow (.walk 0 5000 (.names [])), .sendNow (.flush 0), .dispatchRmsg (rwalk 0),
    .flushRollback 0, .sendNow (.clunk 5000), .dispatchRmsg (rwalk 0)]

/-- As `lateReplyOps`, with all slots but one taken. -/
def overbindOps : List Op := bootOps ++ fillOps 1022 ++ lateReplyOps

theorem overbind_load {s₀ : Session} (h : p9SessionInit (fun _ => zero false) 0 8192 = some s₀) :
    (s₀.run overbindOps).load = 1025 := by
  rw [overbindOps, run_append, run_append, boot_resting h, fill_resting (by decide)]
  decide +kernel

end Session

/-- A second reply to one walk binds 1024 fids beside a slot that is reserved. -/
theorem session_bookkeeping_second_reply :
    ∃ s₀, p9SessionInit (fun _ => zero false) 0 8192 = some s₀ ∧
      p9SessionMaxFids < (s₀.run overbindOps).boundFids.length +
        (s₀.run overbindOps).nReservedSlots := by
  obtain ⟨s₀, h⟩ := exists_init
  have hload := overbind_load h
  exact ⟨s₀, h, (by decide : p9SessionMaxFids < 1025).trans_eq hload.symm⟩

/-- In that run some call overbinds, and still the counters are right. -/
theorem session_bookkeeping_overbind :
    ∃ s₀, p9SessionInit (fun _ => zero false) 0 8192 = some s₀ ∧
      (s₀.run overbindOps).Books ∧
      ∃ pre op, pre ++ [op] <+: overbindOps ∧ (s₀.run pre).Overbinds op := by
  obtain ⟨s₀, h⟩ := exists_init
  obtain ⟨hbooks, hiff⟩ := session_bookkeeping (fun _ => zero false) 0 8192 h overbindOps
  refine ⟨s₀, h, hbooks, ?_⟩
  by_contra hnone
  push Not at hnone
  have hfits := hiff.mpr hnone _ (prefix_refl _)
  have hload := overbind_load h
  rw [load] at hload
  rw [hload] at hfits
  exact absurd hfits (by decide)

end Thylacine
