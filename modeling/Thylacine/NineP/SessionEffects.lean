import Thylacine.NineP.SessionSteps

/-!
# The Effects of the Session's Calls

`Effect` lists everything a call can do to a session. The proofs about runs split on the effect.

## Main results

* `step_effect`: every call does one of these things.
-/

namespace Thylacine

open Outstanding Session
open Option (bind_eq_some_iff)

namespace Session

/-- `msg` is addressed to the request in flight under tag `t`. -/
def Addressed (s : Session) (msg : List UInt8) (t : ℕ) : Prop :=
  s.Active t ∧ ∃ size type tag, p9PeekHeader msg = some (size, type, tag) ∧ tag.toNat = t

/-- The dispatch of `msg`, addressed to `t`, **returns a result**: a malformed reply does not. -/
def Accepted (s : Session) (msg : List UInt8) (t : ℕ) : Prop :=
  s.Addressed msg t ∧ (s.p9SessionDispatchRmsg msg).2 ≠ none

/-- A call **ends** the request under `t`: an accepted reply, an error, or a take-back. -/
inductive Ends (s : Session) (t : ℕ) : Op → Prop
  | reply {msg : List UInt8} (hacc : s.Accepted msg t)
      (hkind : (s.tags t).isFlush = false) : Ends s t (.dispatchRmsg msg)
  | error {msg : List UInt8} {tag : UInt16} {ecode : UInt32}
      (hmsg : p9ParseRlerror msg = some (tag, ecode)) (htag : tag.toNat = t) :
      Ends s t (.dispatchRmsg msg)
  | abort {tag : UInt16} (htag : tag.toNat = t) (hab : (s.tags t).abandoned = false) :
      Ends s t (.abortUnsent tag)
  | retract {tag : UInt16} (htag : tag.toNat = t) (hab : (s.tags t).abandoned = false) :
      Ends s t (.retractUnsent tag)

/-- `msg` reports a **full walk** of the request under `t`, to a destination. -/
def FullWalk (s : Session) (msg : List UInt8) (t : ℕ) : Prop :=
  let op := s.tags t
  ∃ tag : UInt16, tag.toNat = t ∧ ((op.kind = some .walk ∧
        ∃ qids, p9ParseRwalk msg (walkBuf op) = some (tag, qids) ∧ qids.length = op.walkNwname) ∨
      (op.kind = some .walkgetattr ∧ op.newFid ≠ p9Nofid ∧
        ∃ qids body, p9ParseRwalkgetattr msg (walkBuf op) = some (tag, qids, body) ∧
          qids.length = op.walkNwname))

/-! ### The application of a reply -/

/-- Every `Tflush` in flight has its victim, in flight and waiting for it. -/
structure FlushesBack (s : Session) : Prop where
  notFlush_of_awaiting : ∀ t, s.Active t → (s.tags t).awaitingFlush = true →
    (s.tags t).isFlush = false
  victim : ∀ f, s.Active f → (s.tags f).isFlush = true →
    s.Active (s.tags f).flushOldtag ∧ (s.tags (s.tags f).flushOldtag).awaitingFlush = true ∧
      (s.tags (s.tags f).flushOldtag).flushTag = f

variable {s s' s₁ : Session} {t u f : ℕ} {e : Outstanding} {msg : List UInt8} {req : Send} {op : Op}
  {tag : UInt16} {type : UInt8} {r : DispatchResult}

theorem FlushesBack.awaitingFlush_of_isFlush (h : FlushesBack s)
    (hact : s.Active f) (hkind : (s.tags f).isFlush = true) :
    (s.tags f).awaitingFlush = false := by
  by_contra hawait
  rw [h.notFlush_of_awaiting f hact (by simpa using hawait)] at hkind
  cases hkind

/-- A flush is not its own victim. -/
theorem FlushesBack.ne_victim (h : FlushesBack s) (hact : s.Active f)
    (hkind : (s.tags f).isFlush = true) : f ≠ (s.tags f).flushOldtag := by
  intro heq
  obtain ⟨-, hawait, -⟩ := h.victim f hact hkind
  rw [← heq, h.awaitingFlush_of_isFlush hact hkind] at hawait
  cases hawait

/-- What a reply to the request under `tag` does when it is **applied**. -/
inductive Applied (s : Session) (tag : UInt16) (msg : List UInt8) : Session → Prop
  | error {ecode : UInt32} (hmsg : p9ParseRlerror msg = some (tag, ecode)) : Applied s tag msg s
  | kept (hkind : (s.tags tag.toNat).isFlush = false) : Applied s tag msg s
  | attached (hkind : (s.tags tag.toNat).kind = some .attach) (hroot : s.rootFid ∉ s.boundFids) :
      Applied s tag msg { s with boundFids := s.boundFids ++ [s.rootFid], state := .opened }
  | walked (hwalk : s.FullWalk msg tag.toNat) :
      Applied s tag msg (s.slotBind tag.toNat (s.tags tag.toNat).newFid).1
  | acknowledged (hkind : (s.tags tag.toNat).isFlush = true) (hmsg : p9ParseRflush msg = some tag) :
      Applied s tag msg (s.clearOutstanding (s.tags tag.toNat).flushOldtag)

theorem fidBind_eq_true {fid : UInt32} (h : s.fidBind fid = (s', true)) :
    fid ∉ s.boundFids ∧ s' = { s with boundFids := s.boundFids ++ [fid] } := by
  rw [fidBind] at h
  split_ifs at h with hbound hfull
  · cases h
  · cases h
  · refine ⟨fun hmem => hbound (List.contains_iff_mem.mpr hmem), ?_⟩
    exact (Prod.mk.inj h).1.symm

theorem fidBind_eq_false {fid : UInt32} (h : s.fidBind fid = (s', false)) : s' = s := by
  rw [fidBind] at h
  split_ifs at h
  · exact (Prod.mk.inj h).1.symm
  · exact (Prod.mk.inj h).1.symm
  · cases h

theorem exists_bindWalked_eq (s : Session) (op : Outstanding) (tag : UInt16) (payload : Payload) :
    ∃ r, s.bindWalked op tag payload = ((s.slotBind tag.toNat op.newFid).1, some r) := by
  rw [bindWalked]
  split <;> simp_all

theorem checked_eq_some {α : Type} {parsed : Option (UInt16 × α)}
    {k : α → Session × Option DispatchResult} (h : s.checked parsed tag k = (s', some r)) :
    ∃ body, parsed = some (tag, body) ∧ k body = (s', some r) := by
  rcases parsed with _ | ⟨tagCheck, body⟩ <;> rw [checked] at h
  · cases h
  · split_ifs at h with htag
    · cases h
    · obtain rfl : tagCheck = tag := not_not.mp htag
      exact ⟨body, rfl, h⟩

theorem applyBody_applied (hback : FlushesBack s) (hact : s.Active tag.toNat)
    (h : s.applyBody (s.tags tag.toNat) tag type msg = (s', some r)) :
    Applied s tag msg s' := by
  rw [applyBody] at h
  split_ifs at h with herror
  · obtain ⟨ecode, hmsg, hres⟩ := checked_eq_some h
    cases hres
    exact .error hmsg
  · split at h
    · cases h
    · rename_i hkind
      obtain ⟨qid, -, hres⟩ := checked_eq_some h
      split at hres
      · cases hres
      · rename_i s₁ hbind
        obtain ⟨hroot, rfl⟩ := fidBind_eq_true hbind
        cases hres
        exact .attached hkind hroot
    · rename_i hkind
      obtain ⟨qids, hmsg, hres⟩ := checked_eq_some h
      split_ifs at hres with hlen
      · cases hres
        exact .kept (by simp [isFlush, hkind])
      · obtain ⟨r', heq⟩ := s.exists_bindWalked_eq (s.tags tag.toNat) tag (.walked qids)
        cases heq.symm.trans hres
        exact .walked ⟨tag, rfl, .inl ⟨hkind, qids, hmsg, not_not.mp hlen⟩⟩
    · rename_i hkind
      obtain ⟨⟨qids, body⟩, hmsg, hres⟩ := checked_eq_some h
      dsimp only at hres
      split_ifs at hres with hlen
      · obtain ⟨r', heq⟩ := s.exists_bindWalked_eq (s.tags tag.toNat) tag (.walkedAttrs qids body)
        cases heq.symm.trans hres
        exact .walked ⟨tag, rfl, .inr ⟨hkind, hlen.1, qids, body, hmsg, hlen.2⟩⟩
      · cases hres
        exact .kept (by simp [isFlush, hkind])
    · rename_i hkind
      have hflush : (s.tags tag.toNat).isFlush = true := by simp [isFlush, hkind]
      obtain ⟨_, hparse, hres⟩ := checked_eq_some h
      obtain ⟨tagCheck, hmsg, heq⟩ := Option.map_eq_some_iff.mp hparse
      cases heq
      obtain ⟨hvictim, hawait, -⟩ := hback.victim _ hact hflush
      rw [activeEntry_eq_some.mpr ⟨hvictim, rfl⟩] at hres
      dsimp only at hres
      rw [if_pos hawait] at hres
      cases hres
      exact .acknowledged hflush hmsg
    · obtain ⟨payload, -, hres⟩ := checked_eq_some h
      cases hres
      refine .kept ?_
      simp_all [isFlush]

theorem checked_eq_none {α : Type} {parsed : Option (UInt16 × α)}
    {k : α → Session × Option DispatchResult} (h : s.checked parsed tag k = (s', none))
    (hk : ∀ body, k body = (s', none) → s' = s) : s' = s := by
  rcases parsed with _ | ⟨tagCheck, body⟩ <;> rw [checked] at h
  · exact (Prod.mk.inj h).1.symm
  · split_ifs at h
    · exact (Prod.mk.inj h).1.symm
    · exact hk body h

/-- A reply that is **refused changes nothing**. -/
theorem applyBody_refused {op : Outstanding} (h : s.applyBody op tag type msg = (s', none)) :
    s' = s := by
  rw [applyBody] at h
  split_ifs at h
  · exact checked_eq_none h fun _ hres => by cases hres
  · split at h
    · cases h
      rfl
    · refine checked_eq_none h fun qid hres => ?_
      split at hres
      · rename_i s₁ hbind
        cases hres
        exact fidBind_eq_false hbind
      · cases hres
    · refine checked_eq_none h fun qids hres => ?_
      split_ifs at hres
      · cases hres
      · obtain ⟨r, heq⟩ := s.exists_bindWalked_eq op tag (.walked qids)
        cases heq.symm.trans hres
    · refine checked_eq_none h ?_
      rintro ⟨qids, body⟩ hres
      dsimp only at hres
      split_ifs at hres
      · obtain ⟨r, heq⟩ := s.exists_bindWalked_eq op tag (.walkedAttrs qids body)
        cases heq.symm.trans hres
      · cases hres
    · refine checked_eq_none h fun _ hres => ?_
      split at hres
      · split_ifs at hres <;> cases hres
      · cases hres
    · exact checked_eq_none h fun _ hres => by cases hres

/-! ### The effects -/

/-- Everything a **call** can do to a session. -/
inductive Effect (s : Session) : Op → Session → Prop
  | grown {op : Op} {s' : Session} (h : Grown s s') : Effect s op s'
  | versioned {msg : List UInt8} (msize : UInt32) (h : s.state = .init) :
      Effect s (.dispatchRmsg msg) { s with negotiatedMsize := msize, state := .versioned }
  | closed (h : s.nActive = 0) : Effect s .close { s with state := .closed, boundFids := [] }
  | sent {mem : Kmalloc} {out : List UInt8} {req : Send} {s₁ s' : Session} {t : ℕ}
      (hgrown : Grown s s₁) (hfree : FreeTag s₁ t) (hcommit : Commit s s₁ t req s') :
      Effect s (.send mem out req) s'
  | ended {op : Op} {t : ℕ} (hact : s.Active t) (hawait : (s.tags t).awaitingFlush = false)
      (hends : Ends s t op) : Effect s op (s.clearOutstanding t)
  | reclaimed {tag : UInt16} (hact : s.Active tag.toNat)
      (hawait : (s.tags tag.toNat).awaitingFlush = false)
      (hab : (s.tags tag.toNat).abandoned = false)
      (hkind : (s.tags tag.toNat).kind = some .clunk) :
      Effect s (.retractUnsent tag)
        ((s.slotBind tag.toNat (s.tags tag.toNat).fid).1.clearOutstanding tag.toNat)
  | walked {msg : List UInt8} {t : ℕ} (hacc : s.Accepted msg t)
      (hawait : (s.tags t).awaitingFlush = false) (hwalk : s.FullWalk msg t) :
      Effect s (.dispatchRmsg msg) ((s.slotBind t (s.tags t).newFid).1.clearOutstanding t)
  | attached {msg : List UInt8} {t : ℕ} (hacc : s.Accepted msg t)
      (hawait : (s.tags t).awaitingFlush = false) (hkind : (s.tags t).kind = some .attach)
      (hroot : s.rootFid ∉ s.boundFids) :
      Effect s (.dispatchRmsg msg) (clearOutstanding
          { s with boundFids := s.boundFids ++ [s.rootFid], state := .opened } t)
  | acknowledged {msg : List UInt8} {tag : UInt16} (hact : s.Active tag.toNat)
      (hkind : (s.tags tag.toNat).isFlush = true) (hmsg : p9ParseRflush msg = some tag) :
      Effect s (.dispatchRmsg msg)
        ((s.clearOutstanding (s.tags tag.toNat).flushOldtag).clearOutstanding tag.toNat)
  | honoured {msg : List UInt8} {t : ℕ} (haddr : s.Addressed msg t)
      (hawait : (s.tags t).awaitingFlush = true) (hslot : (s.tags t).holdsSlot = true)
      (hkind : (s.tags t).kind = some .walk ∨ (s.tags t).kind = some .walkgetattr) :
      Effect s (.dispatchRmsg msg) (s.slotBind t (s.tags t).newFid).1
  | answered {msg : List UInt8} {t : ℕ} {f : Outstanding → Outstanding}
      (haddr : s.Addressed msg t) (hawait : (s.tags t).awaitingFlush = true)
      (hf : ∀ e, SameCore e (f e)) : Effect s (.dispatchFlushedRmsg msg) (s.modify t f)
  | answeredWalk {msg : List UInt8} {t : ℕ} {f : Outstanding → Outstanding}
      (haddr : s.Addressed msg t) (hawait : (s.tags t).awaitingFlush = true)
      (hwalk : s.FullWalk msg t) (hf : ∀ e, SameCore e (f e)) :
      Effect s (.dispatchFlushedRmsg msg) ((s.slotBind t (s.tags t).newFid).1.modify t f)
  | answeredAttach {msg : List UInt8} {t : ℕ} {f : Outstanding → Outstanding}
      (haddr : s.Addressed msg t) (hawait : (s.tags t).awaitingFlush = true)
      (hkind : (s.tags t).kind = some .attach) (hroot : s.rootFid ∉ s.boundFids)
      (hf : ∀ e, SameCore e (f e)) :
      Effect s (.dispatchFlushedRmsg msg)
        (modify { s with boundFids := s.boundFids ++ [s.rootFid], state := .opened } t f)
  | unstaged {op : Op} {oldtag : UInt16} {fl : ℕ} {f : Outstanding → Outstanding}
      (hop : op = .flushRollback oldtag ∨ op = .flushRetract oldtag)
      (hold : s.Active oldtag.toNat) (hawait : (s.tags oldtag.toNat).awaitingFlush = true)
      (htag : (s.tags oldtag.toNat).flushTag = fl) (hflush : s.Active fl)
      (hkind : (s.tags fl).isFlush = true) (hback : (s.tags fl).flushOldtag = oldtag.toNat)
      (hf : ∀ e, SameCore { e with awaitingFlush := false, flushTag := 0 } (f e)) :
      Effect s op ((s.clearOutstanding fl).modify oldtag.toNat f)
  | touched {op : Op} {t : ℕ} {f : Outstanding → Outstanding} (hact : s.Active t)
      (hf : ∀ e, SameCore e (f e)) : Effect s op (s.modify t f)
  | owned {tag : UInt32} {owner : Option ℕ} (hact : s.Active tag.toNat) :
      Effect s (.setOwner tag owner) (s.p9SessionSetOwner tag owner).1
  | asyncMarked {tag : UInt16} (hact : s.Active tag.toNat)
      (hasync : (s.tags tag.toNat).async = false) (hkind : (s.tags tag.toNat).isFlush = false) :
      Effect s (.markAsync tag) (s.p9SessionMarkAsync tag)

theorem Effect.refl : Effect s op s := .grown (.refl s)

theorem honourLateWalk_fst (s : Session) (op : Outstanding) (tag : UInt16) (type : UInt8)
    (msg : List UInt8) :
    (s.honourLateWalk op tag type msg).1 = s ∨
      op.holdsSlot = true ∧ (op.kind = some .walk ∨ op.kind = some .walkgetattr) ∧
      (s.honourLateWalk op tag type msg).1 = (s.slotBind tag.toNat op.newFid).1 := by
  rw [honourLateWalk]
  dsimp only
  by_cases hslot : op.holdsSlot = true
  · split_ifs with hnot htype
    · exact .inl rfl
    · exact .inl rfl
    · split
      all_goals
        first
        | exact .inl rfl
        | split
          · exact .inl rfl
          · split_ifs
            · exact .inl rfl
            · exact .inl rfl
            · refine .inr ⟨hslot, by simp_all, ?_⟩
              obtain ⟨s', _ | _⟩ := s.slotBind tag.toNat op.newFid <;> rfl
  · rw [if_pos (by simpa using hslot)]
    exact .inl rfl

theorem dispatchRversion_effect (s : Session) (msg : List UInt8) :
    Effect s (.dispatchRmsg msg) (s.dispatchRversion msg).1 := by
  fun_cases dispatchRversion s msg with
  | case1 | case2 | case3 => exact .refl
  | case4 hstate => exact .versioned _ (not_not.mp hstate)

theorem applyRmsg_applied (hback : FlushesBack s) (hact : s.Active tag.toNat)
    (h : s.applyRmsg (s.tags tag.toNat) tag type msg = (s', some r)) :
    Applied s tag msg s' := by
  rw [applyRmsg] at h
  split_ifs at h
  · cases h
  obtain ⟨rfl, hr⟩ := Prod.mk.inj h
  obtain ⟨r₁, hr, -⟩ := Option.map_eq_some_iff.mp hr
  exact applyBody_applied hback hact (Prod.ext rfl hr)

theorem applyRmsg_refused {op : Outstanding} (h : s.applyRmsg op tag type msg = (s', none)) :
    s' = s := by
  rw [applyRmsg] at h
  split_ifs at h
  · exact (Prod.mk.inj h).1.symm
  · obtain ⟨rfl, hr⟩ := Prod.mk.inj h
    exact applyBody_refused (Prod.ext rfl (Option.map_eq_none_iff.mp hr))

theorem dispatchRmsg_effect (hback : FlushesBack s) (msg : List UInt8) :
    Effect s (.dispatchRmsg msg) (s.p9SessionDispatchRmsg msg).1 := by
  fun_cases p9SessionDispatchRmsg s msg with
  | case1 | case3 => exact .refl
  | case2 => exact dispatchRversion_effect s msg
  | case4 size type tag hpeek hversion op hentry hawait s' r hlate =>
    obtain ⟨hact, rfl⟩ := activeEntry_eq_some.mp hentry
    rcases honourLateWalk_fst s (s.tags tag.toNat) tag type msg with h | ⟨hslot, hkind, h⟩ <;>
      rw [hlate] at h <;> subst h
    · exact .refl
    · exact .honoured ⟨hact, size, type, tag, hpeek, rfl⟩ hawait hslot hkind
  | case5 size type tag hpeek hversion op hentry hawait s' happly =>
    obtain rfl := applyRmsg_refused happly
    exact .refl
  | case6 size type tag hpeek hversion op hentry hawait s' r happly =>
    obtain ⟨hact, rfl⟩ := activeEntry_eq_some.mp hentry
    rw [Bool.not_eq_true] at hawait
    have hacc : s.Accepted msg tag.toNat := by
      refine ⟨⟨hact, size, type, tag, hpeek, rfl⟩, ?_⟩
      simp [p9SessionDispatchRmsg, hpeek, hversion, hentry, hawait, happly]
    cases applyRmsg_applied hback hact happly with
    | error hmsg => exact .ended hact hawait (.error hmsg rfl)
    | kept hkind => exact .ended hact hawait (.reply hacc hkind)
    | attached hkind hroot => exact .attached hacc hawait hkind hroot
    | walked hwalk => exact .walked hacc hawait hwalk
    | acknowledged hkind hmsg => exact .acknowledged hact hkind hmsg

theorem dispatchFlushedRmsg_effect (hback : FlushesBack s) (msg : List UInt8) :
    Effect s (.dispatchFlushedRmsg msg) (s.p9SessionDispatchFlushedRmsg msg).1 := by
  have hcore : ∀ e : Outstanding, SameCore e { e with ownerWaits := false, mutates := false } :=
    fun e => { SameCore.refl e with }
  fun_cases p9SessionDispatchFlushedRmsg s msg with
  | case1 | case2 | case3 => exact .refl
  | case4 size type tag hpeek op hentry hawait _ s' r happly =>
    obtain ⟨hact, rfl⟩ := activeEntry_eq_some.mp hentry
    have haddr : s.Addressed msg tag.toNat := ⟨hact, size, type, tag, hpeek, rfl⟩
    simp only [Bool.not_eq_true', Bool.not_eq_false] at hawait
    rcases r with _ | r
    · obtain rfl := applyRmsg_refused happly
      exact .answered haddr hawait hcore
    · cases applyRmsg_applied hback hact happly with
      | error | kept => exact .answered haddr hawait hcore
      | attached hkind hroot => exact .answeredAttach haddr hawait hkind hroot hcore
      | walked hwalk => exact .answeredWalk haddr hawait hwalk hcore
      | acknowledged hkind =>
        rw [hback.notFlush_of_awaiting _ hact hawait] at hkind
        cases hkind

/-! ### The other calls -/

section

variable (s : Session)

theorem retractUnsent_effect (tag : UInt16) :
    Effect s (.retractUnsent tag) (s.p9SessionRetractUnsent tag).1 := by
  rw [p9SessionRetractUnsent]
  by_cases htake : s.takeable tag.toNat = true
  · obtain ⟨hact, hawait, hab⟩ := takeable_iff.mp htake
    rw [if_neg (by simpa using htake)]
    by_cases hkind : (s.tags tag.toNat).kind = some .clunk
    · rw [if_pos hkind]
      exact .reclaimed hact hawait hab hkind
    · rw [if_neg hkind]
      exact .ended hact hawait (.retract rfl hab)
  · rw [if_pos (by simpa using htake)]
    exact .refl

theorem flushUnstage_cases (oldtag : ℕ) : s.flushUnstage oldtag = (s, false) ∨
      s.Active oldtag ∧ (s.tags oldtag).awaitingFlush = true ∧
      s.Active (s.tags oldtag).flushTag ∧
      (s.tags (s.tags oldtag).flushTag).isFlush = true ∧
      (s.tags (s.tags oldtag).flushTag).flushOldtag = oldtag ∧
      s.flushUnstage oldtag =
      ((s.clearOutstanding (s.tags oldtag).flushTag).modify oldtag fun e =>
      { e with awaitingFlush := false, ownerWaits := false, flushTag := 0 }, true) := by
  fun_cases flushUnstage s oldtag with
  | case1 | case2 | case3 | case4 => exact .inl rfl
  | case5 victim hvictim hawait fl hfl hpair =>
    obtain ⟨hact, rfl⟩ := activeEntry_eq_some.mp hvictim
    obtain ⟨hflact, rfl⟩ := activeEntry_eq_some.mp hfl
    simp only [Bool.not_eq_true', Bool.not_eq_false] at hawait
    simp only [Bool.or_eq_true, Bool.not_eq_true', bne_iff_ne, not_or, not_not,
      Bool.not_eq_false] at hpair
    exact .inr ⟨hact, hawait, hflact, hpair.1, hpair.2, rfl⟩

theorem modify_modify (t : ℕ) (f g : Outstanding → Outstanding) :
    (s.modify t f).modify t g = s.modify t (g ∘ f) := by
  simp only [modify, Function.update_self, Function.update_idem, Function.comp]

theorem flushRollback_effect (oldtag : UInt16) :
    Effect s (.flushRollback oldtag) (s.p9SessionFlushRollback oldtag) := by
  rw [p9SessionFlushRollback]
  rcases flushUnstage_cases s oldtag.toNat with h | ⟨hact, hawait, hfl, hkind, hback, h⟩
  · rw [h]
    exact .refl
  · rw [h]
    dsimp only
    rw [modify_modify]
    exact .unstaged (.inl rfl) hact hawait rfl hfl hkind hback fun _ =>
      { SameCore.refl _ with }

theorem flushRetract_effect (oldtag : UInt16) :
    Effect s (.flushRetract oldtag) (s.p9SessionFlushRetract oldtag) := by
  rw [p9SessionFlushRetract]
  rcases flushUnstage_cases s oldtag.toNat with h | ⟨hact, hawait, hfl, hkind, hback, h⟩
  · rw [h]
    exact .refl
  · rw [h]
    dsimp only
    exact .unstaged (.inr rfl) hact hawait rfl hfl hkind hback fun _ =>
      { SameCore.refl _ with }

end

/-- **Every call** has one of the effects. -/
theorem step_effect (hback : FlushesBack s) (op : Op) : Effect s op (s.step op) := by
  cases op with
  | send mem out req =>
    have hsent := send_sent s mem out req
    generalize hr : s.send mem out req = r at hsent
    change Effect s _ (s.send mem out req).1
    rw [hr]
    cases hsent with
    | failed hgrown => exact .grown hgrown
    | untagged => exact .refl
    | tagged hgrown hfree hcommit => exact .sent hgrown hfree hcommit
  | dispatchRmsg msg => exact dispatchRmsg_effect hback msg
  | dispatchFlushedRmsg msg => exact dispatchFlushedRmsg_effect hback msg
  | abortUnsent =>
    rw [step, p9SessionAbortUnsent]
    split_ifs with htake
    · obtain ⟨hact, hawait, hab⟩ := takeable_iff.mp htake
      exact .ended hact hawait (.abort rfl hab)
    · exact .refl
  | retractUnsent tag => exact retractUnsent_effect s tag
  | flushRollback oldtag => exact flushRollback_effect s oldtag
  | flushRetract oldtag => exact flushRetract_effect s oldtag
  | flushOwnerWaits oldtag waits =>
    rw [step]
    fun_cases p9SessionFlushOwnerWaits with
    | case1 | case2 => exact .refl
    | case3 _ hentry =>
      exact .touched (activeEntry_eq_some.mp hentry).1 fun e => { SameCore.refl e with }
  | markAbandoned tag =>
    rw [step]
    fun_cases p9SessionMarkAbandoned with
    | case1 | case2 => exact .refl
    | case3 _ hentry =>
      exact .touched (activeEntry_eq_some.mp hentry).1 fun e => { SameCore.refl e with }
  | setOwner tag =>
    cases hentry : s.activeEntry tag.toNat with
    | none =>
      rw [step, p9SessionSetOwner, hentry]
      exact .refl
    | some => exact .owned (activeEntry_eq_some.mp hentry).1
  | markAsync tag =>
    cases hentry : s.activeEntry tag.toNat with
    | none =>
      rw [step, p9SessionMarkAsync, hentry]
      exact .refl
    | some =>
      obtain ⟨hact, rfl⟩ := activeEntry_eq_some.mp hentry
      by_cases hskip : ((s.tags tag.toNat).async || (s.tags tag.toNat).isFlush) = true
      · rw [step, p9SessionMarkAsync, hentry]
        dsimp only
        rw [if_pos hskip]
        exact .refl
      · rw [Bool.not_eq_true, Bool.or_eq_false_iff] at hskip
        exact .asyncMarked hact hskip.1 hskip.2
  | hasFreeTag mem => exact .grown (allocTag_cases s mem false).1
  | hasFlushTag mem => exact .grown (allocTag_cases s mem true).1
  | close =>
    rw [step, p9SessionClose]
    split_ifs with hactive
    · exact .refl
    · exact .closed (not_not.mp hactive)

/-! ### The requests in flight across a call -/

/-- One request before and after a call, which may take its slot, but not a `Tclunk`'s. -/
structure SameRequest (e e' : Outstanding) : Prop where
  kind : e'.kind = e.kind
  opId : e'.opId = e.opId
  clunk : e.kind = some .clunk → e'.holdsSlot = e.holdsSlot

/-- How a call came by the request in flight under `t`. -/
inductive EntryStep (s s' : Session) (t : ℕ) : Prop
  | kept (hact : s.Active t) (hsame : SameRequest (s.tags t) (s'.tags t))
      (hawait : (s'.tags t).awaitingFlush = (s.tags t).awaitingFlush) : EntryStep s s' t
  | fresh (kind : MsgKind) (hfree : ¬s.Active t) (hlimit : t < s.tagLimit)
      (hkind : (s'.tags t).kind = some kind) (hawait : (s'.tags t).awaitingFlush = false)
      (hclunk : kind = .clunk → (s'.tags t).holdsSlot = true)
      (hopId : (s'.tags t).opId = s.nextOpId + 1) (hnext : s'.nextOpId = s.nextOpId + 1)
      (hstate : s.state = .opened ∨ s.state = .versioned ∧ (kind = .attach ∨ kind = .flush)) :
      EntryStep s s' t
  | cancelled (hact : s.Active t) (hsame : SameRequest (s.tags t) (s'.tags t))
      (hkind : (s.tags t).isFlush = false) : EntryStep s s' t
  | restored (hact : s.Active t) (hsame : SameRequest (s.tags t) (s'.tags t))
      (hawait : (s'.tags t).awaitingFlush = false) : EntryStep s s' t

theorem SameCore.sameRequest {e' : Outstanding} (h : SameCore e e') : SameRequest e e' :=
  ⟨h.kind, h.opId, fun _ => h.holdsSlot⟩

theorem EntryStep.of_eq (hact : s.Active t) (h : s'.tags t = s.tags t) : EntryStep s s' t := by
  refine .kept hact ?_ (by rw [h])
  rw [h]
  exact (SameCore.refl _).sameRequest

theorem Writes.active_of_ne (h : Writes s s' t e) (hu : u ≠ t) : s'.Active u ↔ s.Active u := by
  rw [Active, Active, h.tagSet, h.entry_of_ne hu]

/-- Only the request under the written tag changes. -/
theorem Writes.entryStep (h : Writes s s' t e)
    (hu : s'.Active u) (ht : s'.Active t → EntryStep s s' t) : EntryStep s s' u := by
  by_cases hut : u = t
  · subst hut
    exact ht hu
  · exact .of_eq ((h.active_of_ne hut).mp hu) (h.entry_of_ne hut)

section

variable {m : Bool} (h : Writes s s' t (zero m))
include h

theorem Writes.not_active : ¬s'.Active t := by
  rintro ⟨-, hact⟩
  rw [h.entry_self] at hact
  cases hact

theorem Writes.ne_of_active (hu : s'.Active u) : u ≠ t := by
  rintro rfl
  exact h.not_active hu

/-- A request that has ended. -/
theorem Writes.cleared (hu : s'.Active u) : EntryStep s s' u :=
  h.entryStep hu fun ht => absurd ht h.not_active

end

/-- The write of an entry that changes its owner only. -/
theorem Writes.kept (h : Writes s s' t e) (ht : s.Active t) (hsame : SameRequest (s.tags t) e)
    (hawait : e.awaitingFlush = (s.tags t).awaitingFlush) (hu : s'.Active u) :
    EntryStep s s' u := by
  refine h.entryStep hu fun _ => .kept ht ?_ ?_
  · rw [h.entry_self]
    exact hsame
  · rw [h.entry_self]
    exact hawait

theorem FreeTag.not_active (hgrown : Grown s s₁) (hfree : FreeTag s₁ t) : ¬s.Active t := by
  intro hact
  have hnew := (hgrown.active.mpr hact).2
  rw [hfree.2.1] at hnew
  cases hnew

theorem Grown.entryStep (hgrown : Grown s s₁)
    (h : Writes s₁ s' t e) (hu : s'.Active u) (ht : EntryStep s s' t) : EntryStep s s' u := by
  by_cases hut : u = t
  · subst hut
    exact ht
  · have hact := hgrown.active.mp ((h.active_of_ne hut).mp hu)
    exact .of_eq hact ((h.entry_of_ne hut).trans (hgrown.tags_of_active hact))

/-- The entry of a new request. -/
structure New (s : Session) (kind : MsgKind) (e : Outstanding) : Prop where
  active : e.active = true
  kind : e.kind = some kind
  awaitingFlush : e.awaitingFlush = false
  opId : e.opId = s.nextOpId + 1

/-- The tag table after a **send**: a new entry, and a flush's waiting victim. -/
inductive Placed (s s₁ : Session) (t : ℕ) (req : Send) (s' : Session) : Prop
  | request {kind : MsgKind} {e : Outstanding} (hreq : ∀ oldtag, req ≠ .flush oldtag)
      (hshare : s.nActive - s.nFlush < s.opsMax) (hflush : kind ≠ .flush)
      (hclunk : kind = .clunk → e.holdsSlot = true)
      (hstate : s.state = .opened ∨ s.state = .versioned ∧ kind = .attach)
      (hw : Writes s₁ s' t e) (he : s₁.New kind e) : Placed s s₁ t req s'
  | flush {oldtag : UInt16} {s₂ : Session} {e : Outstanding} (hreq : req = .flush oldtag)
      (hstate : s.state = .opened ∨ s.state = .versioned) (hold : s.Active oldtag.toNat)
      (hkind : (s.tags oldtag.toNat).isFlush = false)
      (hawait : (s.tags oldtag.toNat).awaitingFlush = false) (hne : oldtag.toNat ≠ t)
      (hw₁ : Writes s₁ s₂ t e) (he : s₁.New .flush e) (htag : e.flushOldtag = oldtag.toNat)
      (hw₂ : Writes s₂ s' oldtag.toNat
        { s.tags oldtag.toNat with awaitingFlush := true, flushTag := t }) : Placed s s₁ t req s'

section

variable (hgrown : Grown s s₁)
include hgrown

theorem Commit.placed (h : Commit s s₁ t req s') (hfree : FreeTag s₁ t) : Placed s s₁ t req s' := by
  cases h with
  | issued hreq hshare hflush hclunk hstate hf =>
    exact .request hreq hshare hflush (absurd · hclunk) hstate (mark_modify_writes ..)
      ⟨(hf _).active, (hf _).kind, (hf _).awaitingFlush, (hf _).opId⟩
  | @reserved req kind fid newFid f hreq hshare hflush hstate hslot hf =>
    have hw := mark_modify_writes s₁ t kind fid newFid f
    have hr := slotReserve_writes ((s₁.markOutstanding t kind fid newFid).modify t f) t
    rw [hw.entry_self] at hr
    exact .request hreq hshare hflush (fun _ => rfl) (.inl hstate) (hw.trans hr)
      ⟨(hf _).active, (hf _).kind, (hf _).awaitingFlush, (hf _).opId⟩
  | @clunked req fid hreq hshare hstate =>
    obtain ⟨l, hl⟩ := fidUnbind_eq s₁ fid
    rw [hl]
    have hw := markOutstanding_writes { s₁ with boundFids := l } t .clunk fid fid
    have hr := slotReserve_writes (markOutstanding { s₁ with boundFids := l } t .clunk fid fid) t
    rw [hw.entry_self] at hr
    exact .request hreq hshare (by decide) (fun _ => rfl) (.inl hstate)
      ⟨(hw.trans hr).nChunks, (hw.trans hr).tags⟩ ⟨rfl, rfl, rfl, rfl⟩
  | @flushed oldtag hstate hold hkind hawait =>
    have hne : oldtag.toNat ≠ t := by
      rintro rfl
      exact hfree.not_active hgrown hold
    have hw₁ := mark_modify_writes s₁ t .flush s₁.rootFid s₁.rootFid fun e =>
      { e with flushOldtag := oldtag.toNat }
    have hw₂ := modify_writes ((s₁.markOutstanding t .flush s₁.rootFid s₁.rootFid).modify t
      fun e => { e with flushOldtag := oldtag.toNat }) oldtag.toNat fun victim =>
        { victim with awaitingFlush := true, flushTag := t }
    rw [hw₁.entry_of_ne hne, hgrown.tags_of_active hold] at hw₂
    exact .flush rfl hstate hold hkind hawait hne hw₁ ⟨rfl, rfl, rfl, rfl⟩ rfl hw₂

theorem Commit.nextOpId (h : Commit s s₁ t req s') : s'.nextOpId = s.nextOpId + 1 := by
  rw [← hgrown.nextOpId]
  cases h with
  | issued | reserved | flushed => rfl
  | @clunked req fid =>
    obtain ⟨l, hl⟩ := fidUnbind_eq s₁ fid
    rw [hl]
    rfl

/-- The request that a send **adds**. -/
theorem New.entryStep {kind : MsgKind} (he : s₁.New kind e) (hself : s'.tags t = e)
    (hfree : FreeTag s₁ t) (hclunk : kind = .clunk → e.holdsSlot = true)
    (hnext : s'.nextOpId = s.nextOpId + 1)
    (hstate : s.state = .opened ∨ s.state = .versioned ∧ (kind = .attach ∨ kind = .flush)) :
    EntryStep s s' t := by
  subst hself
  exact .fresh kind (hfree.not_active hgrown) (hgrown.tagLimit ▸ hfree.2.2) he.kind
    he.awaitingFlush hclunk (he.opId.trans (congrArg (· + 1) hgrown.nextOpId)) hnext hstate

theorem Commit.entry (h : Commit s s₁ t req s') (hfree : FreeTag s₁ t) (hu : s'.Active u) :
    EntryStep s s' u := by
  have hnext := h.nextOpId hgrown
  cases h.placed hgrown hfree with
  | request hreq hshare hflush hclunk hstate hw he =>
    exact hgrown.entryStep hw hu (he.entryStep hgrown hw.entry_self hfree hclunk hnext
      (hstate.imp_right fun h => ⟨h.1, .inl h.2⟩))
  | @flush oldtag s₂ e hreq hstate hold hkind hawait hne hw₁ he htag hw₂ =>
    by_cases hold' : u = oldtag.toNat
    · subst hold'
      refine .cancelled hold ?_ hkind
      rw [hw₂.entry_self]
      exact ⟨rfl, rfl, fun _ => rfl⟩
    · have hu₂ := (hw₂.active_of_ne hold').mp hu
      by_cases hut : u = t
      · subst hut
        exact he.entryStep hgrown ((hw₂.entry_of_ne hold').trans hw₁.entry_self) hfree nofun hnext
          (hstate.imp_right fun h => ⟨h, .inr rfl⟩)
      · have hact := hgrown.active.mp ((hw₁.active_of_ne hut).mp hu₂)
        exact .of_eq hact ((hw₂.entry_of_ne hold').trans
          ((hw₁.entry_of_ne hut).trans (hgrown.tags_of_active hact)))

end

theorem isFlush_of_fullWalk (h : s.FullWalk msg t) :
    (s.tags t).isFlush = false ∧ (s.tags t).kind ≠ some .clunk := by
  obtain ⟨tag, -, ⟨hkind, -⟩ | ⟨hkind, -⟩⟩ := h
  all_goals simp [isFlush, hkind]

/-- **Every request in flight** after a call was so before, or is new. -/
theorem Effect.entry (h : Effect s op s') (hu : s'.Active u) : EntryStep s s' u := by
  cases h with
  | grown hgrown =>
    have hact := hgrown.active.mp hu
    exact .of_eq hact (hgrown.tags_of_active hact)
  | versioned | closed => exact .of_eq hu rfl
  | sent hgrown hfree hcommit => exact hcommit.entry hgrown hfree hu
  | ended => exact (clearOutstanding_writes ..).cleared hu
  | reclaimed | walked =>
    exact ((slotBind_writes ..).trans (clearOutstanding_writes ..)).cleared hu
  | @attached msg t =>
    have hw := clearOutstanding_writes
      { s with boundFids := s.boundFids ++ [s.rootFid], state := .opened } t
    exact Writes.cleared ⟨hw.nChunks, hw.tags⟩ hu
  | @acknowledged msg tag =>
    have hw₁ := clearOutstanding_writes s (s.tags tag.toNat).flushOldtag
    have hw₂ := clearOutstanding_writes
      (s.clearOutstanding (s.tags tag.toNat).flushOldtag) tag.toNat
    have hne₂ := hw₂.ne_of_active hu
    have hu₁ := (hw₂.active_of_ne hne₂).mp hu
    have hne₁ := hw₁.ne_of_active hu₁
    exact .of_eq ((hw₁.active_of_ne hne₁).mp hu₁)
      ((hw₂.entry_of_ne hne₂).trans (hw₁.entry_of_ne hne₁))
  | @honoured msg t haddr hawait hslot hkind =>
    refine (slotBind_writes s t _).kept haddr.1 ⟨rfl, rfl, fun h => ?_⟩ rfl hu
    rcases hkind with hk | hk <;> cases h.symm.trans hk
  | @answered msg t f haddr hawait hf =>
    exact (modify_writes s t f).kept haddr.1 (hf _).sameRequest (hf _).awaitingFlush hu
  | @answeredWalk msg t f haddr hawait hwalk hf =>
    have hbind := slotBind_writes s t (s.tags t).newFid
    have hcore := hf ((s.slotBind t (s.tags t).newFid).1.tags t)
    refine (hbind.trans (modify_writes _ t f)).kept haddr.1 ?_ ?_ hu
    · rw [hbind.entry_self] at hcore ⊢
      exact ⟨hcore.kind, hcore.opId, fun h => absurd h (isFlush_of_fullWalk hwalk).2⟩
    · rw [hbind.entry_self] at hcore ⊢
      exact hcore.awaitingFlush
  | @answeredAttach msg t f haddr hawait hkind hroot hf =>
    have hw := modify_writes
      { s with boundFids := s.boundFids ++ [s.rootFid], state := .opened } t f
    exact Writes.kept ⟨hw.nChunks, hw.tags⟩ haddr.1 (hf _).sameRequest (hf _).awaitingFlush hu
  | @unstaged op oldtag fl f hop hold hawait htag hflush hkind hback hf =>
    have hw₁ := clearOutstanding_writes s fl
    have hw₂ := modify_writes (s.clearOutstanding fl) oldtag.toNat f
    have hcore := hf ((s.clearOutstanding fl).tags oldtag.toNat)
    by_cases hold' : u = oldtag.toNat
    · subst hold'
      have hact := hu.2
      rw [hw₂.entry_self, hcore.active] at hact
      have hne : oldtag.toNat ≠ fl := by
        intro heq
        rw [heq, hw₁.entry_self] at hact
        cases hact
      rw [hw₁.entry_of_ne hne] at hcore
      have he := hw₂.entry_self
      rw [hw₁.entry_of_ne hne] at he
      refine .restored hold ?_ ?_
      · rw [he]
        exact ⟨hcore.kind, hcore.opId, fun _ => hcore.holdsSlot⟩
      · rw [he]
        exact hcore.awaitingFlush
    · have hu₁ := (hw₂.active_of_ne hold').mp hu
      have hne := hw₁.ne_of_active hu₁
      exact .of_eq ((hw₁.active_of_ne hne).mp hu₁)
        ((hw₂.entry_of_ne hold').trans (hw₁.entry_of_ne hne))
  | @touched op t f hact hf =>
    exact (modify_writes s t f).kept hact (hf _).sameRequest (hf _).awaitingFlush hu
  | @owned tag owner hact =>
    exact (p9SessionSetOwner_writes hact owner).kept hact ⟨rfl, rfl, fun _ => rfl⟩ rfl hu
  | @asyncMarked tag hact hasync hkind =>
    exact (p9SessionMarkAsync_writes hact hasync hkind).kept hact ⟨rfl, rfl, fun _ => rfl⟩ rfl hu

/-! ### What no call changes -/

/-- Sessions with one root fid and the same limits. -/
structure SameLimits (s s' : Session) : Prop where
  rootFid : s'.rootFid = s.rootFid
  tagLimit : s'.tagLimit = s.tagLimit
  opsMax : s'.opsMax = s.opsMax

/-- What only a send changes. -/
def fixed (s : Session) : UInt32 × ℕ × ℕ × UInt32 := (s.rootFid, s.tagLimit, s.opsMax, s.nextOpId)

theorem fixed_clear (s : Session) (t : ℕ) : (s.clearOutstanding t).fixed = s.fixed := by
  rw [clearOutstanding, slotRelease_eq]
  rfl

theorem fixed_slotBind (s : Session) (t : ℕ) (fid : UInt32) :
    (s.slotBind t fid).1.fixed = s.fixed := by
  obtain ⟨l, hl⟩ := fidBind_eq (s.slotRelease t) fid
  rw [slotBind, hl, slotRelease_eq]
  rfl

/-- A call that **sends** nothing leaves root fid, limits and numbers. -/
theorem Effect.fixed_or_sent (h : Effect s op s') : s'.fixed = s.fixed ∨
    ∃ mem out req s₁ t, op = .send mem out req ∧ Grown s s₁ ∧ FreeTag s₁ t ∧
      Commit s s₁ t req s' := by
  cases h with
  | sent hgrown hfree hcommit => exact .inr ⟨_, _, _, _, _, rfl, hgrown, hfree, hcommit⟩
  | grown hgrown =>
    rw [fixed, hgrown.rootFid, hgrown.tagLimit, hgrown.opsMax, hgrown.nextOpId]
    exact .inl rfl
  | versioned | closed | answered | answeredAttach | touched => exact .inl rfl
  | ended | attached | unstaged => exact .inl (fixed_clear ..)
  | reclaimed | walked => exact .inl ((fixed_clear ..).trans (fixed_slotBind ..))
  | acknowledged => exact .inl ((fixed_clear ..).trans (fixed_clear ..))
  | honoured | answeredWalk => exact .inl (fixed_slotBind ..)
  | owned hact =>
    rw [p9SessionSetOwner, activeEntry_eq_some.mpr ⟨hact, rfl⟩]
    exact .inl rfl
  | asyncMarked hact hasync hkind =>
    rw [p9SessionMarkAsync, activeEntry_eq_some.mpr ⟨hact, rfl⟩]
    dsimp only
    rw [hasync, hkind]
    exact .inl rfl

theorem Effect.sameLimits (h : Effect s op s') : SameLimits s s' := by
  rcases h.fixed_or_sent with hfixed | ⟨mem, out, req, s₁, t, -, hgrown, -, hcommit⟩
  · simp only [fixed, Prod.mk.injEq] at hfixed
    exact ⟨hfixed.1, hfixed.2.1, hfixed.2.2.1⟩
  · have hlimits : SameLimits s s₁ := ⟨hgrown.rootFid, hgrown.tagLimit, hgrown.opsMax⟩
    cases hcommit with
    | issued | flushed => exact ⟨hlimits.1, hlimits.2, hlimits.3⟩
    | reserved =>
      constructor <;> dsimp only [slotReserve, modify, markOutstanding]
      exacts [hlimits.1, hlimits.2, hlimits.3]
    | @clunked req fid =>
      obtain ⟨l, hl⟩ := fidUnbind_eq s₁ fid
      rw [hl]
      exact ⟨hlimits.1, hlimits.2, hlimits.3⟩

end Session

end Thylacine
