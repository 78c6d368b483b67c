import Thylacine.Lib.CancelProtocol
import Thylacine.NineP.SessionEffects

/-!
# Flushes and Their Victims

A `Tflush` cancels a request. The session is an implementation of the protocol of
`CancelProtocol`: `table` reads the slots off the tag table, and `Label` says which event a call
stands for.

## Main results

* `Effect.simulates`: the refinement.
* `flush_pairing`: flushes and waiting requests are paired iff no call loses a flush.
* `flush_pairing_error_reply`: an error in answer to a flush loses it.
-/

namespace Thylacine

open Outstanding Session
open Function (update update_of_ne update_self)

namespace Session

open CancelProtocol

/-! ### The abstract table -/

/-- The slot that a tag's entry stands for. -/
def slotOf (e : Outstanding) : Slot ℕ :=
  if !e.active then .free
  else if e.isFlush then .cancel e.flushOldtag
  else .request (if e.awaitingFlush then some e.flushTag else none)

/-- The **table** of the protocol. -/
def table (s : Session) (t : ℕ) : Slot ℕ := if t ∈ s.tagSet then slotOf (s.tags t) else .free

variable {s s' s₁ : Session} {f t v u : ℕ} {e : Outstanding} {op : Op} {kind : MsgKind}
  {raw : ℕ → Outstanding} {msg : List UInt8} {tag : UInt16}

theorem SameCore.slotOf_eq {e' : Outstanding} (h : SameCore e e') : slotOf e' = slotOf e := by
  rw [slotOf, slotOf, isFlush, isFlush, h.active, h.kind,
    h.flushOldtag, h.awaitingFlush, h.flushTag]

theorem table_eq_free : s.table t = .free ↔ ¬s.Active t := by
  rw [table, slotOf, Active]
  split_ifs <;> simp_all

theorem table_eq_cancel : s.table f = .cancel v ↔
      s.Active f ∧ (s.tags f).isFlush = true ∧ (s.tags f).flushOldtag = v := by
  rw [table, slotOf, Active]
  split_ifs <;> simp_all

theorem table_eq_request : s.table t = .request none ↔
      s.Active t ∧ (s.tags t).isFlush = false ∧ (s.tags t).awaitingFlush = false := by
  rw [table, slotOf, Active]
  split_ifs <;> simp_all

theorem table_eq_waiting : s.table v = .request (some f) ↔
      s.Active v ∧ (s.tags v).isFlush = false ∧ (s.tags v).awaitingFlush = true ∧
      (s.tags v).flushTag = f := by
  rw [table, slotOf, Active]
  split_ifs <;> simp_all

theorem Grown.table_eq (h : Grown s s') : s'.table = s.table := by
  funext t
  rw [table, table]
  by_cases hold : t ∈ s.tagSet
  · rw [if_pos hold, if_pos (h.subset hold), h.old t hold]
  · split_ifs with hnew
    · rw [h.fresh t hnew hold]
      rfl
    · rfl

section

variable (ht : t ∈ s.tagSet)
include ht

theorem Writes.table_eq (h : Writes s s' t e) : s'.table = update s.table t (slotOf e) := by
  funext u
  rw [table, h.tagSet, h.tags]
  by_cases hu : u = t
  · subst hu
    rw [if_pos ht, update_self, update_self]
  · rw [update_of_ne hu, update_of_ne hu, table]

/-- A write that keeps the slot. -/
theorem Writes.table_of_slotOf (h : Writes s s' t e) (he : slotOf e = slotOf (s.tags t)) :
    s'.table = s.table := by
  rw [h.table_eq ht, he]
  exact Function.update_eq_self_iff.mpr (if_pos ht).symm

theorem clearOutstanding_table : (s.clearOutstanding t).table = update s.table t .free :=
  (clearOutstanding_writes s t).table_eq ht

theorem slotBind_table (fid : UInt32) : (s.slotBind t fid).1.table = s.table :=
  (slotBind_writes s t fid).table_of_slotOf ht rfl

theorem modify_table
    {f : Outstanding → Outstanding} (hf : ∀ e, SameCore e (f e)) :
    (s.modify t f).table = s.table :=
  (modify_writes s t f).table_of_slotOf ht (hf _).slotOf_eq

end

/-! ### The refinement -/

/-- The events that a call can stand for. -/
inductive Label (s : Session) : Op → Event ℕ → Prop
  | send {mem : Kmalloc} {out : List UInt8} {req : Send} {t : ℕ} :
      Label s (.send mem out req) (.send t)
  | cancel {mem : Kmalloc} {out : List UInt8} {oldtag : UInt16} {t : ℕ} :
      Label s (.send mem out (.flush oldtag)) (.cancel oldtag.toNat t)
  | finish {op : Op} {t : ℕ} (hends : Ends s t op) : Label s op (.finish t)
  | acknowledge {msg : List UInt8} {tag : UInt16} (hmsg : p9ParseRflush msg = some tag) :
      Label s (.dispatchRmsg msg) (.acknowledge tag.toNat)
  | lose {op : Op} {f : ℕ} (hact : s.Active f) (hkind : (s.tags f).isFlush = true)
      (hends : Ends s f op) : Label s op (.lose f)
  | unstage {op : Op} {oldtag : UInt16} {f : ℕ}
      (hop : op = .flushRollback oldtag ∨ op = .flushRetract oldtag) :
      Label s op (.unstage oldtag.toNat f)
  | stutter {op : Op} : Label s op .stutter

theorem New.slotOf_eq (h : s.New kind e) :
    slotOf e = if kind = .flush then .cancel e.flushOldtag else .request none := by
  simp [slotOf, isFlush, h.active, h.kind, h.awaitingFlush]

theorem FreeTag.table_eq (hgrown : Grown s s₁) (hfree : FreeTag s₁ t) : s.table t = .free :=
  table_eq_free.mpr (hfree.not_active hgrown)

/-- A `Tflush` takes a slot, and its victim **waits for it**. -/
theorem Commit.table_flush {oldtag : UInt16}
    (h : Commit s s₁ t (.flush oldtag) s') (hgrown : Grown s s₁) (hfree : FreeTag s₁ t) :
    s.table oldtag.toNat = .request none ∧ s.table t = .free ∧
      s'.table = update (update s.table t (.cancel oldtag.toNat)) oldtag.toNat
      (.request (some t)) := by
  cases h.placed hgrown hfree with
  | request hreq => exact absurd rfl (hreq oldtag)
  | flush hreq hstate hold hkind hawait hne hw₁ he htag hw₂ =>
    cases hreq
    have hslot : slotOf { s.tags oldtag.toNat with awaitingFlush := true, flushTag := t } =
        .request (some t) := by
      have hkind' : ((s.tags oldtag.toNat).kind == some .flush) = false := hkind
      simp [slotOf, isFlush, hold.2, hkind']
    refine ⟨table_eq_request.mpr ⟨hold, hkind, hawait⟩, hfree.table_eq hgrown, ?_⟩
    rw [hw₂.table_eq (hw₁.tagSet ▸ hgrown.subset hold.1), hslot, hw₁.table_eq hfree.1,
      hgrown.table_eq, he.slotOf_eq, if_pos rfl, htag]

theorem Commit.simulates {req : Send} {mem : Kmalloc}
    {out : List UInt8} (h : Commit s s₁ t req s') (hgrown : Grown s s₁)
    (hfree : FreeTag s₁ t) :
    ∃ ev, Label s (.send mem out req) ev ∧ Step s.table ev s'.table := by
  cases h.placed hgrown hfree with
  | request hreq hshare hflush hclunk hstate hw he =>
    refine ⟨.send t, .send, ?_⟩
    rw [hw.table_eq hfree.1, he.slotOf_eq.trans (if_neg hflush), hgrown.table_eq]
    exact .send (hfree.table_eq hgrown)
  | flush hreq =>
    subst hreq
    obtain ⟨hrequest, hslot, htable⟩ := h.table_flush hgrown hfree
    refine ⟨.cancel _ t, .cancel, ?_⟩
    rw [htable]
    exact .cancel hrequest hslot

/-- A request other than a `Tflush` **finishes** when cleared. -/
theorem step_finish (s₁ : Session) (htable : s₁.table = s.table)
    (hset : s₁.tagSet = s.tagSet) (hact : s.Active t)
    (hkind : (s.tags t).isFlush = false) (hawait : (s.tags t).awaitingFlush = false) :
    Step s.table (.finish t) (s₁.clearOutstanding t).table := by
  rw [clearOutstanding_table (hset ▸ hact.1), htable]
  exact .finish (table_eq_request.mpr ⟨hact, hkind, hawait⟩)

theorem isFlush_of_kind (h : e.kind = some kind) (hkind : kind ≠ .flush) : e.isFlush = false := by
  simp [isFlush, h, hkind]

theorem stutters (op : Op) (h : s'.table = s.table) :
    ∃ ev, Label s op ev ∧ Step s.table ev s'.table := by
  rw [h]
  exact ⟨.stutter, .stutter, .stutter⟩

theorem mem_clear_tagSet (h : u ∈ s.tagSet) : u ∈ (s.clearOutstanding t).tagSet := by
  rw [(clearOutstanding_writes ..).tagSet]
  exact h

/-- **Every call is a step of the protocol.** -/
theorem Effect.simulates (h : Effect s op s')
    (hback : FlushesBack s) : ∃ ev, Label s op ev ∧ Step s.table ev s'.table := by
  cases h with
  | grown hgrown => exact stutters _ hgrown.table_eq
  | versioned | closed => exact stutters _ rfl
  | sent hgrown hfree hcommit => exact hcommit.simulates hgrown hfree
  | @ended op t hact hawait hends =>
    by_cases hkind : (s.tags t).isFlush = true
    · refine ⟨.lose t, .lose hact hkind hends, ?_⟩
      rw [clearOutstanding_table hact.1]
      exact .lose (table_eq_cancel.mpr ⟨hact, hkind, rfl⟩)
    · rw [Bool.not_eq_true] at hkind
      exact ⟨.finish t, .finish hends, step_finish s rfl rfl hact hkind hawait⟩
  | @reclaimed tag hact hawait hab hkind =>
    exact ⟨.finish tag.toNat, .finish (.retract rfl hab),
      step_finish _ (slotBind_table hact.1 _) (slotBind_writes ..).tagSet hact
        (isFlush_of_kind hkind (by decide)) hawait⟩
  | @walked msg t hacc hawait hwalk =>
    have hkind := (isFlush_of_fullWalk hwalk).1
    have hact := hacc.1.1
    exact ⟨.finish t, .finish (.reply hacc hkind),
      step_finish _ (slotBind_table hact.1 _) (slotBind_writes ..).tagSet hact hkind hawait⟩
  | @attached msg t hacc hawait hkind hroot =>
    have hkind := isFlush_of_kind hkind (by decide)
    exact ⟨.finish t, .finish (.reply hacc hkind),
      step_finish { s with boundFids := s.boundFids ++ [s.rootFid], state := .opened } rfl rfl
        hacc.1.1 hkind hawait⟩
  | @acknowledged msg tag hact hkind hmsg =>
    obtain ⟨hvictim, -⟩ := hback.victim _ hact hkind
    refine ⟨.acknowledge tag.toNat, .acknowledge hmsg, ?_⟩
    rw [clearOutstanding_table (mem_clear_tagSet hact.1), clearOutstanding_table hvictim.1]
    exact .acknowledge (table_eq_cancel.mpr ⟨hact, hkind, rfl⟩)
  | honoured haddr => exact stutters _ (slotBind_table haddr.1.1 _)
  | answered haddr hawait hf => exact stutters _ (modify_table haddr.1.1 hf)
  | @answeredWalk msg t f haddr hawait hwalk hf =>
    refine stutters _ ?_
    rw [modify_table ?_ hf, slotBind_table haddr.1.1]
    rw [(slotBind_writes ..).tagSet]
    exact haddr.1.1
  | @answeredAttach msg t f haddr hawait hkind hroot hf =>
    exact stutters _ (modify_table haddr.1.1 hf)
  | @unstaged op oldtag fl f hop hold hawait htag hflush hkind hback' hf =>
    have hne : oldtag.toNat ≠ fl := by
      rintro rfl
      rw [hback.notFlush_of_awaiting _ hold hawait] at hkind
      cases hkind
    have hvictim : (s.tags oldtag.toNat).isFlush = false := hback.notFlush_of_awaiting _ hold hawait
    have hw₁ := clearOutstanding_writes s fl
    have hw₂ := modify_writes (s.clearOutstanding fl) oldtag.toNat f
    rw [hw₁.entry_of_ne hne] at hw₂
    have he : slotOf (f (s.tags oldtag.toNat)) = .request none := by
      have hkind' : ((s.tags oldtag.toNat).kind == some .flush) = false := hvictim
      rw [(hf _).slotOf_eq]
      simp [slotOf, isFlush, hold.2, hkind']
    refine ⟨.unstage oldtag.toNat fl, .unstage hop, ?_⟩
    rw [hw₂.table_eq (mem_clear_tagSet hold.1), he, clearOutstanding_table hflush.1]
    exact .unstage (table_eq_waiting.mpr ⟨hold, hvictim, hawait, htag⟩)
      (table_eq_cancel.mpr ⟨hflush, hkind, hback'⟩)
  | touched hact hf => exact stutters _ (modify_table hact.1 hf)
  | owned hact => exact stutters _ ((p9SessionSetOwner_writes hact _).table_of_slotOf hact.1 rfl)
  | asyncMarked hact hasync hkind =>
    exact stutters _ ((p9SessionMarkAsync_writes hact hasync hkind).table_of_slotOf hact.1 rfl)

theorem flushesBack_iff : FlushesBack s ↔
      (∀ t, s.Active t → (s.tags t).awaitingFlush = true → (s.tags t).isFlush = false) ∧
      Back s.table := by
  constructor
  · refine fun h => ⟨h.notFlush_of_awaiting, fun f v hf => ?_⟩
    obtain ⟨hact, hkind, rfl⟩ := table_eq_cancel.mp hf
    obtain ⟨hvictim, hawait, htag⟩ := h.victim f hact hkind
    exact table_eq_waiting.mpr ⟨hvictim, h.notFlush_of_awaiting _ hvictim hawait, hawait, htag⟩
  · rintro ⟨hnot, hback⟩
    refine ⟨hnot, fun f hact hkind => ?_⟩
    obtain ⟨hvictim, -, hawait, htag⟩ :=
      table_eq_waiting.mp (hback f _ (table_eq_cancel.mpr ⟨hact, hkind, rfl⟩))
    exact ⟨hvictim, hawait, htag⟩

/-- Every call **keeps** `FlushesBack`. -/
theorem step_flushesBack (hback : FlushesBack s) (op : Op) : FlushesBack (s.step op) := by
  have heffect := step_effect hback op
  obtain ⟨ev, -, hstep⟩ := heffect.simulates hback
  refine flushesBack_iff.mpr ⟨fun t ht hawait => ?_, hstep.back (flushesBack_iff.mp hback).2⟩
  have hkind {e e' : Outstanding} (h : SameRequest e e') : e'.isFlush = e.isFlush := by
    rw [isFlush, isFlush, h.kind]
  cases heffect.entry ht with
  | kept hact hsame hsame' =>
    rw [hkind hsame]
    exact hback.notFlush_of_awaiting t hact (hsame' ▸ hawait)
  | fresh kind hfree hlimit hk hnot | restored hact hsame hnot =>
    exact absurd hawait (by simp [hnot])
  | cancelled hact hsame hk => rw [hkind hsame, hk]

/-- The session as an **implementation** of the protocol. -/
def implementation : Implementation Session Op ℕ where
  step := step
  table := table
  label := Label
  inv := FlushesBack
  step_inv := fun _ op h => step_flushesBack h op
  back_of_inv := fun _ h => (flushesBack_iff.mp h).2
  simulates := fun _ op h => (step_effect h op).simulates h

/-! ### Runs -/

/-- `FlushesBack`, and tags in flight are below the limit. -/
structure WellFormed (s : Session) : Prop where
  back : FlushesBack s
  tagLimit : s.tagLimit = p9TagLimit
  below : ∀ t, s.Active t → t < p9TagLimit

theorem init_not_active {rootFid msize : UInt32}
    (h : p9SessionInit raw rootFid msize = some s) (t : ℕ) : ¬s.Active t := by
  rw [p9SessionInit] at h
  split_ifs at h
  cases h
  rintro ⟨hmem, hact⟩
  have hlt : t < p9TagChunk := by simpa [tagSet] using hmem
  change (if t < p9TagChunk then zero (raw t).mutates else raw t).active = true at hact
  rw [if_pos hlt] at hact
  cases hact

theorem init_wellFormed {rootFid msize : UInt32}
    (h : p9SessionInit raw rootFid msize = some s) : WellFormed s := by
  have hnot := init_not_active h
  refine ⟨⟨fun t ht => absurd ht (hnot t), fun f hf => absurd hf (hnot f)⟩, ?_,
    fun t ht => absurd ht (hnot t)⟩
  rw [p9SessionInit] at h
  split_ifs at h
  cases h
  rfl

theorem step_wellFormed (h : WellFormed s) (op : Op) : WellFormed (s.step op) := by
  have heffect := step_effect h.back op
  refine ⟨step_flushesBack h.back op, heffect.sameLimits.tagLimit.trans h.tagLimit, fun t ht => ?_⟩
  cases heffect.entry ht with
  | kept hact | cancelled hact | restored hact => exact h.below t hact
  | fresh kind hfree hlimit => exact h.tagLimit ▸ hlimit

theorem run_wellFormed (h : WellFormed s) (ops : List Op) : WellFormed (s.run ops) :=
  Runs.foldl_invariant (fun _ _ => True) (fun _ op h _ => step_wellFormed h op) h
    fun _ _ _ _ => trivial

/-! ### Replies to a flush -/

/-- An `Rlerror` ends the request of its tag, of any kind. -/
theorem dispatch_rlerror {ecode : UInt32}
    (hmsg : p9ParseRlerror msg = some (tag, ecode)) (hact : s.Active tag.toNat)
    (hawait : (s.tags tag.toNat).awaitingFlush = false) :
    s.step (.dispatchRmsg msg) = s.clearOutstanding tag.toNat := by
  obtain ⟨size, hpeek⟩ := parseExact_eq_some hmsg
  rw [step, p9SessionDispatchRmsg, hpeek]
  dsimp only
  rw [activeEntry_eq_some.mpr ⟨hact, rfl⟩]
  dsimp only
  rw [hawait, if_neg (by decide), applyRmsg, applyBody, hmsg]
  simp [checked]

/-- The `Rflush` of a flush frees its victim with it. -/
theorem dispatch_rflush (hback : FlushesBack s)
    (hmsg : p9ParseRflush msg = some tag) (hact : s.Active tag.toNat)
    (hkind : (s.tags tag.toNat).isFlush = true) :
    s.step (.dispatchRmsg msg) =
      (s.clearOutstanding (s.tags tag.toNat).flushOldtag).clearOutstanding tag.toNat := by
  obtain ⟨size, hpeek⟩ := parseEmptyBody_eq_some hmsg
  obtain ⟨hvictim, hwaits, -⟩ := hback.victim _ hact hkind
  have hawait := hback.awaitingFlush_of_isFlush hact hkind
  have hk : (s.tags tag.toNat).kind = some .flush := eq_of_beq hkind
  rw [step, p9SessionDispatchRmsg, hpeek]
  dsimp only
  rw [if_neg (by decide), activeEntry_eq_some.mpr ⟨hact, rfl⟩]
  dsimp only
  rw [hawait, if_neg (by decide), applyRmsg, if_neg (by simp [hk, expectedR]), applyBody,
    if_neg (by decide), hk]
  simp [checked, hmsg, activeEntry_eq_some.mpr ⟨hvictim, rfl⟩, hwaits]

/-- Requests that wait for a flush and flushes in flight are **in bijection**. -/
structure FlushPaired (s : Session) : Prop where
  flush : ∀ v, s.Active v → (s.tags v).awaitingFlush = true →
    s.Active (s.tags v).flushTag ∧ (s.tags (s.tags v).flushTag).isFlush = true ∧
      (s.tags (s.tags v).flushTag).flushOldtag = v
  victim : ∀ f, s.Active f → (s.tags f).isFlush = true →
    s.Active (s.tags f).flushOldtag ∧ (s.tags (s.tags f).flushOldtag).isFlush = false ∧
      (s.tags (s.tags f).flushOldtag).awaitingFlush = true ∧
      (s.tags (s.tags f).flushOldtag).flushTag = f

theorem flushPaired_iff (hback : FlushesBack s) : FlushPaired s ↔ Paired s.table := by
  constructor
  · refine fun h => ⟨(flushesBack_iff.mp hback).2, fun v f hv => ?_⟩
    obtain ⟨hact, -, hawait, rfl⟩ := table_eq_waiting.mp hv
    exact table_eq_cancel.mpr (h.flush v hact hawait)
  · rintro ⟨-, hpair⟩
    constructor
    · intro v hact hawait
      have hkind := hback.notFlush_of_awaiting v hact hawait
      exact table_eq_cancel.mp (hpair v _ (table_eq_waiting.mpr ⟨hact, hkind, hawait, rfl⟩))
    · intro f hact hkind
      obtain ⟨hvictim, hawait, htag⟩ := hback.victim f hact hkind
      exact ⟨hvictim, hback.notFlush_of_awaiting _ hvictim hawait, hawait, htag⟩

/-- The call ends a flush and **leaves its victim waiting**: an `Rlerror` answers the `Tflush`, or
it is taken back as an ordinary request. -/
def LosesFlush (s : Session) (op : Op) : Prop :=
  ∃ tag : UInt16, s.Active tag.toNat ∧ (s.tags tag.toNat).isFlush = true ∧
    ((∃ msg ecode, op = .dispatchRmsg msg ∧ p9ParseRlerror msg = some (tag, ecode)) ∨
      (s.tags tag.toNat).abandoned = false ∧ (op = .abortUnsent tag ∨ op = .retractUnsent tag))

theorem losesFlush_of_label (h : Label s op (.lose f)) : LosesFlush s op := by
  obtain ⟨hact, hkind, hends⟩ : s.Active f ∧ (s.tags f).isFlush = true ∧ Ends s f op := by
    cases h with
    | lose hact hkind hends => exact ⟨hact, hkind, hends⟩
  cases hends with
  | reply hacc hnot => exact absurd hkind (by simp [hnot])
  | @error msg tag ecode hmsg htag =>
    subst htag
    exact ⟨tag, hact, hkind, .inl ⟨msg, ecode, rfl, hmsg⟩⟩
  | @abort tag htag hab =>
    subst htag
    exact ⟨tag, hact, hkind, .inr ⟨hab, .inl rfl⟩⟩
  | @retract tag htag hab =>
    subst htag
    exact ⟨tag, hact, hkind, .inr ⟨hab, .inr rfl⟩⟩

theorem LosesFlush.step_eq (hback : FlushesBack s) (h : LosesFlush s op) :
    ∃ f, s.Active f ∧ (s.tags f).isFlush = true ∧ s.step op = s.clearOutstanding f := by
  obtain ⟨tag, hact, hkind, hop⟩ := h
  have hawait := hback.awaitingFlush_of_isFlush hact hkind
  refine ⟨tag.toNat, hact, hkind, ?_⟩
  rcases hop with ⟨msg, ecode, rfl, hmsg⟩ | ⟨hab, rfl | rfl⟩
  · exact dispatch_rlerror hmsg hact hawait
  · rw [step, p9SessionAbortUnsent, if_pos (takeable_iff.mpr ⟨hact, hawait, hab⟩)]
  · have hk : (s.tags tag.toNat).kind = some .flush := eq_of_beq hkind
    rw [step, p9SessionRetractUnsent]
    rw [takeable_iff.mpr ⟨hact, hawait, hab⟩, if_neg (by decide), hk, if_neg (by decide)]

/-- After such a call some request waits for **no flush**. -/
theorem LosesFlush.not_flushPaired (hback : FlushesBack s)
    (h : LosesFlush s op) : ¬FlushPaired (s.step op) := by
  obtain ⟨f, hact, hkind, hstep⟩ := h.step_eq hback
  obtain ⟨hvictim, hawait, htag⟩ := hback.victim f hact hkind
  have hw := clearOutstanding_writes s f
  have hne := (hback.ne_victim hact hkind).symm
  rw [hstep]
  intro hpair
  obtain ⟨hflush, -⟩ := hpair.flush _ ((hw.active_of_ne hne).mpr hvictim)
    (by rw [hw.entry_of_ne hne, hawait])
  rw [hw.entry_of_ne hne, htag] at hflush
  exact hw.not_active hflush

/-- A call keeps the bijection **iff** it loses no flush. -/
theorem step_flushPaired_iff (h : WellFormed s) (hpair : FlushPaired s) (op : Op) :
    FlushPaired (s.step op) ↔ ¬LosesFlush s op := by
  refine ⟨fun hpair' hlose => hlose.not_flushPaired h.back hpair', fun hkeeps => ?_⟩
  obtain ⟨ev, hlabel, hstep⟩ := (step_effect h.back op).simulates h.back
  rw [flushPaired_iff (step_flushesBack h.back op)]
  refine hstep.paired ?_ ((flushPaired_iff h.back).mp hpair)
  rintro f rfl
  exact hkeeps (losesFlush_of_label hlabel)

theorem p9ParseRflush_frame (tag : UInt16) :
    p9ParseRflush (frame MsgKind.flush.r tag []) = some tag := by
  rw [p9ParseRflush, parseEmptyBody, frame, validateRmsgHeader_append, if_neg (by decide), if_neg (by decide)]
  simp

/-- A waiting request is **freed** by its flush's `Rflush`. -/
theorem FlushPaired.freed (hpair : FlushPaired s) (h : WellFormed s)
    (hact : s.Active v) (hawait : (s.tags v).awaitingFlush = true) :
    ∃ msg tag, p9ParseRflush msg = some tag ∧ ¬(s.step (.dispatchRmsg msg)).Active v := by
  obtain ⟨hflush, hkind, hback⟩ := hpair.flush v hact hawait
  obtain ⟨tag, htag⟩ : ∃ tag : UInt16, tag.toNat = (s.tags v).flushTag :=
    ⟨UInt16.ofNat _, UInt16.toNat_ofNat_of_lt ((h.below _ hflush).trans (by decide))⟩
  rw [← htag] at hflush hkind hback
  refine ⟨frame MsgKind.flush.r tag [], tag, p9ParseRflush_frame tag, ?_⟩
  rw [dispatch_rflush h.back (p9ParseRflush_frame tag) hflush hkind, hback]
  have hw := clearOutstanding_writes (s.clearOutstanding v) tag.toNat
  intro hact'
  have hne := hw.ne_of_active hact'
  exact (clearOutstanding_writes s v).not_active ((hw.active_of_ne hne).mp hact')

end Session

/-- **Flush pairing.** In every run from `p9_session_init`, every flush in flight has its victim,
which waits for it. The waiting requests and the flushes are in bijection in all states iff no call
of the run loses a flush, and then every waiting request can still be freed. -/
theorem flush_pairing (raw : ℕ → Outstanding) (rootFid msize : UInt32) {s₀ : Session}
    (h : p9SessionInit raw rootFid msize = some s₀) (ops : List Session.Op) :
    (s₀.run ops).FlushesBack ∧ ((∀ pre, pre <+: ops → (s₀.run pre).FlushPaired) ↔
        ∀ pre op, pre ++ [op] <+: ops → ¬(s₀.run pre).LosesFlush op) ∧
      ((s₀.run ops).FlushPaired → ∀ v, (s₀.run ops).Active v →
        ((s₀.run ops).tags v).awaitingFlush = true →
          ∃ msg tag, p9ParseRflush msg = some tag ∧
            ¬((s₀.run ops).step (.dispatchRmsg msg)).Active v) := by
  have hwf := init_wellFormed h
  have hrun := run_wellFormed hwf ops
  have hnot := init_not_active h
  have hpair : s₀.FlushPaired :=
    ⟨fun v hv => absurd hv (hnot v), fun f hf => absurd hf (hnot f)⟩
  refine ⟨hrun.back, ?_, fun hpaired v hact hawait => hpaired.freed hrun hact hawait⟩
  exact Runs.forall_prefix_iff (fun s op => ¬Session.LosesFlush s op)
    (fun _ op hs => step_wellFormed hs op)
    (fun _ op hs hp => step_flushPaired_iff hs hp op) hwf hpair

/-- A `Tattach` is flushed, and the `Tflush` answered with an error. -/
def errorOnFlush : List Session.Op :=
  [.dispatchRmsg rversion, .sendNow (.attach (.bytes []) (.bytes []) 0),
    .sendNow (.flush 0), .dispatchRmsg (frame p9Rlerror 1 (ByteCodec.u32Bytes 5))]

/-- The error frees tag 1, that of the flush, and the request under tag 0 waits for it. -/
theorem flush_pairing_error_reply :
    ∃ s₀, p9SessionInit (fun _ => zero false) 0 8192 = some s₀ ∧
      (s₀.run errorOnFlush).Active 0 ∧ ((s₀.run errorOnFlush).tags 0).awaitingFlush = true ∧
      ((s₀.run errorOnFlush).tags 0).flushTag = 1 ∧ ¬(s₀.run errorOnFlush).Active 1 ∧
      ¬(s₀.run errorOnFlush).FlushPaired := by
  refine ⟨_, rfl, by decide +kernel, by decide +kernel, by decide +kernel, by decide +kernel,
    fun hpair => ?_⟩
  obtain ⟨hflush, -⟩ := hpair.flush 0 (by decide +kernel) (by decide +kernel)
  exact absurd hflush (by decide +kernel)

/-- Before the answer, tag 0 waits for a flush that is in flight, and its `Rflush` would free
it. -/
theorem flush_pairing_before_reply :
    ∃ s₀, p9SessionInit (fun _ => zero false) 0 8192 = some s₀ ∧
      (s₀.run (errorOnFlush.take 3)).FlushesBack ∧
      ((∀ pre, pre <+: errorOnFlush.take 3 → (s₀.run pre).FlushPaired) →
        ∃ msg tag, p9ParseRflush msg = some tag ∧
          ¬((s₀.run (errorOnFlush.take 3)).step (.dispatchRmsg msg)).Active 0) := by
  refine ⟨_, rfl, ?_⟩
  obtain ⟨hback, -, hfreed⟩ := flush_pairing (fun _ => zero false) 0 8192 rfl (errorOnFlush.take 3)
  exact ⟨hback, fun hpair => hfreed (hpair _ (List.prefix_refl _)) 0 (by decide +kernel)
    (by decide +kernel)⟩

end Thylacine
