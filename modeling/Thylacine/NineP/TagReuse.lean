import Thylacine.NineP.FidLedger

/-!
# The Reuse of Tags

A tag names a request to the server, and `op_id` names it in the client. `sentTag` is the tag
under which a call sends a request, and `opIds` lists the numbers of all requests of a run.

## Main results

* `eq_of_opIds`: the numbers of a run count up from 1 modulo 2^32.
* `freed_of_flush`: the tag of a flushed request is held back until its flush is acknowledged, or
  taken back and the request then ended.
* `tag_reuse_guard`: both, for every run; `tag_reuse_wrapped`: two requests with one number.
-/

namespace Thylacine

open List Outstanding Session
open Function (update update_of_ne update_self)

namespace Session

/-! ### The requests of a run -/

/-- The **tag** of the request that a call sends, by its header. -/
def sentTag (s : Session) : Op → Option UInt16
  | .send mem out req => do
    let b ← (s.send mem out req).2
    let (_, _, tag) ← p9PeekHeader b.out
    if tag = p9Notag then none else some tag
  | _ => none

/-- The `op_id`s of a run's requests, in order. -/
def opIds (s : Session) : List Op → List UInt32
  | [] => []
  | op :: ops =>
    (((s.sentTag op).map fun tag => ((s.step op).tags tag.toNat).opId).toList) ++
      (s.step op).opIds ops

/-- A call **issues** a request under a free tag, or none. -/
inductive Issues (s : Session) (op : Op) (s' : Session) : Prop
  | none (htag : s.sentTag op = none) (hnext : s'.nextOpId = s.nextOpId) : Issues s op s'
  | some {tag : UInt16} (htag : s.sentTag op = some tag) (hfree : ¬s.Active tag.toNat)
      (hnew : ∀ u, s'.Active u ↔ s.Active u ∨ u = tag.toNat)
      (hopId : (s'.tags tag.toNat).opId = s.nextOpId + 1)
      (hnext : s'.nextOpId = s.nextOpId + 1) : Issues s op s'

variable {s s' s₁ : Session} {op : Op} {t u i f : ℕ} {old : UInt16} {ops : List Op} {req : Send}
  {mem : Kmalloc} {out : List UInt8} {size a : UInt32} {type : UInt8}

theorem Writes.active_iff {e : Outstanding} (h : Writes s s' t e)
    (ht : t ∈ s.tagSet) (he : e.active = true) : s'.Active u ↔ s.Active u ∨ u = t := by
  by_cases hu : u = t
  · subst hu
    refine iff_of_true ⟨h.tagSet.symm ▸ ht, ?_⟩ (.inr rfl)
    rw [h.entry_self, he]
  · rw [h.active_of_ne hu, or_iff_left hu]

/-- A send adds **one request** to those in flight. -/
theorem Commit.active_iff (h : Commit s s₁ t req s') (hgrown : Grown s s₁) (hfree : FreeTag s₁ t) :
    s'.Active u ↔ s.Active u ∨ u = t := by
  rw [← hgrown.active]
  cases h.placed hgrown hfree with
  | request _ _ _ _ _ hw he => exact hw.active_iff hfree.1 he.active
  | @flush oldtag _ _ _ _ hold _ _ _ hw₁ he _ hw₂ =>
    have hold₁ := hgrown.active.mpr hold
    rw [hw₂.active_iff (hw₁.tagSet ▸ hold₁.1) hold.2, hw₁.active_iff hfree.1 he.active, or_assoc,
      or_comm (a := u = t), ← or_assoc, or_iff_left_of_imp fun hu : u = oldtag.toNat => hu ▸ hold₁]

/-- Only a send takes a **number**. -/
theorem Effect.nextOpId (h : Effect s op s')
    (hop : ∀ mem out req, op ≠ .send mem out req) : s'.nextOpId = s.nextOpId := by
  rcases h.fixed_or_sent with hfixed | ⟨mem, out, req, -, -, heq, -⟩
  · simp only [fixed, Prod.mk.injEq] at hfixed
    exact hfixed.2.2.2
  · exact absurd heq (hop mem out req)

/-- A frame that carries a tag below the limit. -/
theorem sentTag_eq_some {b : Built} (hsend : s.send mem out req = (s', some b))
    (hframe : p9PeekHeader b.out = some (size, type, UInt16.ofNat t)) (ht : t < p9TagLimit) :
    ∃ tag : UInt16, tag.toNat = t ∧ s.sentTag (.send mem out req) = some tag := by
  rw [p9TagLimit] at ht
  have htoNat : (UInt16.ofNat t).toNat = t := UInt16.toNat_ofNat_of_lt (show t < 65536 by omega)
  have hnotag : UInt16.ofNat t ≠ p9Notag := by
    intro heq
    rw [heq] at htoNat
    change 0xFFFF = t at htoNat
    omega
  exact ⟨UInt16.ofNat t, htoNat, by simp [sentTag, hsend, hframe, hnotag]⟩

theorem Grown.lt_of_freeTag (hgrown : Grown s s₁)
    (hfree : FreeTag s₁ t) (h : WellFormed s) : t < p9TagLimit := by
  rw [← h.tagLimit, ← hgrown.tagLimit]
  exact hfree.2.2

theorem send_issues (h : WellFormed s) (mem : Kmalloc) (out : List UInt8)
    (req : Send) : Issues s (.send mem out req) (s.step (.send mem out req)) := by
  have hsent := send_sent s mem out req
  generalize hr : s.send mem out req = r at hsent
  change Issues s _ (s.send mem out req).1
  rw [hr]
  cases hsent with
  | failed hgrown => exact .none (by simp [sentTag, hr]) hgrown.nextOpId
  | untagged hframe => exact .none (by simp [sentTag, hr, hframe]) rfl
  | @tagged s₁ s' t b size type hgrown hfree hcommit hframe =>
    obtain ⟨tag, rfl, htag⟩ := sentTag_eq_some hr hframe (hgrown.lt_of_freeTag hfree h)
    have hnot := hfree.not_active hgrown
    have hiff (u : ℕ) := hcommit.active_iff (u := u) hgrown hfree
    cases hcommit.entry hgrown hfree ((hiff tag.toNat).mpr (.inr rfl)) with
    | fresh kind _ _ _ _ _ hopId hnext => exact .some htag hnot hiff hopId hnext
    | kept hact | cancelled hact | restored hact => exact absurd hact hnot

theorem step_issues (h : WellFormed s) (op : Op) : Issues s op (s.step op) := by
  have hother (htag : s.sentTag op = none) (hop : ∀ mem out req, op ≠ .send mem out req) :
      Issues s op (s.step op) :=
    .none htag ((step_effect h.back op).nextOpId hop)
  cases op with
  | send mem out req => exact send_issues h mem out req
  | _ =>
    refine hother rfl ?_
    intro mem out req heq
    cases heq

/-! ### The numbers of the requests -/

theorem opIds_cons_none (h : s.sentTag op = none) (ops : List Op) :
    s.opIds (op :: ops) = (s.step op).opIds ops := by
  simp [opIds, h]

theorem opIds_cons_some {tag : UInt16} (h : s.sentTag op = some tag) (ops : List Op) :
    s.opIds (op :: ops) = ((s.step op).tags tag.toNat).opId :: (s.step op).opIds ops := by
  simp [opIds, h]

theorem opIds_append (s : Session) (ops ops' : List Op) :
    s.opIds (ops ++ ops') = s.opIds ops ++ (s.run ops).opIds ops' := by
  induction ops generalizing s with
  | nil => rfl
  | cons op ops ih => simp [opIds, ih]

/-- A run's numbers **count up** from the last given. -/
theorem eq_of_opIds (h : WellFormed s)
    (hi : (s.opIds ops)[i]? = some a) : a = s.nextOpId + UInt32.ofNat (i + 1) := by
  induction ops generalizing s i with
  | nil => simp [opIds] at hi
  | cons op ops ih =>
    have hwf := step_wellFormed h op
    cases step_issues h op with
    | none htag hnext =>
      rw [opIds_cons_none htag] at hi
      rw [ih hwf hi, hnext]
    | some htag hfree hnew hopId hnext =>
      rw [opIds_cons_some htag] at hi
      cases i with
      | zero =>
        rw [hopId] at hi
        exact (Option.some.inj hi).symm
      | succ i =>
        rw [ih hwf hi, hnext, UInt32.ofNat_add (i + 1) 1, UInt32.add_assoc, UInt32.add_comm 1]
        rfl

/-- A request keeps its number while it is in flight. -/
theorem opId_kept (h : WellFormed s) (hact : s.Active t)
    (hact' : (s.step op).Active t) : ((s.step op).tags t).opId = (s.tags t).opId := by
  cases (step_effect h.back op).entry hact' with
  | kept _ hsame | cancelled _ hsame | restored _ hsame => exact hsame.opId
  | fresh _ hfree => exact absurd hact hfree

/-- Without a new request, all in flight was so before. -/
theorem active_of_next (h : WellFormed s)
    (hnext : (s.step op).nextOpId = s.nextOpId) (hact : (s.step op).Active t) : s.Active t := by
  cases (step_effect h.back op).entry hact with
  | kept hact => exact hact
  | fresh _ _ _ _ _ _ _ hnext' =>
    rw [hnext] at hnext'
    exact absurd hnext' (by simp)
  | cancelled hact => exact hact
  | restored hact => exact hact

/-- The requests in flight after a run from `s` are **different ones** of its requests, that under
`t` the `idx t`-th. -/
def Numbered (s : Session) (ops : List Op) (idx : ℕ → ℕ) : Prop :=
  Set.InjOn idx {t | (s.run ops).Active t} ∧
    ∀ t, (s.run ops).Active t → (s.opIds ops)[idx t]? = some ((s.run ops).tags t).opId

theorem exists_numbered (h : WellFormed s) (hidle : ∀ t, ¬s.Active t)
    (ops : List Op) : ∃ idx, Numbered s ops idx := by
  induction ops using reverseRecOn with
  | nil => exact ⟨id, fun t ht => absurd ht (hidle t), fun t ht => absurd ht (hidle t)⟩
  | append_singleton ops op ih =>
    obtain ⟨idx, hinj, hidx⟩ := ih
    have hwf := run_wellFormed h ops
    have hrun : s.run (ops ++ [op]) = (s.run ops).step op := run_append ..
    have hlt {t : ℕ} (ht : (s.run ops).Active t) : idx t < (s.opIds ops).length :=
      (List.getElem?_eq_some_iff.mp (hidx t ht)).1
    simp only [Numbered, hrun, opIds_append]
    cases step_issues hwf op with
    | none htag hnext =>
      rw [opIds_cons_none htag, opIds, append_nil]
      have hold {t : ℕ} := active_of_next (t := t) hwf hnext
      exact ⟨idx, fun t ht u hu => hinj (hold ht) (hold hu), fun t ht =>
        (hidx t (hold ht)).trans (congrArg some (opId_kept hwf (hold ht) ht).symm)⟩
    | @some tag htag hfree hnew hopId hnext =>
      rw [opIds_cons_some htag, opIds]
      have hold {t : ℕ} (ht : ((s.run ops).step op).Active t) (hne : t ≠ tag.toNat) :
          (s.run ops).Active t :=
        ((hnew t).mp ht).resolve_right hne
      refine ⟨update idx tag.toNat (s.opIds ops).length, ?_, fun t ht => ?_⟩
      · intro t ht u hu heq
        by_cases htt : t = tag.toNat <;> by_cases huu : u = tag.toNat
        · rw [htt, huu]
        · rw [htt, update_self, update_of_ne huu] at heq
          exact absurd (hlt (hold hu huu)) (by omega)
        · rw [huu, update_self, update_of_ne htt] at heq
          exact absurd (hlt (hold ht htt)) (by omega)
        · rw [update_of_ne htt, update_of_ne huu] at heq
          exact hinj (hold ht htt) (hold hu huu) heq
      · by_cases htt : t = tag.toNat
        · subst htt
          rw [update_self, getElem?_concat_length]
        · rw [update_of_ne htt, getElem?_append_left (hlt (hold ht htt)),
            hidx t (hold ht htt), opId_kept hwf (hold ht htt) ht]

/-! ### The tag of a flushed request -/

/-- The call dispatches the `Rflush` of `f`, whose victim is `old`. -/
def Acknowledges (s : Session) (op : Op) (f old : UInt16) : Prop :=
  ∃ msg, op = .dispatchRmsg msg ∧ p9ParseRflush msg = some f ∧
    s.Active f.toNat ∧ (s.tags f.toNat).isFlush = true ∧
    (s.tags f.toNat).flushOldtag = old.toNat

theorem acknowledges_of_label
    (hlabel : Label s op (.acknowledge f)) (hf : s.table f = .cancel old.toNat) :
    ∃ tag : UInt16, tag.toNat = f ∧ Acknowledges s op tag old := by
  obtain ⟨hact, hkind, hold⟩ := table_eq_cancel.mp hf
  cases hlabel with
  | acknowledge hmsg => exact ⟨_, rfl, _, rfl, hmsg, hact, hkind, hold⟩

theorem unstages_of_label (hlabel : Label s op (.unstage old.toNat f)) :
    op = .flushRollback old ∨ op = .flushRetract old := by
  generalize hv : old.toNat = v at hlabel
  cases hlabel with
  | unstage hop => exact UInt16.toNat_inj.mp hv ▸ hop

theorem table_of_sentTag_flush (h : WellFormed s) {f : UInt16} (htag : s.sentTag (.send mem out (.flush old)) = some f) :
    (s.step (.send mem out (.flush old))).table old.toNat = .request (some f.toNat) := by
  have hsent := send_sent s mem out (.flush old)
  generalize hr : s.send mem out (.flush old) = r at hsent
  change (s.send mem out (.flush old)).1.table _ = _
  rw [hr]
  cases hsent with
  | failed => simp [sentTag, hr] at htag
  | untagged hframe => simp [sentTag, hr, hframe] at htag
  | tagged hgrown hfree hcommit hframe =>
    obtain ⟨tag, rfl, htag'⟩ := sentTag_eq_some hr hframe (hgrown.lt_of_freeTag hfree h)
    cases htag.symm.trans htag'
    rw [(hcommit.table_flush hgrown hfree).2.2, update_self]

/-- The tag of a request that waits for `f` is free again only if `f` was **acknowledged**, or
**unstaged** and the request then ended. -/
theorem freed_of_flush (h : WellFormed s) {f : UInt16}
    (hwaits : s.table old.toNat = .request (some f.toNat))
    (hfree : ¬(s.run ops).Active old.toNat) :
    (∃ pre op post, ops = pre ++ op :: post ∧ Acknowledges (s.run pre) op f old) ∨
      ∃ pre op mid op' post, ops = pre ++ op :: (mid ++ op' :: post) ∧
      (op = .flushRollback old ∨ op = .flushRetract old) ∧
      (Ends (s.run (pre ++ op :: mid)) old.toNat op' ∨
      ∃ g, Acknowledges (s.run (pre ++ op :: mid)) op' g old) := by
  rcases implementation.freed_of_cancelled h.back hwaits (table_eq_free.mpr hfree) with
    ⟨pre, op, post, rfl, hlabel, hf⟩ | ⟨pre, op, mid, op', post, rfl, hlabel, hfrees⟩
  · obtain ⟨tag, htag, hack⟩ := acknowledges_of_label hlabel hf
    obtain rfl := UInt16.toNat_inj.mp htag
    exact .inl ⟨pre, op, post, rfl, hack⟩
  · refine .inr ⟨pre, op, mid, op', post, rfl, unstages_of_label hlabel, ?_⟩
    rcases hfrees with ⟨hfinish, -⟩ | ⟨g, hack, hg⟩
    · left
      cases hfinish with
      | finish hends => exact hends
    · obtain ⟨tag, -, hack⟩ := acknowledges_of_label hack hg
      exact .inr ⟨tag, hack⟩

/-- A reply **does not free** a request that waits for its flush. -/
theorem waits_of_reply (h : WellFormed s) {msg : List UInt8}
    (hop : op = .dispatchRmsg msg ∨ op = .dispatchFlushedRmsg msg)
    (hmsg : p9PeekHeader msg = some (size, type, old))
    (hact : s.Active old.toNat) (hawait : (s.tags old.toNat).awaitingFlush = true) :
    (s.step op).Active old.toNat ∧ ((s.step op).tags old.toNat).awaitingFlush = true := by
  have hkind := h.back.notFlush_of_awaiting _ hact hawait
  have hwaits := table_eq_waiting.mpr ⟨hact, hkind, hawait, rfl⟩
  obtain ⟨ev, hlabel, hstep⟩ := (step_effect h.back op).simulates h.back
  rcases hstep.of_cancelled (flushesBack_iff.mp h.back).2 hwaits with hstill | ⟨rfl, hf⟩ | ⟨rfl, -⟩
  · obtain ⟨hact', -, hawait', -⟩ := table_eq_waiting.mp hstill
    exact ⟨hact', hawait'⟩
  · -- the reply would have to be the `Rflush`, but that carries another tag
    exfalso
    obtain ⟨tag, htag, msg', hop', hrflush, -⟩ := acknowledges_of_label hlabel hf
    obtain ⟨size', hpeek⟩ := parseEmptyBody_eq_some hrflush
    obtain rfl : old = tag := by simp_all
    rw [← htag, hwaits] at hf
    cases hf
  · rcases hop with rfl | rfl <;> rcases unstages_of_label hlabel with hop | hop <;> cases hop

end Session

/-- **The guard on the reuse of tags.** In every run from `p9_session_init`:

* a request is sent under a tag that is not in flight;
* the requests in flight are numbered, and their numbers differ from those of all requests of
  the run fewer than 2^32 sends away;
* once a flush `f` of `old` is sent, `old` is the tag of a new request only after the `Rflush`
  of `f`, or after `f` was unstaged and `old` then ended, by a reply that was accepted, by a
  take-back or by the `Rflush` of another flush;
* a reply under a tag that waits for its flush leaves it waiting. -/
theorem tag_reuse_guard (raw : ℕ → Outstanding) (rootFid msize : UInt32) {s₀ : Session}
    (h : p9SessionInit raw rootFid msize = some s₀) (ops : List Session.Op) :
    (∀ op tag, (s₀.run ops).sentTag op = some tag → ¬(s₀.run ops).Active tag.toNat) ∧
    (∀ pre, pre <+: ops → ∃ idx : ℕ → ℕ, Set.InjOn idx {t | (s₀.run pre).Active t} ∧
      ∀ t, (s₀.run pre).Active t →
        (s₀.opIds ops)[idx t]? = some ((s₀.run pre).tags t).opId ∧
        ∀ j, j ≠ idx t → j < idx t + 2 ^ 32 → idx t < j + 2 ^ 32 →
          (s₀.opIds ops)[j]? ≠ some ((s₀.run pre).tags t).opId) ∧
    (∀ mem out old f ops' op, (s₀.run ops).sentTag (.send mem out (.flush old)) = some f →
      (((s₀.run ops).step (.send mem out (.flush old))).run ops').sentTag op = some old →
      let s := (s₀.run ops).step (.send mem out (.flush old))
      (∃ pre op post, ops' = pre ++ op :: post ∧ (s.run pre).Acknowledges op f old) ∨
        ∃ pre op mid op' post, ops' = pre ++ op :: (mid ++ op' :: post) ∧
          (op = .flushRollback old ∨ op = .flushRetract old) ∧
          ((s.run (pre ++ op :: mid)).Ends old.toNat op' ∨
            ∃ g, (s.run (pre ++ op :: mid)).Acknowledges op' g old)) ∧
    (∀ op msg size type old, op = .dispatchRmsg msg ∨ op = .dispatchFlushedRmsg msg →
      p9PeekHeader msg = some (size, type, old) → (s₀.run ops).Active old.toNat →
      ((s₀.run ops).tags old.toNat).awaitingFlush = true →
      ((s₀.run ops).step op).Active old.toNat ∧
        (((s₀.run ops).step op).tags old.toNat).awaitingFlush = true) := by
  have hinit := init_wellFormed h
  have hwf := run_wellFormed hinit ops
  have hfree {s : Session} (hs : s.WellFormed) {op : Session.Op} {tag : UInt16}
      (htag : s.sentTag op = some tag) : ¬s.Active tag.toNat := by
    cases step_issues hs op with
    | none htag' => cases htag.symm.trans htag'
    | some htag' hfree => exact Option.some.inj (htag.symm.trans htag') ▸ hfree
  refine ⟨fun op tag htag => hfree hwf htag, ?_, ?_, ?_⟩
  · rintro pre ⟨post, rfl⟩
    obtain ⟨idx, hinj, hidx⟩ := exists_numbered hinit (init_not_active h) pre
    refine ⟨idx, hinj, fun t ht => ?_⟩
    have hget : (s₀.opIds (pre ++ post))[idx t]? = some ((s₀.run pre).tags t).opId := by
      have hlt := (List.getElem?_eq_some_iff.mp (hidx t ht)).1
      rw [opIds_append, List.getElem?_append_left hlt, hidx t ht]
    refine ⟨hget, fun j hne hij hji hj => ?_⟩
    have heq := (eq_of_opIds hinit hget).symm.trans (eq_of_opIds hinit hj)
    have hnat := congrArg UInt32.toNat ((UInt32.add_right_inj _).mp heq)
    rw [UInt32.toNat_ofNat', UInt32.toNat_ofNat'] at hnat
    omega
  · intro mem out old f ops' op hflush hnew
    have hstep := step_wellFormed hwf (.send mem out (.flush old))
    exact freed_of_flush hstep (table_of_sentTag_flush hwf hflush)
      (hfree (run_wellFormed hstep ops') hnew)
  · intro op msg size type old hop hmsg hact hawait
    exact waits_of_reply hwf hop hmsg hact hawait

namespace Session

open ByteCodec

/-! ### Runs in which the numbers and the tags come round -/

/-- A read under tag 0, number 2; `n` is the last number given. -/
def busy (n : UInt32) : Session :=
  { (resting .opened 8192 [0] 1).markOutstanding 0 .read 0 0 with nextOpId := n }

/-- A read, and the error that answers it under tag 1. -/
def failedRead : List Op := [.sendNow (.read 0 0 0), .dispatchRmsg (frame p9Rlerror 1 (u32Bytes 5))]

theorem read_built (tag : UInt16) :
    ∃ b, p9BuildTread (replicate 64 0) tag 0 0 0 = some b ∧ b.accepted :=
  ⟨_, rfl, show 0 ≤ cInt 23 by decide⟩

theorem read_resting (n : UInt32) : (resting .opened 8192 [0] n).step (.sendNow (.read 0 0 0)) =
      (resting .opened 8192 [0] n).markOutstanding 0 .read 0 0 := by
  obtain ⟨b, hb, hacc⟩ := read_built 0
  exact congrArg Prod.fst (sendOp_eq rfl rfl hb hacc)

theorem read_busy (n : UInt32) :
    (busy n).step (.sendNow (.read 0 0 0)) = (busy n).markOutstanding 1 .read 0 0 := by
  obtain ⟨b, hb, hacc⟩ := read_built 1
  exact congrArg Prod.fst (sendOp_eq rfl rfl hb hacc)

theorem failedRead_busy (n : UInt32) : (busy n).run failedRead = busy (n + 1) :=
  Session.ext rfl rfl rfl rfl rfl rfl (update_restored rfl) (update_restored rfl) rfl rfl rfl rfl
    rfl rfl rfl rfl rfl rfl

theorem failedReads_busy (n : UInt32) (k : ℕ) :
    (busy n).run (replicate k failedRead).flatten = busy (n + UInt32.ofNat k) := by
  induction k generalizing n with
  | zero => exact congrArg busy (UInt32.add_zero n).symm
  | succ k ih =>
    rw [replicate_succ, flatten_cons, run_append, failedRead_busy, ih,
      UInt32.ofNat_add, UInt32.add_assoc, UInt32.add_comm 1]
    rfl

/-- One read stays in flight while all other numbers are given out; then another. -/
def wrapOps : List Op :=
  bootOps ++ .sendNow (.read 0 0 0) :: (replicate (2 ^ 32 - 1) failedRead).flatten ++
    [.sendNow (.read 0 0 0)]

theorem wrap_run {s₀ : Session} (h : p9SessionInit (fun _ => zero false) 0 8192 = some s₀) :
    s₀.run wrapOps = (busy 1).markOutstanding 1 .read 0 0 := by
  have hread : (resting .opened 8192 [0] 1).step (.sendNow (.read 0 0 0)) = busy 2 := read_resting 1
  have hlast : (2 : UInt32) + UInt32.ofNat (2 ^ 32 - 1) = 1 := by decide
  rw [wrapOps, run_append, run_append, boot_resting h, run_cons _ _ (flatten _), hread,
    failedReads_busy, hlast, run_cons, run_nil, read_busy]

/-- A flush of tag 0 is taken back and tag 0 flushed under another tag. -/
def secondFlushOps : List Op :=
  bootOps ++ [.sendNow (.read 0 0 0), .sendNow (.flush 0), .flushRetract 0,
    .sendNow (.read 0 0 0), .sendNow (.flush 0),
    .dispatchRmsg (frame MsgKind.flush.r 2 [])]

/-- Nothing acknowledges the first flush or else ends tag 0. -/
theorem secondFlush_quiet (s : Session) {op : Op} (hop : op ∈ secondFlushOps.drop 5) :
    ¬s.Acknowledges op 1 0 ∧ ¬s.Ends 0 op := by
  have hpeek : p9PeekHeader (frame MsgKind.flush.r 2 []) = some (7, MsgKind.flush.r, 2) := rfl
  have hlist : op = .flushRetract 0 ∨ op = .sendNow (.read 0 0 0) ∨ op = .sendNow (.flush 0) ∨
      op = .dispatchRmsg (frame MsgKind.flush.r 2 []) := by
    simpa [secondFlushOps, bootOps] using hop
  rcases hlist with rfl | rfl | rfl | rfl
  iterate 3
    constructor
    · rintro ⟨msg, ⟨⟩, -⟩
    · rintro ⟨⟩
  · constructor
    · rintro ⟨msg, heq, hmsg, -⟩
      cases heq
      cases hmsg.symm.trans (p9ParseRflush_frame 2)
    · intro hends
      cases hends with
      | reply hacc =>
        obtain ⟨⟨-, size, type, tag, hmsg, htag⟩, -⟩ := hacc
        cases hmsg.symm.trans hpeek
        cases htag
      | error hmsg =>
        obtain ⟨size, hmsg⟩ := parseExact_eq_some hmsg
        cases hmsg.symm.trans hpeek

end Session

/-- After 2^32 requests two reads in flight have **one number**. And a request whose first flush
was taken back is freed by the `Rflush` of its second one, with no reply and no take-back of
its own. -/
theorem tag_reuse_wrapped :
    ∃ s₀, p9SessionInit (fun _ => zero false) 0 8192 = some s₀ ∧
      ((s₀.run wrapOps).Active 0 ∧ (s₀.run wrapOps).Active 1 ∧
        ((s₀.run wrapOps).tags 0).opId = ((s₀.run wrapOps).tags 1).opId) ∧
      (s₀.run (secondFlushOps.take 4)).sentTag (.sendNow (.flush 0)) = some 1 ∧
      (s₀.run secondFlushOps).sentTag (.sendNow (.read 0 0 0)) = some 0 ∧
      ∀ op ∈ secondFlushOps.drop 5, ∀ s : Session, ¬s.Acknowledges op 1 0 ∧ ¬s.Ends 0 op := by
  obtain ⟨s₀, h⟩ := exists_init
  refine ⟨s₀, h, ?_, ?_, ?_, fun op hop s => secondFlush_quiet s hop⟩
  · rw [wrap_run h]
    exact ⟨⟨mem_tagSet.mpr zero_lt_one, rfl⟩, ⟨mem_tagSet.mpr zero_lt_one, rfl⟩, rfl⟩
  · rw [init_resting h]
    decide +kernel
  · rw [init_resting h]
    decide +kernel

/-- In the second run: when the read takes tag 0, its flush under tag 1 has been unstaged. -/
theorem tag_reuse_guard_second_flush :
    ∃ s₀, p9SessionInit (fun _ => zero false) 0 8192 = some s₀ ∧
      ∃ pre op post, secondFlushOps.drop 5 = pre ++ op :: post ∧
        (op = .flushRollback 0 ∨ op = .flushRetract 0) := by
  obtain ⟨s₀, h⟩ := exists_init
  refine ⟨s₀, h, ?_⟩
  obtain ⟨-, -, hfreed, -⟩ := tag_reuse_guard (fun _ => zero false) 0 8192 h (secondFlushOps.take 4)
  rcases hfreed ⟨true, true⟩ (replicate 64 0) 0 1 (secondFlushOps.drop 5)
    (.sendNow (.read 0 0 0)) (by rw [init_resting h]; decide +kernel)
    (by rw [init_resting h]; decide +kernel) with
    ⟨pre, op, post, heq, hack⟩ | ⟨pre, op, mid, op', post, heq, hop, -⟩
  · exact absurd hack (secondFlush_quiet _ (heq ▸ by simp)).1
  · exact ⟨pre, op, mid ++ op' :: post, heq, hop⟩

end Thylacine
