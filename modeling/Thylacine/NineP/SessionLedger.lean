import Thylacine.Lib.CountedTable
import Thylacine.NineP.FlushPairing

/-!
# The Books of a Session

The counters of a session against its tag table, and the ledger of the fid table: the fids
bound and the slots reserved for fids that requests in flight may yet bind.
-/

namespace Thylacine

open Outstanding
open Function (update update_eq_self)
open Nat (add_sub_cancel)

/-! ### The counters -/

namespace Outstanding

variable (e : Outstanding)

def activeFlush : Bool := e.active && e.isFlush

def activeAsync : Bool := e.active && e.async

def activeSync : Bool := e.active && e.syncOwned

def activeSlot : Bool := e.active && e.holdsSlot

end Outstanding

namespace Session

open CountedTable

/-- The tags of chunk `k`. -/
def chunkSet (k : ℕ) : Finset ℕ := Finset.Ico (k * p9TagChunk) (k * p9TagChunk + p9TagChunk)

variable {s s' : Session} {k t : ℕ} {p : Outstanding → Bool} {op : Op} {e : Outstanding} {c : ℕ → ℕ}
  {f : Outstanding → Outstanding}

theorem mem_chunkSet : t ∈ chunkSet k ↔ t / p9TagChunk = k := by
  rw [chunkSet, Finset.mem_Ico, p9TagChunk]
  omega

/-- Every **counter** counts what it should. -/
structure Counted (s : Session) : Prop where
  active : s.nActive = countIf s.tagSet Outstanding.active s.tags
  flush : s.nFlush = countIf s.tagSet activeFlush s.tags
  async : s.nAsync = countIf s.tagSet activeAsync s.tags
  slots : s.nReservedSlots = countIf s.tagSet activeSlot s.tags
  chunkActive : ∀ k < s.nChunks, s.chunkActive k = countIf (chunkSet k) Outstanding.active s.tags
  chunkSync : ∀ k < s.nChunks, s.chunkSync k = countIf (chunkSet k) Outstanding.activeSync s.tags

theorem countIf_chunk_update (hc : ∀ k < s.nChunks, c k = countIf (chunkSet k) p s.tags)
    (hk : k < s.nChunks) :
    update c (t / p9TagChunk) (c (t / p9TagChunk) + (p e).toNat - (p (s.tags t)).toNat) k =
      countIf (chunkSet k) p (update s.tags t e) := by
  by_cases heq : k = t / p9TagChunk
  · subst heq
    rw [Function.update_self]
    exact countIf_update_eq (mem_chunkSet.mpr rfl) p s.tags e (hc _ hk)
  · rw [Function.update_of_ne heq, hc k hk, countIf_update_of_notMem]
    exact fun hmem => heq (mem_chunkSet.mp hmem).symm

section

variable (h : Counted s)
include h

section

variable (ht : t ∈ s.tagSet)
include ht

/-- A write keeps the counters if each **moves by the weights**. -/
theorem Counted.write (hw : Writes s s' t e)
    (hactive : s'.nActive = s.nActive + e.active.toNat - (s.tags t).active.toNat)
    (hflush : s'.nFlush = s.nFlush + e.activeFlush.toNat - (s.tags t).activeFlush.toNat)
    (hasync : s'.nAsync = s.nAsync + e.activeAsync.toNat - (s.tags t).activeAsync.toNat)
    (hslots : s'.nReservedSlots =
      s.nReservedSlots + e.activeSlot.toNat - (s.tags t).activeSlot.toNat)
    (hchunk : s'.chunkActive = update s.chunkActive (t / p9TagChunk)
      (s.chunkActive (t / p9TagChunk) + e.active.toNat - (s.tags t).active.toNat))
    (hsync : s'.chunkSync = update s.chunkSync (t / p9TagChunk)
      (s.chunkSync (t / p9TagChunk) + e.activeSync.toNat - (s.tags t).activeSync.toNat)) :
    Counted s' where
  active := by
    rw [hactive, hw.tagSet, hw.tags]
    exact countIf_update_eq ht _ _ _ h.active
  flush := by
    rw [hflush, hw.tagSet, hw.tags]
    exact countIf_update_eq ht _ _ _ h.flush
  async := by
    rw [hasync, hw.tagSet, hw.tags]
    exact countIf_update_eq ht _ _ _ h.async
  slots := by
    rw [hslots, hw.tagSet, hw.tags]
    exact countIf_update_eq ht _ _ _ h.slots
  chunkActive := fun k hk => by
    rw [hchunk, hw.tags]
    exact countIf_chunk_update h.chunkActive (hw.nChunks ▸ hk)
  chunkSync := fun k hk => by
    rw [hsync, hw.tags]
    exact countIf_chunk_update h.chunkSync (hw.nChunks ▸ hk)

/-- An entry rewritten without a change the counters see. -/
theorem Counted.modify (hactive : (f (s.tags t)).active = (s.tags t).active)
    (hkind : (f (s.tags t)).kind = (s.tags t).kind)
    (hasync : (f (s.tags t)).async = (s.tags t).async)
    (howner : (f (s.tags t)).owner = (s.tags t).owner)
    (hslot : (f (s.tags t)).holdsSlot = (s.tags t).holdsSlot) : Counted (s.modify t f) := by
  have hflush : (f (s.tags t)).activeFlush = (s.tags t).activeFlush := by
    simp only [activeFlush, isFlush, hactive, hkind]
  have hasync' : (f (s.tags t)).activeAsync = (s.tags t).activeAsync := by
    simp only [activeAsync, hactive, hasync]
  have hsync : (f (s.tags t)).activeSync = (s.tags t).activeSync := by
    simp only [activeSync, syncOwned, hactive, hasync, howner]
  have hslot' : (f (s.tags t)).activeSlot = (s.tags t).activeSlot := by
    simp only [activeSlot, hactive, hslot]
  refine h.write ht (modify_writes s t f) ?_ ?_ ?_ ?_ ?_ ?_
  · rw [hactive, add_sub_cancel]; rfl
  · rw [hflush, add_sub_cancel]; rfl
  · rw [hasync', add_sub_cancel]; rfl
  · rw [hslot', add_sub_cancel]; rfl
  · rw [hactive, add_sub_cancel, update_eq_self]; rfl
  · rw [hsync, add_sub_cancel, update_eq_self]; rfl

theorem Counted.touch (hf : ∀ e, SameCore e (f e)) : Counted (s.modify t f) :=
  h.modify ht (hf _).active (hf _).kind (hf _).async (hf _).owner (hf _).holdsSlot

theorem Counted.mark (hfree : (s.tags t).active = false) (kind : MsgKind) (fid newFid : UInt32) :
    Counted (s.markOutstanding t kind fid newFid) := by
  refine h.write ht (markOutstanding_writes s t kind fid newFid) ?_ ?_ ?_ ?_ ?_ ?_
  · rw [hfree]; rfl
  · rw [activeFlush, activeFlush, hfree]
    by_cases hkind : kind = .flush
    · subst hkind
      rfl
    · simp [markOutstanding, newEntry, isFlush, hkind]
  · rw [activeAsync, activeAsync, hfree]; rfl
  · rw [activeSlot, activeSlot, hfree]; rfl
  · rw [hfree]; rfl
  · rw [activeSync, activeSync, hfree]
    exact (update_eq_self _ _).symm

end

theorem Counted.slotReserve (hact : s.Active t) (hslot : (s.tags t).holdsSlot = false) :
    Counted (s.slotReserve t) := by
  refine h.write hact.1 (slotReserve_writes s t) ?_ ?_ ?_ ?_ ?_ ?_
  · rw [add_sub_cancel]; rfl
  · exact (add_sub_cancel ..).symm
  · exact (add_sub_cancel ..).symm
  · rw [activeSlot, activeSlot, hact.2, hslot]; rfl
  · rw [add_sub_cancel, update_eq_self]; rfl
  · have hsync : activeSync { s.tags t with holdsSlot := true } = (s.tags t).activeSync := rfl
    rw [hsync, add_sub_cancel, update_eq_self]; rfl

end

theorem Counted.slotRelease (h : Counted s) (hact : s.Active t) : Counted (s.slotRelease t) := by
  rw [slotRelease_eq]
  refine h.write hact.1 ⟨rfl, rfl⟩ ?_ ?_ ?_ ?_ ?_ ?_
  · exact (add_sub_cancel ..).symm
  · exact (add_sub_cancel ..).symm
  · exact (add_sub_cancel ..).symm
  · rw [activeSlot, activeSlot, hact.2]
    rfl
  · rw [add_sub_cancel, update_eq_self]
  · have hsync : activeSync { s.tags t with holdsSlot := false } = (s.tags t).activeSync := rfl
    rw [hsync, add_sub_cancel, update_eq_self]

theorem Counted.slotBind (h : Counted s) (hact : s.Active t)
    (fid : UInt32) : Counted (s.slotBind t fid).1 := by
  obtain ⟨l, hl⟩ := fidBind_eq (s.slotRelease t) fid
  rw [Session.slotBind, hl]
  have hrel := h.slotRelease hact
  exact ⟨hrel.active, hrel.flush, hrel.async, hrel.slots, hrel.chunkActive, hrel.chunkSync⟩

theorem Counted.clear (h : Counted s) (hact : s.Active t) : Counted (s.clearOutstanding t) := by
  refine h.write hact.1 (clearOutstanding_writes s t) ?_ ?_ ?_ ?_ ?_ ?_
  · rw [hact.2]; rfl
  · rw [activeFlush, activeFlush, hact.2, clearOutstanding]
    cases (s.tags t).isFlush <;> rfl
  · rw [activeAsync, activeAsync, hact.2, clearOutstanding]
    cases (s.tags t).async <;> rfl
  · rw [activeSlot, activeSlot, hact.2, clearOutstanding, slotRelease_eq]
    rfl
  · rw [hact.2]; rfl
  · rw [activeSync, activeSync, hact.2, clearOutstanding]
    cases (s.tags t).syncOwned
    · exact (update_eq_self _ _).symm
    · rfl

theorem chunkSet_subset_tagSet (hk : k < s.nChunks) : chunkSet k ⊆ s.tagSet := by
  intro t ht
  rw [mem_tagSet, mem_chunkSet.mp ht]
  exact hk

/-- With no request in flight the counters are 0. -/
theorem Counted.of_idle (hidle : ∀ t, ¬s.Active t) (hactive : s.nActive = 0)
    (hflush : s.nFlush = 0) (hasync : s.nAsync = 0) (hslots : s.nReservedSlots = 0)
    (hchunk : ∀ k, s.chunkActive k = 0) (hsync : ∀ k, s.chunkSync k = 0) : Counted s := by
  have hfree (t : ℕ) (ht : t ∈ s.tagSet) : (s.tags t).active = false := by
    by_contra hact
    exact hidle t ⟨ht, by simpa using hact⟩
  have hzero {set : Finset ℕ} (hset : set ⊆ s.tagSet) {p : Outstanding → Bool}
      (hp : ∀ e, e.active = false → p e = false) : countIf set p s.tags = 0 :=
    countIf_eq_zero.mpr fun t ht => hp _ (hfree t (hset ht))
  have hand (p : Outstanding → Bool) (e : Outstanding) (he : e.active = false) :
      (e.active && p e) = false := by
    rw [he, Bool.false_and]
  exact {
    active := hactive.trans (hzero subset_rfl fun _ he => he).symm
    flush := hflush.trans (hzero subset_rfl (hand isFlush)).symm
    async := hasync.trans (hzero subset_rfl (hand Outstanding.async)).symm
    slots := hslots.trans (hzero subset_rfl (hand holdsSlot)).symm
    chunkActive := fun k hk =>
      (hchunk k).trans (hzero (chunkSet_subset_tagSet hk) fun _ he => he).symm
    chunkSync := fun k hk =>
      (hsync k).trans (hzero (chunkSet_subset_tagSet hk) (hand syncOwned)).symm }

theorem Grown.countIf_tagSet (h : Grown s s') (hp : p (zero false) = false) :
    countIf s'.tagSet p s'.tags = countIf s.tagSet p s.tags := by
  rw [countIf_of_subset h.subset fun t ht hold => by rw [h.fresh t ht hold, hp]]
  exact countIf_congr fun t ht => by rw [h.old t ht]

theorem Grown.countIf_chunk (h : Grown s s') (hp : p (zero false) = false) {c' : ℕ → ℕ}
    (hc : ∀ k < s.nChunks, c k = countIf (chunkSet k) p s.tags)
    (hold : ∀ k < s.nChunks, c' k = c k)
    (hnew : ∀ k, s.nChunks ≤ k → k < s'.nChunks → c' k = 0) (hk : k < s'.nChunks) :
    c' k = countIf (chunkSet k) p s'.tags := by
  by_cases hlt : k < s.nChunks
  · rw [hold k hlt, hc k hlt]
    exact countIf_congr fun t ht => by rw [h.old t (chunkSet_subset_tagSet hlt ht)]
  · rw [hnew k (not_lt.mp hlt) hk, eq_comm, countIf_eq_zero]
    intro t ht
    have hmem := chunkSet_subset_tagSet hk ht
    rw [h.fresh t hmem, hp]
    rw [mem_tagSet, mem_chunkSet.mp ht]
    exact hlt

theorem Counted.grown (h : Counted s) (hgrown : Grown s s') : Counted s' where
  active := by rw [hgrown.nActive, h.active, hgrown.countIf_tagSet rfl]
  flush := by rw [hgrown.nFlush, h.flush, hgrown.countIf_tagSet rfl]
  async := by rw [hgrown.nAsync, h.async, hgrown.countIf_tagSet rfl]
  slots := by rw [hgrown.nReservedSlots, h.slots, hgrown.countIf_tagSet rfl]
  chunkActive := fun _ hk => hgrown.countIf_chunk rfl h.chunkActive
    (fun k hk => (hgrown.chunkOld k hk).1) (fun k hk hk' => (hgrown.chunkFresh k hk hk').1) hk
  chunkSync := fun _ hk => hgrown.countIf_chunk rfl h.chunkSync
    (fun k hk => (hgrown.chunkOld k hk).2) (fun k hk hk' => (hgrown.chunkFresh k hk hk').2) hk

theorem Counted.setOwner (h : Counted s) {tag : UInt32}
    (hact : s.Active tag.toNat) (owner : Option ℕ) :
    Counted (s.p9SessionSetOwner tag owner).1 := by
  have hsync : 0 < s.chunkSync (tag.toNat / p9TagChunk) ∨
      (s.tags tag.toNat).activeSync = false := by
    by_cases hs : (s.tags tag.toNat).activeSync = true
    · left
      rw [h.chunkSync _ (mem_tagSet.mp hact.1)]
      exact countIf_pos (mem_chunkSet.mpr rfl) hs
    · exact .inr (by simpa using hs)
  refine h.write hact.1 (p9SessionSetOwner_writes hact owner) ?_ ?_ ?_ ?_ ?_ ?_
  all_goals
    rw [p9SessionSetOwner, activeEntry_eq_some.mpr ⟨hact, rfl⟩]
  · exact (add_sub_cancel ..).symm
  · exact (add_sub_cancel ..).symm
  · exact (add_sub_cancel ..).symm
  · exact (add_sub_cancel ..).symm
  · rw [add_sub_cancel, update_eq_self]
    rfl
  · dsimp only
    congr 1
    rw [activeSync, hact.2] at hsync ⊢
    rw [activeSync, hact.2]
    generalize (s.tags tag.toNat).syncOwned = old at hsync ⊢
    generalize syncOwned _ = new
    cases old <;> cases new <;> simp_all
    omega

theorem Counted.markAsync (h : Counted s) {tag : UInt16}
    (hact : s.Active tag.toNat) (hasync : (s.tags tag.toNat).async = false)
    (hkind : (s.tags tag.toNat).isFlush = false) : Counted (s.p9SessionMarkAsync tag) := by
  refine h.write hact.1 (p9SessionMarkAsync_writes hact hasync hkind) ?_ ?_ ?_ ?_ ?_ ?_
  all_goals
    rw [p9SessionMarkAsync, activeEntry_eq_some.mpr ⟨hact, rfl⟩]
    dsimp only
    rw [hasync, hkind]
  · exact (add_sub_cancel ..).symm
  · exact (add_sub_cancel ..).symm
  · rw [activeAsync, activeAsync, hact.2, hasync]
    rfl
  · exact (add_sub_cancel ..).symm
  · rw [add_sub_cancel, update_eq_self]
    rfl
  · rw [activeSync, activeSync, hact.2]
    cases (s.tags tag.toNat).syncOwned <;> simp [syncOwned]

/-- The fid table is not counted. -/
theorem Counted.setBound (h : Counted s) (l : List UInt32) (state : SessState) :
    Counted { s with boundFids := l, state := state } :=
  ⟨h.active, h.flush, h.async, h.slots, h.chunkActive, h.chunkSync⟩

theorem slotBind_active {u : ℕ} {fid : UInt32} (h : s.Active u) :
    (s.slotBind t fid).1.Active u := by
  have hw := slotBind_writes s t fid
  by_cases hut : u = t
  · subst hut
    refine ⟨hw.tagSet.symm ▸ h.1, ?_⟩
    rw [hw.entry_self]
    exact h.2
  · exact (hw.active_of_ne hut).mpr h

theorem Commit.counted {s₁ : Session} {req : Send} (hcommit : Commit s s₁ t req s')
    (h : Counted s) (hgrown : Grown s s₁) (hfree : FreeTag s₁ t) : Counted s' := by
  have h₁ := h.grown hgrown
  cases hcommit with
  | @issued req kind fid newFid f hreq hshare hflush hclunk hstate hf =>
    exact (h₁.mark hfree.1 hfree.2.1 kind fid newFid).touch hfree.1 hf
  | @reserved req kind fid newFid f hreq hshare hflush hstate hslot hf =>
    have hw := mark_modify_writes s₁ t kind fid newFid f
    refine ((h₁.mark hfree.1 hfree.2.1 kind fid newFid).touch hfree.1 hf).slotReserve
      ⟨hfree.1, ?_⟩ ?_
    · rw [hw.entry_self, (hf _).active]
      rfl
    · rw [hw.entry_self, (hf _).holdsSlot]
      rfl
  | @clunked req fid =>
    obtain ⟨l, hl⟩ := fidUnbind_eq s₁ fid
    rw [hl]
    have hw := markOutstanding_writes { s₁ with boundFids := l } t .clunk fid fid
    refine ((h₁.setBound l s₁.state).mark hfree.1 hfree.2.1 .clunk fid fid).slotReserve
      ⟨hfree.1, ?_⟩ ?_
    · rw [hw.entry_self]
      rfl
    · rw [hw.entry_self]
      rfl
  | @flushed oldtag hstate hold =>
    exact ((h₁.mark hfree.1 hfree.2.1 .flush s₁.rootFid s₁.rootFid).modify hfree.1
      rfl rfl rfl rfl rfl).modify (hgrown.subset hold.1) rfl rfl rfl rfl rfl

/-- **Every call keeps the counters right.** -/
theorem Effect.counted (heffect : Effect s op s')
    (hback : FlushesBack s) (h : Counted s) : Counted s' := by
  cases heffect with
  | grown hgrown => exact h.grown hgrown
  | versioned => exact ⟨h.active, h.flush, h.async, h.slots, h.chunkActive, h.chunkSync⟩
  | closed => exact h.setBound ..
  | sent hgrown hfree hcommit => exact hcommit.counted h hgrown hfree
  | ended hact => exact h.clear hact
  | reclaimed hact => exact (h.slotBind hact _).clear (slotBind_active hact)
  | walked hacc => exact (h.slotBind hacc.1.1 _).clear (slotBind_active hacc.1.1)
  | attached hacc => exact (h.setBound _ .opened).clear hacc.1.1
  | @acknowledged msg tag hact hkind =>
    obtain ⟨hvictim, -⟩ := hback.victim _ hact hkind
    exact (h.clear hvictim).clear (((clearOutstanding_writes ..).active_of_ne
      (hback.ne_victim hact hkind)).mpr hact)
  | honoured haddr => exact h.slotBind haddr.1 _
  | answered haddr hawait hf => exact h.touch haddr.1.1 hf
  | answeredWalk haddr hawait hwalk hf =>
    exact (h.slotBind haddr.1 _).touch (slotBind_active haddr.1).1 hf
  | answeredAttach haddr hawait hkind hroot hf => exact (h.setBound _ .opened).touch haddr.1.1 hf
  | unstaged hop hold hawait htag hflush hkind hback' hf =>
    exact (h.clear hflush).modify (mem_clear_tagSet hold.1) (hf _).active (hf _).kind
      (hf _).async (hf _).owner (hf _).holdsSlot
  | touched hact hf => exact h.touch hact.1 hf
  | owned hact => exact h.setOwner hact _
  | asyncMarked hact hasync hkind => exact h.markAsync hact hasync hkind

/-! ### The op share -/

/-- The requests in flight that are no flushes. -/
def opCount (s : Session) : ℕ := s.nActive - s.nFlush

/-- An entry of the **op share**. -/
def inShare (e : Outstanding) : Bool := e.active && !e.isFlush

theorem Counted.nActive_eq (h : Counted s) :
    s.nActive = s.nFlush + countIf s.tagSet inShare s.tags := by
  rw [h.active, h.flush]
  simp only [countIf_eq_sum, ← Finset.sum_add_distrib]
  refine Finset.sum_congr rfl fun t _ => ?_
  rw [activeFlush, inShare]
  cases (s.tags t).active <;> cases (s.tags t).isFlush <;> rfl

theorem Counted.opCount_eq (h : Counted s) : s.opCount = countIf s.tagSet inShare s.tags := by
  rw [opCount, h.nActive_eq, Nat.add_sub_cancel_left]

/-- An op in flight after a call was so before, or is new. -/
theorem Effect.inShare (h : Effect s op s')
    (ht : t ∈ s'.tagSet.filter fun u => Session.inShare (s'.tags u)) :
    (t ∈ s.tagSet.filter fun u => Session.inShare (s.tags u)) ∨
      ¬s.Active t ∧ (s'.tags t).isFlush = false ∧ s'.nextOpId = s.nextOpId + 1 := by
  simp only [Finset.mem_filter, Session.inShare, Bool.and_eq_true, Bool.not_eq_true'] at ht ⊢
  obtain ⟨hmem, hact', hkind'⟩ := ht
  have hold (hact : s.Active t) (hsame : SameRequest (s.tags t) (s'.tags t)) :
      t ∈ s.tagSet ∧ (s.tags t).active = true ∧ (s.tags t).isFlush = false :=
    ⟨hact.1, hact.2, by rwa [isFlush, ← hsame.kind]⟩
  cases h.entry ⟨hmem, hact'⟩ with
  | kept hact hsame | cancelled hact hsame | restored hact hsame => exact .inl (hold hact hsame)
  | fresh _ hfree _ _ _ _ _ hnext => exact .inr ⟨hfree, hkind', hnext⟩

/-- A send needs room in the **op share**; no other call adds. -/
theorem Effect.opCount (heffect : Effect s op s') (h : Counted s) (h' : Counted s')
    (hshare : s.opCount ≤ s.opsMax) : s'.opCount ≤ s.opsMax := by
  have hentry (u : ℕ) (hu : u ∈ s'.tagSet.filter fun u => Session.inShare (s'.tags u)) :
      s'.Active u := by
    obtain ⟨hmem, hact⟩ := Finset.mem_filter.mp hu
    exact ⟨hmem, (Bool.and_eq_true_iff.mp hact).1⟩
  rcases heffect.fixed_or_sent with hfixed | ⟨mem, out, req, s₁, t, -, hgrown, hfree, hcommit⟩
  · simp only [fixed, Prod.mk.injEq] at hfixed
    refine le_trans ?_ hshare
    rw [h.opCount_eq, h'.opCount_eq]
    refine Finset.card_le_card fun u hu => (heffect.inShare hu).resolve_right fun hnew => ?_
    simp [hfixed] at hnew
  · cases hcommit.placed hgrown hfree with
    | request _ hlt _ _ _ hw =>
      refine le_trans (b := s.opCount + 1) ?_ hlt
      rw [h.opCount_eq, h'.opCount_eq]
      refine (Finset.card_le_card (t := insert t _) fun u hu => ?_).trans (Finset.card_insert_le ..)
      refine Finset.mem_insert.mpr ((heffect.inShare hu).symm.imp_left fun hnew => ?_)
      by_contra hut
      exact hnew.1 (hgrown.active.mp ((hw.active_of_ne hut).mp (hentry u hu)))
    | flush _ _ hold _ _ hne hw₁ he _ hw₂ =>
      refine le_trans ?_ hshare
      rw [h.opCount_eq, h'.opCount_eq]
      refine Finset.card_le_card fun u hu => (heffect.inShare hu).resolve_right ?_
      rintro ⟨hnot, hkind, -⟩
      have hu₂ : u ≠ _ := fun heq => hnot (heq ▸ hold)
      by_cases hut : u = t
      · subst hut
        rw [hw₂.entry_of_ne hu₂, hw₁.entry_self, isFlush, he.kind] at hkind
        cases hkind
      · exact hnot (hgrown.active.mp
          ((hw₁.active_of_ne hut).mp ((hw₂.active_of_ne hu₂).mp (hentry u hu))))

end Session

end Thylacine
