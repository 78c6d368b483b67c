import Mathlib.Order.Interval.Finset.Nat
import Thylacine.NineP.Framing
import Thylacine.NineP.SessionDispatch

/-!
# What a Call of the Session Does

One inversion lemma for each function that the calls share, so that no later proof unfolds
them: the allocation of a tag (`allocTag_cases`), a write to the tag table (`Writes`), a send
(`send_sent`). A growth of the tag table is `Grown`: new entries, all free, and nothing else.
-/

namespace Thylacine

open Outstanding
open Function (update update_eq_self update_idem update_of_ne update_self)

namespace Session

/-! ### The tags in the table -/

/-- The tags the table reaches. -/
def tagSet (s : Session) : Finset ℕ := Finset.range (s.nChunks * p9TagChunk)

variable {s s' : Session} {t : ℕ} {e : Outstanding} {req : Send} {mem : Kmalloc} {pre : Bool}
  {build : UInt16 → Option Built}

theorem mem_tagSet : t ∈ s.tagSet ↔ t / p9TagChunk < s.nChunks := by
  rw [tagSet, Finset.mem_range, p9TagChunk]
  omega

theorem entry_eq_some : s.entry t = some e ↔ t ∈ s.tagSet ∧ s.tags t = e := by
  rw [entry, mem_tagSet]
  split
  · rename_i h
    exact ⟨nofun, fun ⟨hlt, _⟩ => absurd hlt (not_lt.mpr h)⟩
  · rename_i h
    exact ⟨fun heq => ⟨not_le.mp h, Option.some.inj heq⟩, fun ⟨_, heq⟩ => congrArg _ heq⟩

/-- The tags of requests in flight. -/
def Active (s : Session) (t : ℕ) : Prop := t ∈ s.tagSet ∧ (s.tags t).active = true

instance (s : Session) (t : ℕ) : Decidable (s.Active t) := inferInstanceAs (Decidable (_ ∧ _))

theorem activeEntry_eq_some : s.activeEntry t = some e ↔ s.Active t ∧ s.tags t = e := by
  rw [activeEntry]
  constructor
  · intro h
    split at h
    · cases h
    · rename_i e' hentry
      split_ifs at h with hact
      cases h
      obtain ⟨hmem, rfl⟩ := entry_eq_some.mp hentry
      exact ⟨⟨hmem, hact⟩, rfl⟩
  · rintro ⟨⟨hmem, hact⟩, rfl⟩
    rw [entry_eq_some.mpr ⟨hmem, rfl⟩]
    exact if_pos hact

/-- A test of an entry: in flight, and two flags down. -/
theorem entry_test_iff {x y : Outstanding → Bool} : (match s.entry t with
      | none => false
      | some e => e.active && !x e && !y e) = true ↔
      s.Active t ∧ x (s.tags t) = false ∧ y (s.tags t) = false := by
  constructor
  · intro h
    split at h
    · cases h
    · rename_i e hentry
      obtain ⟨hmem, rfl⟩ := entry_eq_some.mp hentry
      simp only [Bool.and_eq_true, Bool.not_eq_true'] at h
      exact ⟨⟨hmem, h.1.1⟩, h.1.2, h.2⟩
  · rintro ⟨⟨hmem, hact⟩, hx, hy⟩
    rw [entry_eq_some.mpr ⟨hmem, rfl⟩]
    simp [hact, hx, hy]

theorem takeable_iff : s.takeable t = true ↔
      s.Active t ∧ (s.tags t).awaitingFlush = false ∧ (s.tags t).abandoned = false :=
  entry_test_iff

theorem flushable_iff : s.flushable t = true ↔
      s.Active t ∧ (s.tags t).isFlush = false ∧ (s.tags t).awaitingFlush = false :=
  entry_test_iff

/-! ### Growth and allocation -/

/-- The table has **grown** by free entries, or stays. -/
structure Grown (s s' : Session) : Prop where
  state : s'.state = s.state
  rootFid : s'.rootFid = s.rootFid
  boundFids : s'.boundFids = s.boundFids
  nReservedSlots : s'.nReservedSlots = s.nReservedSlots
  nActive : s'.nActive = s.nActive
  nFlush : s'.nFlush = s.nFlush
  nAsync : s'.nAsync = s.nAsync
  opsMax : s'.opsMax = s.opsMax
  tagLimit : s'.tagLimit = s.tagLimit
  nextOpId : s'.nextOpId = s.nextOpId
  subset : s.tagSet ⊆ s'.tagSet
  nChunks : s.nChunks ≤ s'.nChunks
  old : ∀ t ∈ s.tagSet, s'.tags t = s.tags t
  fresh : ∀ t ∈ s'.tagSet, t ∉ s.tagSet → s'.tags t = zero false
  chunkOld : ∀ k < s.nChunks, s'.chunkActive k = s.chunkActive k ∧ s'.chunkSync k = s.chunkSync k
  chunkFresh : ∀ k, s.nChunks ≤ k → k < s'.nChunks → s'.chunkActive k = 0 ∧ s'.chunkSync k = 0

theorem Grown.refl (s : Session) : Grown s s where
  state := rfl
  rootFid := rfl
  boundFids := rfl
  nReservedSlots := rfl
  nActive := rfl
  nFlush := rfl
  nAsync := rfl
  opsMax := rfl
  tagLimit := rfl
  nextOpId := rfl
  subset := subset_rfl
  nChunks := le_rfl
  old := fun _ _ => rfl
  fresh := fun _ h h' => absurd h h'
  chunkOld := fun _ _ => ⟨rfl, rfl⟩
  chunkFresh := fun _ h h' => absurd h' (not_lt.mpr h)

theorem Grown.active (h : Grown s s') : s'.Active t ↔ s.Active t := by
  constructor
  · rintro ⟨hmem, hact⟩
    by_cases hold : t ∈ s.tagSet
    · exact ⟨hold, (h.old t hold) ▸ hact⟩
    · rw [h.fresh t hmem hold] at hact
      cases hact
  · rintro ⟨hmem, hact⟩
    exact ⟨h.subset hmem, (h.old t hmem).symm ▸ hact⟩

theorem Grown.tags_of_active (h : Grown s s') (ht : s.Active t) : s'.tags t = s.tags t :=
  h.old t ht.1

/-- A tag to hand out: in the table, free, below the limit. -/
def FreeTag (s : Session) (t : ℕ) : Prop :=
  t ∈ s.tagSet ∧ (s.tags t).active = false ∧ t < s.tagLimit

theorem grow_cases (s : Session) (mem : Kmalloc) :
    Grown s (s.grow mem).1 ∧ ∀ t, (s.grow mem).2 = some t → FreeTag (s.grow mem).1 t := by
  rw [grow]
  split_ifs with hfull hdir hchunk
  · exact ⟨.refl s, nofun⟩
  · exact ⟨.refl s, nofun⟩
  · exact ⟨{ Grown.refl s with }, nofun⟩
  · have hlt : s.nChunks * p9TagChunk < s.tagLimit := by omega
    constructor
    · refine { Grown.refl s with
        subset := fun t ht => mem_tagSet.mpr ((mem_tagSet.mp ht).trans (Nat.lt_succ_self _))
        nChunks := Nat.le_succ _
        old := fun t ht => if_neg (mem_tagSet.mp ht).ne
        fresh := fun t ht hold => if_pos ?_
        chunkOld := fun k hk => ⟨update_of_ne hk.ne _ _, update_of_ne hk.ne _ _⟩
        chunkFresh := fun k hk hk' => ?_ }
      · have hnew : t / p9TagChunk < s.nChunks + 1 := mem_tagSet.mp ht
        rw [mem_tagSet] at hold
        omega
      · have hk' : k < s.nChunks + 1 := hk'
        obtain rfl : k = s.nChunks := by omega
        exact ⟨update_self .., update_self ..⟩
    · rintro t ht
      cases ht
      have hdiv : s.nChunks * p9TagChunk / p9TagChunk = s.nChunks :=
        Nat.mul_div_cancel _ (by decide)
      refine ⟨mem_tagSet.mpr (hdiv.trans_lt (Nat.lt_succ_self _)), ?_, hlt⟩
      change (if s.nChunks * p9TagChunk / p9TagChunk = s.nChunks then zero false
        else s.tags (s.nChunks * p9TagChunk)).active = false
      rw [if_pos hdiv]
      rfl

/-- A tag of `alloc_tag` is **free**; an op gets one within the op share. -/
theorem allocTag_cases (s : Session) (mem : Kmalloc) (flush : Bool) :
    Grown s (s.allocTag mem flush).1 ∧ ∀ t, (s.allocTag mem flush).2 = some t →
      FreeTag (s.allocTag mem flush).1 t ∧ (flush = false → s.nActive - s.nFlush < s.opsMax) := by
  rw [allocTag]
  split_ifs with hshare
  · exact ⟨.refl s, nofun⟩
  have hroom : flush = false → s.nActive - s.nFlush < s.opsMax := by
    rintro rfl
    simpa using hshare
  split
  · rename_i t hfind
    split_ifs with hlimit
    · exact ⟨.refl s, nofun⟩
    refine ⟨.refl s, fun t' ht => ?_⟩
    cases ht
    have hfree := List.find?_some hfind
    have hmem := List.mem_of_find?_eq_some hfind
    rw [tagsScanned, List.mem_flatMap] at hmem
    obtain ⟨k, hk, hmem⟩ := hmem
    refine ⟨⟨mem_tagSet.mpr ?_, ?_, not_le.mp hlimit⟩, hroom⟩
    · split_ifs at hmem with hfull
      · cases hmem
      obtain ⟨i, hi, rfl⟩ := List.mem_map.mp hmem
      rw [List.mem_range] at hk hi
      rw [mul_comm, Nat.mul_add_div (by decide), Nat.div_eq_of_lt hi]
      exact hk
    · simpa [hlimit] using hfree
  · obtain ⟨hgrown, hfree⟩ := grow_cases s mem
    exact ⟨hgrown, fun t ht => ⟨hfree t ht, hroom⟩⟩

/-! ### Writes to the tag table -/

/-- `s'` is `s` with entry `e` under tag `t`, in the tag table. -/
structure Writes (s s' : Session) (t : ℕ) (e : Outstanding) : Prop where
  nChunks : s'.nChunks = s.nChunks
  tags : s'.tags = Function.update s.tags t e

theorem Writes.tagSet (h : Writes s s' t e) : s'.tagSet = s.tagSet := by
  rw [Session.tagSet, Session.tagSet, h.nChunks]

theorem Writes.entry_self (h : Writes s s' t e) : s'.tags t = e := by rw [h.tags, update_self]

theorem Writes.entry_of_ne {u : ℕ} (h : Writes s s' t e) (hu : u ≠ t) : s'.tags u = s.tags u := by
  rw [h.tags, update_of_ne hu]

/-- The last of two writes under one tag counts. -/
theorem Writes.trans {s₁ : Session} {e₁ : Outstanding} (h₁ : Writes s s₁ t e₁)
    (h : Writes s₁ s' t e) : Writes s s' t e :=
  ⟨h.nChunks.trans h₁.nChunks, by rw [h.tags, h₁.tags, update_idem]⟩

theorem modify_writes (s : Session) (t : ℕ) (f : Outstanding → Outstanding) :
    Writes s (s.modify t f) t (f (s.tags t)) :=
  ⟨rfl, rfl⟩

/-- The entry that `mark_outstanding` writes. -/
def newEntry (s : Session) (kind : MsgKind) (fid newFid : UInt32) : Outstanding :=
  { zero (p9SessionKindMutates kind) with
    active := true
    kind := some kind
    fid := fid
    newFid := newFid
    opId := s.nextOpId + 1 }

section

variable (s : Session)

theorem markOutstanding_writes (t : ℕ) (kind : MsgKind) (fid newFid : UInt32) :
    Writes s (s.markOutstanding t kind fid newFid) t (s.newEntry kind fid newFid) :=
  ⟨rfl, rfl⟩

/-- A request is marked, and its new entry filled in. -/
theorem mark_modify_writes (t : ℕ) (kind : MsgKind) (fid newFid : UInt32)
    (f : Outstanding → Outstanding) :
    Writes s ((s.markOutstanding t kind fid newFid).modify t f) t
      (f (s.newEntry kind fid newFid)) := by
  have hw := markOutstanding_writes s t kind fid newFid
  rw [← hw.entry_self]
  exact hw.trans (modify_writes _ t f)

theorem slotReserve_writes (t : ℕ) :
    Writes s (s.slotReserve t) t { s.tags t with holdsSlot := true } :=
  ⟨rfl, rfl⟩

theorem slotRelease_eq (t : ℕ) : s.slotRelease t = { s with
      tags := update s.tags t { s.tags t with holdsSlot := false }
      nReservedSlots := s.nReservedSlots - (s.tags t).holdsSlot.toNat } := by
  rw [slotRelease]
  cases hslot : (s.tags t).holdsSlot with
  | true => rfl
  | false =>
    have hsame : { s.tags t with holdsSlot := false } = s.tags t := by rw [← hslot]
    rw [hsame, update_eq_self]
    rfl

theorem fidBind_eq (fid : UInt32) : ∃ l, (s.fidBind fid).1 = { s with boundFids := l } := by
  rw [fidBind]
  split_ifs
  · exact ⟨s.boundFids, rfl⟩
  · exact ⟨s.boundFids, rfl⟩
  · exact ⟨_, rfl⟩

theorem slotBind_writes (t : ℕ) (fid : UInt32) :
    Writes s (s.slotBind t fid).1 t { s.tags t with holdsSlot := false } := by
  obtain ⟨l, hl⟩ := fidBind_eq (s.slotRelease t) fid
  rw [slotBind, hl, slotRelease_eq]
  exact ⟨rfl, rfl⟩

theorem clearOutstanding_writes (t : ℕ) :
    Writes s (s.clearOutstanding t) t (zero (s.tags t).mutates) := by
  refine ⟨by rw [clearOutstanding, slotRelease_eq]; rfl, ?_⟩
  rw [clearOutstanding, slotRelease_eq]
  simp only [modify, update_self, update_idem]

end

theorem p9SessionSetOwner_writes {tag : UInt32} (hact : s.Active tag.toNat) (owner : Option ℕ) :
    Writes s (s.p9SessionSetOwner tag owner).1 tag.toNat
      { s.tags tag.toNat with owner := owner } := by
  rw [p9SessionSetOwner, activeEntry_eq_some.mpr ⟨hact, rfl⟩]
  exact ⟨rfl, rfl⟩

theorem p9SessionMarkAsync_writes {tag : UInt16} (hact : s.Active tag.toNat)
    (hasync : (s.tags tag.toNat).async = false) (hkind : (s.tags tag.toNat).isFlush = false) :
    Writes s (s.p9SessionMarkAsync tag) tag.toNat { s.tags tag.toNat with async := true } := by
  rw [p9SessionMarkAsync, activeEntry_eq_some.mpr ⟨hact, rfl⟩]
  dsimp only
  rw [hasync, hkind]
  exact ⟨rfl, rfl⟩

theorem fidUnbind_eq (s : Session) (fid : UInt32) :
    ∃ l, s.fidUnbind fid = { s with boundFids := l } := by
  rw [fidUnbind]
  split
  · exact ⟨s.boundFids, rfl⟩
  · exact ⟨_, rfl⟩

/-! ### Sends -/

/-- Entries that may differ in `walkNwname`, `mutates`, `abandoned`, `ownerWaits`. -/
structure SameCore (e e' : Outstanding) : Prop where
  active : e'.active = e.active
  kind : e'.kind = e.kind
  fid : e'.fid = e.fid
  newFid : e'.newFid = e.newFid
  opId : e'.opId = e.opId
  awaitingFlush : e'.awaitingFlush = e.awaitingFlush
  holdsSlot : e'.holdsSlot = e.holdsSlot
  flushOldtag : e'.flushOldtag = e.flushOldtag
  flushTag : e'.flushTag = e.flushTag
  async : e'.async = e.async
  owner : e'.owner = e.owner

theorem SameCore.refl (e : Outstanding) : SameCore e e :=
  ⟨rfl, rfl, rfl, rfl, rfl, rfl, rfl, rfl, rfl, rfl, rfl⟩

theorem modify_id (s : Session) (t : ℕ) : s.modify t id = s := by rw [modify, id, update_eq_self]

/-- The **bookkeeping** of a request sent under `t`; `s₁` is `s`, grown. -/
inductive Commit (s s₁ : Session) (t : ℕ) : Send → Session → Prop
  | issued {req : Send} {kind : MsgKind} {fid newFid : UInt32} {f : Outstanding → Outstanding}
      (hreq : ∀ oldtag, req ≠ .flush oldtag) (hshare : s.nActive - s.nFlush < s.opsMax)
      (hflush : kind ≠ .flush) (hclunk : kind ≠ .clunk)
      (hstate : s.state = .opened ∨ s.state = .versioned ∧ kind = .attach)
      (hf : ∀ e, SameCore e (f e)) :
      Commit s s₁ t req ((s₁.markOutstanding t kind fid newFid).modify t f)
  | reserved {req : Send} {kind : MsgKind} {fid newFid : UInt32}
      {f : Outstanding → Outstanding} (hreq : ∀ oldtag, req ≠ .flush oldtag)
      (hshare : s.nActive - s.nFlush < s.opsMax) (hflush : kind ≠ .flush)
      (hstate : s.state = .opened) (hslot : s.slotAvailable = true)
      (hf : ∀ e, SameCore e (f e)) :
      Commit s s₁ t req (((s₁.markOutstanding t kind fid newFid).modify t f).slotReserve t)
  | clunked {req : Send} {fid : UInt32} (hreq : ∀ oldtag, req ≠ .flush oldtag)
      (hshare : s.nActive - s.nFlush < s.opsMax) (hstate : s.state = .opened)
      (hbound : fid ∈ s.boundFids) (hroot : fid ≠ s.rootFid) :
      Commit s s₁ t req (((s₁.fidUnbind fid).markOutstanding t .clunk fid fid).slotReserve t)
  | flushed {oldtag : UInt16} (hstate : s.state = .opened ∨ s.state = .versioned)
      (hold : s.Active oldtag.toNat) (hkind : (s.tags oldtag.toNat).isFlush = false)
      (hawait : (s.tags oldtag.toNat).awaitingFlush = false) :
      Commit s s₁ t (.flush oldtag)
        (((s₁.markOutstanding t .flush s₁.rootFid s₁.rootFid).modify t fun e =>
          { e with flushOldtag := oldtag.toNat }).modify oldtag.toNat fun victim =>
            { victim with awaitingFlush := true, flushTag := t })

/-- A **send** fails, with at most a growth; sends a `Tversion`, without a tag; or a request under a
free tag. -/
inductive Sent (s : Session) (req : Send) : Session × Option Built → Prop
  | failed {s' : Session} (hgrown : Grown s s') : Sent s req (s', none)
  | untagged {b : Built} {size : UInt32} {type : UInt8}
      (hframe : p9PeekHeader b.out = some (size, type, p9Notag)) : Sent s req (s, some b)
  | tagged {s₁ s' : Session} {t : ℕ} {b : Built} {size : UInt32} {type : UInt8}
      (hgrown : Grown s s₁) (hfree : FreeTag s₁ t) (hcommit : Commit s s₁ t req s')
      (hframe : p9PeekHeader b.out = some (size, type, UInt16.ofNat t)) :
      Sent s req (s', some b)

theorem sendOp_sent {flush : Bool} {commit : Session → ℕ → Session} (hbuild : Framed build)
    (hcommit : pre = true → (flush = false → s.nActive - s.nFlush < s.opsMax) →
      ∀ s₁ t, Commit s s₁ t req (commit s₁ t)) :
    Sent s req (s.sendOp mem pre flush build commit) := by
  obtain ⟨hgrown, hfree⟩ := allocTag_cases s mem flush
  fun_cases sendOp s mem pre flush build commit with
  | case1 => exact .failed (.refl s)
  | case2 _ s₁ halloc | case3 _ s₁ _ halloc | case5 _ s₁ _ halloc =>
    rw [halloc] at hgrown
    exact .failed hgrown
  | case4 hpre s₁ t halloc b hb =>
    rw [halloc] at hgrown hfree
    obtain ⟨hfree, hroom⟩ := hfree t rfl
    obtain ⟨size, type, hframe⟩ := hbuild _ b hb
    exact .tagged hgrown hfree (hcommit (by simpa using hpre) hroom s₁ t) hframe

theorem sendShared_sent {kind : MsgKind} {fid newFid : UInt32}
    (hbuild : Framed build) (hreq : ∀ oldtag, req ≠ .flush oldtag) (hflush : kind ≠ .flush := by decide)
    (hclunk : kind ≠ .clunk := by decide) :
    Sent s req (s.sendShared mem pre kind fid newFid build) := by
  refine sendOp_sent hbuild fun hpre hshare s₁ t => ?_
  rw [← modify_id (s₁.markOutstanding t kind fid newFid) t]
  simp only [isOpen, Bool.and_eq_true, beq_iff_eq] at hpre
  exact .issued hreq (hshare rfl) hflush hclunk (.inl hpre.1.1) SameCore.refl

/-- Every **send** does what `Sent` lists. -/
theorem send_sent (s : Session) (mem : Kmalloc) (out : List UInt8) (req : Send) :
    Sent s req (s.send mem out req) := by
  cases req with
  | version version =>
    have hframed (ver : CSlice) : Framed fun tag => p9BuildTversion out tag s.msize ver :=
      .check (.check (.check .buildMsg))
    rw [send, p9SessionSendVersion]
    split
    · exact .failed (.refl s)
    · dsimp only
      split
      · exact .failed (.refl s)
      · rename_i b hb
        obtain ⟨size, type, hframe⟩ := hframed _ _ b hb
        split
        · exact .untagged hframe
        · exact .failed (.refl s)
  | attach uname aname nUname =>
    refine sendOp_sent (.check (.check (.check (.check (.check .buildMsg)))))
      fun hpre hshare s₁ t => ?_
    rw [← modify_id (s₁.markOutstanding t .attach s₁.rootFid s₁.rootFid) t]
    exact .issued nofun (hshare rfl) (by decide) (by decide) (.inr ⟨by simpa using hpre, rfl⟩)
      SameCore.refl
  | walk srcFid newFid names =>
    refine sendOp_sent .buildWalk fun hpre hshare s₁ t => ?_
    simp only [isOpen, Bool.and_eq_true, beq_iff_eq] at hpre
    exact .reserved nofun (hshare rfl) (by decide) hpre.1.1.1.1.1.1.1 hpre.2
      fun e => { SameCore.refl e with }
  | walkgetattr srcFid newFid requestMask names =>
    refine sendOp_sent .buildWalk fun hpre hshare s₁ t => ?_
    simp only [isOpen, Bool.and_eq_true, beq_iff_eq, Bool.or_eq_true] at hpre
    split_ifs with hnofid
    · exact .issued nofun (hshare rfl) (by decide) (by decide) (.inl hpre.1.1.1)
        fun e => { SameCore.refl e with }
    · exact .reserved nofun (hshare rfl) (by decide) hpre.1.1.1
        (hpre.2.resolve_left hnofid).2 fun e => { SameCore.refl e with }
  | clunk fid =>
    refine sendOp_sent .buildFixed fun hpre hshare s₁ t => ?_
    simp only [isOpen, fidBound, Bool.and_eq_true, beq_iff_eq, bne_iff_ne,
      List.contains_iff_mem] at hpre
    exact .clunked nofun (hshare rfl) hpre.1.1.1 hpre.1.1.2 hpre.1.2
  | flush oldtag =>
    refine sendOp_sent .buildFixed fun hpre hshare s₁ t => ?_
    simp only [Bool.and_eq_true, Bool.or_eq_true, beq_iff_eq, flushable_iff] at hpre
    exact .flushed hpre.1 hpre.2.1 hpre.2.2.1 hpre.2.2.2
  | lopen fid flags =>
    refine sendOp_sent .buildMsg fun hpre hshare s₁ t => ?_
    simp only [isOpen, Bool.and_eq_true, beq_iff_eq] at hpre
    split_ifs
    · exact .issued nofun (hshare rfl) (by decide) (by decide) (.inl hpre.1.1)
        fun e => { SameCore.refl e with }
    · rw [← modify_id (s₁.markOutstanding t .lopen fid fid) t]
      exact .issued nofun (hshare rfl) (by decide) (by decide) (.inl hpre.1.1) SameCore.refl
  | setattr fid attr =>
    rw [send, p9SessionSendSetattr, sendExclusive]
    refine sendShared_sent (fun tag b hb => ?_) nofun
    obtain ⟨attr, -, hb⟩ := Option.bind_eq_some_iff.mp hb
    exact Framed.buildMsg tag b hb
  -- The rest are ordinary requests, told apart by how many arguments their builder checks.
  | lcreate => exact sendShared_sent (.check (.check (.check .buildMsg))) nofun
  | write => exact sendShared_sent (.check (.check .buildMsg)) nofun
  | symlink => exact sendShared_sent (.check (.check (.check (.check .buildMsg)))) nofun
  | read | getattr | readdir | fsync | weftio => exact sendShared_sent .buildMsg nofun
  | statfs | readlink | weft => exact sendShared_sent .buildFixed nofun
  | lock | getlock | mknod | rename | link | mkdir | renameat | unlinkat =>
    exact sendShared_sent (.check .buildMsg) nofun

end Session

end Thylacine
