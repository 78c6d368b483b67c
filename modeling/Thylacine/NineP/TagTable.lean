import Thylacine.NineP.FidLedger

/-!
# Searches of the Tag Table

The searches of `9p_session.c` go through the tag table chunk by chunk and pass over the chunks
whose counters say that there is nothing to find.

## Main results

* `tag_searches_agree`: they find what a scan of the whole table would, the least tag.
* `flush_finds_tag`: the flushes in flight are no more than their victims, so there is a tag for
  one more.
-/

namespace Thylacine

open CountedTable List Outstanding

/-- The first match in a list in order is the least. -/
theorem find?_eq_some_iff_isLeast {p : ℕ → Bool} {l : List ℕ} (hl : l.Pairwise (· < ·)) {u : ℕ} :
    l.find? p = some u ↔ IsLeast {v | v ∈ l ∧ p v = true} u := by
  induction l with
  | nil => simp [IsLeast]
  | cons a l ih =>
    obtain ⟨ha, hl⟩ := pairwise_cons.mp hl
    rw [find?_cons]
    split
    · rename_i hp
      have hleast : IsLeast {v | v ∈ a :: l ∧ p v = true} a := by
        refine ⟨⟨mem_cons_self, hp⟩, fun v hv => ?_⟩
        rcases mem_cons.mp hv.1 with rfl | hv
        exacts [le_rfl, (ha v hv).le]
      rw [Option.some.injEq]
      exact ⟨fun h => h ▸ hleast, hleast.unique⟩
    · rename_i hp
      have hset : {v | v ∈ a :: l ∧ p v = true} = {v | v ∈ l ∧ p v = true} := by
        ext v
        refine and_congr_left fun hv => ⟨fun hmem => ?_, mem_cons_of_mem a⟩
        exact (mem_cons.mp hmem).resolve_left (by rintro rfl; simp [hv] at hp)
      rw [ih hl, hset]

namespace Session

variable {s : Session} {t u : ℕ} {skip p : ℕ → Bool}

/-- What a search from `t` looks at: its first chunk from `t` on. -/
def tagsFrom (s : Session) (t : ℕ) (skip : ℕ → Bool) : List ℕ :=
  (range' (t / p9TagChunk) (s.nChunks - t / p9TagChunk)).flatMap fun k =>
    let first := if k = t / p9TagChunk then t else k * p9TagChunk
    if skip k then [] else range' first ((k + 1) * p9TagChunk - first)

/-- The tag of the entry that `next_active` returns. -/
def nextActive (s : Session) (t : ℕ) : Option ℕ :=
  (s.tagsFrom t fun k => s.chunkActive k = 0).find? fun u => (s.tags u).active

/-- The tag of what `p9_session_next_sync_owned` returns. -/
def p9SessionNextSyncOwned (s : Session) (t : ℕ) : Option ℕ :=
  (s.tagsFrom t fun k => s.chunkSync k = 0).find? fun u => (s.tags u).activeSync

/-! ### One search -/

theorem mem_tagsFrom :
    u ∈ s.tagsFrom t skip ↔ t ≤ u ∧ u ∈ s.tagSet ∧ skip (u / p9TagChunk) = false := by
  have hrow (k : ℕ) (hk : t / p9TagChunk ≤ k) :
      u ∈ range' (if k = t / p9TagChunk then t else k * p9TagChunk) ((k + 1) * p9TagChunk -
        if k = t / p9TagChunk then t else k * p9TagChunk) ↔ t ≤ u ∧ u / p9TagChunk = k := by
    rw [mem_range'_1]
    split_ifs <;> simp only [p9TagChunk] at * <;> omega
  simp only [tagsFrom, mem_flatMap, mem_ite_nil_left, mem_range'_1, mem_tagSet]
  constructor
  · rintro ⟨k, hk, hskip, hu⟩
    obtain ⟨htu, rfl⟩ := (hrow k hk.1).mp (mem_range'_1.mpr hu)
    exact ⟨htu, by omega, by simpa using hskip⟩
  · rintro ⟨htu, hu, hskip⟩
    have hle := Nat.div_le_div_right (c := p9TagChunk) htu
    exact ⟨u / p9TagChunk, by omega, by simp [hskip], mem_range'_1.mp ((hrow _ hle).mpr ⟨htu, rfl⟩)⟩

theorem pairwise_tagsFrom (s : Session) (t : ℕ) (skip : ℕ → Bool) :
    (s.tagsFrom t skip).Pairwise (· < ·) := by
  refine pairwise_flatMap.mpr ⟨fun k _ => ?_, (pairwise_lt_range' 1).imp fun hkl x hx y hy => ?_⟩
  · by_cases hskip : skip k = true
    · rw [if_pos hskip]
      exact .nil
    · rw [if_neg hskip]
      exact pairwise_lt_range' 1
  · simp only [mem_ite_nil_left, mem_range'_1] at hx hy
    split_ifs at hx hy <;> simp only [p9TagChunk] at * <;> omega

section

variable (skip p) (hskip : ∀ u ∈ s.tagSet, skip (u / p9TagChunk) = true → p u = false)
include hskip

/-- A search that skips chunks **without a match** finds the least. -/
theorem find?_tagsFrom : (s.tagsFrom t skip).find? p = some u ↔
    IsLeast {u | t ≤ u ∧ u ∈ s.tagSet ∧ p u = true} u := by
  rw [find?_eq_some_iff_isLeast (pairwise_tagsFrom s t skip)]
  refine Eq.to_iff (congrArg (IsLeast · u) (Set.ext fun v => ?_))
  have hv : p v = true → v ∈ s.tagSet → skip (v / p9TagChunk) = false := fun hp hmem => by
    by_contra hs
    simp [hskip v hmem (by simpa using hs)] at hp
  simp only [Set.mem_ofPred_eq, mem_tagsFrom]
  tauto

theorem find?_tagsFrom_eq_none : (s.tagsFrom t skip).find? p = none ↔
    ∀ u ≥ t, u ∈ s.tagSet → p u = false := by
  rw [find?_eq_none]
  refine ⟨fun h u htu hu => ?_, fun h u hu => ?_⟩
  · by_cases hs : skip (u / p9TagChunk) = true
    · exact hskip u hu hs
    · simpa using h u (mem_tagsFrom.mpr ⟨htu, hu, by simpa using hs⟩)
  · obtain ⟨htu, hmem, -⟩ := mem_tagsFrom.mp hu
    simp [h u htu hmem]

end

/-- In a chunk whose counter is 0 nothing is counted. -/
theorem chunk_idle {q : Outstanding → Bool} {c : ℕ → ℕ}
    (hc : ∀ k < s.nChunks, c k = countIf (chunkSet k) q s.tags) (u : ℕ) (hu : u ∈ s.tagSet)
    (hidle : decide (c (u / p9TagChunk) = 0) = true) : q (s.tags u) = false := by
  rw [decide_eq_true_eq, hc _ (mem_tagSet.mp hu)] at hidle
  exact countIf_eq_zero.mp hidle u (mem_chunkSet.mpr rfl)

theorem Counted.chunk_full (h : Counted s) (hu : u ∈ s.tagSet)
    (hfull : s.chunkActive (u / p9TagChunk) = p9TagChunk) : (s.tags u).active = true := by
  have hcard : (chunkSet (u / p9TagChunk)).card = p9TagChunk := by simp [chunkSet]
  rw [h.chunkActive _ (mem_tagSet.mp hu)] at hfull
  exact Finset.card_filter_eq_iff.mp (hfull.trans hcard.symm) u (mem_chunkSet.mpr rfl)

theorem tagsScanned_eq (s : Session) :
    s.tagsScanned = s.tagsFrom 0 fun k => s.chunkActive k = p9TagChunk := by
  simp only [tagsFrom, Nat.zero_div, decide_eq_true_eq, ← range_eq_range']
  refine flatMap_congr fun k _ => ?_
  have hfirst : (if k = 0 then 0 else k * p9TagChunk) = k * p9TagChunk := by
    split_ifs with hk <;> simp [hk]
  rw [hfirst, range'_eq_map_range, Nat.add_mul, one_mul, Nat.add_sub_cancel_left]

/-! ### The searches of a session -/

/-- Every search of the tag table **agrees** with a scan. -/
structure Searches (s : Session) : Prop where
  allocTag : ∀ mem flush u, (flush = false → s.nActive - s.nFlush < s.opsMax) →
    IsLeast {u | s.FreeTag u} u → s.allocTag mem flush = (s, some u)
  allocTag_grow : ∀ mem flush, (flush = false → s.nActive - s.nFlush < s.opsMax) →
    (∀ u, ¬s.FreeTag u) → s.allocTag mem flush = s.grow mem ∧
      ∀ u, (s.grow mem).2 = some u → u = s.nChunks * p9TagChunk
  allocTag_share : ∀ mem, s.opsMax ≤ s.nActive - s.nFlush → s.allocTag mem false = (s, none)
  nextActive : ∀ t u, s.nextActive t = some u ↔ IsLeast {u | t ≤ u ∧ s.Active u} u
  nextActive_none : ∀ t, s.nextActive t = none ↔ ∀ u ≥ t, ¬s.Active u
  nextSyncOwned : ∀ t u, s.p9SessionNextSyncOwned t = some u ↔
    IsLeast {u | t ≤ u ∧ s.Active u ∧ (s.tags u).syncOwned = true} u
  nextSyncOwned_none : ∀ t, s.p9SessionNextSyncOwned t = none ↔
    ∀ u ≥ t, s.Active u → (s.tags u).syncOwned = false

/-- What `alloc_tag` looks for: a free tag, or the end. -/
theorem Ledger.allocTag_eq (h : Ledger s) (mem : Kmalloc) (flush : Bool)
    (hroom : flush = false → s.nActive - s.nFlush < s.opsMax) :
    (∀ u, IsLeast {u | s.FreeTag u} u → s.allocTag mem flush = (s, some u)) ∧
      ((∀ u, ¬s.FreeTag u) → s.allocTag mem flush = s.grow mem) := by
  have hlimit := h.wellFormed.tagLimit
  let full (k : ℕ) : Bool := s.chunkActive k = p9TagChunk
  let want (u : ℕ) : Bool := u ≥ s.tagLimit || !(s.tags u).active
  have hskip (u) (hu : u ∈ s.tagSet) (hfull : full (u / p9TagChunk) = true) : want u = false := by
    have hact := h.counted.chunk_full hu (by simpa [full] using hfull)
    have hbelow := h.wellFormed.below u ⟨hu, hact⟩
    simp [want, hact, hlimit, hbelow]
  have hfind (u) := find?_tagsFrom (t := 0) (u := u) full want hskip
  have hnone := find?_tagsFrom_eq_none (t := 0) full want hskip
  rw [allocTag, if_neg (by cases flush <;> simp [hroom]), tagsScanned_eq]
  have hsub {v : ℕ} (hv : s.FreeTag v) : v ∈ {u | 0 ≤ u ∧ u ∈ s.tagSet ∧ want u = true} :=
    ⟨v.zero_le, hv.1, by simp [want, hv.2.1]⟩
  split
  · rename_i u hu
    obtain ⟨⟨-, hmem, hp⟩, hleast⟩ := (hfind u).mp hu
    split_ifs with hend
    · -- the end of the tags: the table has them all
      have hno : ∀ v, ¬s.FreeTag v := fun v hv =>
        absurd (hleast (hsub hv)) (not_le.mpr (hv.2.2.trans_le hend))
      have hall : s.tagLimit ≤ s.nChunks * p9TagChunk := hend.trans (Finset.mem_range.mp hmem).le
      exact ⟨fun v hv => absurd hv.1 (hno v), fun _ => by rw [grow, if_pos (.inr hall)]⟩
    · have hfree : s.FreeTag u := ⟨hmem, by simpa [want, hend] using hp, not_le.mp hend⟩
      refine ⟨fun v hv => ?_, fun hno => absurd hfree (hno u)⟩
      rw [hv.unique ⟨hfree, fun w hw => hleast (hsub hw)⟩]
  · rename_i hu
    refine ⟨fun v hv => ?_, fun _ => rfl⟩
    exact absurd (hnone.mp hu v (v.zero_le) hv.1.1) (by simp [want, hv.1.2.1])

theorem Ledger.searches (h : Ledger s) : Searches s := by
  have hidle := chunk_idle h.counted.chunkActive
  have hsync := chunk_idle h.counted.chunkSync
  refine ⟨fun mem flush u hroom => (h.allocTag_eq mem flush hroom).1 u,
    fun mem flush hroom hno => ⟨(h.allocTag_eq mem flush hroom).2 hno, fun u hu => ?_⟩,
    fun mem hfull => ?_, fun t u => find?_tagsFrom _ _ hidle, fun t => ?_, fun t u => ?_, fun t => ?_⟩
  · rw [grow] at hu
    split_ifs at hu
    exact (Option.some.inj hu).symm
  · rw [allocTag, if_pos (by simpa using hfull)]
  · refine (find?_tagsFrom_eq_none _ _ hidle).trans (forall₂_congr fun u _ => ?_)
    simp [Active]
  · refine (find?_tagsFrom _ _ hsync).trans (Eq.to_iff (congrArg (IsLeast · u) (Set.ext fun v => ?_)))
    simp [Active, activeSync, and_assoc]
  · refine (find?_tagsFrom_eq_none _ _ hsync).trans (forall₂_congr fun u _ => ?_)
    simp [Active, activeSync]

/-! ### A tag for every flush -/

/-- Flushes in flight are **no more** than other requests. -/
theorem Ledger.nFlush_le (h : Ledger s) : s.nFlush ≤ s.nActive - s.nFlush := by
  have hle : countIf s.tagSet activeFlush s.tags ≤ countIf s.tagSet inShare s.tags := by
    have hvictim (f : ℕ) (hf : f ∈ s.tagSet.filter fun t => (s.tags t).activeFlush) :=
      have hf := Finset.mem_filter.mp hf
      have hflush := Bool.and_eq_true_iff.mp hf.2
      h.wellFormed.back.victim f ⟨hf.1, hflush.1⟩ hflush.2
    refine Finset.card_le_card_of_injOn (fun f => (s.tags f).flushOldtag) (fun f hf => ?_)
      fun f hf g hg heq => ?_
    · obtain ⟨hact, hawait, -⟩ := hvictim f hf
      refine Finset.mem_filter.mpr ⟨hact.1, ?_⟩
      simp [inShare, hact.2, h.wellFormed.back.notFlush_of_awaiting _ hact hawait]
    · rw [← (hvictim f hf).2.2, ← (hvictim g hg).2.2]
      exact congrArg (fun v => (s.tags v).flushTag) heq
  rw [h.counted.nActive_eq, Nat.add_sub_cancel_left, h.counted.flush]
  exact hle

/-- Without a free tag the table can **grow**. -/
theorem Ledger.allocTag_flush (h : Ledger s) (hops : s.opsMax = p9OpsMax) {mem : Kmalloc}
    (hmem : mem.dir = true ∧ mem.chunk = true) : ∃ s' u, s.allocTag mem true = (s', some u) := by
  obtain ⟨hfree, hgrow⟩ := h.allocTag_eq mem true nofun
  by_cases hex : ∃ u, s.FreeTag u
  · classical
    exact ⟨s, Nat.find hex, hfree _ ⟨Nat.find_spec hex, fun v hv => Nat.find_min' hex hv⟩⟩
  push Not at hex
  have hactive : s.nActive < p9TagLimit := by
    have hflush := h.nFlush_le
    have hshare : s.nActive - s.nFlush ≤ p9OpsMax := hops ▸ h.share
    rw [p9OpsMax] at hshare
    rw [p9TagLimit]
    omega
  have hlt : s.nChunks * p9TagChunk < p9TagLimit := by
    by_contra hge
    have hsub : Finset.range p9TagLimit ⊆ s.tagSet.filter fun t => (s.tags t).active := by
      intro t ht
      rw [Finset.mem_range] at ht
      have hmem : t ∈ s.tagSet := Finset.mem_range.mpr (by omega)
      refine Finset.mem_filter.mpr ⟨hmem, ?_⟩
      by_contra hact
      exact hex t ⟨hmem, by simpa using hact, h.wellFormed.tagLimit ▸ ht⟩
    have hcard := Finset.card_le_card hsub
    rw [Finset.card_range] at hcard
    rw [h.counted.active, countIf] at hactive
    omega
  have hroom : ¬(s.nChunks ≥ p9TagChunks ∨ s.nChunks * p9TagChunk ≥ s.tagLimit) := by
    rw [h.wellFormed.tagLimit]
    rw [p9TagLimit, p9TagChunk] at hlt
    rw [p9TagChunks, p9TagLimit, p9TagChunk]
    omega
  rw [hgrow hex, grow, if_neg hroom, if_neg (by simp [hmem]), if_neg (by simp [hmem])]
  exact ⟨_, _, rfl⟩

theorem p9BuildTflush_isSome {out : List UInt8} (hout : 9 ≤ out.length) (tag oldtag : UInt16) :
    ∃ b, p9BuildTflush out tag oldtag = some b ∧ b.accepted := by
  have hlen : (fieldsBytes [.u16 oldtag]).length = 2 := rfl
  rw [p9BuildTflush, buildFixed, buildFields_eq (by simp [FieldOk]) (by rw [hlen]),
    ByteCodec.Cursor.put_of_le]
  · exact ⟨_, rfl, (by decide : (0 : ℤ) ≤ cInt (p9HdrLen + 2))⟩
  · change 0 + _ ≤ out.length
    rw [length_frame, p9HdrLen]
    omega

theorem run_opsMax (h : Ledger s) (ops : List Op) : (s.run ops).opsMax = s.opsMax :=
  (Runs.foldl_invariant (I := fun s' => Ledger s' ∧ s'.opsMax = s.opsMax) (fun _ _ => True)
    (fun _ op h _ => ⟨step_ledger h.1 op,
      (step_effect h.1.wellFormed.back op).sameLimits.opsMax.trans h.2⟩) ⟨h, rfl⟩
    fun _ _ _ _ => trivial).2

end Session

/-- **The searches of the tag table**, after every run from `p9_session_init`, find the least
tag, as a scan of the whole table does. -/
theorem tag_searches_agree (raw : ℕ → Outstanding) (rootFid msize : UInt32) {s₀ : Session}
    (h : Session.p9SessionInit raw rootFid msize = some s₀) (ops : List Session.Op) :
    (s₀.run ops).Searches :=
  (Session.run_ledger (Session.init_ledger h).1 ops).searches

theorem tag_searches_agree_boot :
    ∃ s₀, Session.p9SessionInit (fun _ => zero false) 0 8192 = some s₀ ∧
      (s₀.run Session.bootOps).Searches :=
  ⟨_, rfl, tag_searches_agree (fun _ => zero false) 0 8192 rfl _⟩

/-- **A flush finds a tag.** After every run from `p9_session_init` the flushes in flight are no
more than the other requests; with memory for a growth and room for the message, the flush of a
request not being flushed succeeds. -/
theorem flush_finds_tag (raw : ℕ → Outstanding) (rootFid msize : UInt32) {s₀ : Session}
    (h : Session.p9SessionInit raw rootFid msize = some s₀) (ops : List Session.Op) :
    (s₀.run ops).nFlush ≤ (s₀.run ops).nActive - (s₀.run ops).nFlush ∧
      ∀ (mem : Session.Kmalloc) (out : List UInt8) (oldtag : UInt16),
        mem.dir = true → mem.chunk = true → 9 ≤ out.length →
        (s₀.run ops).state = .versioned ∨ (s₀.run ops).state = .opened →
        (s₀.run ops).Active oldtag.toNat → ((s₀.run ops).tags oldtag.toNat).isFlush = false →
        ((s₀.run ops).tags oldtag.toNat).awaitingFlush = false →
        ((s₀.run ops).p9SessionSendFlush mem out oldtag).2.isSome = true := by
  have hbooks := (Session.init_ledger h).1
  have hrun := Session.run_ledger hbooks ops
  refine ⟨hrun.nFlush_le, fun mem out oldtag hdir hchunk hout hstate hact hkind hawait => ?_⟩
  have hops : (s₀.run ops).opsMax = p9OpsMax := by
    rw [Session.run_opsMax hbooks, Session.p9SessionInit] at *
    split_ifs at h
    cases h
    rfl
  obtain ⟨s', t, halloc⟩ := hrun.allocTag_flush hops ⟨hdir, hchunk⟩
  obtain ⟨b, hb, hacc⟩ := Session.p9BuildTflush_isSome hout (UInt16.ofNat t) oldtag
  have hpre : (((s₀.run ops).state == .opened || (s₀.run ops).state == .versioned) &&
      (s₀.run ops).flushable oldtag.toNat) = true := by
    rw [Session.flushable_iff.mpr ⟨hact, hkind, hawait⟩]
    rcases hstate with hstate | hstate <;> rw [hstate] <;> rfl
  rw [Session.p9SessionSendFlush, Session.sendOp, hpre, halloc]
  dsimp only
  rw [hb]
  dsimp only
  rw [if_pos hacc]
  rfl

/-- The `Tattach` of `errorOnFlush` can be flushed. -/
theorem flush_finds_tag_attach :
    ∃ s₀, Session.p9SessionInit (fun _ => zero false) 0 8192 = some s₀ ∧
      ((s₀.run (errorOnFlush.take 2)).p9SessionSendFlush ⟨true, true⟩ (replicate 64 0) 0).2.isSome =
        true :=
  ⟨_, rfl, (flush_finds_tag (fun _ => zero false) 0 8192 rfl _).2 ⟨true, true⟩ (replicate 64 0) 0 rfl
    rfl (by decide) (by decide +kernel) (by decide +kernel) (by decide +kernel) (by decide +kernel)⟩

end Thylacine
