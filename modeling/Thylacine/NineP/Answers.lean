import Thylacine.NineP.FidLedger

/-!
# What a Reply Changes

A reply changes what belongs to the request it answers: the entry of its tag, with that of a victim
when a flush is acknowledged, and the fid that an attach or a full walk binds.

## Main results

* `dispatch_all_or_nothing`: it is dispatched as a whole or not at all.
-/

namespace Thylacine

open Outstanding
open Option (bind_eq_some_iff map_eq_some_iff)

namespace Session

variable {s s' : Session} {msg : List UInt8} {type : UInt8} {tag : UInt16}

/-- The tags that a reply frees. -/
def Frees (s : Session) (type : UInt8) (tag : UInt16) (u : ℕ) : Prop :=
  u = tag.toNat ∨ type = MsgKind.flush.r ∧ u = (s.tags tag.toNat).flushOldtag

/-- The fids stay, but for an `Rattach`'s root fid and a full walk's. -/
def KeepsFids (s : Session) (msg : List UInt8) (type : UInt8) (tag : UInt16) (s' : Session) :
    Prop :=
  s'.boundFids = s.boundFids ∨ type = expectedR (s.tags tag.toNat).kind ∧
    ((s.tags tag.toNat).kind = some .attach ∧ s'.boundFids = s.boundFids ++ [s.rootFid] ∨
      s.FullWalk msg tag.toNat ∧ s'.boundFids = s.boundFids ++ [(s.tags tag.toNat).newFid])

/-- `s'` is `s` with the request under `tag` **answered** by `msg`. -/
structure Answered (s : Session) (msg : List UInt8) (type : UInt8) (tag : UInt16)
    (s' : Session) : Prop where
  request : s.Active tag.toNat
  active : ∀ u, s'.Active u ↔ s.Active u ∧ ¬s.Frees type tag u
  others : ∀ u, ¬s.Frees type tag u → s'.tags u = s.tags u
  fids : s.KeepsFids msg type tag s'

/-- `s'` differs at most in the tag's entry, cleared. -/
theorem Answered.clear {e : Outstanding} (hact : s.Active tag.toNat)
    (hw : Writes s s' tag.toNat e) (htype : type ≠ MsgKind.flush.r)
    (hfids : s.KeepsFids msg type tag s') :
    Answered s msg type tag (s'.clearOutstanding tag.toNat) := by
  have hfrees (u : ℕ) : s.Frees type tag u ↔ u = tag.toNat := by simp [Frees, htype]
  have hw := hw.trans (clearOutstanding_writes s' tag.toNat)
  refine ⟨hact, fun u => ?_, fun u hu => hw.entry_of_ne (mt (hfrees u).mpr hu), ?_⟩
  · rw [hfrees]
    by_cases hu : u = tag.toNat
    · simp [hu, hw.not_active]
    · simp [hu, hw.active_of_ne hu]
  · rwa [KeepsFids, (clear_fids s' tag.toNat).2.1]

theorem expectedR_eq_flush {kind : Option MsgKind} (h : expectedR kind = MsgKind.flush.r) :
    kind = some .flush := by
  revert h
  rcases kind with _ | kind
  · decide
  · cases kind <;> decide

theorem slotBind_fids (s : Session) (t : ℕ) (fid : UInt32) :
    (s.slotBind t fid).1.boundFids = s.boundFids ∨
      (s.slotBind t fid).1.boundFids = s.boundFids ++ [fid] := by
  rw [slotBind, slotRelease_eq]
  rcases fidBind_cases _ fid with heq | ⟨-, -, heq⟩
  · exact .inl (by rw [heq])
  · exact .inr (by rw [heq])

theorem applyRmsg_rlerror {r : DispatchResult} {op : Outstanding}
    (h : s.applyRmsg op tag p9Rlerror msg = (s', some r)) : s' = s := by
  rw [applyRmsg, if_neg (by simp), applyBody, if_pos rfl] at h
  obtain ⟨rfl, hr⟩ := Prod.mk.inj h
  obtain ⟨r₁, hr, -⟩ := map_eq_some_iff.mp hr
  obtain ⟨ecode, -, hres⟩ := checked_eq_some (Prod.ext rfl hr)
  exact (congrArg Prod.fst hres).symm

theorem Answered.of_applyRmsg {r : DispatchResult} (hback : FlushesBack s)
    (hact : s.Active tag.toNat) {size : UInt32} (hpeek : p9PeekHeader msg = some (size, type, tag))
    (h : s.applyRmsg (s.tags tag.toNat) tag type msg = (s', some r)) :
    Answered s msg type tag (s'.clearOutstanding tag.toNat) := by
  have hself : Writes s s tag.toNat (s.tags tag.toNat) := ⟨rfl, (Function.update_eq_self ..).symm⟩
  by_cases herror : type = p9Rlerror
  · subst herror
    obtain rfl := applyRmsg_rlerror h
    exact .clear hact hself (by decide) (.inl rfl)
  have hown : type = expectedR (s.tags tag.toNat).kind := by
    rw [applyRmsg] at h
    by_contra hne
    rw [if_pos ⟨hne, herror⟩] at h
    cases h
  have hnot (hkind : (s.tags tag.toNat).isFlush = false) : type ≠ MsgKind.flush.r := by
    intro htype
    simp [isFlush, expectedR_eq_flush (hown ▸ htype)] at hkind
  cases applyRmsg_applied hback hact h with
  | error hmsg =>
    obtain ⟨size', hpeek'⟩ := parseExact_eq_some hmsg
    simp_all
  | kept hkind => exact .clear hact hself (hnot hkind) (.inl rfl)
  | attached hkind =>
    exact .clear hact ⟨rfl, hself.tags⟩
      (hnot (by simp [isFlush, hkind])) (.inr ⟨hown, .inl ⟨hkind, rfl⟩⟩)
  | walked hwalk =>
    refine .clear hact (slotBind_writes ..) (hnot (isFlush_of_fullWalk hwalk).1) ?_
    exact (slotBind_fids ..).imp_right fun h => ⟨hown, .inr ⟨hwalk, h⟩⟩
  | acknowledged hkind =>
    have htype : type = MsgKind.flush.r := by
      have hk : (s.tags tag.toNat).kind = some .flush := eq_of_beq hkind
      rw [hown, hk]
      rfl
    have hw₁ := clearOutstanding_writes s (s.tags tag.toNat).flushOldtag
    have hw₂ := clearOutstanding_writes
      (s.clearOutstanding (s.tags tag.toNat).flushOldtag) tag.toNat
    have hfrees (u : ℕ) :
        s.Frees type tag u ↔ u = tag.toNat ∨ u = (s.tags tag.toNat).flushOldtag := by
      simp [Frees, htype]
    refine ⟨hact, fun u => ?_, fun u hu => ?_, .inl ?_⟩
    · rw [hfrees]
      by_cases hu₂ : u = tag.toNat
      · simp [hu₂, hw₂.not_active]
      rw [hw₂.active_of_ne hu₂]
      by_cases hu₁ : u = (s.tags tag.toNat).flushOldtag
      · simp [hu₁, hw₁.not_active]
      · simp [hu₁, hu₂, hw₁.active_of_ne hu₁]
    · rw [hfrees, not_or] at hu
      rw [hw₂.entry_of_ne hu.1, hw₁.entry_of_ne hu.2]
    · rw [(clear_fids ..).2.1, (clear_fids ..).2.1]

/-- **What a dispatch comes to.** A refused reply changes nothing, an `Rversion` no request and no
fid; any other answers its request, unless that is being flushed. -/
def Dispatched (s : Session) (msg : List UInt8) : Session × Option DispatchResult → Prop
  | (s', none) => s' = s
  | (s', some _) => ∃ size type tag, p9PeekHeader msg = some (size, type, tag) ∧
    if type = MsgKind.version.r then
      s'.tags = s.tags ∧ s'.nChunks = s.nChunks ∧ s'.boundFids = s.boundFids
    else (s.tags tag.toNat).awaitingFlush = false → s.Answered msg type tag s'

theorem p9SessionDispatchRmsg_dispatched (hback : FlushesBack s) (msg : List UInt8) :
    s.Dispatched msg (s.p9SessionDispatchRmsg msg) := by
  rw [p9SessionDispatchRmsg]
  split
  · rfl
  rename_i size type tag hpeek
  split_ifs with hversion
  · rw [dispatchRversion]
    split
    · rfl
    split
    · rfl
    split
    · rfl
    · exact ⟨size, type, tag, hpeek, by rw [if_pos hversion]; exact ⟨rfl, rfl, rfl⟩⟩
  split
  · rfl
  rename_i op hentry
  obtain ⟨hact, rfl⟩ := activeEntry_eq_some.mp hentry
  split
  · rename_i hawait
    exact ⟨size, type, tag, hpeek, by simp [hversion, hawait]⟩
  split
  · rename_i happly
    exact applyRmsg_refused happly
  · rename_i happly
    refine ⟨size, type, tag, hpeek, ?_⟩
    rw [if_neg hversion]
    exact fun _ => .of_applyRmsg hback hact hpeek happly

end Session

/-- **All or nothing**: what the dispatch of any bytes comes to, after every run from
`p9_session_init`. -/
theorem dispatch_all_or_nothing (raw : ℕ → Outstanding) (rootFid msize : UInt32) {s₀ : Session}
    (h : Session.p9SessionInit raw rootFid msize = some s₀) (ops : List Session.Op)
    (msg : List UInt8) :
    (s₀.run ops).Dispatched msg ((s₀.run ops).p9SessionDispatchRmsg msg) :=
  Session.p9SessionDispatchRmsg_dispatched
    (Session.run_wellFormed (Session.init_wellFormed h) ops).back msg

/-- An error in answer to a flush, `errorOnFlush`. -/
theorem dispatch_all_or_nothing_error :
    ∃ s₀, Session.p9SessionInit (fun _ => zero false) 0 8192 = some s₀ ∧
      (s₀.run (errorOnFlush.take 3)).Dispatched (frame p9Rlerror 1 (ByteCodec.u32Bytes 5))
        ((s₀.run (errorOnFlush.take 3)).p9SessionDispatchRmsg
          (frame p9Rlerror 1 (ByteCodec.u32Bytes 5))) :=
  ⟨_, rfl, dispatch_all_or_nothing (fun _ => zero false) 0 8192 rfl _ _⟩

end Thylacine
