import Thylacine.Notes.Notes

/-!
# Note Latches

A queued note may set a flag of its process that interrupts the sleeps of its threads: the terminate
latch of its class when nothing handles the note, or the caught bit of its family when something
does. A flag that outlived its notes would interrupt the sleeps for ever.

## Main results

* `latches_agree_with_queue`: in every reachable state of a native process a flag is set only while
  a note of its class is queued, and in which runs it is set then.
* `stale_handler_drops_flags`: a delivery whose handler is gone by the time it takes the note and
  puts it back drops the flags.
-/

namespace Thylacine

open Function (update_apply)

/-- A note of the class `b` is queued. -/
def Queued (c : Option NoteName → Option NoteBit) (es : List Note) (b : NoteBit) : Prop :=
  ∃ n ∈ es, c n.name = some b

variable {c : Option NoteName → Option NoteBit} {flag flag' : NoteBit → Bool} {b : NoteBit}
  {l r es : List Note} {n : Note} {q : NoteQueue}

theorem queued_append : Queued c (l ++ r) b ↔ Queued c l b ∨ Queued c r b := by
  simp [Queued, or_and_right, exists_or]

theorem queued_cons : Queued c (n :: r) b ↔ c n.name = some b ∨ Queued c r b := by simp [Queued]

theorem drainFlag_apply (h : q.Ok) : drainFlag q c flag n b = true ↔
    flag b = true ∧ (c n.name = some b → Queued c q.entries b) := by
  rw [drainFlag]
  cases hc : c n.name with
  | none => simp
  | some b' =>
    dsimp only
    rcases NoteQueue.scan_cases h (fun m => c m.name = some b') 0 0 with
      ⟨hnone, hall⟩ | ⟨idx, l, m, r, hsome, he, hm, -⟩
    · rw [hnone, Option.isSome_none, if_neg Bool.false_ne_true, update_apply]
      split_ifs with hb
      · subst hb
        refine iff_of_false id fun hq => ?_
        obtain ⟨m, hm, hmb⟩ := hq.2 rfl
        exact hall m hm (decide_eq_true hmb)
      · exact ⟨fun hf => ⟨hf, fun he => absurd (Option.some.inj he).symm hb⟩, And.left⟩
    · rw [hsome]
      refine ⟨fun hf => ⟨hf, fun hb => ⟨m, ?_, (of_decide_eq_true hm).trans hb⟩⟩, And.left⟩
      exact he ▸ List.mem_append_right l List.mem_cons_self

theorem armFlag_apply {x : Option NoteName} :
    armFlag c flag x b = true ↔ flag b = true ∨ c x = some b := by
  rw [armFlag]
  cases hc : c x with
  | none => simp
  | some b' =>
    dsimp only
    rw [update_apply, Option.some.injEq]
    split_ifs with hb
    · exact iff_of_true rfl (.inr hb.symm)
    · exact ⟨.inl, fun h => h.resolve_right fun he => hb he.symm⟩

namespace NoteProc

variable {p p' : NoteProc} {x : NoteName} {ts : UInt64} {synthetic : Bool} {res : NoteProc × ℤ}
  {b : NoteBit}

/-- The flags of a native process **agree with its queue**. -/
structure Agrees (p : NoteProc) : Prop where
  queue_ok : p.queue.Ok
  native : p.kproc = false ∧ p.sigtab = none
  terminate : ∀ b, p.terminatePending b →
    Queued terminateLatch p.entries b ∧ p.handlerVa = 0 ∧ p.selfManaging = false
  caught : ∀ b, p.noteCaught b → Queued caughtBit p.entries b

/-- A thread puts back a note whose handler is gone. -/
def Stale (p : NoteProc) (op : NoteOp) : Prop :=
  ∃ t mask, op = .redeliver t mask ∧ p.loaded t ≠ 0 ∧ p.handlerVa = 0

/-- Every queued note of the class has its latch set. -/
def Armed (p : NoteProc) (b : NoteBit) : Prop :=
  Queued terminateLatch p.entries b → p.terminatePending b

/-- A step that leaves the handling. **A flag is lost** only with the last note of its class. -/
structure Follows (p p' : NoteProc) : Prop where
  agrees : Agrees p'
  handling : p'.handlerVa = p.handlerVa ∧ p'.selfManaging = p.selfManaging
  terminate : ∀ b, p.handlerVa = 0 → p.selfManaging = false → p.Armed b → p'.Armed b
  caught : ∀ b, p.noteCaught b → Queued caughtBit p'.entries b → p'.noteCaught b

theorem Agrees.refl (h : p.Agrees) : p.Follows p :=
  ⟨h, ⟨rfl, rfl⟩, fun _ _ _ => id, fun _ hb _ => hb⟩

/-! ### Taking a note -/

theorem Agrees.popped (h : p.Agrees) (hq : q.Ok) (he : p.entries = l ++ n :: r)
    (hr : q.entries = l ++ r) : p.Follows (p.popped n q) := by
  -- what was queued of a class: the note, or one that is left
  have hleft (c b) : Queued c p.entries b ↔ c n.name = some b ∨ Queued c q.entries b := by
    rw [he, hr, queued_append, queued_append, queued_cons]
    exact or_left_comm
  refine ⟨⟨hq, h.native, fun b hb => ?_, fun b hb => ?_⟩, ⟨rfl, rfl⟩, fun b _ _ harmed hb => ?_,
    fun b hb hleft => ?_⟩
  · obtain ⟨hb, hn⟩ := (drainFlag_apply hq).mp hb
    exact (h.terminate b hb).imp_left fun hb => ((hleft _ b).mp hb).elim hn id
  · obtain ⟨hb, hn⟩ := (drainFlag_apply hq).mp hb
    exact ((hleft _ b).mp (h.caught b hb)).elim hn id
  · exact (drainFlag_apply hq).mpr ⟨harmed ((hleft _ b).mpr (.inr hb)), fun _ => hb⟩
  · exact (drainFlag_apply hq).mpr ⟨hb, fun _ => hleft⟩

theorem Takes.follows {P : Note → Bool} {o : Option (Note × NoteProc)} (ho : p.Takes P o)
    (h : p.Agrees) : p.Follows ((o.map (·.2)).getD p) := by
  cases o with
  | none => exact h.refl
  | some x =>
    obtain ⟨hx, hq, l, r, he, -, -, hr⟩ := ho
    change p.Follows x.2
    rw [hx]
    exact h.popped hq he hr

/-- A round of the loop, and the rounds after it. -/
theorem Follows.trans {p'' : NoteProc} (h : p.Follows p') (h' : p'.Follows p'')
    (hsub : p''.entries ⊆ p'.entries) : p.Follows p'' where
  agrees := h'.agrees
  handling := ⟨h'.handling.1.trans h.handling.1, h'.handling.2.trans h.handling.2⟩
  terminate b hva hself harmed := h'.terminate b (h.handling.1.trans hva)
    (h.handling.2.trans hself) (h.terminate b hva hself harmed)
  caught b hb hq := h'.caught b (h.caught b hb (hq.imp fun _ hn => hn.imp_left (hsub ·))) hq

theorem Agrees.discardLoop (h : p.Agrees) (x : Option NoteName) (k : ℕ) :
    p.Follows (discardLoop x k p) ∧ (discardLoop x k p).entries ⊆ p.entries := by
  induction k generalizing p with
  | zero => exact ⟨h.refl, .refl _⟩
  | succ k ih =>
    rw [NoteProc.discardLoop]
    rcases NoteQueue.take_cases h.queue_ok (·.name = x) with
      ⟨hnone, -⟩ | ⟨l, n, r, q, hsome, hq, he, -, -, hr⟩
    · rw [hnone]
      exact ⟨h.refl, .refl _⟩
    · rw [hsome]
      have hpop := h.popped hq he hr
      obtain ⟨hloop, hsub⟩ := ih hpop.agrees
      refine ⟨hpop.trans hloop hsub, List.Subset.trans hsub ?_⟩
      change q.entries ⊆ p.queue.entries
      rw [hr, he]
      exact ((List.sublist_cons_self n r).append_left l).subset

/-! ### Adding a note -/

theorem arm_handling (p : NoteProc) (x : NoteName) :
    (p.arm x).kproc = p.kproc ∧ (p.arm x).sigtab = p.sigtab ∧ (p.arm x).handlerVa = p.handlerVa ∧
      (p.arm x).selfManaging = p.selfManaging := by
  simp only [arm, armCaught, armTerminate]
  split_ifs <;> exact ⟨rfl, rfl, rfl, rfl⟩

theorem arm_flags (p : NoteProc) (x : NoteName) (hnative : p.kproc = false ∧ p.sigtab = none) :
    (∀ b, (p.arm x).terminatePending b = true ↔ p.terminatePending b ∨
      p.handlerVa = 0 ∧ p.selfManaging = false ∧ terminateLatch x = some b) ∧
    ∀ b, (p.arm x).noteCaught b = true ↔ p.noteCaught b ∨
      ¬(p.handlerVa = 0 ∧ p.selfManaging = false) ∧ caughtBit x = some b := by
  obtain ⟨hk, ht⟩ := hnative
  by_cases hva : p.handlerVa = 0 <;> cases hself : p.selfManaging <;>
    simp [arm, armCaught, armSusp, armTerminate, hasLiveHandler, hk, ht, hva, hself, armFlag_apply]

section

variable (h : p.Agrees)
include h

/-- A note named `x` is queued, if there was none, and armed. -/
theorem Agrees.posted (hq : q.Ok)
    (hx : ∀ c b, Queued c q.entries b ↔ Queued c p.entries b ∨ c x = some b) :
    p.Follows ((p.withQueue q).arm x) := by
  obtain ⟨hterm, hcaught⟩ := (p.withQueue q).arm_flags x h.native
  obtain ⟨hk, ht, hva, hself⟩ := (p.withQueue q).arm_handling x
  have hentries : ((p.withQueue q).arm x).entries = q.entries := congrArg _ (queue_arm x)
  refine ⟨⟨by rwa [queue_arm], ⟨hk.trans h.native.1, ht.trans h.native.2⟩, fun b hb => ?_,
    fun b hb => ?_⟩, ⟨hva, hself⟩, fun b hva hself harmed hb => ?_,
    fun b hb _ => (hcaught b).mpr (.inl hb)⟩
  · rw [hentries, hva, hself, hx]
    rcases (hterm b).mp hb with hb | ⟨hva, hself, hb⟩
    · exact (h.terminate b hb).imp_left .inl
    · exact ⟨.inr hb, hva, hself⟩
  · rw [hentries, hx]
    exact ((hcaught b).mp hb).imp (h.caught b) And.right
  · rw [hentries, hx] at hb
    exact (hterm b).mpr (hb.imp harmed fun hb => ⟨hva, hself, hb⟩)

theorem Agrees.post {arg senderPid : UInt32} {name : Option NoteName}
    (hpost : p.Posts arg senderPid ts synthetic name res) : p.Follows res.1 := by
  cases hpost with
  | refused | ignored => exact h.refl
  | coalesced _ hname _ hq he hr =>
    refine h.posted hq fun c b => ?_
    rw [he, hr, queued_append, queued_append, queued_cons, queued_cons, hname]
    tauto
  | appended hq hr =>
    refine h.posted hq fun c b => ?_
    rw [hr, queued_append]
    simp [Queued]

theorem Agrees.withQueue (hq : q.Ok) (hr : q.entries = n :: p.entries) :
    (p.withQueue q).Agrees := by
  have hsub {c b} (hb : Queued c p.entries b) : Queued c q.entries b :=
    hr ▸ queued_cons.mpr (.inr hb)
  exact ⟨hq, h.native, fun b hb => (h.terminate b hb).imp_left hsub, fun b hb =>
    hsub (h.caught b hb)⟩

theorem Agrees.armCaught (hn : n ∈ p.entries) (hx : n.name = some x) : (p.armCaught x).Agrees := by
  rw [NoteProc.armCaught]
  split_ifs
  · exact h
  · refine ⟨h.queue_ok, h.native, h.terminate, fun b hb => ?_⟩
    exact (armFlag_apply.mp hb).elim (h.caught b) fun hb => ⟨n, hn, hx ▸ hb⟩

/-- A note put back is **armed again** if its handler is there. -/
theorem Agrees.redeliver (t : ℕ) (mask : NoteBit → Bool) : (p.redeliver t mask).Agrees ∧
    ((p.loaded t ≠ 0 → p.handlerVa ≠ 0) → p.Follows (p.redeliver t mask)) := by
  obtain he | ⟨n, p', q, hload, ⟨P, htakes⟩, he, hq, hr⟩ := redeliver_cases h.queue_ok t mask
  · exact he.symm ▸ ⟨h, fun _ => h.refl⟩
  have hpop : p.Follows p' := htakes.follows h
  have hback := hpop.agrees.withQueue hq hr
  have hagrees : (p.redeliver t mask).Agrees := by
    rw [he]
    cases hx : n.name with
    | none => exact hback
    | some x => exact hback.armCaught ((congrArg (n ∈ ·) hr).mpr List.mem_cons_self) hx
  refine ⟨hagrees, fun hcur => ?_⟩
  have hva := hcur hload
  have harm : n.name.elim (p'.withQueue q) (p'.withQueue q).armCaught =
      { p' with queue := q, noteCaught := armFlag caughtBit p'.noteCaught n.name } := by
    cases n.name with
    | none => rfl
    | some x =>
      have hva : p'.handlerVa ≠ 0 := fun h0 => hva (hpop.handling.1.symm.trans h0)
      exact if_neg (by simp [hasLiveHandler, NoteProc.withQueue, hpop.agrees.native, hva])
  rw [he, harm] at hagrees ⊢
  refine ⟨hagrees, hpop.handling, fun b hzero => absurd hzero hva, fun b hb _ =>
    armFlag_apply.mpr (or_iff_not_imp_right.mpr fun hn => ?_)⟩
  obtain ⟨hpop, hok, -⟩ := htakes
  rw [hpop]
  exact (drainFlag_apply hok).mpr ⟨hb, fun hn' => absurd hn' hn⟩

/-- A step changes the handling, puts a note back, or follows. -/
theorem Agrees.step (op : NoteOp) : p.Follows (p.step op) ∨ op = .markSelfManaging ∨
    (∃ va, op = .setHandler va) ∨ (∃ n, op = .reenqueueHead n) ∨ p.Stale op := by
  cases op with
  | post => exact .inl (h.post (posts h.queue_ok ..))
  | dequeue mask => exact .inl ((takes_dequeue h.queue_ok mask).follows h)
  | dequeueForFd mask => exact .inl ((takes h.queue_ok _ p.popped fun _ _ _ => rfl).follows h)
  | stopDequeue mask => exact .inl ((takes_stopDequeue h.queue_ok mask).follows h)
  | discardName x =>
    rw [NoteProc.step, discardName]
    split_ifs
    · exact .inl h.refl
    · exact .inl (h.discardLoop x _).1
  | reenqueueHead n => exact .inr (.inr (.inr (.inl ⟨n, rfl⟩)))
  | setHandler va => exact .inr (.inr (.inl ⟨va, rfl⟩))
  | markSelfManaging => exact .inr (.inl rfl)
  | setSigtab tab =>
    rw [NoteProc.step, setSigtab, h.native.2, Option.map_none, ← h.native.2]
    exact .inl h.refl
  | loadHandler t =>
    exact .inl ⟨⟨h.queue_ok, h.native, h.terminate, h.caught⟩, ⟨rfl, rfl⟩, fun _ _ _ => id,
      fun _ hb _ => hb⟩
  | redeliver t mask =>
    by_cases hcur : p.loaded t ≠ 0 → p.handlerVa ≠ 0
    · exact .inl ((h.redeliver t mask).2 hcur)
    · push Not at hcur
      exact .inr (.inr (.inr (.inr ⟨t, mask, rfl, hcur⟩)))

theorem Agrees.after (op : NoteOp) : (p.step op).Agrees := by
  rcases h.step op with hstep | rfl | ⟨va, rfl⟩ | ⟨n, rfl⟩ | ⟨t, mask, rfl, -⟩
  · exact hstep.agrees
  · exact ⟨h.queue_ok, h.native, fun _ hb => absurd hb Bool.false_ne_true, h.caught⟩
  · refine ⟨h.queue_ok, h.native, fun b hb => ?_, h.caught⟩
    obtain ⟨hva, hb⟩ := Bool.and_eq_true_iff.mp hb
    exact (h.terminate b hb).imp_right (.imp_left fun _ => of_decide_eq_true hva)
  · rw [NoteProc.step]
    obtain he | ⟨q, he, hq, hr⟩ := reenqueueHead_cases h.queue_ok n <;> rw [he]
    · exact h
    · exact h.withQueue hq hr
  · exact (h.redeliver t mask).1

/-- A latch **stays armed** while nothing handles notes. -/
theorem Agrees.stays (hva : p.handlerVa = 0) (hself : p.selfManaging = false)
    (hb : p.Armed b) {ops : List NoteOp} (hset : ∀ va, .setHandler va ∈ ops → va = 0)
    (hmark : .markSelfManaging ∉ ops) (hback : ∀ n, .reenqueueHead n ∉ ops)
    (hstale : ∀ pre op post, ops = pre ++ op :: post → ¬(pre.foldl NoteProc.step p).Stale op) :
    (ops.foldl NoteProc.step p).Armed b := by
  refine (Runs.foldl_invariant (I := fun p : NoteProc => p.Agrees ∧ p.handlerVa = 0 ∧
    p.selfManaging = false ∧ p.Armed b) (fun p op => op ∈ ops ∧ ¬p.Stale op) ?_
    ⟨h, hva, hself, hb⟩ ?_).2.2.2
  · rintro p op ⟨h, hva, hself, hb⟩ ⟨hop, hcur⟩
    refine ⟨h.after op, ?_⟩
    rcases h.step op with hstep | rfl | ⟨va, rfl⟩ | ⟨n, rfl⟩ | hold
    · exact ⟨hstep.handling.1.trans hva, hstep.handling.2.trans hself, hstep.terminate b hva hself hb⟩
    · exact absurd hop hmark
    · exact ⟨hset va hop, hself, fun hq =>
        Bool.and_eq_true_iff.mpr ⟨decide_eq_true (hset va hop), hb hq⟩⟩
    · exact absurd hop (hback n)
    · exact absurd hold hcur
  · rintro pre op post heq
    exact ⟨heq ▸ List.mem_append_right pre List.mem_cons_self, hstale pre op post heq⟩

/-- An accepted post that nothing handles **sets its latch**. -/
theorem Agrees.latched {arg senderPid : UInt32} (hx : terminateLatch x = some b)
    (hva : p.handlerVa = 0) (hself : p.selfManaging = false) (hrc : res.2 = 0)
    (hpost : p.Posts arg senderPid ts synthetic (some x) res) : res.1.terminatePending b := by
  cases hpost with
  | refused hneg => exact absurd hrc (Int.ne_of_lt hneg)
  | ignored hign => simp [ignores, h.native] at hign
  | @coalesced _ q | @appended _ q =>
    exact ((arm_flags (p.withQueue q) x h.native).1 b).mpr (.inr ⟨hva, hself, hx⟩)

end

/-- **Note latches agree with the queue.** A terminate latch is set only while a note of its class
is queued and nothing handles notes. After a post of that class that nothing handled, it is set
whenever such a note is queued, until a handler is registered or the process manages its notes
itself. A caught bit is set only while a note of its family is queued, and no step clears it while
one is. The second and the last are for steps that are no delivery with a stale handler. -/
theorem latches_agree_with_queue (ops : List NoteOp) :
    let p := ops.foldl step (boot none false)
    (∀ b, p.terminatePending b →
      Queued terminateLatch p.entries b ∧ p.handlerVa = 0 ∧ p.selfManaging = false) ∧
    (∀ b x arg senderPid ts synthetic (later : List NoteOp), terminateLatch (some x) = some b →
      p.handlerVa = 0 → p.selfManaging = false → (p.post x arg senderPid ts synthetic).2 = 0 →
      (∀ va, .setHandler va ∈ later → va = 0) → .markSelfManaging ∉ later →
      (∀ n, .reenqueueHead n ∉ later) →
      (∀ pre op post, later = pre ++ op :: post →
        ¬(pre.foldl step (p.post x arg senderPid ts synthetic).1).Stale op) →
      let p' := later.foldl step (p.post x arg senderPid ts synthetic).1
      Queued terminateLatch p'.entries b → p'.terminatePending b) ∧
    (∀ b, p.noteCaught b → Queued caughtBit p.entries b) ∧
    ∀ op b, ¬p.Stale op → p.noteCaught b → ¬(p.step op).noteCaught b →
      ¬Queued caughtBit (p.step op).entries b := by
  intro p
  have h : p.Agrees := Runs.foldl_invariant (fun _ _ => True) (fun _ op h _ => h.after op)
    ⟨⟨Nat.succ_pos 15, Nat.zero_le _, rfl⟩, ⟨rfl, rfl⟩, fun _ hb => absurd hb Bool.false_ne_true,
      fun _ hb => absurd hb Bool.false_ne_true⟩
    fun _ _ _ _ => trivial
  refine ⟨h.terminate, ?_, h.caught, ?_⟩
  · intro b x arg senderPid ts synthetic later hx hva hself hrc hset hmark hback hstale
    have hpost := posts h.queue_ok arg senderPid ts synthetic x
    have hstep := h.post hpost
    exact hstep.agrees.stays (hstep.handling.1.trans hva) (hstep.handling.2.trans hself)
      (fun _ => h.latched hx hva hself hrc hpost) hset hmark hback hstale
  · intro op b hcur hb hclear hleft
    rcases h.step op with hstep | rfl | ⟨va, rfl⟩ | ⟨n, rfl⟩ | hold
    · exact hclear (hstep.caught b hb hleft)
    · exact hclear hb
    · exact hclear hb
    · rw [step] at hclear
      obtain he | ⟨q, he, -⟩ := reenqueueHead_cases h.queue_ok n <;>
        exact hclear (he ▸ hb)
    · exact hcur hold

/-- A thread has loaded a handler, since unregistered; an `interrupt` comes after that, or before. -/
def staleAfter : NoteProc :=
  [.setHandler 0x1000, .loadHandler 0, .setHandler 0, .post (some .interrupt) 0 0 0 true].foldl step
    (boot none false)

@[inherit_doc staleAfter]
def staleBefore : NoteProc :=
  [.setHandler 0x1000, .loadHandler 0, .post (some .interrupt) 0 0 0 true, .setHandler 0].foldl step
    (boot none false)

/-- **A stale handler drops the flags.** The thread takes the note, which drains its flag, finds
that the frame cannot be written, and puts the note back: nothing handles it now, so the caught bit
is not set again, and only posts set the latch. -/
theorem stale_handler_drops_flags :
    (staleAfter.terminatePending .interrupt = true ∧
      Queued terminateLatch (staleAfter.step (.redeliver 0 fun _ => false)).entries .interrupt ∧
      (staleAfter.step (.redeliver 0 fun _ => false)).terminatePending .interrupt = false) ∧
    staleBefore.noteCaught .interrupt = true ∧
      Queued caughtBit (staleBefore.step (.redeliver 0 fun _ => false)).entries .interrupt ∧
      (staleBefore.step (.redeliver 0 fun _ => false)).noteCaught .interrupt = false := by
  refine ⟨⟨?_, ?_, ?_⟩, ?_, ?_, ?_⟩
  · decide +kernel
  · exact ⟨⟨some .interrupt, 0, 0, 0⟩, by decide +kernel, rfl⟩
  · decide +kernel
  · decide +kernel
  · exact ⟨⟨some .interrupt, 0, 0, 0⟩, by decide +kernel, rfl⟩
  · decide +kernel

end NoteProc

end Thylacine
