import Thylacine.Kernel.Errno
import Thylacine.Lib.Runs
import Thylacine.Notes.NoteQueue

/-!
# Posting and Taking Notes

The operations of `kernel/notes.c` on the notes of a process, each under the lock of the queue. A
note that is queued may arm a latch of its process, and a note that is taken drains the latch once
no other note of its class is left. The wakes of pollers and the clock are not modelled; a post is
given its time stamp.

## Main results

* `note_queue_is_ordered`: in every reachable state each operation is one on the list of the notes.
  A post appends a note, rewrites one in its place, or changes nothing. A dequeue takes out the
  first note that it may take, and the kill comes before all others.
-/

namespace Thylacine

open Function (update)

/-- `notes_name_terminate_latch`, named by the family of its notes. -/
def terminateLatch (name : Option NoteName) : Option NoteBit :=
  (name.filter (·.defaultAction = .terminate)).bind fun x =>
    if x.bit ∈ [.interrupt, .tty, .pipe, .term] then some x.bit else none

/-- The bit of `note_caught`. The kill has none. -/
def caughtBit (name : Option NoteName) : Option NoteBit := (name.map (·.bit)).filter (· ≠ .kill)

/-- A Linux process's actions: what `viv_sigtab_note_handler` and `viv_sigtab_note_ignored` answer. -/
structure Sigtab where
  handles : NoteName → Bool
  ignores : NoteName → Bool

/-- A process as `notes.c` sees it; a native one has no `sigtab`. -/
structure NoteProc where
  queue : NoteQueue
  handlerVa : UInt64
  /-- What a thread in `notes_deliver_tail` has loaded of `handler_va`, before it took the lock. -/
  loaded : ℕ → UInt64
  selfManaging : Bool
  kproc : Bool
  sigtab : Option Sigtab
  terminatePending : NoteBit → Bool
  noteCaught : NoteBit → Bool
  suspStopArmed : Bool

/-- The drain of a popped note's flag, over the notes left. -/
def drainFlag (q : NoteQueue) (c : Option NoteName → Option NoteBit) (flag : NoteBit → Bool)
    (popped : Note) : NoteBit → Bool :=
  match c popped.name with
  | none => flag
  | some b => if (q.scan fun n => c n.name = some b).isSome then flag else update flag b false

def armFlag (c : Option NoteName → Option NoteBit) (flag : NoteBit → Bool)
    (name : Option NoteName) : NoteBit → Bool :=
  match c name with
  | none => flag
  | some b => update flag b true

namespace NoteProc

/-- A process with an empty queue. -/
def boot (sigtab : Option Sigtab) (kproc : Bool) : NoteProc where
  queue := ⟨0, 0, 0, fun _ => {}⟩
  handlerVa := 0
  loaded := fun _ => 0
  selfManaging := false
  kproc := kproc
  sigtab := sigtab
  terminatePending := fun _ => false
  noteCaught := fun _ => false
  suspStopArmed := false

section

variable (p : NoteProc)

section

variable (x : NoteName)

def ignores : Bool := p.sigtab.any (·.ignores x)

/-- `notes_proc_has_live_handler`. -/
def hasLiveHandler : Bool := p.handlerVa ≠ 0 || p.sigtab.any (·.handles x)

/-- `notes_proc_default_applies`. -/
def defaultApplies : Bool := !p.hasLiveHandler x && !p.ignores x

/-- `notes_arm_intr_terminate_locked`. -/
def armTerminate : NoteProc :=
  if p.kproc || p.hasLiveHandler x || p.selfManaging then p
  else { p with terminatePending := armFlag terminateLatch p.terminatePending x }

/-- `notes_arm_susp_stop_locked`. -/
def armSusp : NoteProc :=
  { p with suspStopArmed := p.suspStopArmed || x.defaultAction = .stop }

/-- `notes_arm_caught_note_locked`. -/
def armCaught : NoteProc :=
  if p.kproc || !(p.hasLiveHandler x || p.selfManaging) then p
  else { p with noteCaught := armFlag caughtBit p.noteCaught x }

def arm : NoteProc := ((p.armTerminate x).armSusp x).armCaught x

end

/-- `notes_drain_intr_locked`. -/
def drainTerminate (n : Note) : NoteProc :=
  { p with terminatePending := drainFlag p.queue terminateLatch p.terminatePending n }

/-- `notes_drain_caught_note_locked`. -/
def drainCaught (n : Note) : NoteProc :=
  { p with noteCaught := drainFlag p.queue caughtBit p.noteCaught n }

def withQueue (q : NoteQueue) : NoteProc := { p with queue := q }

/-- A note was taken out, `q` is left, both flags are drained. -/
def popped (n : Note) (q : NoteQueue) : NoteProc := ((p.withQueue q).drainTerminate n).drainCaught n

/-- The note that a post of `x` merges into, in a long queue. -/
def coalesceSlot (x : NoteName) (senderPid : UInt32) (synthetic : Bool) : Option ℕ :=
  if noteCoalesceThreshold ≤ p.queue.count ∧ synthetic then
    p.queue.scan fun n => n.senderPid = senderPid ∧ n.name = some x
  else none

/-- `notes_post`. A name that is not known is `none`. -/
def post (name : Option NoteName) (arg senderPid : UInt32) (ts : UInt64) (synthetic : Bool) :
    NoteProc × ℤ :=
  match name with
  | none => (p, -tEInval)
  | some x =>
    if !synthetic && !x.userPostable then (p, -tEInval)
    else if p.ignores x then (p, 0)
    else
      match p.coalesceSlot x senderPid synthetic with
      | some idx => ((p.withQueue (p.queue.rewrite idx arg ts)).arm x, 0)
      | none =>
        if noteQueueDepth ≤ p.queue.count then (p, -tEAgain)
        else ((p.withQueue (p.queue.push ⟨some x, arg, senderPid, ts⟩)).arm x, 0)

/-- `notes_reenqueue_head_locked`. -/
def reenqueueHead (n : Note) : NoteProc × ℤ :=
  if noteQueueDepth ≤ p.queue.count then (p, -1) else (p.withQueue (p.queue.pushFront n), 0)

variable (mask : NoteBit → Bool)

/-- `notes_dequeue_locked`. -/
def dequeue : Option (Note × NoteProc) :=
  match p.queue.take Note.isKill with
  | some (n, q) => some (n, p.withQueue q)
  | none => (p.queue.take (Note.unmasked mask)).map fun (n, q) => (n, p.popped n q)

/-- `notes_dequeue_for_fd_locked`. -/
def dequeueForFd : Option (Note × NoteProc) :=
  (p.queue.take fun n => !n.isKill && n.unmasked mask).map fun (n, q) => (n, p.popped n q)

/-- The test of `notes_stop_dequeue_locked`. -/
def stops (n : Note) : Bool :=
  !p.selfManaging &&
    n.name.any fun x => x.defaultAction = .stop && !mask x.bit && p.defaultApplies x

/-- `notes_stop_dequeue_locked`. -/
def stopDequeue : Option (Note × NoteProc) :=
  (p.queue.take (p.stops mask)).map fun (n, q) => (n, (p.withQueue q).drainCaught n)

end

/-- The loop of `notes_discard_name`. -/
def discardLoop (x : Option NoteName) : ℕ → NoteProc → NoteProc
  | 0, p => p
  | k + 1, p =>
    match p.queue.take (·.name = x) with
    | none => p
    | some (n, q) => discardLoop x k (p.popped n q)

variable (p : NoteProc)

/-- `notes_discard_name`. Each round takes out a note. -/
def discardName (x : Option NoteName) : NoteProc :=
  if x = some .kill then p else discardLoop x p.queue.count p

/-- `notes_set_handler`. -/
def setHandler (va : UInt64) : NoteProc :=
  { p with handlerVa := va, terminatePending := fun b => va = 0 && p.terminatePending b }

/-- `notes_mark_self_managing`. -/
def markSelfManaging : NoteProc :=
  { p with selfManaging := true, terminatePending := fun _ => false }

/-- `viv_sigtab_set`. A native process has none to set. -/
def setSigtab (tab : Sigtab) : NoteProc :=
  { p with sigtab := p.sigtab.map fun _ => tab }

/-- Thread `t` loads `handler_va`, at the start of a delivery. -/
def loadHandler (t : ℕ) : NoteProc := { p with loaded := update p.loaded t p.handlerVa }

/-- Thread `t` ends a delivery whose frame cannot be written. -/
def redeliver (t : ℕ) (mask : NoteBit → Bool) : NoteProc :=
  if p.loaded t = 0 then p
  else match p.dequeue mask with
    | none => p
    | some (n, p') => n.name.elim (p'.reenqueueHead n).1 (p'.reenqueueHead n).1.armCaught

end NoteProc

/-! ### Runs -/

inductive NoteOp
  | post (name : Option NoteName) (arg senderPid : UInt32) (ts : UInt64) (synthetic : Bool)
  | dequeue (mask : NoteBit → Bool)
  | dequeueForFd (mask : NoteBit → Bool)
  | stopDequeue (mask : NoteBit → Bool)
  | discardName (x : Option NoteName)
  | reenqueueHead (n : Note)
  | setHandler (va : UInt64)
  | markSelfManaging
  | setSigtab (tab : Sigtab)
  | loadHandler (t : ℕ)
  | redeliver (t : ℕ) (mask : NoteBit → Bool)

namespace NoteProc

def step (p : NoteProc) : NoteOp → NoteProc
  | .post name arg senderPid ts synthetic => (p.post name arg senderPid ts synthetic).1
  | .dequeue mask => ((p.dequeue mask).map (·.2)).getD p
  | .dequeueForFd mask => ((p.dequeueForFd mask).map (·.2)).getD p
  | .stopDequeue mask => ((p.stopDequeue mask).map (·.2)).getD p
  | .discardName x => p.discardName x
  | .reenqueueHead n => (p.reenqueueHead n).1
  | .setHandler va => p.setHandler va
  | .markSelfManaging => p.markSelfManaging
  | .setSigtab tab => p.setSigtab tab
  | .loadHandler t => p.loadHandler t
  | .redeliver t mask => p.redeliver t mask

def entries (p : NoteProc) : List Note := p.queue.entries

/-- The result takes out the **first** entry with `P`, if any. -/
def Takes (p : NoteProc) (P : Note → Bool) : Option (Note × NoteProc) → Prop
  | none => ∀ n ∈ p.entries, ¬P n
  | some (n, p') => p' = p.popped n p'.queue ∧ p'.queue.Ok ∧
      ∃ l r, p.entries = l ++ n :: r ∧ (∀ m ∈ l, ¬P m) ∧ P n ∧ p'.entries = l ++ r

/-- The outcomes of a post. -/
inductive Posts (p : NoteProc) (arg senderPid : UInt32) (ts : UInt64) (synthetic : Bool) :
    Option NoteName → NoteProc × ℤ → Prop
  | refused {x rc} (hrc : rc < 0) : Posts p arg senderPid ts synthetic x (p, rc)
  | ignored {x} (h : p.ignores x) : Posts p arg senderPid ts synthetic (some x) (p, 0)
  | coalesced {x q l n r} (hs : synthetic) (hname : n.name = some x)
      (hsender : n.senderPid = senderPid) (hq : q.Ok) (h : p.entries = l ++ n :: r)
      (h' : q.entries = l ++ ⟨some x, arg, senderPid, ts⟩ :: r) :
      Posts p arg senderPid ts synthetic (some x) ((p.withQueue q).arm x, 0)
  | appended {x q} (hq : q.Ok) (h : q.entries = p.entries ++ [⟨some x, arg, senderPid, ts⟩]) :
      Posts p arg senderPid ts synthetic (some x) ((p.withQueue q).arm x, 0)

variable {p : NoteProc}

theorem queue_armCaught (x : NoteName) : (p.armCaught x).queue = p.queue := by
  rw [armCaught]
  split_ifs <;> rfl

theorem queue_arm (x : NoteName) : (p.arm x).queue = p.queue := by
  rw [arm, queue_armCaught, armTerminate]
  split_ifs <;> rfl

/-- A note without a flag drains none. -/
theorem popped_eq {n : Note} (h : terminateLatch n.name = none) (q : NoteQueue) :
    p.popped n q = (p.withQueue q).drainCaught n := by
  simp only [popped, drainTerminate, drainFlag, h]

section

variable (h : p.queue.Ok)
include h

theorem takes (P : Note → Bool) (f : Note → NoteQueue → NoteProc)
    (hf : ∀ n q, P n → f n q = p.popped n q) :
    p.Takes P ((p.queue.take P).map fun x => (x.1, f x.1 x.2)) := by
  rcases NoteQueue.take_cases h P with ⟨hnone, hall⟩ | ⟨l, n, r, q, hsome, hq, he, hl, hP, hr⟩
  · rw [hnone]
    exact hall
  · rw [hsome, Option.map_some, hf n q hP]
    exact ⟨rfl, hq, l, r, he, hl, hP, hr⟩

theorem takes_dequeue (mask : NoteBit → Bool) :
    p.Takes (if p.entries.any Note.isKill then Note.isKill else Note.unmasked mask)
      (p.dequeue mask) := by
  have hkill := takes h Note.isKill (fun _ q => p.withQueue q) fun n q hn => by
    rw [popped_eq (by rw [of_decide_eq_true hn]; rfl)]
    simp only [drainCaught, drainFlag, of_decide_eq_true hn]
    rfl
  rw [dequeue]
  cases htake : p.queue.take Note.isKill with
  | some x =>
    rw [htake] at hkill
    obtain ⟨-, -, l, r, he, -, hx, -⟩ := id hkill
    rwa [if_pos (List.any_eq_true.mpr ⟨_, he ▸ List.mem_append_right l List.mem_cons_self, hx⟩)]
  | none =>
    rw [htake] at hkill
    rw [if_neg fun hany => ?_]
    · exact takes h _ _ fun _ _ _ => rfl
    · obtain ⟨n, hn, hnk⟩ := List.any_eq_true.mp hany
      exact hkill n hn hnk

theorem takes_stopDequeue (mask : NoteBit → Bool) :
    p.Takes (p.stops mask) (p.stopDequeue mask) := by
  refine takes h (p.stops mask) (fun n q => (p.withQueue q).drainCaught n) fun n q hn =>
    (popped_eq ?_ q).symm
  cases hx : n.name with
  | none => rfl
  | some x =>
    simp only [stops, hx, Option.any_some, Bool.and_eq_true, decide_eq_true_eq] at hn
    simp [terminateLatch, hn.2.1.1]

theorem posts (arg senderPid : UInt32) (ts : UInt64) (synthetic : Bool) (name : Option NoteName) :
    p.Posts arg senderPid ts synthetic name (p.post name arg senderPid ts synthetic) := by
  cases name with
  | none => exact .refused (by decide)
  | some x =>
    rw [post]
    by_cases huser : !synthetic && !x.userPostable
    · exact if_pos huser ▸ .refused (by decide)
    by_cases hign : p.ignores x
    · exact if_neg huser ▸ if_pos hign ▸ .ignored hign
    rw [if_neg huser, if_neg hign]
    cases hslot : p.coalesceSlot x senderPid synthetic with
    | some idx =>
      rw [coalesceSlot] at hslot
      split_ifs at hslot with hs
      rcases NoteQueue.scan_cases h _ arg ts with ⟨hnone, -⟩ | ⟨_, l, n, r, hsome, he, hn, hr⟩
      · exact nomatch hnone.symm.trans hslot
      · cases hsome.symm.trans hslot
        obtain ⟨rfl, hx⟩ := of_decide_eq_true hn
        exact .coalesced hs.2 hx rfl ⟨h.head_lt, h.count_le, h.tail_eq⟩ he (hx ▸ hr)
    | none =>
      split_ifs with hfull
      · exact .refused (by decide)
      · exact .appended (h.push (by omega) _) (NoteQueue.entries_push h (by omega) _)

/-- **The loop** takes out every note of the name. -/
theorem entries_discardLoop (x : Option NoteName) (k : ℕ)
    (hk : p.entries.length ≤ k) : (discardLoop x k p).queue.Ok ∧
      (discardLoop x k p).entries = p.entries.filter (·.name ≠ x) := by
  induction k generalizing p with
  | zero =>
    refine ⟨h, ?_⟩
    rw [discardLoop, List.eq_nil_of_length_eq_zero (Nat.le_zero.mp hk)]
    rfl
  | succ k ih =>
    rw [discardLoop]
    rcases NoteQueue.take_cases h (·.name = x) with
      ⟨hnone, hall⟩ | ⟨l, n, r, q, hsome, hq, he, -, hx, hr⟩
    · rw [hnone]
      exact ⟨h, (List.filter_eq_self.mpr fun n hn => by simpa using hall n hn).symm⟩
    · rw [hsome]
      have he : p.entries = l ++ n :: r := he
      have hr : (p.popped n q).entries = l ++ r := hr
      refine (ih hq (by simp [hr, he] at hk ⊢; omega)).imp_right fun hloop => hloop.trans ?_
      simp [hr, he, of_decide_eq_true hx]

theorem entries_discardName (x : Option NoteName) :
    (p.discardName x).queue.Ok ∧ (p.discardName x).entries =
      if x = some .kill then p.entries else p.entries.filter (·.name ≠ x) := by
  rw [discardName]
  split_ifs
  · exact ⟨h, rfl⟩
  · exact entries_discardLoop h x _ (Nat.le_of_eq p.queue.length_entries)

theorem reenqueueHead_cases (n : Note) : (p.reenqueueHead n = (p, -1)) ∨
    ∃ q, p.reenqueueHead n = (p.withQueue q, 0) ∧ q.Ok ∧ q.entries = n :: p.entries := by
  rw [reenqueueHead]
  split_ifs with hfull
  · exact .inl rfl
  · exact .inr ⟨_, rfl, h.pushFront (by omega) n, NoteQueue.entries_pushFront h (by omega) n⟩

/-- A redelivery puts the note in front: **there is room**. -/
theorem redeliver_cases (t : ℕ) (mask : NoteBit → Bool) : p.redeliver t mask = p ∨
    ∃ n p' q, p.loaded t ≠ 0 ∧ (∃ P, p.Takes P (some (n, p'))) ∧
      p.redeliver t mask = n.name.elim (p'.withQueue q) (p'.withQueue q).armCaught ∧ q.Ok ∧
      q.entries = n :: p'.entries := by
  rw [redeliver]
  split_ifs with hva
  · exact .inl rfl
  have htakes := takes_dequeue h mask
  cases hd : p.dequeue mask with
  | none => exact .inl rfl
  | some x =>
    rw [hd] at htakes
    obtain ⟨-, hok, l, r, he, -, -, hr⟩ := id htakes
    have hlen : p.entries.length ≤ _ := p.queue.length_entries.symm ▸ h.count_le
    have hroom : x.2.queue.count = _ := (x.2.queue.length_entries).symm.trans (congrArg _ hr)
    rw [he] at hlen
    simp only [List.length_append, List.length_cons] at hlen hroom
    refine .inr ⟨x.1, x.2, _, hva, ⟨_, htakes⟩, ?_, hok.pushFront (by omega) _,
      NoteQueue.entries_pushFront hok (by omega) _⟩
    simp only [reenqueueHead, if_neg (show ¬noteQueueDepth ≤ x.2.queue.count by omega)]

theorem Takes.queue_ok {P : Note → Bool} {o : Option (Note × NoteProc)} (ho : p.Takes P o) :
    ((o.map (·.2)).getD p).queue.Ok := by
  cases o with
  | none => exact h
  | some x => exact ho.2.1

theorem queue_ok_step (op : NoteOp) : (p.step op).queue.Ok := by
  cases op with
  | post name arg senderPid ts synthetic =>
    have hpost := posts h arg senderPid ts synthetic name
    rw [step]
    cases hp : p.post name arg senderPid ts synthetic with
    | mk p' rc =>
      rw [hp] at hpost
      cases hpost with
      | refused | ignored => exact h
      | coalesced _ _ _ hq | appended hq => rwa [queue_arm]
  | dequeue mask => exact (takes_dequeue h mask).queue_ok h
  | dequeueForFd mask => exact (takes h _ p.popped fun _ _ _ => rfl).queue_ok h
  | stopDequeue mask => exact (takes_stopDequeue h mask).queue_ok h
  | discardName x => exact (entries_discardName h x).1
  | reenqueueHead n =>
    rw [step]
    obtain he | ⟨q, he, hq, -⟩ := reenqueueHead_cases h n <;> rw [he]
    · exact h
    · exact hq
  | setHandler _ | markSelfManaging | setSigtab _ | loadHandler _ => exact h
  | redeliver t mask =>
    rw [step]
    obtain he | ⟨n, p', q, -, -, he, hq, -⟩ := redeliver_cases h t mask
    · rwa [he]
    · rw [he]
      cases n.name with
      | none => exact hq
      | some x => exact (queue_armCaught x).symm ▸ hq

end

theorem note_queue_is_ordered (tab : Option Sigtab) (kproc : Bool) (ops : List NoteOp) :
    let p := ops.foldl step (boot tab kproc)
    p.queue.Ok ∧ (∀ name arg senderPid ts synthetic, p.Posts arg senderPid ts synthetic name
        (p.post name arg senderPid ts synthetic)) ∧
      (∀ mask, p.Takes (if p.entries.any Note.isKill then Note.isKill else Note.unmasked mask)
        (p.dequeue mask)) ∧
      (∀ mask, p.Takes (fun n => !n.isKill && n.unmasked mask) (p.dequeueForFd mask)) ∧
      (∀ mask, p.Takes (p.stops mask) (p.stopDequeue mask)) ∧
      (∀ x, (p.discardName x).entries =
        if x = some .kill then p.entries else p.entries.filter (·.name ≠ x)) ∧
      ∀ n, p.reenqueueHead n = (p, -1) ∨ (p.reenqueueHead n).2 = 0 ∧
        (p.reenqueueHead n).1.entries = n :: p.entries := by
  intro p
  have h : p.queue.Ok := by
    refine Runs.foldl_invariant (I := fun p : NoteProc => p.queue.Ok) (fun _ _ => True)
      (fun _ op h _ => queue_ok_step h op) ?_ fun _ _ _ _ => trivial
    exact ⟨Nat.succ_pos 15, Nat.zero_le _, rfl⟩
  refine ⟨h, fun name arg senderPid ts synthetic => posts h arg senderPid ts synthetic name,
    takes_dequeue h, fun mask => takes h _ p.popped fun _ _ _ => rfl, takes_stopDequeue h,
    fun x => (entries_discardName h x).2, fun n => ?_⟩
  refine (reenqueueHead_cases h n).imp_right ?_
  rintro ⟨q, he, -, hq⟩
  rw [he]
  exact ⟨rfl, hq⟩

end NoteProc

end Thylacine
