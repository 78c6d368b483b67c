import Mathlib.Data.UInt

/-!
# The Readiness Ring

`weft_ready_signal`, `weft_ready_observe`, `weft_ready_arm_park` and `weft_ready_unpark` of
`kernel/weft.c`: a producer counts edges in `ready_seq`, a consumer that wants to sleep leaves the
count it has seen in `wait_seq`, raises `wait_active` and looks at `ready_seq` once more. Every load
and every store is one step, and the steps of the two sides are interleaved in any order. The sleep
itself is not part of these functions, so a parked consumer may be woken at any time.

## Main results

* `ready_edge_wakes`: an edge that a parked consumer has not seen was answered by a signal that
  returned true, or the signal under way will return true.
-/

namespace Thylacine

namespace Weft

/-- `struct weft_ready_hdr`. -/
structure ReadyHdr where
  readySeq : UInt32 := 0
  readyMask : UInt32 := 0
  waitSeq : UInt32 := 0
  waitActive : UInt32 := 0

/-- Where the producer is. -/
inductive ProducerPc
  | idle
  /-- In `weft_ready_signal`, about to count the edge. -/
  | bump
  /-- About to load `wait_active`. -/
  | loadActive (seq : UInt32)
  /-- About to load `wait_seq`. -/
  | loadSeq (seq : UInt32) (armed : Bool)

/-- Where the consumer is. -/
inductive ConsumerPc
  | running
  /-- In `weft_ready_observe`, about to load the mask. -/
  | observing (seq : UInt32)
  /-- In `weft_ready_arm_park`, about to raise `wait_active`. -/
  | arming
  /-- About to load `ready_seq` again. -/
  | checking
  /-- An edge came in between, `wait_active` is about to be lowered. -/
  | unarming
  | parked
  deriving DecidableEq

/-- The shared words and the two sides. -/
structure Channel where
  hdr : ReadyHdr := {}
  producer : ProducerPc := .idle
  consumer : ConsumerPc := .running
  /-- The sequence that the consumer has seen last. -/
  lastSeen : UInt32 := 0

/-- What a step shows. -/
inductive Event
  | silent
  /-- A call of `weft_ready_signal` returns. -/
  | returns (wake : Bool)
  /-- A call of `weft_ready_arm_park` returns true. -/
  | parks
  deriving DecidableEq

/-- One load or store of one side. -/
inductive Step (c : Channel) : Event → Channel → Prop
  | signal (mask : UInt32) (h : c.producer = .idle) :
      Step c .silent { c with hdr := { c.hdr with readyMask := mask }, producer := .bump }
  | bump (h : c.producer = .bump) :
      Step c .silent { c with
        hdr := { c.hdr with readySeq := c.hdr.readySeq + 1 }
        producer := .loadActive (c.hdr.readySeq + 1) }
  | loadActive {seq} (h : c.producer = .loadActive seq) :
      Step c .silent { c with producer := .loadSeq seq (c.hdr.waitActive != 0) }
  | loadSeq {seq armed} (h : c.producer = .loadSeq seq armed) :
      Step c (.returns (armed && c.hdr.waitSeq != seq)) { c with producer := .idle }
  | observe (h : c.consumer = .running) :
      Step c .silent { c with consumer := .observing c.hdr.readySeq }
  | observed {seq} (h : c.consumer = .observing seq) :
      Step c .silent { c with consumer := .running, lastSeen := seq }
  | arm (h : c.consumer = .running) :
      Step c .silent { c with hdr := { c.hdr with waitSeq := c.lastSeen }, consumer := .arming }
  | raise (h : c.consumer = .arming) :
      Step c .silent { c with hdr := { c.hdr with waitActive := 1 }, consumer := .checking }
  | raced (h : c.consumer = .checking) (hseq : c.hdr.readySeq ≠ c.lastSeen) :
      Step c .silent { c with consumer := .unarming }
  | park (h : c.consumer = .checking) (hseq : c.hdr.readySeq = c.lastSeen) :
      Step c .parks { c with consumer := .parked }
  | unarm (h : c.consumer = .unarming) :
      Step c .silent { c with hdr := { c.hdr with waitActive := 0 }, consumer := .running }
  /-- `weft_ready_unpark`, after a wakeup. -/
  | unpark (h : c.consumer = .parked) :
      Step c .silent { c with hdr := { c.hdr with waitActive := 0 }, consumer := .running }

/-- A **run** from zeroed words, with its events, the last one first. -/
inductive Run : List Event → Channel → Prop
  | start : Run [] {}
  | step {evs : List Event} {e : Event} {c c' : Channel} (h : Run evs c) (hstep : Step c e c') :
      Run (e :: evs) c'

/-- What the signal under way returns, unless the consumer steps. -/
def Channel.willReturn (c : Channel) : Option Bool :=
  match c.producer with
  | .idle => none
  | .bump => some (c.hdr.waitActive != 0 && c.hdr.waitSeq != c.hdr.readySeq + 1)
  | .loadActive seq => some (c.hdr.waitActive != 0 && c.hdr.waitSeq != seq)
  | .loadSeq seq armed => some (armed && c.hdr.waitSeq != seq)

/-- A signal returned true since the consumer parked. -/
def Woken (evs : List Event) : Prop := .returns true ∈ evs.takeWhile (· ≠ .parks)

variable {c c' : Channel} {e : Event} {evs : List Event}

theorem Woken.cons (h : Woken evs) (he : e ≠ .parks) : Woken (e :: evs) := by
  rw [Woken, List.takeWhile_cons_of_pos (by simpa using he)]
  exact List.mem_cons_of_mem e h

theorem woken_returns (evs : List Event) : Woken (.returns true :: evs) := by
  rw [Woken]
  exact List.mem_cons_self

/-- The words of the consumer, by where it is. -/
structure Inv (evs : List Event) (c : Channel) : Prop where
  registered : c.consumer = .arming ∨ c.consumer = .checking ∨ c.consumer = .parked →
    c.hdr.waitSeq = c.lastSeen
  raised : c.consumer = .checking ∨ c.consumer = .parked → c.hdr.waitActive = 1
  answered : c.consumer = .parked → c.hdr.readySeq ≠ c.lastSeen →
    Woken evs ∨ c.willReturn = some true

/-- A producer's step while the consumer is parked. -/
theorem Inv.answered_step (h : Inv evs c) (hstep : Step c e c') (hpark : c.consumer = .parked)
    (hpark' : c'.consumer = .parked) (hseq : c'.hdr.readySeq ≠ c'.lastSeen) :
    Woken (e :: evs) ∨ c'.willReturn = some true := by
  have hreg := h.registered (.inr (.inr hpark))
  have hraised := h.raised (.inr hpark)
  cases hstep with
  | signal mask hpc =>
    rcases h.answered hpark hseq with hwoken | hret
    · exact .inl (hwoken.cons nofun)
    · simp [Channel.willReturn, hpc] at hret
  | bump hpc =>
    -- the edge that is counted here differs from the one the consumer armed with
    right
    simp only [Channel.willReturn, hraised, hreg]
    simpa using fun heq => hseq heq.symm
  | loadActive hpc =>
    refine (h.answered hpark hseq).imp (·.cons nofun) fun hret => ?_
    simpa [Channel.willReturn, hpc, hraised] using hret
  | loadSeq hpc =>
    rcases h.answered hpark hseq with hwoken | hret
    · exact .inl (hwoken.cons nofun)
    · simp only [Channel.willReturn, hpc, Option.some.injEq] at hret
      rw [hret]
      exact .inl (woken_returns evs)
  | park hpc => exact nomatch hpark.symm.trans hpc
  | _ => exact nomatch hpark'

theorem Inv.step (h : Inv evs c) (hstep : Step c e c') : Inv (e :: evs) c' := by
  refine ⟨fun hpc => ?_, fun hpc => ?_, fun hpark hseq => ?_⟩
  · have hreg := h.registered
    cases hstep <;> simp_all
  · have hraised := h.raised
    cases hstep <;> simp_all
  · by_cases hold : c.consumer = .parked
    · exact h.answered_step hstep hold hpark hseq
    · -- the consumer parks only when it has seen every edge
      cases hstep with
      | park hpc heq => exact absurd heq hseq
      | _ => simp_all

theorem Run.inv (hrun : Run evs c) : Inv evs c := by
  induction hrun with
  | start => exact ⟨by simp, by simp, nofun⟩
  | step _ hstep ih => exact ih.step hstep

/-- **No edge is lost.** Whenever the consumer is parked and `ready_seq` is not the sequence it
armed with, a signal has returned true since it parked, or the one under way will: whatever happens
next, the call returns true or is still going to, unless the consumer is woken before. -/
theorem ready_edge_wakes (hrun : Run evs c) (hpark : c.consumer = .parked)
    (hseq : c.hdr.readySeq ≠ c.lastSeen) :
    c.hdr.waitSeq = c.lastSeen ∧ (Woken evs ∨ c.willReturn = some true ∧
      ∀ e c', Step c e c' → c'.consumer = .parked → e = .returns true ∨ c'.willReturn = some true) := by
  have h := hrun.inv
  refine ⟨h.registered (.inr (.inr hpark)), (h.answered hpark hseq).imp_right fun hret => ?_⟩
  refine ⟨hret, fun e c' hstep hpark' => ?_⟩
  have hraised := h.raised (.inr hpark)
  cases hstep with
  | signal mask hpc => simp [Channel.willReturn, hpc] at hret
  | bump hpc | loadActive hpc =>
    right
    simpa [Channel.willReturn, hpc, hraised] using hret
  | loadSeq hpc =>
    simp only [Channel.willReturn, hpc, Option.some.injEq] at hret
    exact .inl (by rw [hret])
  | park hpc => exact nomatch hpark.symm.trans hpc
  | _ => exact nomatch hpark'

/-- The consumer parks, and the first edge is counted. -/
theorem ready_edge_wakes_first : ∃ evs c, Run evs c ∧ c.consumer = .parked ∧
    c.hdr.readySeq = 1 ∧ c.lastSeen = 0 ∧ (Woken evs ∨ c.willReturn = some true) := by
  have hrun : ∃ evs c, Run evs c ∧ c.consumer = .parked ∧ c.hdr.readySeq = 1 ∧ c.lastSeen = 0 :=
    ⟨_, _, .step (.step (.step (.step (.step .start (.arm rfl)) (.raise rfl)) (.park rfl rfl))
      (.signal 1 rfl)) (.bump rfl), rfl, rfl, rfl⟩
  obtain ⟨evs, c, hrun, hpark, hready, hseen⟩ := hrun
  have h := (ready_edge_wakes hrun hpark (by rw [hready, hseen]; decide)).2
  exact ⟨evs, c, hrun, hpark, hready, hseen, h.imp_right And.left⟩

end Weft

end Thylacine
