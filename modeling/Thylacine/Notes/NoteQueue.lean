import Thylacine.Lib.RingBuffer

/-!
# The Note Queue

The queue of notes of a process, `kernel/notes.c`: a ring of sixteen slots that is filled at its
tail and emptied from anywhere. A note is taken out by moving those behind it one slot towards the
head. A search is a walk from the head. `entries` is the list that a queue stands for.

## Main results

* `take_cases`: the first note that satisfies a test is taken out, and the others keep their order.
* `entries_push`, `entries_pushFront`: a note is put at the end, or at the front.
* `scan_cases`: a note is put in the place of another.
-/

namespace Thylacine

open Function (update update_apply update_of_ne update_self)
open RingBuffer (slice)

/-! ### Notes -/

/-- Families of notes, by their bit in a thread's mask. -/
inductive NoteBit
  | interrupt
  | kill
  | pipe
  | childExit
  | snare
  | tty
  | sak
  | term
  deriving DecidableEq, Repr

inductive NoteDefault
  | terminate
  | stop
  | ignore
  deriving DecidableEq, Repr

/-- The names of `g_known_notes`. -/
inductive NoteName
  | interrupt
  | kill
  | pipe
  | term
  | childExit
  | ttyWinch
  | ttySusp
  | ttyCont
  | ttyQuit
  | ttyHup
  | sak
  deriving DecidableEq, Repr

namespace NoteName

/-- `notes_name_to_bit`. -/
def bit : NoteName → NoteBit
  | .interrupt => .interrupt
  | .kill => .kill
  | .pipe => .pipe
  | .term => .term
  | .childExit => .childExit
  | .ttyWinch | .ttySusp | .ttyCont | .ttyQuit | .ttyHup => .tty
  | .sak => .sak

/-- `notes_default_action`. -/
def defaultAction : NoteName → NoteDefault
  | .interrupt | .kill | .pipe | .term | .ttyQuit | .ttyHup => .terminate
  | .ttySusp => .stop
  | .childExit | .ttyWinch | .ttyCont | .sak => .ignore

/-- `notes_name_user_postable`. -/
def userPostable (n : NoteName) : Bool := decide (n.bit ≠ .tty ∧ n ≠ .sak)

end NoteName

/-- A slot of the ring. A cleared one has no name. -/
structure Note where
  name : Option NoteName := none
  arg : UInt32 := 0
  senderPid : UInt32 := 0
  timestampNs : UInt64 := 0
  deriving DecidableEq, Repr

namespace Note

def isKill (n : Note) : Bool := decide (n.name = some .kill)

/-- The name is known, and its bit is not in the mask. -/
def unmasked (mask : NoteBit → Bool) (n : Note) : Bool := n.name.any fun x => !mask x.bit

end Note

/-! ### The ring -/

def noteQueueDepth : ℕ := 16

def noteCoalesceThreshold : ℕ := 12

structure NoteQueue where
  head : ℕ
  tail : ℕ
  count : ℕ
  ring : ℕ → Note

namespace NoteQueue

/-- The walk over `n` slots from `idx`: the first that satisfies `p`. -/
def scanFrom (q : NoteQueue) (p : Note → Bool) : ℕ → ℕ → Option ℕ
  | _, 0 => none
  | idx, n + 1 => if p (q.ring idx) then some idx else q.scanFrom p ((idx + 1) % noteQueueDepth) n

def scan (q : NoteQueue) (p : Note → Bool) : Option ℕ := q.scanFrom p q.head q.count

/-- The loop of `notes_pop_at_locked`: `n` slots from `cur` get the note behind. -/
def shiftDown (ring : ℕ → Note) : ℕ → ℕ → ℕ → Note
  | _, 0 => ring
  | cur, n + 1 =>
    let next := (cur + 1) % noteQueueDepth
    shiftDown (update ring cur (ring next)) next n

section

variable (q : NoteQueue)

/-- `notes_pop_at_locked`. -/
def popAt (idx : ℕ) : NoteQueue :=
  let off := (idx + noteQueueDepth - q.head) % noteQueueDepth
  let last := (q.head + q.count - 1) % noteQueueDepth
  { q with
    ring := update (shiftDown q.ring idx (q.count - 1 - off)) last {}
    count := q.count - 1
    tail := (q.head + (q.count - 1)) % noteQueueDepth }

/-- Take out the first note that satisfies `p`. -/
def take (p : Note → Bool) : Option (Note × NoteQueue) :=
  (q.scan p).map fun idx => (q.ring idx, q.popAt idx)

/-- The end of `notes_post`. -/
def push (n : Note) : NoteQueue :=
  { q with
    ring := update q.ring q.tail n
    tail := (q.tail + 1) % noteQueueDepth
    count := q.count + 1 }

/-- `notes_reenqueue_head_locked` with a free slot. -/
def pushFront (n : Note) : NoteQueue :=
  let head := (q.head + noteQueueDepth - 1) % noteQueueDepth
  { q with head := head, ring := update q.ring head n, count := q.count + 1 }

/-- `notes_post` coalesces: new argument and time for slot `idx`. -/
def rewrite (idx : ℕ) (arg : UInt32) (ts : UInt64) : NoteQueue :=
  { q with ring := update q.ring idx ⟨(q.ring idx).name, arg, (q.ring idx).senderPid, ts⟩ }

/-- The notes of the queue, from the head on. -/
def entries : List Note := slice (fun i => q.ring ((q.head + i) % noteQueueDepth)) q.count

end

/-- The indices of the ring fit together. -/
structure Ok (q : NoteQueue) : Prop where
  head_lt : q.head < noteQueueDepth
  count_le : q.count ≤ noteQueueDepth
  tail_eq : q.tail = (q.head + q.count) % noteQueueDepth

variable {q : NoteQueue} {p : Note → Bool}

theorem length_entries (q : NoteQueue) : q.entries.length = q.count := RingBuffer.length_slice ..

/-- A walk stops at the **first** slot with `p`, or passes none. -/
theorem scanFrom_cases (q : NoteQueue) (p : Note → Bool) (idx n : ℕ) (hidx : idx < noteQueueDepth) :
    (q.scanFrom p idx n = none ∧ ∀ i < n, ¬p (q.ring ((idx + i) % noteQueueDepth))) ∨
      ∃ i < n, q.scanFrom p idx n = some ((idx + i) % noteQueueDepth) ∧
      p (q.ring ((idx + i) % noteQueueDepth)) ∧
      ∀ j < i, ¬p (q.ring ((idx + j) % noteQueueDepth)) := by
  induction n generalizing idx with
  | zero => exact .inl ⟨rfl, nofun⟩
  | succ n ih =>
    have hshift (i) : ((idx + 1) % noteQueueDepth + i) % noteQueueDepth =
        (idx + (i + 1)) % noteQueueDepth := by
      rw [Nat.mod_add_mod, Nat.add_assoc, Nat.add_comm 1]
    have hfirst : (idx + 0) % noteQueueDepth = idx := Nat.mod_eq_of_lt hidx
    rw [scanFrom]
    split_ifs with hp
    · exact .inr ⟨0, n.succ_pos, by rw [hfirst], by rwa [hfirst], nofun⟩
    · rcases ih _ (Nat.mod_lt _ (by decide)) with ⟨hnone, hall⟩ | ⟨i, hi, hsome, hpi, hall⟩
      · refine .inl ⟨hnone, fun i hi => ?_⟩
        cases i with
        | zero => rwa [hfirst]
        | succ i => exact hshift i ▸ hall i (Nat.lt_of_succ_lt_succ hi)
      · refine .inr ⟨i + 1, Nat.succ_lt_succ hi, hshift i ▸ hsome, hshift i ▸ hpi, fun j hj => ?_⟩
        cases j with
        | zero => rwa [hfirst]
        | succ j => exact hshift j ▸ hall j (Nat.lt_of_succ_lt_succ hj)

/-- The slots from `cur` on, `n` of them shifted. -/
theorem shiftDown_apply (ring : ℕ → Note) (cur n j : ℕ) (hcur : cur < 16) (hn : n < 16)
    (hj : j < 16) : shiftDown ring cur n ((cur + j) % 16) =
      if j < n then ring ((cur + j + 1) % 16) else ring ((cur + j) % 16) := by
  induction n generalizing ring cur j with
  | zero => rfl
  | succ n ih =>
    -- counted from the next slot, the slot `cur` itself is the last one
    have hslot : (cur + j) % 16 = ((cur + 1) % 16 + (j + 15) % 16) % 16 := by omega
    change shiftDown (update ring cur (ring ((cur + 1) % 16))) ((cur + 1) % 16) n _ = _
    rw [hslot, ih _ _ _ (by omega) (by omega) (by omega), update_apply, update_apply]
    split_ifs <;> first | rfl | omega | (congr 1; omega)

variable (h : q.Ok)
include h

theorem Ok.popAt (idx : ℕ) : (q.popAt idx).Ok :=
  ⟨h.head_lt, Nat.le_trans (Nat.sub_le ..) h.count_le, rfl⟩

/-- The note at position `i` is taken; **the order stays**. -/
theorem entries_popAt {i : ℕ} (hi : i < q.count) :
    ∃ r, q.entries = slice (fun j => q.ring ((q.head + j) % noteQueueDepth)) i ++
      q.ring ((q.head + i) % noteQueueDepth) :: r ∧
      (q.popAt ((q.head + i) % noteQueueDepth)).entries =
      slice (fun j => q.ring ((q.head + j) % noteQueueDepth)) i ++ r := by
  obtain ⟨hhead, hcount, -⟩ := h
  obtain ⟨k, hk⟩ : ∃ k, q.count = i + (1 + k) := ⟨q.count - i - 1, by omega⟩
  simp only [noteQueueDepth] at hhead hcount ⊢
  refine ⟨_, (congrArg _ hk).trans (RingBuffer.slice_split ..), ?_⟩
  · have hring (j) (hj : j < i + k) : (q.popAt ((q.head + i) % 16)).ring ((q.head + j) % 16) =
        if j < i then q.ring ((q.head + j) % 16) else q.ring ((q.head + j + 1) % 16) := by
      have hslot : (q.head + j) % 16 = ((q.head + i) % 16 + (j + 16 - i) % 16) % 16 := by omega
      rw [popAt]
      simp only [noteQueueDepth]
      rw [update_of_ne (by omega), hslot, shiftDown_apply _ _ _ _ (by omega) (by omega) (by omega)]
      split_ifs <;> first | rfl | omega | (congr 1; omega)
    change slice _ (q.count - 1) = _
    rw [show q.count - 1 = i + k by omega, RingBuffer.slice_add]
    congr 1
    · exact RingBuffer.slice_congr fun j hj => (hring j (by omega)).trans (if_pos hj)
    · refine RingBuffer.slice_congr fun j hj => (hring _ (by omega)).trans ?_
      rw [if_neg (by omega)]
      congr 2
      omega

/-- **The first** note with `p` is taken, or there is none. -/
theorem take_cases (p : Note → Bool) : (q.take p = none ∧ ∀ n ∈ q.entries, ¬p n) ∨
      ∃ l n r q', q.take p = some (n, q') ∧ q'.Ok ∧ q.entries = l ++ n :: r ∧
      (∀ m ∈ l, ¬p m) ∧ p n ∧ q'.entries = l ++ r := by
  rcases q.scanFrom_cases p q.head q.count h.head_lt with ⟨hnone, hall⟩ | ⟨i, hi, hsome, hp, hall⟩
  · refine .inl ⟨by rw [take, scan, hnone]; rfl, fun n hn => ?_⟩
    obtain ⟨i, hi, rfl⟩ := List.mem_map.mp hn
    exact hall i (List.mem_range.mp hi)
  · obtain ⟨r, hentries, hpop⟩ := entries_popAt h hi
    refine .inr ⟨_, _, r, _, by rw [take, scan, hsome]; rfl, h.popAt _, hentries, fun m hm => ?_,
      hp, hpop⟩
    obtain ⟨j, hj, rfl⟩ := List.mem_map.mp hm
    exact hall j (List.mem_range.mp hj)

section

variable (hroom : q.count < noteQueueDepth)
include hroom

theorem Ok.push (n : Note) : (q.push n).Ok where
  head_lt := h.head_lt
  count_le := hroom
  tail_eq := by
    change (q.tail + 1) % noteQueueDepth = _
    rw [h.tail_eq, Nat.mod_add_mod]
    rfl

theorem entries_push (n : Note) : (q.push n).entries = q.entries ++ [n] := by
  have htail := h.tail_eq
  simp only [noteQueueDepth] at hroom htail
  change slice (fun i => update q.ring q.tail n ((q.head + i) % 16)) (q.count + 1) = _
  rw [RingBuffer.slice_add]
  congr 1
  · exact RingBuffer.slice_congr fun i hi => update_of_ne (by omega) ..
  · change [update q.ring q.tail n ((q.head + q.count) % 16)] = _
    rw [← htail, update_self]

theorem Ok.pushFront (n : Note) : (q.pushFront n).Ok where
  head_lt := Nat.mod_lt _ (by decide)
  count_le := hroom
  tail_eq := by
    have htail := h.tail_eq
    simp only [NoteQueue.pushFront, noteQueueDepth] at htail ⊢
    omega

theorem entries_pushFront (n : Note) : (q.pushFront n).entries = n :: q.entries := by
  have hhead := h.head_lt
  simp only [noteQueueDepth] at hhead hroom
  change slice (fun i => update q.ring ((q.head + 15) % 16) n (((q.head + 15) % 16 + i) % 16))
    (q.count + 1) = _
  rw [show q.count + 1 = 0 + (1 + q.count) by omega, RingBuffer.slice_split]
  change _ :: _ = _
  congr 1
  · exact (congrArg _ (by omega)).trans (update_self ..)
  · refine RingBuffer.slice_congr fun i hi => (update_of_ne (by omega) ..).trans ?_
    congr 1
    simp only [noteQueueDepth]
    omega

end

/-- The first note with `p` is rewritten **in its place**. -/
theorem scan_cases (p : Note → Bool) (arg : UInt32) (ts : UInt64) :
    (q.scan p = none ∧ ∀ n ∈ q.entries, ¬p n) ∨
      ∃ idx l n r, q.scan p = some idx ∧ q.entries = l ++ n :: r ∧ p n ∧
      (q.rewrite idx arg ts).entries = l ++ ⟨n.name, arg, n.senderPid, ts⟩ :: r := by
  rcases q.scanFrom_cases p q.head q.count h.head_lt with ⟨hnone, hall⟩ | ⟨i, hi, hsome, hp, -⟩
  · refine .inl ⟨hnone, fun n hn => ?_⟩
    obtain ⟨i, hi, rfl⟩ := List.mem_map.mp hn
    exact hall i (List.mem_range.mp hi)
  · have hcount := h.count_le
    obtain ⟨k, hk⟩ : ∃ k, q.count = i + (1 + k) := ⟨q.count - i - 1, by omega⟩
    simp only [noteQueueDepth] at hcount hsome hp
    refine .inr ⟨_, _, _, _, hsome, (congrArg _ hk).trans (RingBuffer.slice_split ..), hp, ?_⟩
    refine (congrArg _ hk).trans ((RingBuffer.slice_split ..).trans ?_)
    have hne (j) (hj : j < q.count) (hij : j ≠ i) :
        (q.head + j) % noteQueueDepth ≠ (q.head + i) % 16 := by
      simp only [noteQueueDepth]
      omega
    congr 1
    · exact RingBuffer.slice_congr fun j hj => update_of_ne (hne j (by omega) (by omega)) ..
    · congr 1
      · exact update_self ..
      · exact RingBuffer.slice_congr fun j hj => update_of_ne (hne _ (by omega) (by omega)) ..

end NoteQueue

end Thylacine
