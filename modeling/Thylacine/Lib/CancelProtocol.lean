import Mathlib.Data.Option.Basic
import Thylacine.Lib.Runs

/-!
# A Protocol with Cancellation

A table of numbered slots. A request takes a free slot; a second message, which takes a slot
of its own, asks for it to be cancelled. The slot of a cancelled request may not be used again
before the cancellation is acknowledged, since an answer to the request may still arrive.

`Step` is the protocol. `Back` says that a cancellation names a request that waits for it, `Paired`
that also the converse holds.

## Main results

* `Step.back`, `Step.paired`: a step keeps `Back`, and `Paired` unless a cancellation is lost.
* `freed_of_cancelled`: the ways in which the runs of an `Implementation`, a machine whose calls
  follow the protocol, free the slot of a cancelled request.
-/

namespace CancelProtocol

/-- A slot: free; a request, with the slot of its cancellation; or a cancellation, with its
victim's. -/
inductive Slot (T : Type*)
  | free
  | request (cancelledBy : Option T)
  | cancel (victim : T)
  deriving DecidableEq

/-- A cancellation `f` of `v` is **acknowledged**, which frees both, **unstaged**, as if never sent,
or **lost**: its victim keeps waiting. -/
inductive Event (T : Type*)
  | send (t : T)
  | cancel (v f : T)
  | finish (t : T)
  | acknowledge (f : T)
  | lose (f : T)
  | unstage (v f : T)
  | stutter

variable {T : Type*} [DecidableEq T]

open Function (update)

/-- The **protocol**. -/
inductive Step (a : T → Slot T) : Event T → (T → Slot T) → Prop
  | send {t : T} (ht : a t = .free) : Step a (.send t) (update a t (.request none))
  | cancel {v f : T} (hv : a v = .request none) (hf : a f = .free) :
      Step a (.cancel v f) (update (update a f (.cancel v)) v (.request (some f)))
  | finish {t : T} (ht : a t = .request none) : Step a (.finish t) (update a t .free)
  | acknowledge {v f : T} (hf : a f = .cancel v) :
      Step a (.acknowledge f) (update (update a v .free) f .free)
  | lose {v f : T} (hf : a f = .cancel v) : Step a (.lose f) (update a f .free)
  | unstage {v f : T} (hv : a v = .request (some f)) (hf : a f = .cancel v) :
      Step a (.unstage v f) (update (update a f .free) v (.request none))
  | stutter : Step a .stutter a

/-- The victim of every cancellation waits for it. -/
def Back (a : T → Slot T) : Prop := ∀ f v, a f = .cancel v → a v = .request (some f)

/-- Cancellations and waiting requests are **in bijection**. -/
def Paired (a : T → Slot T) : Prop := Back a ∧ ∀ v f, a v = .request (some f) → a f = .cancel v

variable {a b : T → Slot T} {ev : Event T}

theorem Step.back (h : Step a ev b) (hback : Back a) : Back b := by
  intro f v hf
  cases h <;> grind [Back]

theorem Step.paired (h : Step a ev b) (hlose : ∀ f, ev ≠ .lose f) (hpair : Paired a) :
    Paired b := by
  refine ⟨h.back hpair.1, fun v f hv => ?_⟩
  obtain ⟨hback, hfwd⟩ := hpair
  cases h <;> grind [Back]

/-- A **cancelled** request waits for the acknowledgement, or is unstaged. -/
theorem Step.of_cancelled (h : Step a ev b) (hback : Back a) {v f : T}
    (hv : a v = .request (some f)) :
    b v = .request (some f) ∨ (ev = .acknowledge f ∧ a f = .cancel v) ∨
      (ev = .unstage v f ∧ b v = .request none) := by
  cases h <;> grind [Back]

/-- A request is **freed** when it ends or its cancel is acknowledged. -/
theorem Step.of_request (h : Step a ev b) {v : T} {c : Option T} (hv : a v = .request c) :
    (∃ c', b v = .request c') ∨ (ev = .finish v ∧ c = none) ∨
      ∃ f, ev = .acknowledge f ∧ a f = .cancel v := by
  cases h <;> grind

/-! ### Machines that follow the protocol -/

/-- A machine whose calls are protocol steps; `label` gives a call's events. -/
structure Implementation (S O T : Type*) [DecidableEq T] where
  step : S → O → S
  table : S → T → Slot T
  label : S → O → Event T → Prop
  inv : S → Prop
  step_inv : ∀ s o, inv s → inv (step s o)
  back_of_inv : ∀ s, inv s → Back (table s)
  simulates : ∀ s o, inv s → ∃ ev, label s o ev ∧ Step (table s) ev (table (step s o))

namespace Implementation

variable {S O : Type*} (m : Implementation S O T)

/-- The machine after a list of calls. -/
def run (s : S) (ops : List O) : S := ops.foldl m.step s

theorem inv_run {s : S} (hs : m.inv s) (ops : List O) : m.inv (m.run s ops) :=
  Runs.foldl_invariant (fun _ _ => True) (fun s o h _ => m.step_inv s o h) hs fun _ _ _ _ => trivial

/-- The call that **freed** the slot `v` of a request. -/
def Frees (s : S) (o : O) (v : T) : Prop :=
  (m.label s o (.finish v) ∧ m.table s v = .request none) ∨
    ∃ f, m.label s o (.acknowledge f) ∧ m.table s f = .cancel v

/-- A request cancelled by `f` is freed only if `f` was **acknowledged**, or **unstaged** and a
later call freed it. -/
theorem freed_of_cancelled {s : S} (hs : m.inv s) {v f : T}
    (hv : m.table s v = .request (some f)) {ops : List O}
    (hfree : m.table (m.run s ops) v = .free) :
    (∃ pre o post, ops = pre ++ o :: post ∧ m.label (m.run s pre) o (.acknowledge f) ∧
      m.table (m.run s pre) f = .cancel v) ∨
      ∃ pre o mid o' post, ops = pre ++ o :: (mid ++ o' :: post) ∧
      m.label (m.run s pre) o (.unstage v f) ∧
      m.Frees (m.run s (pre ++ o :: mid)) o' v := by
  obtain ⟨pre, o, post, rfl, hpre, hlost⟩ := Runs.exists_step_of_not
    (I := fun s => m.table s v = .request (some f)) hv (by
      intro h
      rw [run, h] at hfree
      cases hfree)
  obtain ⟨ev, hlabel, hstep⟩ := m.simulates (m.run s pre) o (m.inv_run hs pre)
  rcases hstep.of_cancelled (m.back_of_inv _ (m.inv_run hs pre)) hpre with
    h | ⟨rfl, hf⟩ | ⟨rfl, hnone⟩
  · exact absurd h hlost
  · exact .inl ⟨pre, o, post, rfl, hlabel, hf⟩
  · right
    have hinv := m.step_inv _ o (m.inv_run hs pre)
    have hrun : ∀ l, m.run s (pre ++ o :: l) = m.run (m.step (m.run s pre) o) l := by
      intro l
      rw [run, run, run, List.foldl_append, List.foldl_cons]
    rw [hrun] at hfree
    obtain ⟨mid, o', post', rfl, ⟨c, hmid⟩, hgone⟩ := Runs.exists_step_of_not
      (I := fun s => ∃ c, m.table s v = .request c) ⟨none, hnone⟩ (by
        rintro ⟨c, h⟩
        rw [run, h] at hfree
        cases hfree)
    refine ⟨pre, o, mid, o', post', rfl, hlabel, ?_⟩
    rw [hrun]
    obtain ⟨ev', hlabel', hstep'⟩ := m.simulates _ o' (m.inv_run hinv mid)
    rcases hstep'.of_request hmid with h | ⟨rfl, rfl⟩ | ⟨g, rfl, hg⟩
    · exact absurd h hgone
    · exact .inl ⟨hlabel', hmid⟩
    · exact .inr ⟨g, hlabel', hg⟩

end Implementation

end CancelProtocol
