import Mathlib.Data.List.Induction

/-!
# Runs of a Machine

A machine with a step function runs a list of calls by `List.foldl`.

## Main results

* `foldl_invariant`: a property that every allowed step keeps holds after every run of them.
* `exists_step_of_not`: a property that a run loses is lost at one of its steps.
* `forall_prefix_iff`: if the allowed steps are exactly those that keep a property, it holds
  throughout a run iff the run is allowed.
-/

namespace Runs

variable {S O : Type*} {step : S → O → S} {I : S → Prop} {s : S} {ops : List O}

/-- An **invariant** of the steps with `ok` is one of their runs. -/
theorem foldl_invariant (ok : S → O → Prop) (hstep : ∀ s o, I s → ok s o → I (step s o))
    (hs : I s) (hok : ∀ pre o post, ops = pre ++ o :: post → ok (pre.foldl step s) o) :
    I (ops.foldl step s) := by
  induction ops using List.reverseRecOn with
  | nil => exact hs
  | append_singleton ops o ih =>
    rw [List.foldl_append]
    refine hstep _ o (ih fun pre o' post h => hok pre o' (post ++ [o]) ?_) (hok ops o [] rfl)
    rw [h, List.append_assoc, List.cons_append]

/-- A property **lost** in a run is lost at a step. -/
theorem exists_step_of_not (hs : I s) (hend : ¬I (ops.foldl step s)) :
    ∃ pre o post, ops = pre ++ o :: post ∧ I (pre.foldl step s) ∧
      ¬I (step (pre.foldl step s) o) := by
  by_contra hnone
  push Not at hnone
  refine hend (foldl_invariant (fun s o => I s → I (step s o))
    (fun _ _ hI hok => hok hI) hs fun pre o post h hI => ?_)
  exact hnone pre o post h hI

/-- If the allowed steps are those that **keep** `P`, a run keeps `P` iff all its steps are allowed;
`J` is an invariant. -/
theorem forall_prefix_iff (ok : S → O → Prop) {J P : S → Prop}
    (hJ : ∀ s o, J s → J (step s o)) (hP : ∀ s o, J s → P s → (P (step s o) ↔ ok s o))
    (hJs : J s) (hPs : P s) :
    (∀ pre, pre <+: ops → P (pre.foldl step s)) ↔
      ∀ pre o, pre ++ [o] <+: ops → ok (pre.foldl step s) o := by
  have hJrun (pre : List O) : J (pre.foldl step s) :=
    foldl_invariant (fun _ _ => True) (fun s o h _ => hJ s o h) hJs fun _ _ _ _ => trivial
  constructor
  · intro h pre o hpre
    have hstep := h _ hpre
    rw [List.foldl_append] at hstep
    exact (hP _ o (hJrun pre) (h pre ((List.prefix_append pre [o]).trans hpre))).mp hstep
  · rintro h pre ⟨rest, rfl⟩
    refine (foldl_invariant (I := fun s => J s ∧ P s) ok
      (fun s o hs hok => ⟨hJ s o hs.1, (hP s o hs.1 hs.2).mpr hok⟩) ⟨hJs, hPs⟩ ?_).2
    rintro pre' o post rfl
    exact h pre' o ⟨post ++ rest, by simp⟩

end Runs
