import Thylacine.Poll.PollBooks

/-!
# Hooks and References are Balanced

The control of a call knows what the call is going to return (`Ctl`): a positive result was counted
after every snapshot of the pass had settled, and a zero was decided by the clock or by a death.
With the entries and the books that is the invariant of every run, whatever the devices answer and
whatever happens around the call (`Steps.inv`).

## Main results

* `poll_balanced`: hooks and references are balanced on every path of a call.
* `srv_listed_without_reference`: taking the handle of a `KOBJ_SRV` takes no reference, the
  exception that the header of `poll.h` states.
-/

namespace Thylacine

namespace Poll

open Custody PollCall

variable {a : Args} {s s' : PollCall} {act : Act} {i j now : ℕ} {e : Entry} {P : Entry → Prop}
  {p : Settle} {st : SnapState}

/-! ### What the control knows -/

namespace PollCall

/-- Every snapshot of the pass was answered or expired. -/
@[grind =]
def Settled (a : Args) (ent : ℕ → Entry) : Prop :=
  ∀ j < a.nfds, (ent j).snap.remote = true →
    (ent j).snap.state = .answered ∨ (ent j).snap.state = .expired

/-- What is known when the call will **return** `r`. -/
@[grind =]
def Result (a : Args) (s : PollCall) (r : ℤ) : Prop :=
  (0 < r → r = countReady a s.ent ∧ Settled a s.ent) ∧
    (r = 0 → pollExpired a.timeoutMs s.deadline s.now = true ∨ s.sawDeath = true)

/-- The **control** of the call. -/
@[grind =]
def Ctl (a : Args) (s : PollCall) : Pc → Prop
  | .scan i | .polling i | .keep i => ∀ j < i, (s.ent j).snap.remote = true → s.anyRemote = true
  | .settle p i | .expiring p i => ∀ j < i, p.out = false → p.unsent = false → ¬(s.ent j).snap.Out
  | .releasing none _ | .collect => Settled a s.ent
  | .verdict => Settled a s.ent ∧ s.readyCount = countReady a s.ent
  | .releasing (some r) _ | .unlist (.ret r) _ | .putting (.ret r) _ | .clear (.ret r) | .done r =>
    Result a s r
  | _ => True

theorem pollExpired_mono {timeout : ℤ} {dl now' : ℕ} (hnow : now ≤ now')
    (h : pollExpired timeout dl now = true) : pollExpired timeout dl now' = true := by
  unfold pollExpired at h ⊢
  simp only [Bool.or_eq_true, Bool.and_eq_true, decide_eq_true_eq] at h ⊢
  omega

/-- The events are the same, and the slot but for a release or an answer. -/
@[grind =]
def Alike (e e' : Entry) : Prop :=
  e'.revents = e.revents ∧ e'.snap.remote = e.snap.remote ∧
    (e'.snap.state = e.snap.state ∨ e'.snap.state = .answered)

theorem alike_set (h : Alike (s.ent i) e) (j : ℕ) : Alike (s.ent j) ((s.set i e).ent j) := by
  rcases eq_or_ne j i with rfl | hji
  · rwa [ent_set_self]
  · rw [ent_set_of_ne e hji]
    exact ⟨rfl, rfl, .inl rfl⟩

/-- What the control knows **stays** while entries stay alike. -/
theorem Ctl.mono {pc : Pc} (h : Ctl a s pc) (hent : ∀ j, Alike (s.ent j) (s'.ent j))
    (hany : s'.anyRemote = s.anyRemote) (hcount : s'.readyCount = s.readyCount)
    (hdl : s'.deadline = s.deadline) (hnow : s.now ≤ s'.now)
    (hdeath : s.sawDeath = true → s'.sawDeath = true) : Ctl a s' pc := by
  have hready : countReady a s'.ent = countReady a s.ent := by
    simp only [countReady, fun j => (hent j).1]
  have hset (hs : Settled a s.ent) : Settled a s'.ent := by grind
  have hexp (hs : pollExpired a.timeoutMs s.deadline s.now = true) :
      pollExpired a.timeoutMs s'.deadline s'.now = true := hdl ▸ pollExpired_mono hnow hs
  have hres {r : ℤ} (hr : Result a s r) : Result a s' r := by grind
  cases pc with
  | releasing sweep i =>
    cases sweep with
    | none => exact hset h
    | some r => exact hres h
  | unlist l i | putting l i | clear l => cases l <;> grind
  | _ => grind

/-- A write to entry `i` does not show before it. -/
theorem front_set (h : ∀ j < i, P (s.ent j)) (e : Entry) : ∀ j < i, P ((s.set i e).ent j) := by
  intro j hj
  rw [ent_set_of_ne e hj.ne]
  exact h j hj

/-- Entry `i` joins the entries before it. -/
theorem front_succ (h : ∀ j < i, P (s.ent j)) (he : P e) : ∀ j < i + 1, P ((s.set i e).ent j) := by
  intro j hj
  rcases Nat.lt_succ_iff_lt_or_eq.mp hj with hj | rfl
  · exact front_set h e j hj
  · rwa [ent_set_self]

end PollCall

theorem Settle.see_out (h : (p.see st).out = false) : p.out = false ∧ st ≠ .sent := by
  simpa [see] using h

theorem Settle.see_unsent (h : (p.see st).unsent = false) : p.unsent = false ∧ st ≠ .unsent := by
  simpa [see] using h

/-- A **step** keeps what the control knows. -/
theorem Step.ctl (hstep : Step a s act s') (h : Ctl a s s.pc) (he : Entries a s) (hb : Books a s) :
    Ctl a s' s'.pc := by
  have hhand := hb.hand
  have hnote : Result a s (-tEIntr) :=
    ⟨fun hr => absurd hr (by decide), fun hr => absurd hr (by decide)⟩
  cases hstep
  case outlived hpc hi hop => grind
  case invalid hpc hi hop =>
    rw [hpc] at h
    exact front_succ (P := fun e => e.snap.remote = true → s.anyRemote = true) h (by grind)
  -- the entries before the one that the scan is at
  case get hpc _ _ _ _ | malformed hpc _ _ | snapshot hpc _ _ | sample hpc _ _ | regular hpc _ _ |
      noReadiness hpc _ _ =>
    rw [hpc] at h
    exact front_set (P := fun e => e.snap.remote = true → s.anyRemote = true) h _
  case hook i r ev hpc hcur hkind hhook =>
    have hent := he i (by grind)
    have hnone : (s.ent i).list = none := by grind
    rw [register_of_unlisted (by rw [ent_set_self]; exact hnone), set_set]
    rw [hpc] at h
    exact front_set (P := fun e => e.snap.remote = true → s.anyRemote = true) h _
  case keep i r hpc hcur =>
    have hsnap (j : ℕ) : ((s.keepOrPut i r).ent j).snap = (s.ent j).snap := by
      unfold keepOrPut
      split
      · rcases eq_or_ne j i with rfl | hji
        · rw [ent_set_self]
        · rw [ent_set_of_ne _ hji]
      · rfl
    grind
  case settleSkip p i hpc hi hout =>
    rw [hpc] at h
    intro j hj ho hu
    rcases Nat.lt_succ_iff_lt_or_eq.mp hj with hj | rfl
    · exact h j hj ho hu
    · exact hout
  case settleLate p i hpc hi hout hlate =>
    have hent := he i hi
    rw [release_eq (by grind)]
    rw [hpc] at h
    exact front_set (P := fun e => p.out = false → p.unsent = false → ¬e.snap.Out) h _
  case settleExpire p i hpc =>
    rw [hpc] at h
    exact front_succ (P := fun e => p.out = false → p.unsent = false → ¬e.snap.Out) h (by grind)
  case settleResend p i x hx hpc hi hunsent hnow hresend =>
    have hent := he i hi
    obtain ⟨r, hr⟩ : ∃ r, (s.ent i).held = some r := by grind
    rw [withHeld_of_some hr]
    rw [hpc] at h
    refine front_succ (P := fun e => _ → _ → ¬e.snap.Out) (fun j hj ho hu => ?_) fun ho hu => ?_
    · exact h j hj (Settle.see_out ho).1 (Settle.see_unsent hu).1
    · exact not_or.mpr ⟨(Settle.see_out ho).2, (Settle.see_unsent hu).2⟩
  case settleWait p i hpc hi hout hnow hresend =>
    rw [hpc] at h
    intro j hj ho hu
    rcases Nat.lt_succ_iff_lt_or_eq.mp hj with hj | rfl
    · exact h j hj (Settle.see_out ho).1 (Settle.see_unsent hu).1
    · exact not_or.mpr ⟨(Settle.see_out ho).2, (Settle.see_unsent hu).2⟩
  case settled p hpc =>
    -- a remote slot that is not out is answered or has expired
    have hdone (hout : p.out = false) (hun : p.unsent = false) : Settled a s.ent := by
      intro j hj hr
      have hent := he j hj
      have hnot : ¬(s.ent j).snap.Out := by grind
      have hnone : (s.ent j).snap.state ≠ .none := by grind
      revert hnot hnone
      unfold Snap.Out
      cases (s.ent j).snap.state <;> simp
    grind
  case release sweep i hpc hi =>
    have hent := he i hi
    have hhook : (s.ent i).Hooked := by cases sweep <;> grind
    rw [release_eq hhook]
    have hc : Ctl a s (.releasing sweep (i + 1)) := by cases sweep <;> grind
    exact hc.mono (alike_set (by grind)) rfl rfl rfl le_rfl id
  case collect hpc => exact ⟨by grind, rfl⟩
  case verdict hpc =>
    unfold PollCall.decide
    grind
  case unlist l i hpc hi =>
    have hc : Ctl a s (.unlist l (i + 1)) := by cases l <;> grind
    exact hc.mono (alike_set (by grind)) rfl rfl rfl le_rfl id
  case put l i hpc hi =>
    have hc : Ctl a s (.putting l (i + 1)) := by cases l <;> grind
    unfold handlePut
    split
    · exact hc.mono (fun _ => ⟨rfl, rfl, .inl rfl⟩) rfl rfl rfl le_rfl id
    · exact hc.mono (alike_set (by grind)) rfl rfl rfl le_rfl id
  case unlisted l hpc | allPut l hpc => cases l <;> grind
  case clear l hpc =>
    cases l with
    | again => trivial
    | ret r =>
      have hc : Ctl a s (.done r) := by grind
      exact hc.mono (fun j => by grind) rfl rfl rfl le_rfl id
  case answer i ev hi hop hsent => exact h.mono (alike_set (by grind)) rfl rfl rfl le_rfl id
  case wake l hl => exact h.mono (fun j => by grind) rfl rfl rfl le_rfl id
  case tick now hnow => exact h.mono (fun _ => ⟨rfl, rfl, .inl rfl⟩) rfl rfl rfl hnow id
  case signals => exact h.mono (fun _ => ⟨rfl, rfl, .inl rfl⟩) rfl rfl rfl le_rfl id
  all_goals grind

/-! ### Runs -/

namespace PollCall

/-- The **invariant** of a call. -/
structure Inv (a : Args) (s : PollCall) : Prop where
  entries : Entries a s
  books : Books a s
  ctl : Ctl a s s.pc

theorem inv_sysPoll (a : Args) (now : ℕ) : Inv a (sysPoll a now) := by
  have hslot : (sysPoll a now).slot = fun _ => none := by
    funext p
    cases p <;> rfl
  have hfresh (j : ℕ) : ((sysPoll a now).ent j).Fresh := ⟨rfl, rfl, rfl⟩
  refine ⟨fun j _ => ?_, ⟨rfl, ?_, fun _ _ => rfl, ?_⟩, ?_⟩
  · unfold sysPoll
    split <;> exact hfresh j
  · rw [hslot]
    exact balanced_empty _
  · unfold sysPoll
    split <;> rfl
  · unfold sysPoll
    split
    · exact ⟨fun h => absurd h (by decide), fun h => absurd h (by decide)⟩
    · trivial

end PollCall

theorem Step.inv (hstep : Step a s act s') (h : Inv a s) : Inv a s' := by
  have hlt (i : ℕ) (hpc : s.pc = .polling i ∨ s.pc = .keep i) : i < a.nfds := by
    have := h.books.hand
    grind
  exact ⟨hstep.entries h.entries hlt, hstep.books h.books h.entries,
    hstep.ctl h.ctl h.entries h.books⟩

/-- A **run** keeps the invariant. -/
theorem Steps.inv (hrun : Steps a (sysPoll a now) s) : Inv a s := by
  induction hrun with
  | refl => exact inv_sysPoll a now
  | tail _ hstep ih =>
    obtain ⟨act, hstep⟩ := hstep
    exact hstep.inv ih

/-- **Hooks and references are balanced** on every path of a call. The call never runs into an
`extinction`. While a waiter is on an object's list the call holds the object's handle, and with it
a reference unless the object is a `KOBJ_SRV`; while a snapshot has a request, the call holds in
`held`, or at the retain decision, a reference to the Spoor it was sent to. No reference is put
twice. When the call returns, every reference it took has been put, no waiter is listed and no
request in flight; a positive result is the number of entries with an event, after every snapshot of
the last pass was answered or had expired; and a zero is returned only past the deadline or on a
death. -/
theorem poll_balanced {now : ℕ} (hrun : Steps a (sysPoll a now) s) :
    s.extinct = false ∧
    (∀ i < a.nfds, ∀ o, (s.ent i).list = some o → ∃ r, (∃ p, s.slot p = some r) ∧ r.obj = o ∧
      (r.kind = .srv ∨ (r ∈ s.taken ∧ r ∉ s.puts))) ∧
    (∀ i < a.nfds, (s.ent i).snap.op = true → ∃ r,
      ((s.ent i).held = some r ∨ s.pc = .keep i ∧ s.cur = some r) ∧
      r.kind = .spoor ∧ (s.ent i).asked = some r.obj ∧ r ∈ s.taken ∧ r ∉ s.puts) ∧
    (s.puts.Nodup ∧ ∀ r ∈ s.puts, r ∈ s.taken) ∧
    ∀ n, s.pc = .done n →
      (∀ r ∈ s.taken, r ∈ s.puts) ∧
      (∀ i < a.nfds, (s.ent i).list = none ∧ (s.ent i).snap.op = false) ∧
      (0 < n → n = countReady a s.ent ∧ Settled a s.ent) ∧
      (n = 0 → pollExpired a.timeoutMs s.deadline s.now = true ∨ s.sawDeath = true) := by
  have h := hrun.inv
  have hbal := h.books.balanced
  have hslot {i : ℕ} {r : Ref} (hr : (s.ent i).held = some r ∨ s.cur = some r) :
      ∃ p, s.slot p = some r := by
    rcases hr with hr | hr
    · exact ⟨some i, hr⟩
    · exact ⟨none, hr⟩
  refine ⟨h.books.alive, fun i hi o ho => ?_, fun i hi hop => ?_, ⟨hbal.nodup, hbal.sub⟩,
    fun n hn => ?_⟩
  · obtain ⟨r, hr, hobj, hcount⟩ := (h.entries i hi).listed ho
    obtain ⟨p, hp⟩ := hslot hr
    exact ⟨r, ⟨p, hp⟩, hobj, hcount.imp_right (hbal.kept p r hp)⟩
  · obtain ⟨r, hr, hkind, hasked⟩ := (h.entries i hi).request hop
    obtain ⟨p, hp⟩ := hslot (hr.imp_right And.right)
    exact ⟨r, hr, hkind, hasked, hbal.kept p r hp (Ref.counted_of_spoor hkind)⟩
  · have hfresh (i : ℕ) (hi : i < a.nfds) : (s.ent i).Fresh := by grind [h.entries i hi]
    have hempty (p : Option ℕ) : s.slot p = none := by
      cases p with
      | none => grind [h.books.hand, slot]
      | some i =>
        rcases lt_or_ge i a.nfds with hi | hi
        · exact (hfresh i hi).2.1
        · exact h.books.beyond i hi
    have hres : Result a s n := by grind [h.ctl]
    exact ⟨hbal.put_of_empty hempty, fun i hi => ⟨(hfresh i hi).1, (hfresh i hi).2.2⟩, hres.1,
      hres.2⟩

/-! ### A listener -/

/-- A poll of one descriptor, with no timeout. -/
def pollOne : Args := { nfds := 1, fd := fun _ => 3, events := fun _ => 1, timeoutMs := -1 }

/-- The scan takes a handle of object `7`, which hooks the waiter. -/
theorem pollOne_hooked {k : Kind} (hk : ∀ c, k ≠ .other c) :
    ∃ s, Steps pollOne (sysPoll pollOne 0) s ∧ (s.ent 0).list = some 7 ∧
      s.taken = book Ref.counted ⟨0, k, 7⟩ [] := by
  have h₁ := Step.pass (a := pollOne) (s := sysPoll pollOne 0) rfl
  have h₂ := Step.get ⟨0, k, 7⟩ (a := pollOne) (s := { sysPoll pollOne 0 with pc := .scan 0 })
    rfl (by decide) rfl (by decide)
    ⟨List.not_mem_nil, fun p => by cases p <;> exact (Option.some_ne_none _).symm⟩
  refine ⟨_, .tail (.tail (.tail .refl ⟨_, h₁⟩) ⟨_, h₂⟩) ⟨_, .hook 0 rfl rfl hk rfl⟩, rfl, rfl⟩

/-- A reference is held for the waiter of a Loom. -/
theorem poll_balanced_loom : ∃ s, Steps pollOne (sysPoll pollOne 0) s ∧
    (s.ent 0).list = some 7 ∧ ∃ r, (∃ p, s.slot p = some r) ∧ r.obj = 7 ∧
      (r.kind = .srv ∨ (r ∈ s.taken ∧ r ∉ s.puts)) := by
  obtain ⟨s, hrun, hlist, -⟩ := pollOne_hooked (k := .loom) nofun
  exact ⟨s, hrun, hlist, (poll_balanced hrun).2.1 0 (by decide) 7 hlist⟩

/-- The waiter is on the list of a **listener**, and the call has taken no reference at all. -/
theorem srv_listed_without_reference : ∃ s, Steps pollOne (sysPoll pollOne 0) s ∧
    (s.ent 0).list = some 7 ∧ s.taken = [] := by
  obtain ⟨s, hrun, hlist, htaken⟩ := pollOne_hooked (k := .srv) nofun
  exact ⟨s, hrun, hlist, htaken⟩

end Poll

end Thylacine
