import Thylacine.Poll.Poll

/-!
# The Books of a Call of Poll

The invariant of a call has three parts. The **books** balance: a reference taken is in one slot,
or has been put once. Each **entry** of the arrays is as the program counter says (`Entry.At`):
fresh before its scan, with its reference in `held` while its waiter is listed or its snapshot has
a request, and fresh again once the hooks are off. The third part, the **control**, follows in
the next module.
-/

namespace Thylacine

open Function (update_apply update_eq_self)

namespace Poll

open Custody

variable {a : Args} {s s' : PollCall} {act : Act} {i j : ℕ}

attribute [grind =] Snap.Out Entry.opened Entry.released Entry.failsafe Entry.answered
  Entry.collected PollCall.goto PollCall.handleGet PollCall.die

@[grind =]
theorem Snap.ok_iff {x : Snap} : x.Ok ↔ (x.op = true → x.remote = true) ∧
    (x.Out → x.remote = true) ∧ (x.remote = true → x.state ≠ .none) :=
  ⟨fun h => ⟨h.1, h.2, h.3⟩, fun h => ⟨h.1, h.2.1, h.2.2⟩⟩

/-! ### Entries -/

/-- A handle of object `o`, which has a list; it counts unless a `KOBJ_SRV`. -/
@[grind =]
def Ref.Of (r : Ref) (o : ℕ) : Prop := r.obj = o ∧ (r.kind = .srv ∨ r.counted = true)

theorem Ref.of_obj {r : Ref} (h : ∀ c, r.kind ≠ .other c) : r.Of r.obj := by
  refine ⟨rfl, ?_⟩
  unfold Ref.counted
  cases hk : r.kind with
  | other c => exact absurd hk (h c)
  | _ => simp

@[grind →]
theorem Ref.counted_of_spoor {r : Ref} (h : r.kind = .spoor) : r.counted = true := by
  unfold Ref.counted
  rw [h]

/-- A handle of the Spoor that a snapshot was sent to. -/
@[grind =]
def Ref.Asked (r : Ref) (asked : Option ℕ) : Prop := r.kind = .spoor ∧ asked = some r.obj

namespace Entry

/-- Nothing is listed, held or in flight. -/
@[grind =]
def Fresh (e : Entry) : Prop := e.list = none ∧ e.held = none ∧ e.snap.op = false

/-- What is listed or in flight is **held**. -/
@[grind =]
def Hooked (e : Entry) : Prop :=
  (∀ o, e.list = some o → ∃ r, e.held = some r ∧ r.Of o) ∧
    (e.snap.op = true → ∃ r, e.held = some r ∧ r.Asked e.asked)

/-- A scanned remote descriptor is held, without a hook yet. -/
@[grind =]
def Scanned (e : Entry) : Prop :=
  e.Hooked ∧ e.snap.Ok ∧
    (e.snap.remote = true → e.list = none ∧ ∃ r, e.held = some r ∧ r.Asked e.asked)

/-- The entry at the retain decision, with the scan's `cur`. -/
@[grind =]
def Fetched (cur : Option Ref) (expired : Bool) (e : Entry) : Prop :=
  e.held = none ∧ e.snap.Ok ∧
    (∀ o, e.list = some o → expired = false ∧ ∃ r, cur = some r ∧ r.Of o) ∧
    (e.snap.remote = true → e.list = none ∧ ∃ r, cur = some r ∧ r.Asked e.asked)

/-- Descriptor `j`'s entry, by the **program counter**. -/
@[grind =]
def At (cur : Option Ref) (expired : Bool) (j : ℕ) (e : Entry) : Pc → Prop
  | .pass | .clear _ | .between | .done _ => e.Fresh
  | .scan i => (j < i → e.Scanned) ∧ (i ≤ j → e.Fresh)
  | .polling i => (j < i → e.Scanned) ∧ (i ≤ j → e.Fresh) ∧ (j = i → e.snap = {})
  | .keep i => (j < i → e.Scanned) ∧ (j = i → e.Fetched cur expired) ∧ (i < j → e.Fresh)
  | .settleTop | .settle _ _ | .settleSleep => e.Scanned
  | .expiring _ i => e.Scanned ∧ (j = i → e.snap.op = false)
  | .releasing none i => e.Scanned ∧ (j < i → e.snap.op = false)
  | .releasing (some _) i => e.Hooked ∧ (j < i → e.snap.op = false)
  | .collect | .verdict => e.Scanned ∧ e.snap.op = false
  | .arm i => e.Hooked ∧ (i ≤ j → e.Scanned) ∧ e.snap.op = false
  | .park | .asleep => e.Hooked ∧ e.snap.op = false
  | .unlist _ i => e.Hooked ∧ e.snap.op = false ∧ (j < i → e.list = none)
  | .putting _ i => e.list = none ∧ e.snap.op = false ∧ (j < i → e.held = none)

variable {cur : Option Ref} {x : Bool} {e : Entry} {pc : Pc}

/-- An entry **from outside**: a flag, or an answer. -/
theorem At.congr {e' : Entry} (h : e.At cur x j pc)
    (hlist : e'.list = e.list) (hheld : e'.held = e.held) (hasked : e'.asked = e.asked)
    (hop : e'.snap.op = e.snap.op)
    (hremote : e'.snap.remote = e.snap.remote) (hok : e.snap.Ok → e'.snap.Ok)
    (hnew : e.snap = {} → e'.snap = {}) : e'.At cur x j pc := by
  cases pc with
  | releasing sweep i => cases sweep <;> grind
  | keep i =>
    simp only [At, Scanned, Hooked, Fetched, Fresh, hlist, hheld, hasked, hop, hremote] at h ⊢
    grind
  | _ => grind

/-- What is listed is **held**, in the array or by the scan. -/
theorem At.listed {o : ℕ} (h : e.At cur x j pc)
    (ho : e.list = some o) : ∃ r, (e.held = some r ∨ cur = some r) ∧ r.Of o := by
  cases pc with
  | releasing sweep i => cases sweep <;> grind
  | _ => grind

/-- A snapshot's **request** goes to a Spoor that is held. -/
theorem At.request (h : e.At cur x j pc) (hop : e.snap.op = true) :
    ∃ r, (e.held = some r ∨ pc = .keep j ∧ cur = some r) ∧ r.Asked e.asked := by
  cases pc with
  | releasing sweep i => cases sweep <;> grind
  | _ => grind

end Entry

namespace PollCall

/-- The entries are as the program counter says. -/
def Entries (a : Args) (s : PollCall) : Prop := ∀ j < a.nfds, (s.ent j).At s.cur s.expired j s.pc

theorem ent_set_self (e : Entry) : (s.set i e).ent i = e := Function.update_self ..

theorem ent_set_of_ne (e : Entry) (hji : j ≠ i) : (s.set i e).ent j = s.ent j :=
  Function.update_of_ne hji ..

theorem set_set (e e' : Entry) : (s.set i e).set i e' = s.set i e' := by
  simp only [set, Function.update_idem]

@[grind =]
theorem cur_set (e : Entry) : (s.set i e).cur = s.cur := rfl

@[grind =]
theorem expired_set (e : Entry) : (s.set i e).expired = s.expired := rfl

/-- A step that **moves** the call, not the arrays. -/
theorem Entries.move (h : Entries a s) {pc : Pc} (hpc : s.pc = pc) (hent : s'.ent = s.ent)
    (hmove : ∀ (e : Entry), ∀ j < a.nfds, e.At s.cur s.expired j pc →
      e.At s'.cur s'.expired j s'.pc) : Entries a s' := by
  intro j hj
  rw [hent]
  exact hmove _ j hj (hpc ▸ h j hj)

/-- A step that **writes** to entry `i`. -/
theorem Entries.write (h : Entries a s) {pc : Pc} (hpc : s.pc = pc) {x : Entry}
    (hent : s'.ent = (s.set i x).ent)
    (hself : i < a.nfds → (s.ent i).At s.cur s.expired i pc → x.At s'.cur s'.expired i s'.pc)
    (hne : ∀ (e : Entry) (j : ℕ), j ≠ i → e.At s.cur s.expired j pc →
      e.At s'.cur s'.expired j s'.pc) : Entries a s' := by
  subst hpc
  intro j hj
  rw [hent]
  rcases eq_or_ne j i with rfl | hji
  · rw [ent_set_self]
    exact hself hj (h j hj)
  · rw [ent_set_of_ne x hji]
    exact hne _ j hji (h j hj)

/-- The release of a slot whose reference is held. -/
theorem release_eq (h : (s.ent i).Hooked) : s.release i = s.set i (s.ent i).released := by
  unfold release
  split
  · next hop =>
      obtain ⟨r, hr, -⟩ := h.2 hop
      unfold withHeld
      rw [hr]
  · next hop =>
      have hself : (s.ent i).released = s.ent i := by
        unfold Entry.released
        rw [← Bool.eq_false_iff.mpr hop]
      rw [hself, set, update_eq_self]

theorem withHeld_of_some {f : Ref → PollCall → PollCall} {r : Ref} (h : (s.ent i).held = some r) :
    s.withHeld i f = f r s := by
  unfold withHeld
  rw [h]

theorem register_of_unlisted {o : ℕ} (h : (s.ent i).list = none) :
    s.register i o = s.set i { s.ent i with list := some o } := if_pos h

end PollCall

open PollCall

/-- A **step** keeps the entries. -/
theorem Step.entries (hstep : Step a s act s') (h : Entries a s)
    (hlt : ∀ i, s.pc = .polling i ∨ s.pc = .keep i → i < a.nfds) : Entries a s' := by
  cases hstep with
  -- the arrays stay
  | pass hpc | scanned hpc | settleTop hpc | settleSkip hpc _ _ | settleWait hpc _ _ _ _
  | settled hpc | settleWakes hpc | settleDeath hpc _ | released hpc | armSkip hpc _ _ | armed hpc
  | blocks hpc _ | sweep hpc | unlisted hpc | allPut hpc | goesRound hpc _ | dies hpc _ =>
    exact h.move hpc rfl (by grind -linarith)
  | awoken hpc _ | timedOut hpc _ | interrupted hpc _ | noteIntr hpc _ _ =>
    rcases hpc with hpc | hpc <;> exact h.move hpc rfl (by grind -linarith)
  -- one entry is written to
  | invalid hpc _ _ | get _ hpc _ _ _ _ | malformed hpc _ _ | snapshot _ _ hpc _ _
  | sample _ hpc _ _ | regular hpc _ _ | noReadiness hpc _ _ | settleExpire hpc | unlist hpc _ =>
    exact h.write hpc rfl (by grind -linarith) (by grind -linarith)
  | outlived hpc hi hop => grind [h _ hi]
  | @hook i r ev hpc hcur hkind hhook =>
    have hfresh := h i (hlt i (.inl hpc))
    have hnone : (s.ent i).list = none := by grind
    have hof := Ref.of_obj hkind
    rw [register_of_unlisted (by rw [ent_set_self]; exact hnone), ent_set_self, set_set]
    exact h.write hpc rfl (by grind) (by grind)
  | @keep i r hpc hcur =>
    unfold keepOrPut
    split
    · exact h.write hpc rfl (by grind) (by grind)
    · exact h.write (x := s.ent i) hpc (update_eq_self ..).symm (by grind) (by grind)
  | @settleLate p i hpc hi hout hlate =>
    have he := h i hi
    rw [hpc] at he
    rw [release_eq he.1]
    exact h.write hpc rfl (by grind) (by grind)
  | @settleResend p i x hx hpc hi hunsent hnow hresend =>
    obtain ⟨r, hr⟩ : ∃ r, (s.ent i).held = some r := by grind [h i hi]
    rw [withHeld_of_some hr]
    exact h.write hpc rfl (by grind) (by grind)
  | @release sweep i hpc hi =>
    have he := h i hi
    have hook : (s.ent i).Hooked := by cases sweep <;> grind
    rw [release_eq hook]
    cases sweep <;> exact h.write hpc rfl (by grind) (by grind)
  | collect hpc => grind [Entries]
  | verdict hpc =>
    unfold PollCall.decide
    split_ifs <;> exact h.move hpc rfl (by grind -linarith)
  | @armOne i hook covered hpc hi hremote =>
    have he := h i hi
    obtain ⟨hlist, r, hr, hkind⟩ : (s.ent i).list = none ∧
      ∃ r, (s.ent i).held = some r ∧ r.kind = .spoor := by grind
    rw [withHeld_of_some hr]
    cases hook with
    | false => exact h.move hpc rfl (by grind)
    | true =>
      rw [register_of_unlisted hlist]
      exact h.write hpc rfl (by grind) (by grind)
  | @put l i hpc hi =>
    unfold handlePut
    split
    · exact h.write (x := s.ent i) hpc (update_eq_self ..).symm (by grind) (by grind)
    · exact h.write hpc rfl (by grind) (by grind)
  | @clear l hpc => cases l <;> grind [Entries]
  | answer ev hi hop hsent =>
    exact h.write rfl rfl (fun _ he => he.congr rfl rfl rfl rfl rfl (by grind) (by grind))
      fun e j _ he => he
  | wake =>
    intro j hj
    have he := h j hj
    dsimp only
    split
    · exact he.congr rfl rfl rfl rfl rfl id id
    · exact he
  | tick => exact h
  | signals => exact h

/-! ### The books -/

namespace PollCall

/-- The handle of the scan, by the program counter. -/
@[grind =]
def Hand (a : Args) (cur : Option Ref) : Pc → Prop
  | .polling i | .keep i => i < a.nfds ∧ cur ≠ none
  | _ => cur = none

/-- The call's **books** balance, and it has not died. -/
structure Books (a : Args) (s : PollCall) : Prop where
  alive : s.extinct = false
  balanced : Custody.Balanced Ref.counted s.slot s.taken s.puts
  beyond : ∀ j, a.nfds ≤ j → (s.ent j).held = none
  hand : Hand a s.cur s.pc

theorem held_set {e : Entry} (h : e.held = (s.ent i).held) (j : ℕ) :
    ((s.set i e).ent j).held = (s.ent j).held := by
  rcases eq_or_ne j i with rfl | hji
  · rw [ent_set_self, h]
  · rw [ent_set_of_ne e hji]

/-- A step that takes, moves or puts a reference. -/
theorem Books.of (h : Books a s) {f : Option ℕ → Option Ref} {taken puts : List Ref}
    (hbal : Custody.Balanced Ref.counted f taken puts) (hcur : s'.cur = f none)
    (hheld : ∀ j, (s'.ent j).held = f (some j)) (htaken : s'.taken = taken)
    (hputs : s'.puts = puts) (hext : s'.extinct = s.extinct)
    (hbeyond : ∀ j, a.nfds ≤ j → f (some j) = (s.ent j).held) (hhand : Hand a s'.cur s'.pc) :
    Books a s' where
  alive := hext.trans h.alive
  balanced := by
    have hslot : s'.slot = f := funext fun p => by
      cases p with
      | none => exact hcur
      | some j => exact hheld j
    rw [hslot, htaken, hputs]
    exact hbal
  beyond := fun j hj => ((hheld j).trans (hbeyond j hj)).trans (h.beyond j hj)
  hand := hhand

/-- A step that neither takes nor puts. -/
theorem Books.same (h : Books a s) (hheld : ∀ j, (s'.ent j).held = (s.ent j).held)
    (hcur : s'.cur = s.cur) (htaken : s'.taken = s.taken) (hputs : s'.puts = s.puts)
    (hext : s'.extinct = s.extinct) (hhand : Hand a s'.cur s'.pc) : Books a s' :=
  h.of h.balanced hcur hheld htaken hputs hext (fun _ _ => rfl) hhand

end PollCall

/-- A **step** keeps the books. -/
theorem Step.books (hstep : Step a s act s') (h : Books a s) (he : Entries a s) : Books a s' := by
  have hhand := h.hand
  cases hstep with
  | outlived hpc hi hop => grind [he _ hi]
  | @invalid i hpc hi hop =>
    have hent := he i hi
    exact h.same (held_set (by grind)) rfl rfl rfl rfl (by grind)
  | @get i r hpc hi hop hfd hnew =>
    have hent := he i hi
    have hheld := held_set (s := s) (i := i) (e := (s.ent i).opened) (by grind)
    have hbal := h.balanced.take (p := none) (by grind [slot]) hnew.1 hnew.2
    exact h.of hbal (by simp; rfl) (fun j => (hheld j).trans (by simp [slot])) rfl rfl rfl (by simp [slot])
      (by grind)
  | malformed hpc _ _ | snapshot _ _ hpc _ _ | sample _ hpc _ _ | regular hpc _ _
  | noReadiness hpc _ _ | unlist hpc _ => exact h.same (held_set rfl) rfl rfl rfl rfl (by grind)
  | @hook i r ev hpc hcur hkind hhook =>
    have hent := he i (by grind)
    have hnone : (s.ent i).list = none := by grind
    rw [register_of_unlisted (by rw [ent_set_self]; exact hnone), ent_set_self, set_set]
    exact h.same (held_set rfl) rfl rfl rfl rfl (by grind)
  | @keep i r hpc hcur =>
    have hi : i < a.nfds := by grind
    have hent := he i hi
    unfold keepOrPut
    split
    · -- from the scan's handle into `held`
      have hbal := h.balanced.move (p := none) (q := some i) hcur (by grind [slot])
      refine h.of hbal (by simp) (fun j => ?_) rfl rfl rfl (fun j hj => ?_) (by grind)
      · simp only [PollCall.set]
        grind [slot]
      · grind [slot]
    · exact h.of (h.balanced.drop (p := none) hcur) (by simp) (fun j => by simp [slot]) rfl rfl rfl
        (fun j _ => by simp [slot]) (by grind)
  | @settleLate p i hpc hi hout hlate =>
    have hent := he i hi
    rw [release_eq (by grind)]
    exact h.same (held_set rfl) rfl rfl rfl rfl (by grind)
  | settleExpire hpc => exact h.same (held_set (by grind)) rfl rfl rfl rfl (by grind)
  | @settleResend p i x hx hpc hi hunsent hnow hresend =>
    have hent := he i hi
    obtain ⟨r, hr⟩ : ∃ r, (s.ent i).held = some r := by grind
    rw [withHeld_of_some hr]
    exact h.same (held_set rfl) rfl rfl rfl rfl (by grind)
  | @release sweep i hpc hi =>
    have hent := he i hi
    rw [release_eq (by cases sweep <;> grind)]
    exact h.same (held_set rfl) rfl rfl rfl rfl (by grind)
  | collect hpc | clear hpc => exact h.same (fun j => by grind) rfl rfl rfl rfl (by grind)
  | verdict hpc =>
    unfold PollCall.decide
    split_ifs <;> exact h.same (fun _ => rfl) rfl rfl rfl rfl (by grind)
  | @armOne i hook covered hpc hi hremote =>
    have hent := he i hi
    obtain ⟨hlist, r, hr⟩ : (s.ent i).list = none ∧ ∃ r, (s.ent i).held = some r := by grind
    rw [withHeld_of_some hr]
    cases hook with
    | false => exact h.same (fun _ => rfl) rfl rfl rfl rfl (by grind)
    | true =>
      rw [register_of_unlisted hlist]
      exact h.same (held_set rfl) rfl rfl rfl rfl (by grind)
  | @put l i hpc hi =>
    unfold handlePut
    split
    · exact h.same (fun _ => rfl) rfl rfl rfl rfl (by grind)
    · next r hr =>
        refine h.of (h.balanced.drop (p := some i) hr) (by simp; rfl) (fun j => ?_) rfl rfl rfl
          (fun j hj => ?_) (by grind)
        · simp only [goto, PollCall.set]
          grind [slot]
        · grind [slot]
  | answer => exact h.same (held_set rfl) rfl rfl rfl rfl h.hand
  | wake l hl => exact h.same (fun j => by grind) rfl rfl rfl rfl h.hand
  | tick | signals => exact h.same (fun _ => rfl) rfl rfl rfl rfl h.hand
  | _ => exact h.same (fun _ => rfl) rfl rfl rfl rfl (by grind)

end Poll

end Thylacine
