import Mathlib.Data.List.Nodup
import Mathlib.Data.Set.Basic

/-!
# Intrusive Doubly Linked Lists

A sentinel-headed circular list threads its nodes through two link fields that live in
the nodes themselves. A node type `α` is given together with a memory of links
(`Links α`), and the list operations are the pointer writes an implementation makes: no
operation knows which list a node is on. A dereference of a null link makes one return `none`.

`IsList L h xs` says that the nodes linked from the head `h` are exactly `xs`, in order, both
ways round, and that no node is repeated.

## Main results

* `IsList.pushFront`, `IsList.remove`: the two edits, each with the nodes it may write.
* `IsList.of_agreeOff`: the frame rule, for a list none of whose nodes was written.
* `walk_eq_of_isList`: walking the `next` fields reads the list off.
-/

namespace IntrusiveList

open List

open Function (update update_of_ne)

/-- The link fields of every node. A null link is `none`. -/
structure Links (α : Type*) where
  next : α → Option α
  prev : α → Option α

namespace Links

variable {α : Type*} [DecidableEq α]

section

variable (L : Links α)

/-- Write the `next` field of `p`. -/
def setNext (p : α) (v : Option α) : Links α :=
  { L with next := Function.update L.next p v }

/-- Write the `prev` field of `p`. -/
def setPrev (p : α) (v : Option α) : Links α :=
  { L with prev := Function.update L.prev p v }

/-- Make `h` the head of an empty list. -/
def initHead (h : α) : Links α := (L.setNext h (some h)).setPrev h (some h)

/-- The list headed by `h` has no node. -/
def isEmpty (h : α) : Bool := L.next h == some h

/-- Insert `p` right after the head `h`. -/
def pushFront (h p : α) : Option (Links α) := do
  let L := (L.setNext p (L.next h)).setPrev p (some h)
  let n ← L.next h
  let L := L.setPrev n (some p)
  pure (L.setNext h (some p))

/-- Unlink `p` from whichever list it is on. -/
def remove (p : α) : Option (Links α) := do
  let a ← L.prev p
  let L := L.setNext a (L.next p)
  let b ← L.next p
  let L := L.setPrev b (L.prev p)
  pure ((L.setNext p none).setPrev p none)

/-- Unlink and return the first node of the list at `h`, if any. -/
def popFront (h : α) : Option (Links α × Option α) := do
  let p ← L.next h
  if p = h then pure (L, none)
  else
    let L ← L.remove p
    pure (L, some p)

end

/-- The first `fuel` nodes after `p`, up to the head `h`. -/
def walkFrom (L : Links α) (h : α) : ℕ → α → List α
  | 0, _ => []
  | fuel + 1, p =>
    match L.next p with
    | none => []
    | some q => if q = h then [] else q :: L.walkFrom h fuel q

variable (L : Links α)

/-- The nodes of the list at `h`, off the `next` fields. -/
def walk (fuel : ℕ) (h : α) : List α := L.walkFrom h fuel h

end Links

variable {α : Type*} {L L' : Links α} {a b h p u v : α} {xs ys zs : List α} {S : Set α}

/-! ### Chains and lists -/

/-- The links lead from `a` through `xs` to `b`, and back. -/
def Chain (L : Links α) : α → List α → α → Prop
  | a, [], b => L.next a = some b ∧ L.prev b = some a
  | a, x :: xs, b => L.next a = some x ∧ L.prev x = some a ∧ Chain L x xs b

/-- The list at `h` holds exactly `xs`, in this order. -/
structure IsList (L : Links α) (h : α) (xs : List α) : Prop where
  chain : Chain L h xs h
  nodup : (h :: xs).Nodup

/-- The two memories agree on every node outside `S`. -/
def AgreeOff (L L' : Links α) (S : Set α) : Prop :=
  ∀ n, n ∉ S → L'.next n = L.next n ∧ L'.prev n = L.prev n

theorem AgreeOff.trans {L'' : Links α} (h : AgreeOff L L' S) (h' : AgreeOff L' L'' S) :
    AgreeOff L L'' S :=
  fun n hn => ⟨(h' n hn).1.trans (h n hn).1, (h' n hn).2.trans (h n hn).2⟩

theorem AgreeOff.mono {T : Set α} (h : AgreeOff L L' S) (hST : S ⊆ T) : AgreeOff L L' T :=
  fun n hn => h n fun hs => hn (hST hs)

/-- A chain through a node splits there. -/
theorem chain_append : Chain L a (ys ++ p :: zs) b ↔ Chain L a ys p ∧ Chain L p zs b := by
  induction ys generalizing a with
  | nil => simp only [nil_append, Chain, and_assoc]
  | cons y ys ih => simp only [cons_append, Chain, ih, and_assoc]

/-- A closed chain may be read from any of its nodes. -/
theorem chain_rotate (hw : a :: xs = ys ++ p :: zs) : Chain L a xs a ↔ Chain L p (zs ++ ys) p := by
  cases ys with
  | nil =>
    cases hw
    rw [append_nil]
  | cons y ys =>
    rw [cons_append] at hw
    cases hw
    rw [chain_append, chain_append, and_comm]

/-- The last node leads to where the chain ends. -/
theorem Chain.last (hc : Chain L a xs b) (hu : (a :: xs).getLast? = some u) :
    L.next u = some b ∧ L.prev b = some u := by
  induction xs generalizing a with
  | nil =>
    cases hu
    exact hc
  | cons x xs ih => exact ih hc.2.2 hu

/-- **Bending a chain**: its last node `u` leads to another node `v`. -/
theorem Chain.bend (hc : Chain L a xs b) (hnd : (a :: xs).Nodup)
    (hu : (a :: xs).getLast? = some u) (hlink : L'.next u = some v ∧ L'.prev v = some u)
    (hn : ∀ x ∈ a :: xs, x ≠ u → L'.next x = L.next x)
    (hp : ∀ x ∈ xs, L'.prev x = L.prev x) : Chain L' a xs v := by
  induction xs generalizing a with
  | nil =>
    cases hu
    exact hlink
  | cons x xs ih =>
    obtain ⟨ha, hnd⟩ := nodup_cons.mp hnd
    have hau : a ≠ u := fun e => ha (e ▸ mem_of_getLast? hu)
    exact ⟨(hn a mem_cons_self hau).trans hc.1, (hp x mem_cons_self).trans hc.2.1,
      ih hc.2.2 hnd hu (fun y hy => hn y (mem_cons_of_mem a hy))
        fun y hy => hp y (mem_cons_of_mem x hy)⟩

/-- **The frame rule.** A list survives a change to other nodes. -/
theorem IsList.of_agreeOff (hl : IsList L h xs) (hag : AgreeOff L L' S)
    (hS : ∀ n ∈ h :: xs, n ∉ S) : IsList L' h xs := by
  have hsame := fun x hx => hag x (hS x hx)
  have hu := getLast?_eq_getLast_of_ne_nil (cons_ne_nil h xs)
  obtain ⟨hnext, hprev⟩ := hl.chain.last hu
  refine ⟨hl.chain.bend hl.nodup hu ⟨?_, ?_⟩ (fun x hx _ => (hsame x hx).1)
    fun x hx => (hsame x (mem_cons_of_mem h hx)).2, hl.nodup⟩
  · exact (hsame _ (mem_of_getLast? hu)).1.trans hnext
  · exact (hsame h mem_cons_self).2.trans hprev

/-- The first node after the head. -/
theorem IsList.next_head (hl : IsList L h xs) : L.next h = some (xs.headD h) := by
  cases xs with
  | nil | cons => exact hl.chain.1

section Edits

variable [DecidableEq α]

theorem walkFrom_eq_of_chain {fuel : ℕ} (hc : Chain L a xs h) (hh : h ∉ xs)
    (hf : xs.length < fuel) : L.walkFrom h fuel a = xs := by
  induction xs generalizing a fuel with
  | nil =>
    cases fuel with
    | zero => cases hf
    | succ fuel =>
      rw [Links.walkFrom, hc.1]
      exact if_pos rfl
  | cons x xs ih =>
    cases fuel with
    | zero => cases hf
    | succ fuel =>
      obtain ⟨hx, hh⟩ := not_or.mp (mem_cons.not.mp hh)
      rw [Links.walkFrom, hc.1]
      refine (if_neg (Ne.symm hx)).trans ?_
      rw [ih hc.2.2 hh (Nat.lt_of_succ_lt_succ hf)]

/-- Walking the `next` fields reads the list off. -/
theorem walk_eq_of_isList (hl : IsList L h xs) {fuel : ℕ} (hf : xs.length < fuel) :
    L.walk fuel h = xs :=
  walkFrom_eq_of_chain hl.chain (nodup_cons.mp hl.nodup).1 hf

/-- A fresh head carries the empty list. -/
theorem isList_initHead (L : Links α) (h : α) : IsList (L.initHead h) h [] := by
  refine ⟨?_, by simp⟩
  simp [Chain, Links.initHead, Links.setNext, Links.setPrev]

/-- Initialising a head writes that node only. -/
theorem agreeOff_initHead (L : Links α) (h : α) : AgreeOff L (L.initHead h) {h} := by
  intro n hn
  have hne : n ≠ h := hn
  simp [Links.initHead, Links.setNext, Links.setPrev, update_of_ne hne]

theorem IsList.isEmpty_iff (hl : IsList L h xs) : L.isEmpty h = true ↔ xs = [] := by
  rw [Links.isEmpty, hl.next_head]
  cases xs with
  | nil => simp
  | cons x =>
    have hx : x ≠ h := fun e => (nodup_cons.mp hl.nodup).1 (e ▸ mem_cons_self)
    simp [hx]

/-- **Insertion.** A pushed node comes first; only it and the list are written. -/
theorem IsList.pushFront (hl : IsList L h xs) (hp : p ∉ h :: xs) :
    ∃ L', L.pushFront h p = some L' ∧ IsList L' h (p :: xs) ∧
      AgreeOff L L' {n | n ∈ p :: h :: xs} := by
  -- the nodes are read from the first one round to the head
  obtain ⟨n, w, hw⟩ := exists_cons_of_ne_nil (concat_ne_nil h xs)
  have hmem (x) (hx : x ∈ n :: w) : x ∈ h :: xs := by
    rw [← hw] at hx
    exact perm_append_singleton h xs |>.mem_iff.mp hx
  have hne {x} (hx : x ∈ h :: xs) : x ≠ p := ne_of_mem_of_not_mem hx hp
  have hnd : (n :: w).Nodup := hw ▸ (perm_append_singleton h xs).nodup_iff.mpr hl.nodup
  have hlast : (n :: w).getLast? = some h := by rw [← hw, getLast?_concat]
  have hring : Chain L n w n := by
    rw [chain_rotate hw.symm]
    exact hl.chain
  have hph : h ≠ p := hne mem_cons_self
  have hnp : n ≠ p := hne (hmem n mem_cons_self)
  have hnext := (hring.last hlast).1
  refine ⟨{ next := update (update L.next p (some n)) h (some p)
            prev := update (update L.prev p (some h)) n (some p) }, ?_, ⟨?_, ?_⟩, fun m hm => ?_⟩
  · simp [Links.pushFront, hnext, update_of_ne hph, Links.setNext, Links.setPrev]
  · have hrot : h :: p :: xs = [h] ++ p :: xs := rfl
    rw [chain_rotate hrot, hw]
    refine ⟨by simp [update_of_ne hph.symm], by simp, hring.bend hnd hlast ?_ ?_ ?_⟩
    · simp [update_of_ne hnp.symm]
    · intro x hx hxh
      simp [update_of_ne hxh, update_of_ne (hne (hmem x hx))]
    · intro x hx
      have hxn : x ≠ n := ne_of_mem_of_not_mem hx (nodup_cons.mp hnd).1
      simp [update_of_ne hxn, update_of_ne (hne (hmem x (mem_cons_of_mem n hx)))]
  · exact (Perm.swap h p xs).nodup_iff.mp (nodup_cons.mpr ⟨hp, hl.nodup⟩)
  · obtain ⟨hmp, hm⟩ := not_or.mp (mem_cons.not.mp hm)
    have hmn : m ≠ n := fun e => hm (hmem m (e ▸ mem_cons_self))
    have hmh : m ≠ h := fun e => hm (e ▸ mem_cons_self)
    simp [update_of_ne hmp, update_of_ne hmn, update_of_ne hmh]

/-- **Removal.** Unlinking a node takes it out, writing only the list. -/
theorem IsList.remove (hl : IsList L h xs) (hp : p ∈ xs) :
    ∃ L', L.remove p = some L' ∧ IsList L' h (xs.erase p) ∧ AgreeOff L L' {n | n ∈ h :: xs} := by
  obtain ⟨ys, zs, hpy, rfl, herase⟩ := exists_erase_eq hp
  -- the other nodes are read from the one behind `p` round to the one before it
  obtain ⟨v, w, hw⟩ : ∃ v w, zs ++ h :: ys = v :: w := exists_cons_of_ne_nil (by simp)
  obtain ⟨u, hu⟩ : ∃ u, (v :: w).getLast? = some u := ⟨_, getLast?_cons⟩
  have hlist : h :: (ys ++ p :: zs) = (h :: ys) ++ p :: zs := rfl
  have hring : Chain L p (v :: w) p := by
    rw [← hw]
    exact (chain_rotate hlist).mp hl.chain
  have hperm : (h :: (ys ++ p :: zs)).Perm (p :: v :: w) := by
    rw [← hw, hlist]
    exact perm_append_comm
  obtain ⟨hpw, hnd⟩ := nodup_cons.mp (hperm.nodup_iff.mp hl.nodup)
  have hne {x} (hx : x ∈ v :: w) : x ≠ p := ne_of_mem_of_not_mem hx hpw
  have hup := hne (mem_of_getLast? hu)
  have hvp := hne (mem_cons_self)
  have hlast := (hring.2.2.last hu).2
  refine ⟨{ next := update (update L.next u (some v)) p none
            prev := update (update L.prev v (some u)) p none }, ?_, ⟨?_, ?_⟩, fun m hm => ?_⟩
  · simp [Links.remove, hlast, hring.1, update_of_ne hup.symm, Links.setNext, Links.setPrev]
  · rw [herase, ← chain_rotate hw.symm]
    refine hring.2.2.bend hnd hu ?_ ?_ ?_
    · simp [update_of_ne hup, update_of_ne hvp]
    · intro x hx hxu
      simp [update_of_ne (hne hx), update_of_ne hxu]
    · intro x hx
      have hxv : x ≠ v := ne_of_mem_of_not_mem hx (nodup_cons.mp hnd).1
      simp [update_of_ne (hne (mem_cons_of_mem v hx)), update_of_ne hxv]
  · exact hl.nodup.sublist (erase_sublist.cons_cons h)
  · have hm' : m ∉ p :: v :: w := fun hmem => hm (hperm.mem_iff.mpr hmem)
    have hmu : m ≠ u := fun e => hm' (mem_cons_of_mem p (e ▸ mem_of_getLast? hu))
    simp only [mem_cons, not_or] at hm'
    simp [update_of_ne hm'.1, update_of_ne hm'.2.1, update_of_ne hmu]

/-- Popping yields the first node, unlinked. -/
theorem IsList.popFront_cons (hl : IsList L h (p :: xs)) :
    ∃ L', L.popFront h = some (L', some p) ∧ IsList L' h xs ∧
      AgreeOff L L' {n | n ∈ h :: p :: xs} := by
  obtain ⟨L', hrem, hlist, hag⟩ := hl.remove (mem_cons_self)
  have hph : p ≠ h := fun e => (nodup_cons.mp hl.nodup).1 (e ▸ mem_cons_self)
  refine ⟨L', ?_, by simpa using hlist, hag⟩
  simp [Links.popFront, hl.chain.1, hph, hrem]

/-- **Moving** a node to the front of another list. -/
theorem IsList.relist {h' : α} (hl : IsList L h xs) (hl' : IsList L h' ys)
    (hd : ∀ n ∈ h :: xs, n ∉ h' :: ys) (hp : p ∈ xs) :
    ∃ L₁ L₂, L.remove p = some L₁ ∧ L₁.pushFront h' p = some L₂ ∧
      IsList L₂ h (xs.erase p) ∧ IsList L₂ h' (p :: ys) ∧
      AgreeOff L L₂ {n | n ∈ h :: xs ∨ n ∈ h' :: ys} := by
  obtain ⟨L₁, hrem, hlist₁, hag₁⟩ := hl.remove hp
  have hl'₁ : IsList L₁ h' ys := hl'.of_agreeOff hag₁ fun n hn hmem => hd n hmem hn
  obtain ⟨L₂, hpush, hlist₂, hag₂⟩ := hl'₁.pushFront (hd p (mem_cons_of_mem h hp))
  obtain ⟨hh, hnd⟩ := nodup_cons.mp hl.nodup
  refine ⟨L₁, L₂, hrem, hpush, hlist₁.of_agreeOff hag₂ ?_, hlist₂, ?_⟩
  · intro n hn hmem
    rcases mem_cons.mp hmem with rfl | hmem
    · rcases mem_cons.mp hn with rfl | hn
      · exact hh hp
      · exact hnd.not_mem_erase hn
    · exact hd n (cons_subset_cons h (erase_subset ..) hn) hmem
  · refine (hag₁.mono fun n hn => .inl hn).trans (hag₂.mono ?_)
    exact forall_mem_cons.mpr ⟨.inl (mem_cons_of_mem h hp), fun _ hn => .inr hn⟩

end Edits

end IntrusiveList
