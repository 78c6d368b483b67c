import Mathlib.Data.Finset.Card

/-!
# Searches with a Worklist

A search of a graph that **marks a node when it is queued**, so that no node is queued twice. A
node has a list of edges; an edge leads to some nodes, and it may be a **hit**, at which the
search stops.

## Main results

* `search_from`: over a finite set of nodes the search ends; it finds a hit exactly if one is
  reachable from the start, and else it has marked exactly the reachable nodes.
* `acyclic_addEdge`: when an edge may be added to a graph without a cycle.
-/

namespace Worklist

open List Relation

section Search

variable {α β : Type*} [DecidableEq α]

/-- The nodes marked so far, and those still to be scanned. -/
structure State (α : Type*) where
  marked : Finset α
  pending : List α

def push (s : State α) (a : α) : State α :=
  if a ∈ s.marked then s else ⟨insert a s.marked, a :: s.pending⟩

def pushAll (s : State α) (as : List α) : State α := as.foldl push s

/-- Goes over the edges of a node, up to a hit. -/
def scan (hit : β → Bool) (ends : β → List α) : List β → State α → Bool × State α
  | [], s => (false, s)
  | x :: xs, s => if hit x then (true, s) else scan hit ends xs (pushAll s (ends x))

/-- Scans the edges of pending nodes, until none is pending or one hits. -/
def search (out : α → List β) (hit : β → Bool) (ends : β → List α) :
    ℕ → State α → Option (Bool × State α)
  | _, ⟨marked, []⟩ => some (false, ⟨marked, []⟩)
  | 0, ⟨_, _ :: _⟩ => none
  | fuel + 1, ⟨marked, a :: pending⟩ =>
    match scan hit ends (out a) ⟨marked, pending⟩ with
    | (true, s) => some (true, s)
    | (false, s) => search out hit ends fuel s

/-- What a search has left to do, in a graph over `U`. -/
def cost (U : Finset α) (s : State α) : ℕ := (U \ s.marked).card + s.pending.length

/-- `s'` has the marks of `s`, and more nodes, all pending. -/
structure Extends (s s' : State α) (new : α → Prop) : Prop where
  marked : ∀ x, x ∈ s'.marked ↔ x ∈ s.marked ∨ new x
  pending : ∀ x, x ∈ s'.pending ↔ x ∈ s.pending ∨ x ∉ s.marked ∧ new x

variable {s s' s'' : State α} {U : Finset α} {hit : β → Bool} {ends : β → List α} {xs : List β}
  {as : List α} {a : α}

omit [DecidableEq α] in
theorem Extends.trans {p q : α → Prop} (h : Extends s s' p) (h' : Extends s' s'' q) :
    Extends s s'' fun x => p x ∨ q x := by
  refine ⟨fun x => ?_, fun x => ?_⟩
  · rw [h'.marked, h.marked, or_assoc]
  · rw [h'.pending, h.pending, h.marked]
    tauto

section

variable (s : State α)

theorem push_extends (a : α) : Extends s (push s a) (· = a) := by
  rw [push]
  split_ifs with ha
  · refine ⟨fun x => ⟨.inl, fun hx => hx.elim id fun heq => heq ▸ ha⟩, fun x => ⟨.inl, ?_⟩⟩
    rintro (hx | ⟨hx, rfl⟩)
    · exact hx
    · exact absurd ha hx
  · refine ⟨fun x => ?_, fun x => ?_⟩
    · rw [Finset.mem_insert, or_comm]
    · rw [mem_cons, or_comm]
      exact or_congr_right ⟨fun heq => ⟨heq ▸ ha, heq⟩, And.right⟩

theorem pushAll_extends (as : List α) : Extends s (pushAll s as) (· ∈ as) := by
  induction as generalizing s with
  | nil => exact ⟨fun x => by simp [pushAll], fun x => by simp [pushAll]⟩
  | cons a as ih =>
    have hstep := (push_extends s a).trans (ih (push s a))
    have hmem : (fun x => x = a ∨ x ∈ as) = (· ∈ a :: as) := by
      funext x
      rw [mem_cons]
    rwa [hmem] at hstep

theorem cost_push (ha : a ∈ U) : cost U (push s a) = cost U s := by
  rw [push]
  split_ifs with hmark
  · rfl
  · have hin : a ∈ U \ s.marked := Finset.mem_sdiff.mpr ⟨ha, hmark⟩
    have hpos := Finset.card_pos.mpr ⟨a, hin⟩
    have hcard : (U \ insert a s.marked).card = (U \ s.marked).card - 1 := by
      rw [← Finset.card_erase_of_mem hin, Finset.sdiff_insert]
    rw [cost, cost, hcard, length_cons]
    omega

theorem cost_pushAll (has : ∀ a ∈ as, a ∈ U) : cost U (pushAll s as) = cost U s := by
  induction as generalizing s with
  | nil => rfl
  | cons a as ih =>
    exact (ih (push s a) fun b hb => has b (mem_cons_of_mem a hb)).trans
      (cost_push s (has a mem_cons_self))

theorem cost_scan (hU : ∀ x ∈ xs, ∀ b ∈ ends x, b ∈ U) :
    cost U (scan hit ends xs s).2 = cost U s := by
  induction xs generalizing s with
  | nil => rfl
  | cons x xs ih =>
    rw [scan]
    split_ifs
    · rfl
    · rw [ih _ fun y hy => hU y (mem_cons_of_mem x hy), cost_pushAll s (hU x mem_cons_self)]

end

/-- A scan that stops has met a hit. -/
theorem exists_hit_of_scan (h : (scan hit ends xs s).1 = true) : ∃ x ∈ xs, hit x = true := by
  fun_induction scan hit ends xs s with
  | case1 => cases h
  | case2 x _ _ hx => exact ⟨x, mem_cons_self, hx⟩
  | case3 x _ _ _ ih =>
    obtain ⟨y, hy, hhit⟩ := ih h
    exact ⟨y, mem_cons_of_mem x hy, hhit⟩

/-- A scan that goes through met no hit and marked all ends. -/
theorem scan_through (h : (scan hit ends xs s).1 = false) : (∀ x ∈ xs, hit x = false) ∧
      Extends s (scan hit ends xs s).2 fun a => ∃ x ∈ xs, a ∈ ends x := by
  induction xs generalizing s with
  | nil => exact ⟨nofun, fun x => by simp [scan], fun x => by simp [scan]⟩
  | cons x xs ih =>
    rw [scan] at h ⊢
    split_ifs at h ⊢ with hx
    obtain ⟨hno, hext⟩ := ih h
    refine ⟨forall_mem_cons.mpr ⟨Bool.eq_false_iff.mpr hx, hno⟩, ?_⟩
    have hstep := (pushAll_extends s (ends x)).trans hext
    have hmem : (fun a => a ∈ ends x ∨ ∃ y ∈ xs, a ∈ ends y) =
        fun a => ∃ y ∈ x :: xs, a ∈ ends y := by
      funext a
      rw [exists_mem_cons_iff]
    rwa [hmem] at hstep

/-- The edges of the graph. -/
def Edge (out : α → List β) (ends : β → List α) (a b : α) : Prop := ∃ x ∈ out a, b ∈ ends x

variable {out : α → List β} {start : α → Prop} {M : Finset α} {fuel : ℕ}

/-- The nodes reachable from the start. -/
def Reach (out : α → List β) (ends : β → List α) (start : α → Prop) (a : α) : Prop :=
  ∃ a₀, start a₀ ∧ ReflTransGen (Edge out ends) a₀ a

/-- Between rounds: a marked node is reachable, and its edges are done unless it is pending. -/
structure Inv (out : α → List β) (hit : β → Bool) (ends : β → List α) (start : α → Prop)
    (U : Finset α) (s : State α) : Prop where
  inside : s.marked ⊆ U
  pending : ∀ a ∈ s.pending, a ∈ s.marked
  starts : ∀ a, start a → a ∈ s.marked
  reach : ∀ a ∈ s.marked, Reach out ends start a
  done : ∀ a ∈ s.marked, a ∉ s.pending → ∀ x ∈ out a, hit x = false ∧ ∀ b ∈ ends x, b ∈ s.marked

/-- A round that goes through keeps the invariant. -/
theorem Inv.round {rest : List α} (hinv : Inv out hit ends start U ⟨M, a :: rest⟩)
    (hU : ∀ a ∈ U, ∀ x ∈ out a, ∀ b ∈ ends x, b ∈ U)
    (h : (scan hit ends (out a) ⟨M, rest⟩).1 = false) :
    Inv out hit ends start U (scan hit ends (out a) ⟨M, rest⟩).2 := by
  obtain ⟨hno, hext⟩ := scan_through h
  have haM : a ∈ M := hinv.pending a mem_cons_self
  constructor
  · intro x hx
    rcases (hext.marked x).mp hx with hx | ⟨y, hy, hx⟩
    · exact hinv.inside hx
    · exact hU a (hinv.inside haM) y hy x hx
  · intro x hx
    rcases (hext.pending x).mp hx with hx | ⟨-, hx⟩
    · exact (hext.marked x).mpr (.inl (hinv.pending x (mem_cons_of_mem a hx)))
    · exact (hext.marked x).mpr (.inr hx)
  · exact fun x hx => (hext.marked x).mpr (.inl (hinv.starts x hx))
  · intro x hx
    rcases (hext.marked x).mp hx with hx | hedge
    · exact hinv.reach x hx
    · obtain ⟨a₀, ha₀, hpath⟩ := hinv.reach a haM
      exact ⟨a₀, ha₀, hpath.tail hedge⟩
  · intro x hx hpend y hy
    have hxM : x ∈ M := by
      rcases (hext.marked x).mp hx with hx | hnew
      · exact hx
      · exact by_contra fun hnot => hpend ((hext.pending x).mpr (.inr ⟨hnot, hnew⟩))
    by_cases hxa : x = a
    · subst hxa
      exact ⟨hno y hy, fun b hb => (hext.marked b).mpr (.inr ⟨y, hy, hb⟩)⟩
    · have hold : x ∉ a :: rest := fun hmem => (mem_cons.mp hmem).elim hxa fun hin =>
        hpend ((hext.pending x).mpr (.inl hin))
      obtain ⟨hhit, hends⟩ := hinv.done x hxM hold y hy
      exact ⟨hhit, fun b hb => (hext.marked b).mpr (.inl (hends b hb))⟩

omit [DecidableEq α] in
/-- With nothing pending the marked nodes are closed. -/
theorem Inv.mem_iff (hinv : Inv out hit ends start U ⟨M, []⟩) (a : α) :
    a ∈ M ↔ Reach out ends start a := by
  refine ⟨hinv.reach a, ?_⟩
  rintro ⟨a₀, ha₀, hpath⟩
  induction hpath with
  | refl => exact hinv.starts a₀ ha₀
  | tail _ hedge ih =>
    obtain ⟨x, hx, hb⟩ := hedge
    exact (hinv.done _ ih not_mem_nil x hx).2 _ hb

omit [DecidableEq α] in
theorem Inv.no_hit (hinv : Inv out hit ends start U ⟨M, []⟩) :
    ¬ ∃ a x, Reach out ends start a ∧ x ∈ out a ∧ hit x = true := by
  rintro ⟨a, x, ha, hx, hhit⟩
  have hnot := (hinv.done a ((hinv.mem_iff a).mpr ha) not_mem_nil x hx).1
  exact absurd (hnot.symm.trans hhit) nofun

/-- **The search is exact**: it hits iff a hit is reachable, and else has marked the reachable
nodes. -/
theorem search_spec (hU : ∀ a ∈ U, ∀ x ∈ out a, ∀ b ∈ ends x, b ∈ U)
    (hinv : Inv out hit ends start U s) (hfuel : cost U s ≤ fuel) :
    ∃ found s', search out hit ends fuel s = some (found, s') ∧
      (found = true ↔ ∃ a x, Reach out ends start a ∧ x ∈ out a ∧ hit x = true) ∧
      (found = false → ∀ a, a ∈ s'.marked ↔ Reach out ends start a) := by
  fun_induction search out hit ends fuel s with
  | case1 =>
    exact ⟨false, _, rfl, ⟨nofun, fun hex => absurd hex hinv.no_hit⟩, fun _ => hinv.mem_iff⟩
  | case2 =>
    rw [cost, length_cons] at hfuel
    omega
  | case3 fuel M a rest s₁ hscan =>
    obtain ⟨x, hx, hhit⟩ := exists_hit_of_scan (congrArg Prod.fst hscan)
    have haM : a ∈ M := hinv.pending a mem_cons_self
    exact ⟨true, s₁, rfl, ⟨fun _ => ⟨a, x, hinv.reach a haM, hx, hhit⟩, fun _ => rfl⟩, nofun⟩
  | case4 fuel M a rest s₁ hscan ih =>
    have hround := hinv.round hU (congrArg Prod.fst hscan)
    have hcost : cost U (scan hit ends (out a) ⟨M, rest⟩).2 = cost U ⟨M, rest⟩ :=
      cost_scan _ (hU a (hinv.inside (hinv.pending a mem_cons_self)))
    rw [hscan] at hround hcost
    refine ih hround (hcost.trans_le ?_)
    rw [cost, length_cons] at hfuel
    rw [cost]
    dsimp only at hfuel ⊢
    omega

/-- The state in which a search from the nodes `as` begins. -/
def State.from (as : List α) : State α := pushAll ⟨∅, []⟩ as

theorem Inv.from (has : ∀ a ∈ as, a ∈ U) : Inv out hit ends (· ∈ as) U (State.from as) := by
  have hext := pushAll_extends (⟨∅, []⟩ : State α) as
  have hmarked (x : α) : x ∈ (State.from as).marked ↔ x ∈ as := by
    rw [State.from, hext.marked x]
    exact or_iff_right (Finset.notMem_empty x)
  have hpending (x : α) : x ∈ (State.from as).pending ↔ x ∈ as := by
    rw [State.from, hext.pending x]
    exact ⟨fun h => h.elim (absurd · not_mem_nil) And.right,
      fun h => .inr ⟨Finset.notMem_empty x, h⟩⟩
  constructor
  · exact fun x hx => has x ((hmarked x).mp hx)
  · exact fun x hx => (hmarked x).mpr ((hpending x).mp hx)
  · exact fun x hx => (hmarked x).mpr hx
  · exact fun x hx => ⟨x, (hmarked x).mp hx, .refl⟩
  · exact fun x hx hnot => absurd ((hpending x).mpr ((hmarked x).mp hx)) hnot

/-- The search from given nodes is exact. -/
theorem search_from (hit : β → Bool) (has : ∀ a ∈ as, a ∈ U)
    (hU : ∀ a ∈ U, ∀ x ∈ out a, ∀ b ∈ ends x, b ∈ U) (hfuel : U.card ≤ fuel) :
    ∃ found s', search out hit ends fuel (State.from as) = some (found, s') ∧
      (found = true ↔ ∃ a x, Reach out ends (· ∈ as) a ∧ x ∈ out a ∧ hit x = true) ∧
      (found = false → ∀ a, a ∈ s'.marked ↔ Reach out ends (· ∈ as) a) := by
  refine search_spec hU (.from has) (le_trans (le_of_eq ?_) hfuel)
  rw [State.from, cost_pushAll _ has, cost, Finset.sdiff_empty]
  rfl

end Search

/-! ### Graphs without a cycle -/

section Acyclic

variable {α : Type*} {E F : α → α → Prop} {a b : α}

/-- No node is reachable from itself by one edge or more. -/
def Acyclic (E : α → α → Prop) : Prop := ∀ a, ¬ TransGen E a a

/-- The graph with one more edge. -/
def addEdge (E : α → α → Prop) (a b x y : α) : Prop := E x y ∨ x = a ∧ y = b

theorem Acyclic.mono (h : Acyclic E) (hsub : ∀ x y, F x y → E x y) : Acyclic F :=
  fun x hx => h x (hx.lift id hsub)

/-- A path over the new edge goes to its start and on from its end. -/
theorem transGen_addEdge {x y : α} (h : TransGen (addEdge E a b) x y) :
    TransGen E x y ∨ ReflTransGen E x a ∧ ReflTransGen E b y := by
  induction h with
  | single hedge =>
    rcases hedge with hedge | ⟨rfl, rfl⟩
    · exact .inl (.single hedge)
    · exact .inr ⟨.refl, .refl⟩
  | tail _ hedge ih =>
    rcases hedge with hedge | ⟨rfl, rfl⟩
    · exact ih.imp (fun h => h.tail hedge) fun h => ⟨h.1, h.2.tail hedge⟩
    · exact .inr ⟨ih.elim TransGen.to_reflTransGen And.left, .refl⟩

/-- An edge closes a cycle iff its start is **reachable from its end**. -/
theorem acyclic_addEdge (h : Acyclic E) : Acyclic (addEdge E a b) ↔ ¬ ReflTransGen E b a := by
  constructor
  · intro hacyclic hpath
    have hback : ReflTransGen (addEdge E a b) b a := hpath.lift id fun _ _ => .inl
    exact hacyclic b (TransGen.tail' hback (.inr ⟨rfl, rfl⟩))
  · intro hno x hcycle
    rcases transGen_addEdge hcycle with hcycle | ⟨hxa, hbx⟩
    · exact h x hcycle
    · exact hno (hbx.trans hxa)

end Acyclic

end Worklist
