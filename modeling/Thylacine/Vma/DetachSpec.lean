import Thylacine.Vma.SpaceRep

/-!
# Range Detach and Replace

The specification of `vma_detach_range_in` and `vma_replace_range_in` against the invariant. What
is left of the list is the old one with the range cut out of every mapping (`Pieces.carve` with
nothing put in).

## Main results

* `detach_replace_pointwise`: what is seen after them; a refusal changes nothing.
-/

namespace Thylacine

open DoublyLinked IntervalMap List Word
open Function (update update_of_ne update_self)

namespace AddrSpace

variable {s s' s'' : AddrSpace} {xs ys zs ls ms rs S : List VmaRef} {v : VmaRef} {m : Vma}
  {a b : UInt64}

/-! ### Frames -/

/-- What a call that writes to the mappings `S`, and frees some, leaves alone. -/
structure Keeps (s s' : AddrSpace) (S : List VmaRef) : Prop where
  node : ∀ x ∈ s.live, x ∉ S → x ∈ s'.live ∧ s'.vma x = s.vma x
  burrow : ∀ w, (s'.burrows w).type = (s.burrows w).type ∧
    (s'.burrows w).pageCount = (s.burrows w).pageCount

theorem Keeps.refl (s : AddrSpace) (S : List VmaRef) : Keeps s s S :=
  ⟨fun _ hx _ => ⟨hx, rfl⟩, fun _ => ⟨rfl, rfl⟩⟩

theorem Keeps.trans {T U : List VmaRef} (h : Keeps s s' S) (h' : Keeps s' s'' T)
    (hS : S ⊆ U) (hT : T ⊆ U) : Keeps s s'' U := by
  refine ⟨fun x hx hnot => ?_, fun w => ?_⟩
  · obtain ⟨hlive, hvma⟩ := h.node x hx fun hmem => hnot (hS hmem)
    obtain ⟨hlive', hvma'⟩ := h'.node x hlive fun hmem => hnot (hT hmem)
    exact ⟨hlive', hvma'.trans hvma⟩
  · obtain ⟨ht, hp⟩ := h.burrow w
    obtain ⟨ht', hp'⟩ := h'.burrow w
    exact ⟨ht'.trans ht, hp'.trans hp⟩

theorem Relinked.keeps (h : Relinked s s') (S : List VmaRef) : Keeps s s' S :=
  ⟨fun x hx _ => ⟨h.live.symm ▸ hx, by rw [h.vma]⟩, fun w => ⟨(h.burrows w).1, (h.burrows w).2.1⟩⟩

theorem Freed.keeps (h : Freed s s' v) : Keeps s s' [v] := by
  refine ⟨fun x hx hnot => ⟨?_, by rw [h.vma]⟩, fun w => ?_⟩
  · rw [h.live]
    exact Finset.mem_erase_of_ne_of_mem (fun heq => hnot (mem_singleton.mpr heq)) hx
  · rw [h.burrows w]
    exact ⟨rfl, rfl⟩

theorem keeps_setVma (s : AddrSpace) (v : VmaRef) (m : Vma) : Keeps s (s.setVma v m) [v] :=
  ⟨fun _ hx hnot => ⟨hx, update_of_ne (fun heq => hnot (mem_singleton.mpr heq)) ..⟩,
    fun _ => ⟨rfl, rfl⟩⟩

theorem Fresh.keeps (h : Fresh s s' v m) (S : List VmaRef) : Keeps s s' S := by
  refine ⟨fun x hx _ => ⟨?_, h.vma_of_ne fun heq => h.fresh (heq ▸ hx)⟩, fun w => ?_⟩
  · rw [h.live]
    exact Finset.mem_insert_of_mem hx
  · rw [h.burrows w]
    exact ⟨rfl, rfl⟩

theorem Keeps.map_eq (h : Keeps s s' S) (hlive : ∀ x ∈ xs, x ∈ s.live)
    (hS : ∀ x ∈ xs, x ∉ S) : xs.map s'.mapping = xs.map s.mapping :=
  map_congr_left fun x hx => by rw [mapping, (h.node x (hlive x hx) (hS x hx)).2, mapping]

/-! ### One mapping -/

/-- The mapping lies in the range whole. -/
def Whole (s : AddrSpace) (a b : UInt64) (v : VmaRef) : Prop :=
  a ≤ (s.vma v).vaddrStart ∧ (s.vma v).vaddrEnd ≤ b

instance (s : AddrSpace) (a b : UInt64) : DecidablePred (s.Whole a b) :=
  fun _ => inferInstanceAs (Decidable (_ ∧ _))

/-- The range lies strictly inside the mapping. -/
def Inner (s : AddrSpace) (a b : UInt64) (v : VmaRef) : Prop :=
  (s.vma v).vaddrStart < a ∧ b < (s.vma v).vaddrEnd

/-- What is left of mappings, with a range cut out. -/
def cutOut (a b : UInt64) (xs : List Mapping) : List Mapping :=
  xs.flatMap (Mapping.pieces.carve a b fun _ => [])

theorem cutOut_append (xs ys : List Mapping) :
    cutOut a b (xs ++ ys) = cutOut a b xs ++ cutOut a b ys := flatMap_append

theorem cutOut_one (hmeet : a < (s.vma v).vaddrEnd ∧ (s.vma v).vaddrStart < b) :
    cutOut a b [s.mapping v] =
      (if (s.vma v).vaddrStart < a then [(s.mapping v).cut (s.vma v).vaddrStart a] else []) ++
      (if b < (s.vma v).vaddrEnd then [(s.mapping v).cut b (s.vma v).vaddrEnd] else []) :=
  (flatMap_singleton ..).trans (Pieces.carve_nil_of_not_off (not_or.mpr ⟨not_le.mpr hmeet.1, not_le.mpr hmeet.2⟩))

variable {exempt : Bool} {c length vaddr : UInt64} {fuel : ℕ} {w : BurrowRef} {f : VmaRef}
  {extra : UInt32}

theorem ite_lo (h : a ≤ c) : (if a < c then c else a) = c := by
  split_ifs with hlt
  · rfl
  · exact le_antisymm h (not_lt.mp hlt)

theorem ite_hi (h : c ≤ b) : (if c < b then c else b) = c := by
  split_ifs with hlt
  · rfl
  · exact le_antisymm (not_lt.mp hlt) h

section

variable (h : s.Ok (ls ++ v :: rs))
include h

/-- A mapping that lies in the range whole goes. -/
theorem Ok.detachOne_whole (hwhole : s.Whole a b v) (exempt : Bool) (piece : Option VmaRef) :
    ∃ s' d, s.detachOne exempt a b piece v = some (s', piece, d) ∧ s'.Ok (ls ++ rs) ∧
      Keeps s s' [v] := by
  obtain ⟨s₁, hrem, hok₁, hre⟩ := h.vmaRemoveIn
  have hlive : v ∈ s₁.live := hre.live ▸ h.live v (by simp)
  obtain ⟨s₂, d, hfree, hfreed, -⟩ := hok₁.vmaFree hlive h.not_mem
  refine ⟨s₂, d, ?_, hok₁.freed hfreed hlive h.not_mem,
    (hre.keeps [v]).trans hfreed.keeps (.refl _) (.refl _)⟩
  rw [detachOne]
  simp only [ite_lo hwhole.1, ite_hi hwhole.2, and_self, if_true, hrem, Option.bind_some, hfree,
    Option.map_some]

/-- **One mapping** of a range not strictly inside it: what the cut leaves. -/
theorem Ok.detachOne (hmeet : a < (s.vma v).vaddrEnd ∧
    (s.vma v).vaddrStart < b) (hno : ¬s.Inner a b v) (hal : Aligned a) (hbl : Aligned b)
    (exempt : Bool) (piece : Option VmaRef) :
    ∃ s' d vs, s.detachOne exempt a b piece v = some (s', piece, d) ∧ s'.Ok (ls ++ vs ++ rs) ∧
      Keeps s s' [v] ∧ vs ⊆ [v] ∧ vs.map s'.mapping = cutOut a b [s.mapping v] ∧
      vs.length + (if s.Whole a b v then 1 else 0) = 1 := by
  rw [cutOut_one hmeet]
  rcases le_or_gt a (s.vma v).vaddrStart with hlo | hlo
  · rcases le_or_gt (s.vma v).vaddrEnd b with hhi | hhi
    · obtain ⟨s', d, hstep, hok, hkeep⟩ := h.detachOne_whole ⟨hlo, hhi⟩ exempt piece
      refine ⟨s', d, [], hstep, ?_, hkeep, nil_subset _, ?_, ?_⟩
      · rwa [append_nil]
      · rw [if_neg (not_lt.mpr hlo), if_neg (not_lt.mpr hhi)]
        rfl
      · rw [if_pos ⟨hlo, hhi⟩]
        rfl
    · -- its head lies in the range, and it keeps its tail
      have hmap := (s.vma v).mapping_dropHead b
      refine ⟨s.setVma v ((s.vma v).dropHead b), none, [v], ?_, ?_, keeps_setVma ..,
        .refl _, ?_, ?_⟩
      · rw [AddrSpace.detachOne]
        simp only [ite_lo hlo, if_neg (not_lt.mpr hhi.le), hhi.ne]
        rfl
      · rw [append_assoc]
        exact h.shrink rfl hmap hmeet.2.le hhi le_rfl hbl (h.aligned (by simp)).2
      · rw [if_neg (not_lt.mpr hlo), if_pos hhi, map_singleton, mapping_setVma_self, hmap]
        rfl
      · rw [if_neg fun hw => absurd hw.2 (not_le.mpr hhi)]
        rfl
  · -- its tail lies in the range, and it keeps its head
    have hhi : (s.vma v).vaddrEnd ≤ b := not_lt.mp fun hlt => hno ⟨hlo, hlt⟩
    have hmap := (s.vma v).mapping_dropTail a
    refine ⟨s.setVma v ((s.vma v).dropTail a), none, [v], ?_, ?_, keeps_setVma .., .refl _, ?_, ?_⟩
    · rw [AddrSpace.detachOne]
      simp only [ite_hi hhi, if_neg (not_lt.mpr hlo.le), hlo.ne']
      rfl
    · rw [append_assoc]
      exact h.shrink rfl hmap le_rfl hlo hmeet.1.le (h.aligned (by simp)).1 hal
    · rw [if_pos hlo, if_neg (not_lt.mpr hhi), map_singleton, mapping_setVma_self, hmap]
      rfl
    · rw [if_neg fun hw => absurd hw.1 (not_le.mpr hlo)]
      rfl

end

/-! ### The loop -/

theorem detachLoop_stop (h : ∀ v ∈ rs, b ≤ (s.vma v).vaddrStart) (exempt : Bool)
    (hfuel : 0 < fuel) (piece : Option VmaRef) (dead : List BurrowRef) :
    detachLoop exempt a b fuel s rs.head? piece dead = some (s, dead) := by
  obtain ⟨fuel, rfl⟩ := Nat.exists_eq_succ_of_ne_zero hfuel.ne'
  cases rs with
  | nil => rfl
  | cons v rs => exact if_pos (h v mem_cons_self)

/-- **The loop** of a detach, inside no mapping. -/
theorem Ok.detachLoop (h : s.Ok (ls ++ ms ++ rs))
    (hms : ∀ v ∈ ms, a < (s.vma v).vaddrEnd ∧ (s.vma v).vaddrStart < b)
    (hrs : ∀ v ∈ rs, b ≤ (s.vma v).vaddrStart) (hno : ∀ v ∈ ms, ¬s.Inner a b v)
    (hal : Aligned a) (hbl : Aligned b) (exempt : Bool) (hfuel : ms.length < fuel)
    (piece : Option VmaRef) (dead : List BurrowRef) :
    ∃ s' dead' ms', detachLoop exempt a b fuel s (ms ++ rs).head? piece dead = some (s', dead') ∧
      s'.Ok (ls ++ ms' ++ rs) ∧ Keeps s s' ms ∧ ms' ⊆ ms ∧
      ms'.map s'.mapping = cutOut a b (ms.map s.mapping) ∧
      ms'.length + ms.countP (s.Whole a b) = ms.length := by
  induction ms generalizing s ls fuel dead with
  | nil =>
    exact ⟨s, dead, [], detachLoop_stop hrs exempt hfuel piece dead, h, .refl s [],
      .refl _, rfl, rfl⟩
  | cons v ms ih =>
    obtain ⟨fuel, rfl⟩ := Nat.exists_eq_succ_of_ne_zero (Nat.ne_zero_of_lt hfuel)
    have hmeet := hms v mem_cons_self
    have hsplit : ls ++ v :: ms ++ rs = ls ++ v :: (ms ++ rs) := by simp
    rw [hsplit] at h
    have hnd := h.not_mem
    have hvms : v ∉ ms := fun hmem => hnd (by simp [hmem])
    have hvrs : v ∉ rs := fun hmem => hnd (by simp [hmem])
    obtain ⟨s₁, d, vs, hstep, hok₁, hkeep₁, hvs, hmap₁, hlen₁⟩ :=
      h.detachOne hmeet (hno v mem_cons_self) hal hbl exempt piece
    -- the other mappings are as before
    have hsame : ∀ x ∈ ls ++ v :: (ms ++ rs), x ≠ v → s₁.vma x = s.vma x := fun x hx hne =>
      (hkeep₁.node x (h.live x hx) fun hmem => hne (mem_singleton.mp hmem)).2
    have hsame_ms : ∀ x ∈ ms, s₁.vma x = s.vma x := fun x hx =>
      hsame x (by simp [hx]) fun heq => hvms (heq ▸ hx)
    have hsame_rs : ∀ x ∈ rs, s₁.vma x = s.vma x := fun x hx =>
      hsame x (by simp [hx]) fun heq => hvrs (heq ▸ hx)
    rw [← append_assoc] at hok₁
    obtain ⟨s', dead', ms', hloop, hok', hkeep', hms', hmap', hlen'⟩ :=
      ih hok₁ (fun x hx => by rw [hsame_ms x hx]; exact hms x (mem_cons_of_mem v hx))
        (fun x hx => by rw [hsame_rs x hx]; exact hrs x hx)
        (fun x hx => by
          rw [Inner, hsame_ms x hx]
          exact hno x (mem_cons_of_mem v hx))
        (Nat.lt_of_succ_lt_succ hfuel) (d.toList ++ dead)
    have hvs' : ∀ x ∈ vs, x ∈ s₁.live ∧ x ∉ ms := by
      intro x hx
      refine ⟨hok₁.live x (by simp [hx]), ?_⟩
      rw [mem_singleton.mp (hvs hx)]
      exact hvms
    refine ⟨s', dead', vs ++ ms', ?_, ?_, ?_, ?_, ?_, ?_⟩
    · have hnext : s.next v = (ms ++ rs).head? := h.next_eq
      change (if b ≤ (s.vma v).vaddrStart then _ else _) = _
      rw [if_neg (not_le.mpr hmeet.2)]
      rw [hstep, hnext]
      exact hloop
    · rwa [← append_assoc]
    · refine hkeep₁.trans hkeep' ?_ (subset_cons_self v ms)
      exact cons_subset.mpr ⟨mem_cons_self, nil_subset _⟩
    · refine append_subset.mpr ⟨fun x hx => ?_, fun x hx => mem_cons_of_mem v (hms' hx)⟩
      exact mem_singleton.mp (hvs hx) ▸ mem_cons_self
    · have hmsmap : ms.map s₁.mapping = ms.map s.mapping :=
        map_congr_left fun x hx => congrArg Vma.mapping (hsame_ms x hx)
      rw [map_append, hmap', hkeep'.map_eq (fun x hx => (hvs' x hx).1)
        (fun x hx => (hvs' x hx).2), hmap₁, hmsmap, ← cutOut_append]
      rfl
    · have hcount : ms.countP (s₁.Whole a b) = ms.countP (s.Whole a b) :=
        countP_congr fun x hx => by
          rw [decide_eq_true_eq, decide_eq_true_eq, Whole, Whole, hsame_ms x hx]
      rw [length_append, countP_cons, length_cons, ← hlen']
      simp only [decide_eq_true_eq]
      omega

/-! ### A piece of a mapping -/

theorem Ok.alive (h : s.Ok xs) (hv : v ∈ s.live) (hw : (s.vma v).burrow = some w) : s.Alive w :=
  .inr ((Finset.card_pos.mpr ⟨v, Finset.mem_filter.mpr ⟨hv, hw⟩⟩).trans_le (h.counted w))

/-- A new mapping that shows a part of `v`, with room. -/
theorem Ok.allocLike (h : s.Ok xs) (hv : v ∈ s.live)
    (hw : (s.vma v).burrow = some w) (pick : Option VmaRef) {d off : UInt64}
    (hoff : (s.mapping v).byteAt c = some (w, off)) :
    s.allocLike pick v c d off = some (s, none) ∨
      ∃ s' p mp, s.allocLike pick v c d off = some (s', some p) ∧ Fresh s s' p mp ∧
      mp.mapping = (s.mapping v).cut c d := by
  have hgood := h.good v hv
  have hback : (s.mapping v).back = some (w, (s.vma v).burrowOffset) := by
    rw [mapping, Vma.mapping, hw]
    rfl
  rw [AddrSpace.allocLike]
  rcases vmaAlloc_spec s pick c d (s.vma v).prot (s.vma v).burrow off
    (fun b hb => h.alive hv hb) with hnone | ⟨s₁, p, b, halloc, -, hb, -, hfresh⟩
  · exact .inl (by rw [hnone]; rfl)
  · cases hw.symm.trans hb
    refine .inr ⟨_, p, { s₁.vma p with flags := (s.vma v).flags }, by rw [halloc]; rfl,
      hfresh.setVma (by rw [hfresh.vma_self]), ?_⟩
    have hnorm : normalProt (s.burrows w).type (s.vma v).prot = (s.vma v).prot :=
      if_neg fun hc => hc.2.2 ((hgood.backed w _ hback).2.2 hc.1 hc.2.1)
    rw [hfresh.vma_self, Mapping.cut, hoff]
    simp only [minted, hnorm]
    rfl

/-- A detach's tail piece shows what `v` shows from `b` on. -/
theorem Ok.detachPiece (h : s.Ok xs) (hv : v ∈ s.live) (pick : Option VmaRef) :
    s.detachPiece pick v b = some (s, none) ∨
      ∃ s' p mp, s.detachPiece pick v b = some (s', some p) ∧ Fresh s s' p mp ∧
      mp.mapping = (s.mapping v).cut b (s.vma v).vaddrEnd := by
  rw [AddrSpace.detachPiece]
  cases hw : (s.vma v).burrow with
  | some w =>
    refine h.allocLike hv hw pick ?_
    rw [mapping, Vma.mapping, hw]
    rfl
  | none =>
    -- a guard's tail is a guard
    have hback : (s.mapping v).back = none := by
      rw [mapping, Vma.mapping, hw]
      rfl
    have hprot : (s.vma v).prot = 0 := (h.good v hv).guard hback
    rcases vmaAllocGuard_spec s pick b (s.vma v).vaddrEnd with hnone | ⟨s₁, p, halloc, -, -, hfresh⟩
    · rw [hnone]
      exact .inl rfl
    · rw [halloc]
      refine .inr ⟨_, p, { s₁.vma p with flags := (s.vma v).flags }, rfl,
        hfresh.setVma (by rw [hfresh.vma_self]), ?_⟩
      rw [hfresh.vma_self, Mapping.cut, Mapping.byteAt, hback]
      simp only [Vma.mapping, mapping, hprot]
      rfl

/-! ### The scan -/

/-- PHASE 1 refuses with `T_E_ACCES`, or counts the mappings that go. -/
theorem detachScan_spec (s : AddrSpace) (a b : UInt64) (ms : List VmaRef) (last : VmaRef)
    (n : UInt32) :
    s.detachScan a b ms last n = .error (-tEAcces) ∨ s.detachScan a b ms last n =
      .ok (ms.getLastD last, n + UInt32.ofNat (ms.countP (s.Whole a b))) := by
  induction ms generalizing last n with
  | nil =>
    refine .inr ?_
    rw [detachScan]
    simp
  | cons v ms ih =>
    rw [detachScan]
    split_ifs with hcode hshared hwhole
    · exact .inl rfl
    · exact .inl rfl
    · refine (ih v (n + 1)).imp_right fun hrec => ?_
      have hw : s.Whole a b v := hwhole
      rw [hrec, getLastD_cons,
        countP_cons_of_pos (p := fun v => decide (s.Whole a b v)) (decide_eq_true hw),
        UInt32.ofNat_add, UInt32.add_assoc, UInt32.add_comm 1]
      rfl
    · refine (ih v n).imp_right fun hrec => ?_
      have hw : ¬s.Whole a b v := hwhole
      rw [hrec, getLastD_cons, countP_cons_of_neg (by simpa using hw)]

/-! ### The range strictly inside a mapping -/

theorem Ok.mustInsert (h : s.Ok (ys ++ zs)) (hv : v ∈ s.live) (hnot : v ∉ ys ++ zs)
    (hpl : s.Place (s.vma v) ys zs) (hroom : s.Room exempt) :
    ∃ s', s.mustInsert exempt v = some s' ∧ s'.Ok (ys ++ v :: zs) ∧ Relinked s s' := by
  obtain ⟨s', hins, hok, hre⟩ := h.vmaInsertIn hv hnot hpl hroom
  exact ⟨s', by rw [AddrSpace.mustInsert, hins]; rfl, hok, hre⟩

theorem Ok.mustInsert_eq_none (h : s.Ok xs) (hv : v ∈ s.live) (hnot : v ∉ xs)
    (hroom : ¬s.Room exempt) : s.mustInsert exempt v = none := by
  obtain ⟨rc, hrc, hne⟩ := h.vmaInsertIn_refused hv hnot fun hc => hroom hc.2
  rw [AddrSpace.mustInsert, hrc]
  exact if_neg hne

/-- The loop, for a range **strictly inside** a mapping: the head survives in place, and the piece,
with room, is linked in after it. -/
theorem Ok.detachLoop_inner (h : s.Ok (ls ++ v :: rs)) (hin : s.Inner a b v) (hab : a < b)
    (hal : Aligned a) {p : VmaRef} (hp : p ∈ s.live) (hnot : p ∉ ls ++ v :: rs)
    (hmp : s.mapping p = (s.mapping v).cut b (s.vma v).vaddrEnd) (exempt : Bool)
    (dead : List BurrowRef) :
    ¬s.Room exempt ∧ AddrSpace.detachLoop exempt a b loopFuel s (some v) (some p) dead = none ∨
    ∃ s', AddrSpace.detachLoop exempt a b loopFuel s (some v) (some p) dead = some (s', dead) ∧
      s'.Ok (ls ++ v :: p :: rs) ∧ Keeps s s' [v] ∧
      [v, p].map s'.mapping = cutOut a b [s.mapping v] := by
  obtain ⟨hlo, hhi⟩ := hin
  have hpv : p ≠ v := fun heq => hnot (heq ▸ by simp)
  have hmap := (s.vma v).mapping_dropTail a
  set s₁ := s.setVma v ((s.vma v).dropTail a)
  have hok₁ : s₁.Ok (ls ++ v :: rs) :=
    h.shrink rfl hmap le_rfl hlo (hab.le.trans hhi.le) (h.aligned (by simp)).1 hal
  have hone : s.detachOne exempt a b (some p) v =
      (s₁.mustInsert exempt p).map fun s => (s, none, none) := by
    rw [AddrSpace.detachOne]
    simp only [if_neg (not_lt.mpr hlo.le), if_neg (not_lt.mpr hhi.le), hlo.ne', hhi.ne]
    rfl
  have hloop : AddrSpace.detachLoop exempt a b loopFuel s (some v) (some p) dead =
      (s.detachOne exempt a b (some p) v).bind fun r =>
        AddrSpace.detachLoop exempt a b vmaSlots r.1 (s.next v) r.2.1 (r.2.2.toList ++ dead) :=
    if_neg (not_le.mpr (hlo.trans hab))
  rw [hloop, hone]
  by_cases hroom : s₁.Room exempt
  swap
  · rw [hok₁.mustInsert_eq_none hp hnot hroom]
    exact .inl ⟨hroom, rfl⟩
  have hpstart : (s.vma p).vaddrStart = b := congrArg Mapping.lo hmp
  have hpend : (s.vma p).vaddrEnd = (s.vma v).vaddrEnd := congrArg Mapping.hi hmp
  have hpvma : s₁.vma p = s.vma p := update_of_ne hpv ..
  have hother : ∀ x ∈ ls ++ rs, s₁.vma x = s.vma x := fun x hx =>
    update_of_ne (ne_of_mem_of_not_mem hx h.not_mem) ..
  -- the piece goes where the shrink made room for it
  have hpl : s₁.Place (s₁.vma p) (ls ++ [v]) rs := by
    rw [hpvma]
    refine ⟨fun y hy => ?_, fun z hz => ?_⟩
    · rw [hpstart]
      rcases mem_append.mp hy with hy | hy
      · rw [hother y (by simp [hy])]
        exact (h.end_le hy).trans (hlo.le.trans hab.le)
      · rw [mem_singleton.mp hy]
        change (update s.vma v _ v).vaddrEnd ≤ b
        rw [update_self]
        exact hab.le
    · rw [hother z (by simp [hz]), hpend]
      exact h.end_le_start hz
  rw [append_cons] at hok₁
  obtain ⟨s', hins, hok', hre⟩ := hok₁.mustInsert hp (by rwa [← append_cons]) hpl hroom
  have hvma' : s'.vma = s₁.vma := hre.vma
  refine .inr ⟨s', ?_, ?_, ?_, ?_⟩
  · have hstop : ∀ x ∈ rs, b ≤ (s'.vma x).vaddrStart := fun x hx => by
      rw [hvma', hother x (by simp [hx])]
      exact hhi.le.trans (h.end_le_start hx)
    have hnext : s.next v = rs.head? := h.next_eq
    rw [hins, hnext]
    exact detachLoop_stop hstop exempt (by decide) none dead
  · rwa [← append_cons] at hok'
  · exact (keeps_setVma s v _).trans (hre.keeps []) (.refl _) (nil_subset _)
  · have hmeet : a < (s.vma v).vaddrEnd ∧ (s.vma v).vaddrStart < b :=
      ⟨hab.trans hhi, hlo.trans hab⟩
    rw [cutOut_one hmeet, if_pos hlo, if_pos hhi]
    simp only [map_cons, mapping, hvma', hpvma]
    change [(update s.vma v _ v).mapping, s.mapping p] = _
    rw [update_self, hmap, hmp]
    rfl

/-! ### The whole call -/

theorem RangeOk.lt (h : RangeOk vaddr length) : vaddr < vaddr + length :=
  lt_add_of_ne_zero h.2.2.2 h.1

theorem RangeOk.alignedEnd (h : RangeOk vaddr length) : Aligned (vaddr + length) :=
  h.2.1.add h.2.2.1

/-- A range strictly inside a mapping meets no other. -/
theorem Ok.inner_alone (h : s.Ok xs) (hsp : Split s xs a b ls (f :: ms) rs)
    (hv : v ∈ f :: ms) (hin : s.Inner a b v) : v = f ∧ ms = [] := by
  have heq := hsp.eq
  rw [append_assoc] at heq
  rw [heq] at h
  have hmf : ∀ w ∈ ms, (s.vma f).vaddrEnd ≤ (s.vma w).vaddrStart := fun w hw =>
    h.end_le_start (mem_append_left rs hw)
  have hfv : v = f := by
    rcases mem_cons.mp hv with rfl | hv
    · rfl
    · have hf := (hsp.meet f mem_cons_self).1
      exact absurd (hf.trans_le ((hmf v hv).trans hin.1.le)) (lt_irrefl _)
  refine ⟨hfv, eq_nil_iff_forall_not_mem.mpr fun w hw => ?_⟩
  have hw' := (hsp.meet w (mem_cons_of_mem f hw)).2
  rw [hfv] at hin
  exact absurd (hin.2.trans_le ((hmf w hw).trans hw'.le)) (lt_irrefl _)

/-- The list with the range cut out of every mapping. -/
structure Detached (s s' : AddrSpace) (xs xs' : List VmaRef) (a b : UInt64) : Prop where
  ok : s'.Ok xs'
  cut : xs'.map s'.mapping = cutOut a b (xs.map s.mapping)
  keeps : Keeps s s' xs
  old : ∀ v ∈ xs', v ∈ s.live → v ∈ xs

section

variable (hsp : Split s xs a b ls ms rs)
include hsp

theorem Split.off :
    (∀ v ∈ ls, Mapping.pieces.Off a b (s.mapping v)) ∧
      ∀ v ∈ rs, Mapping.pieces.Off a b (s.mapping v) :=
  ⟨fun v hv => .inl (hsp.before v hv), fun v hv => .inr (hsp.after v hv).2⟩

/-- Only the mappings of the range are cut. -/
theorem Split.cutOut_eq : cutOut a b (xs.map s.mapping) =
      ls.map s.mapping ++ cutOut a b (ms.map s.mapping) ++ rs.map s.mapping := by
  rw [hsp.eq, map_append, map_append, cutOut_append, cutOut_append]
  congr 1
  · congr 1
    exact Pieces.flatMap_carve_off (forall_mem_map.mpr hsp.off.1) _
  · exact Pieces.flatMap_carve_off (forall_mem_map.mpr hsp.off.2) _

theorem Ok.split_not_mem (h : s.Ok xs) (hx : v ∈ ls ++ rs) : v ∉ ms := by
  have hnd := h.holds.nodup
  rw [hsp.eq] at hnd
  obtain ⟨hlm, -, hr⟩ := nodup_append.mp hnd
  obtain ⟨-, -, hl⟩ := nodup_append.mp hlm
  intro hmem
  rcases mem_append.mp hx with hx | hx
  · exact hl v hx v hmem rfl
  · exact hr v (mem_append_right ls hmem) v hx rfl

/-- The list changes as the mappings of the range. -/
theorem Ok.detached (h : s.Ok xs) {ms' : List VmaRef}
    (hok : s'.Ok (ls ++ ms' ++ rs)) (hkeep : Keeps s s' ms)
    (hmap : ms'.map s'.mapping = cutOut a b (ms.map s.mapping))
    (hold : ∀ v ∈ ms', v ∈ s.live → v ∈ ms) : Detached s s' xs (ls ++ ms' ++ rs) a b := by
  have hlive : ∀ x ∈ ls ++ ms ++ rs, x ∈ s.live := fun x hx => h.live x (hsp.eq ▸ hx)
  refine ⟨hok, ?_, hkeep.trans (.refl s' []) (fun x hx => ?_) (nil_subset _), ?_⟩
  · rw [hsp.cutOut_eq, map_append, map_append, hmap,
      hkeep.map_eq (fun x hx => hlive x (by simp [hx])) (fun x hx => h.split_not_mem hsp (by simp [hx])),
      hkeep.map_eq (fun x hx => hlive x (by simp [hx])) (fun x hx => h.split_not_mem hsp (by simp [hx]))]
  · rw [hsp.eq]
    simp [hx]
  · intro x hx hlv
    rw [hsp.eq]
    rw [mem_append, mem_append] at hx ⊢
    exact hx.imp_left fun hx => hx.imp_right fun hx => hold x hx hlv

end

/-- The headroom sum of a detach does not wrap around. -/
theorem Rep.headroom_toNat (h : s.Rep xs) {w : ℕ} (hw : w ≤ xs.length) (mid : Prop)
    [Decidable mid] (hextra : extra.toNat ≤ vmaSlots) :
    (s.vmaCount - (0 + UInt32.ofNat w) + (if mid then 1 else 0) + extra).toNat =
      xs.length - w + (if mid then 1 else 0) + extra.toNat := by
  have hlen := h.length_le
  have hcount := h.count
  unfold vmaSlots at hlen hextra
  have hwn : (UInt32.ofNat w).toNat = w := by
    rw [UInt32.toNat_ofNat']
    omega
  have hsub : (s.vmaCount - UInt32.ofNat w).toNat = xs.length - w := by
    rw [UInt32.toNat_sub_of_le _ _ (UInt32.le_iff_toNat_le.mpr (by omega)), hwn, hcount]
  rw [UInt32.zero_add, UInt32.toNat_add, UInt32.toNat_add, hsub]
  split_ifs
  · change (((xs.length - w + 1) % 2 ^ 32) + extra.toNat) % 2 ^ 32 = _
    omega
  · change (((xs.length - w + 0) % 2 ^ 32) + extra.toNat) % 2 ^ 32 = _
    omega

/-- A detach returned the error `rc`, and changed nothing. -/
def DetachRefused (s : AddrSpace) (r : Option (AddrSpace × ℤ × List BurrowRef)) : Prop :=
  ∃ rc, rc ≠ 0 ∧ r = some (s, rc, [])

/-- A detach changes the list; without room for a piece, an extinction. -/
theorem Ok.detachCommit (h : s.Ok xs) (hsp : Split s xs a b ls (f :: ms) rs)
    (hab : a < b) (hal : Aligned a) (hbl : Aligned b) (exempt : Bool) (pick : Option VmaRef) :
    (s.detachCommit exempt pick f (ms.getLastD f) a b = none ∧
      s.Middle f (ms.getLastD f) a b ∧ ¬s.Room exempt) ∨
      DetachRefused s (s.detachCommit exempt pick f (ms.getLastD f) a b) ∨
      ∃ s' dead xs', s.detachCommit exempt pick f (ms.getLastD f) a b = some (s', 0, dead) ∧
      Detached s s' xs xs' a b ∧ xs'.length + (f :: ms).countP (s.Whole a b) =
      xs.length + if s.Middle f (ms.getLastD f) a b then 1 else 0 := by
  rw [AddrSpace.detachCommit]
  by_cases hmid : s.Middle f (ms.getLastD f) a b
  · have hin : s.Inner a b f := hmid.2
    obtain ⟨-, rfl⟩ := h.inner_alone hsp mem_cons_self hin
    have hxs := hsp.eq
    rw [append_assoc] at hxs
    have hf : f ∈ xs := by simp [hxs]
    rw [if_pos hmid, if_pos hmid]
    rcases h.detachPiece (h.live f hf) pick with hnone | ⟨s₁, p, mp, hpiece, hfresh, hmp⟩
    · rw [hnone]
      exact .inr (.inl ⟨-tENomem, by decide, rfl⟩)
    -- the piece is there: the head survives in place, and the piece goes in after it
    have hfp : f ≠ p := h.ne_of_fresh hfresh hf
    have hgood : mp.mapping.Ok s.burrows := by
      have hgf := h.good f (h.live f hf)
      rw [hmp]
      exact hgf.cut (hin.1.trans hab).le hin.2 le_rfl hbl hgf.alignedHi
    have hok₁ := h.fresh hfresh hgood
    have hmf : s₁.mapping f = s.mapping f := congrArg Vma.mapping (hfresh.vma_of_ne hfp)
    have hp : p ∉ xs := fun hmem => h.ne_of_fresh hfresh hmem rfl
    rw [hxs] at hok₁ hp
    have hin₁ : s₁.Inner a b f := by
      rw [Inner, hfresh.vma_of_ne hfp]
      exact hin
    have hmp₁ : s₁.mapping p = (s₁.mapping f).cut b (s₁.vma f).vaddrEnd := by
      rw [hmf, hfresh.vma_of_ne hfp, ← hmp, mapping, hfresh.vma_self]
    obtain ⟨hroom, hloop⟩ | ⟨s', hloop, hok', hkeep, hmap⟩ :=
      hok₁.detachLoop_inner hin₁ hab hal hfresh.mem_live hp hmp₁ exempt []
    · rw [Room, hfresh.count] at hroom
      refine .inl ⟨?_, hmid, hroom⟩
      rw [hpiece]
      dsimp only [Option.bind_some]
      rw [hloop]
      rfl
    have hokm : s'.Ok (ls ++ [f, p] ++ rs) := by rwa [append_assoc]
    rw [hmf] at hmap
    have hkeep' : Keeps s s' [f] := (hfresh.keeps [f]).trans hkeep (.refl _) (.refl _)
    have hold : ∀ x ∈ [f, p], x ∈ s.live → x ∈ [f] := by
      intro x hx hlv
      rcases mem_pair.mp hx with rfl | rfl
      · exact mem_singleton_self x
      · exact absurd hlv hfresh.fresh
    refine .inr (.inr ⟨s', [], _, ?_, h.detached hsp hokm hkeep' hmap hold, ?_⟩)
    · rw [hpiece]
      dsimp only [Option.bind_some]
      rw [hloop]
      rfl
    · have hwhole : ¬s.Whole a b f := fun hw => absurd hw.1 (not_le.mpr hin.1)
      rw [countP_cons_of_neg (by simpa using hwhole), hxs]
      simp
      omega
  · have hno : ∀ v ∈ f :: ms, ¬s.Inner a b v := by
      intro v hv hin
      obtain ⟨rfl, rfl⟩ := h.inner_alone hsp hv hin
      exact hmid ⟨rfl, hin⟩
    rw [if_neg hmid, if_neg hmid]
    have hok := h
    rw [hsp.eq] at hok
    have hfuel : (f :: ms).length < loopFuel := by
      have hlen := hok.length_le
      rw [length_append, length_append] at hlen
      unfold loopFuel
      omega
    obtain ⟨s', dead, ms', hloop, hok', hkeep, hsub, hmap, hlen⟩ :=
      hok.detachLoop hsp.meet (fun v hv => (hsp.after v hv).2) hno hal hbl exempt hfuel none []
    refine .inr (.inr ⟨s', dead, _, ?_, h.detached hsp hok' hkeep hmap fun x hx _ => hsub hx, ?_⟩)
    · rw [cons_append, head?_cons] at hloop
      rw [hloop]
      rfl
    · rw [hsp.eq, length_append, length_append, length_append, length_append]
      omega

/-- **`vma_detach_range_in`** is refused and changes nothing, or takes the range out. If something
was mapped there, it leaves room for `extra` mappings, unless the headroom sum wraps around; then it
may also be an extinction. -/
theorem Ok.vmaDetachRangeIn (h : s.Ok xs) (exempt : Bool) (pick : Option VmaRef)
    (vaddr length : UInt64) (extra : UInt32) :
    (s.vmaDetachRangeIn exempt pick vaddr length extra = none ∧ vmaSlots < extra.toNat) ∨
      DetachRefused s (s.vmaDetachRangeIn exempt pick vaddr length extra) ∨
      ∃ s' dead xs', s.vmaDetachRangeIn exempt pick vaddr length extra = some (s', 0, dead) ∧
      RangeOk vaddr length ∧ Detached s s' xs xs' vaddr (vaddr + length) ∧
      (s.vmaNextOverlapIn vaddr (vaddr + length) = none ∧ xs' = xs ∨
      (extra.toNat ≤ vmaSlots → exempt = false → xs'.length + extra.toNat ≤ procVmaMax.toNat)) := by
  unfold AddrSpace.vmaDetachRangeIn
  by_cases hbad : ¬RangeOk vaddr length ∨ userVaTop < vaddr + length
  · rw [if_pos hbad]
    exact .inr (.inl ⟨-tEInval, by decide, rfl⟩)
  rw [if_neg hbad]
  rw [not_or, not_not] at hbad
  have hlt := hbad.1.lt
  obtain ⟨ls, ms, rs, hsp⟩ := h.exists_split vaddr (vaddr + length)
  rw [h.vmaNextOverlapIn hsp hlt, h.rangeVmas hsp hlt]
  cases ms with
  | nil =>
    have hdet := h.detached hsp (hsp.eq ▸ h) (.refl s []) rfl fun _ hx => absurd hx not_mem_nil
    have hxs := hsp.eq
    exact .inr (.inr ⟨s, [], _, rfl, hbad.1, hdet, .inl ⟨rfl, hxs.symm⟩⟩)
  | cons f ms =>
    rw [head?_cons]
    dsimp only
    rcases detachScan_spec s vaddr (vaddr + length) (f :: ms) f 0 with herr | hok
    · rw [herr]
      exact .inr (.inl ⟨-tEAcces, by decide, rfl⟩)
    rw [hok, getLastD_cons]
    dsimp only
    have hw : (f :: ms).countP (s.Whole vaddr (vaddr + length)) ≤ xs.length := by
      refine countP_le_length.trans ?_
      rw [hsp.eq, length_append, length_append]
      omega
    have hsum (hextra : extra.toNat ≤ vmaSlots) :=
      h.headroom_toNat hw (s.Middle f (ms.getLastD f) vaddr (vaddr + length)) hextra
    generalize s.vmaCount - _ + _ + extra = n at hsum ⊢
    split_ifs with hfull
    · exact .inr (.inl ⟨-tENomem, by decide, rfl⟩)
    have hcap : exempt = false → n.toNat ≤ procVmaMax.toNat := by
      rintro rfl
      rw [Bool.not_false, Bool.true_and, decide_eq_true_eq] at hfull
      exact UInt32.le_iff_toNat_le.mp (UInt32.not_lt.mp hfull)
    rcases h.detachCommit hsp hlt hbad.1.2.1 hbad.1.alignedEnd exempt pick with
      ⟨hnone, hmid, hroom⟩ | href | ⟨s', dead, xs', hcommit, hdet, hlen⟩
    · -- a headroom sum that does not wrap around has room for the piece
      refine .inl ⟨hnone, ?_⟩
      by_contra hextra
      obtain ⟨hex, hcount⟩ := not_or.mp hroom
      have hsum := hsum (not_lt.mp hextra)
      have hcap := hcap (Bool.eq_false_iff.mpr hex)
      have hwhole : ¬s.Whole vaddr (vaddr + length) f := fun hw => absurd hw.1 (not_le.mpr hmid.2.1)
      obtain ⟨-, rfl⟩ := h.inner_alone hsp mem_cons_self hmid.2
      rw [countP_cons_of_neg (by simpa using hwhole), countP_nil, if_pos hmid] at hsum
      rw [UInt32.lt_iff_toNat_lt, h.count] at hcount
      omega
    · exact .inr (.inl href)
    · refine .inr (.inr ⟨s', dead, xs', hcommit, hbad.1, hdet, .inr fun hextra hex => ?_⟩)
      have hsum := hsum hextra
      have hcap := hcap hex
      omega

/-! ### Replace -/

/-- What is seen after a detach. -/
theorem Detached.view (h : s.Ok xs) (hd : Detached s s' xs zs a b) (va : UInt64) :
    s'.view va = if a ≤ va ∧ va < b then none else s.view va := by
  rw [hd.ok.view_eq, hd.cut, h.view_eq]
  exact Pieces.view_carve_nil

theorem Detached.clear (hd : Detached s s' xs zs a b) {m : Vma} (ha : m.vaddrStart = a)
    (hb : m.vaddrEnd = b) : s'.Clear zs m := by
  intro x hx hov
  have hmem : s'.mapping x ∈ cutOut a b (xs.map s.mapping) := hd.cut ▸ mem_map_of_mem hx
  obtain ⟨y, -, hy⟩ := mem_flatMap.mp hmem
  rcases Pieces.off_of_mem_carve_nil hy with hoff | hoff
  · exact absurd (ha ▸ hov.1) (not_lt.mpr hoff)
  · exact absurd (hb ▸ hov.2) (not_lt.mpr hoff)

theorem Split.sameList (hsp : Split s xs a b ls ms rs) (hsame : SameList s s' xs) :
    Split s' xs a b ls ms rs := by
  have hvma : ∀ v ∈ ls ++ ms ++ rs, s'.vma v = s.vma v := fun v hv =>
    (hsame.node v (hsp.eq ▸ hv)).2.2
  refine ⟨hsp.eq, fun v hv => ?_, fun v hv => ?_, fun v hv => ?_⟩ <;> rw [hvma v (by simp [hv])]
  · exact hsp.before v hv
  · exact hsp.meet v hv
  · exact hsp.after v hv

/-- The same list finds the same mappings. -/
theorem Ok.vmaNextOverlapIn_sameList (h : s.Ok xs) (h' : s'.Ok xs) (hsame : SameList s s' xs)
    (hab : a < b) : s'.vmaNextOverlapIn a b = s.vmaNextOverlapIn a b := by
  obtain ⟨ls, ms, rs, hsp⟩ := h.exists_split a b
  rw [h.vmaNextOverlapIn hsp hab, h'.vmaNextOverlapIn (hsp.sameList hsame) hab]

theorem Ok.view_sameList (h : s.Ok xs) (h' : s'.Ok xs) (hsame : SameList s s' xs) (va : UInt64) :
    s'.view va = s.view va := by
  rw [h.view_eq, h'.view_eq, hsame.map_eq]

/-- What is seen after a new mapping was linked. -/
theorem Ok.view_insert (h : s.Ok (ys ++ zs)) (h' : s'.Ok (ys ++ v :: zs)) (hr : Relinked s s')
    (hpl : s.Place (s.vma v) ys zs) (va : UInt64) :
    s'.view va = (Mapping.pieces.shows (s.mapping v) va).or (s.view va) := by
  have hmap : s'.mapping = s.mapping := by
    funext x
    rw [mapping, hr.vma, mapping]
  rw [h'.view_eq, h.view_eq, hmap, map_append, map_append]
  refine Pieces.view_insert fun y hy => ?_
  obtain ⟨x, hx, rfl⟩ := mem_map.mp hy
  exact hpl.before x hx

/-- A replace of a free range needs room of its own: its detach does not check the headroom. -/
def ReplaceRoom (s : AddrSpace) (exempt : Bool) (vaddr length : UInt64) : Prop :=
  s.vmaNextOverlapIn vaddr (vaddr + length) = none → s.Room exempt

/-- A replace returned the error `rc`; the list is as before. -/
def ReplaceRefused (s : AddrSpace) (xs : List VmaRef)
    (r : Option (AddrSpace × ℤ × List BurrowRef)) : Prop :=
  ∃ s' rc dead, r = some (s', rc, dead) ∧ rc ≠ 0 ∧ s'.Ok xs ∧ SameList s s' xs

/-- The range shows the Burrow `nb` from `off` on; all else is as before. -/
structure Replaced (s s' : AddrSpace) (xs : List VmaRef) (vaddr length : UInt64) (nb : BurrowRef)
    (prot : UInt32) (off : UInt64) : Prop where
  ok : s'.Ok xs
  view : ∀ va, s'.view va = if vaddr ≤ va ∧ va < vaddr + length then
    some ⟨some (nb, off + (va - vaddr)), prot, vmaSetProtMax 0 prot⟩ else s.view va

/-- The end of a replace: the new mapping goes where the range was. -/
theorem Ok.replaceInsert (h : s.Ok xs) (hd : Detached s s' xs zs a b) (hv : v ∈ s'.live)
    (hnot : v ∉ zs) (ha : (s'.vma v).vaddrStart = a) (hb : (s'.vma v).vaddrEnd = b)
    (hroom : s'.Room exempt) :
    ∃ s'' xs'', s'.mustInsert exempt v = some s'' ∧ s''.Ok xs'' ∧
      xs''.length = zs.length + 1 ∧ ∀ va, s''.view va = if a ≤ va ∧ va < b then
      some ⟨(s'.mapping v).byteAt va, (s'.vma v).prot, (s'.vma v).flags⟩ else s.view va := by
  obtain ⟨ys, zs, rfl, hpl⟩ := hd.ok.exists_place (hd.clear ha hb)
  obtain ⟨s'', hins, hok, hr⟩ := hd.ok.mustInsert hv hnot hpl hroom
  refine ⟨s'', _, hins, hok, by simp; omega, fun va => ?_⟩
  subst ha hb
  rw [hd.ok.view_insert hok hr hpl, hd.view h]
  rw [Pieces.shows]
  by_cases hc : (s'.vma v).vaddrStart ≤ va ∧ va < (s'.vma v).vaddrEnd
  · rw [if_pos (show Mapping.pieces.Covers (s'.mapping v) va from hc), if_pos hc, if_pos hc]
    rfl
  · rw [if_neg (show ¬Mapping.pieces.Covers (s'.mapping v) va from hc), if_neg hc, if_neg hc]
    rfl

/-- **`vma_replace_range_in`** is an extinction only without room in a free range, is refused and
leaves the list, or the range shows the new Burrow. -/
theorem Ok.vmaReplaceRangeIn (h : s.Ok xs) (exempt : Bool) (pick pickPiece : Option VmaRef)
    (vaddr length : UInt64) {nb : Option BurrowRef} {prot : UInt32} {off : UInt64}
    (halive : ∀ b, nb = some b → s.Alive b) (hprot : Within prot 7) (hoff : Aligned off) :
    (s.vmaReplaceRangeIn exempt pick pickPiece vaddr length nb prot off = none ∧
      ¬s.ReplaceRoom exempt vaddr length) ∨
      s.ReplaceRefused xs (s.vmaReplaceRangeIn exempt pick pickPiece vaddr length nb prot off) ∨
      ∃ s' dead xs' b, nb = some b ∧
      s.vmaReplaceRangeIn exempt pick pickPiece vaddr length nb prot off = some (s', 0, dead) ∧
      Replaced s s' xs' vaddr length b (normalProt (s.burrows b).type prot) off ∧
      (exempt = false → xs'.length ≤ procVmaMax.toNat) := by
  unfold AddrSpace.vmaReplaceRangeIn
  by_cases hbad : nb = none ∨ ¬RangeOk vaddr length
  · rw [if_pos hbad]
    exact .inr (.inl ⟨s, _, [], rfl, by decide, h, .refl s xs⟩)
  rw [if_neg hbad]
  rw [not_or, not_not] at hbad
  have hlt := hbad.2.lt
  rcases s.vmaAlloc_spec pick vaddr (vaddr + length) prot nb off halive with
    hnone | ⟨s₁, nv, b, hsome, -, hnb, hadm, hfresh⟩
  · rw [hnone]
    exact .inr (.inl ⟨s, _, [], rfl, by decide, h, .refl s xs⟩)
  have hok₁ : s₁.Ok xs := h.fresh hfresh (ok_of_admits hadm hprot hoff)
  have hsame := h.sameList_fresh hfresh
  have hnot : nv ∉ xs := fun hmem => h.ne_of_fresh hfresh hmem rfl
  rw [hsome, Option.bind_some]
  dsimp only
  rcases hok₁.vmaDetachRangeIn exempt pickPiece vaddr length 1 with
    ⟨-, hmany⟩ | ⟨rc, hne, hdet⟩ | ⟨s₂, dead, xs₂, hdet, -, hd, hlen⟩
  · exact absurd hmany (by decide)
  · -- the new mapping is freed again
    obtain ⟨s₂, d, hfree, hfreed, -⟩ := hok₁.vmaFree hfresh.mem_live hnot
    refine .inr (.inl ⟨s₂, rc, d.toList ++ [], ?_, hne, hok₁.freed hfreed hfresh.mem_live hnot,
      hsame.trans (hfreed.sameList xs)⟩)
    rw [hdet, Option.bind_some]
    rw [if_pos hne, hfree]
    rfl
  obtain ⟨hlive₂, hvma₂⟩ := hd.keeps.node nv hfresh.mem_live hnot
  rw [hfresh.vma_self] at hvma₂
  have hnot₂ : nv ∉ xs₂ := fun hmem => hnot (hd.old nv hmem hfresh.mem_live)
  have hfree₁ := h.vmaNextOverlapIn_sameList hok₁ hsame hlt
  rw [hdet, Option.bind_some]
  by_cases hroom : s₂.Room exempt
  · obtain ⟨s₃, xs₃, hins, hok₃, hlen₃, hview⟩ := hok₁.replaceInsert hd hlive₂ hnot₂
      (congrArg Vma.vaddrStart hvma₂) (congrArg Vma.vaddrEnd hvma₂) hroom
    refine .inr (.inr ⟨s₃, dead, xs₃, b, hnb, ?_, ⟨hok₃, fun va => ?_⟩, fun hex => ?_⟩)
    · rw [hins]
      rfl
    · rw [hview, h.view_sameList hok₁ hsame, mapping, hvma₂]
      rfl
    · rw [hd.ok.room_iff, hex, or_iff_right Bool.false_ne_true] at hroom
      omega
  · refine .inl ⟨?_, fun hrr => hroom ?_⟩
    · rw [hd.ok.mustInsert_eq_none hlive₂ hnot₂ hroom]
      rfl
    · rw [hd.ok.room_iff]
      cases exempt with
      | true => exact .inl rfl
      | false =>
        rcases hlen with ⟨hnone, rfl⟩ | hlen
        · exact h.room_iff.mp (hrr (hfree₁ ▸ hnone))
        · exact .inr (hlen (by decide) rfl)

/-! ### Pointwise -/

/-- **Detach and replace, pointwise**: a detach leaves what was seen outside the range, a replace
also shows the new Burrow in it, and an error changes neither what is seen nor the count. -/
theorem detach_replace_pointwise (s : AddrSpace) (h : s.WellFormed) (exempt : Bool)
    (pick pickPiece : Option VmaRef) (vaddr length : UInt64) :
    (∀ extra : UInt32,
      (extra.toNat ≤ vmaSlots → (s.vmaDetachRangeIn exempt pick vaddr length extra).isSome) ∧
      ∀ s' rc dead, s.vmaDetachRangeIn exempt pick vaddr length extra = some (s', rc, dead) →
        (rc = 0 → ∀ va, s'.view va =
          if vaddr ≤ va ∧ va < vaddr + length then none else s.view va) ∧
        (rc ≠ 0 → s'.view = s.view ∧ s'.vmaCount = s.vmaCount)) ∧
    ∀ (nb : Option BurrowRef) (prot : UInt32) (off : UInt64), (∀ b, nb = some b → s.Alive b) →
      Within prot 7 → Aligned off → ∀ s' rc dead,
        s.vmaReplaceRangeIn exempt pick pickPiece vaddr length nb prot off = some (s', rc, dead) →
        (rc = 0 → ∃ b, nb = some b ∧ ∀ va, s'.view va =
          if vaddr ≤ va ∧ va < vaddr + length then
            some ⟨some (b, off + (va - vaddr)), normalProt (s.burrows b).type prot,
              vmaSetProtMax 0 (normalProt (s.burrows b).type prot)⟩
          else s.view va) ∧
        (rc ≠ 0 → s'.view = s.view ∧ s'.vmaCount = s.vmaCount) := by
  refine ⟨fun extra => ?_, fun nb prot off halive hprot hoff s' rc dead hrun => ?_⟩
  · rcases h.vmaDetachRangeIn exempt pick vaddr length extra with
      ⟨hnone, hmany⟩ | ⟨rc, hrc, heq⟩ | ⟨s', dead, xs', heq, -, hd, -⟩
    · rw [hnone]
      exact ⟨fun hextra => absurd hextra (not_le.mpr hmany), nofun⟩
    · rw [heq]
      refine ⟨fun _ => rfl, ?_⟩
      rintro _ _ _ ⟨⟩
      exact ⟨fun h0 => absurd h0 hrc, fun _ => ⟨rfl, rfl⟩⟩
    · rw [heq]
      refine ⟨fun _ => rfl, ?_⟩
      rintro _ _ _ ⟨⟩
      exact ⟨fun _ => hd.view h, absurd rfl⟩
  · rcases h.vmaReplaceRangeIn exempt pick pickPiece vaddr length halive hprot hoff with
      ⟨hnone, -⟩ | ⟨s₁, rc₁, dead₁, heq, hne, hok, hsame⟩ | ⟨s₁, dead₁, xs₁, b, hb, heq, hr, -⟩
    · rw [hnone] at hrun
      cases hrun
    · rw [heq] at hrun
      cases hrun
      exact ⟨fun h0 => absurd h0 hne, fun _ => ⟨funext (h.view_sameList hok hsame), hsame.count⟩⟩
    · rw [heq] at hrun
      cases hrun
      exact ⟨fun _ => ⟨b, hb, hr.view⟩, absurd rfl⟩

/-- A Burrow of four pages that somebody holds. -/
def heldBurrow : Burrow := ⟨.anon, 4, 1, 0, none, false, by decide⟩

/-- The Burrow `7` is mapped at four pages. -/
def fourPages (w : Burrow) : AddrSpace :=
  (((init fun _ => w).vmaReplaceRangeIn false (some ⟨0, by decide⟩) none 0x10000 0x4000 (some 7)
    vmaProtRw 0).map Prod.fst).getD (init fun _ => w)

theorem fourPages_wellFormed {w : Burrow} (hw : 0 < w.handleCount) : (fourPages w).WellFormed := by
  have hok := init_ok fun _ => w
  unfold fourPages
  rcases hok.vmaReplaceRangeIn false (some ⟨0, by decide⟩) none 0x10000 0x4000
    (show ∀ b, some 7 = some b → (init fun _ => w).Alive b from fun _ _ => .inl hw)
    (show Within vmaProtRw 7 from rfl) (show Aligned 0 by decide) with
    ⟨hrun, -⟩ | ⟨s, rc, dead, hrun, -, hok', -⟩ | ⟨s, dead, xs, b, -, hrun, hr, -⟩ <;> rw [hrun]
  · exact hok.wellFormed
  · exact hok'.wellFormed
  · exact hr.ok.wellFormed

/-- The second of the four pages is taken out. -/
theorem detach_replace_pointwise_init :
    ∃ s' dead, (fourPages heldBurrow).vmaDetachRangeIn false (some ⟨1, by decide⟩) 0x11000 0x1000
        0 = some (s', 0, dead) ∧ s'.view 0x11000 = none ∧
      s'.view 0x12000 = some ⟨some (7, 0x2000), vmaProtRw, vmaSetProtMax 0 vmaProtRw⟩ := by
  have hrc : ((fourPages heldBurrow).vmaDetachRangeIn false (some ⟨1, by decide⟩) 0x11000 0x1000
      0).map (fun r => r.2.1) = some 0 := by
    decide +kernel
  obtain ⟨⟨s', rc, dead⟩, hrun, rfl⟩ := Option.map_eq_some_iff.mp hrc
  have hview := (((detach_replace_pointwise (fourPages heldBurrow) (fourPages_wellFormed one_pos)
    false (some ⟨1, by decide⟩) none 0x11000 0x1000).1 0).2 s' 0 dead hrun).1 rfl
  refine ⟨s', dead, hrun, hview 0x11000, (hview 0x12000).trans ?_⟩
  decide +kernel

end AddrSpace

end Thylacine
