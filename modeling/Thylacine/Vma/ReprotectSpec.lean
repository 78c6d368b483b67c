import Mathlib.Data.List.Chain
import Thylacine.Vma.DetachSpec

/-!
# Reprotect and Coalescing

The specification of `reprotect_merge_in` and `vma_reprotect_range_in` against the invariant. A
merge makes two pieces of the interval map one, so nothing that is seen changes. A reprotect cuts
the first and the last mapping of the range, which changes nothing that is seen either, then
writes to the mappings that now lie in the range whole, and merges.

## Main results

* `reprotect_pointwise`: what is seen after it; an error leaves the list as it was.
-/

namespace Thylacine

open DoublyLinked IntervalMap List Word
open Option (bind_some map_some mem_def mem_toList ne_none_iff_exists' toList_none toList_some)

/-- What is seen at an address, with a new prot, and if `sealed` the ceiling. -/
def Entry.reprotected (prot : UInt32) (sealed : Bool) (e : Entry) : Entry :=
  { e with prot := prot, flags := if sealed then vmaSetProtMax e.flags prot else e.flags }

/-- The part of a mapping between `c` and `d`, if any. -/
def Mapping.part (x : Mapping) (c d : UInt64) : List Mapping := if c < d then [x.cut c d] else []

namespace AddrSpace

variable {s s' s'' : AddrSpace} {xs ys zs ls ms rs : List VmaRef} {v w : VmaRef} {m : Vma}
  {a b lo hi : UInt64}

/-! ### One merge -/

/-- The mapping `m` up to the end of `n`. -/
def merged (m n : Vma) : Vma := { m with vaddrEnd := n.vaddrEnd }

/-- A write to a mapping does not touch the links. -/
theorem vmaRemoveIn_setVma (h : s.vmaRemoveIn w = some s') :
    (s.setVma v m).vmaRemoveIn w = some (s'.setVma v m) := by
  unfold vmaRemoveIn at h ⊢
  split_ifs at h with hlinked
  cases h
  exact if_pos hlinked

/-- Two mappings of one Burrow are two of its users. -/
theorem Ok.two_le (h : s.Ok xs) (hv : v ∈ s.live) (hw : w ∈ s.live) (hne : v ≠ w)
    {c : BurrowRef} (hvc : (s.vma v).burrow = some c) (hwc : (s.vma w).burrow = some c) :
    2 ≤ (s.burrows c).mappingCount := by
  have hsub : {v, w} ⊆ s.users c := by
    rw [Finset.insert_subset_iff, Finset.singleton_subset_iff]
    exact ⟨Finset.mem_filter.mpr ⟨hv, hvc⟩, Finset.mem_filter.mpr ⟨hw, hwc⟩⟩
  calc 2 = ({v, w} : Finset VmaRef).card := (Finset.card_pair hne).symm
    _ ≤ (s.users c).card := Finset.card_le_card hsub
    _ ≤ (s.burrows c).mappingCount := h.counted c

/-- **One merge**: the neighbour goes, its Burrow keeps a mapping. -/
theorem Ok.mergeOne (h : s.Ok (ls ++ v :: w :: rs)) (hm : reprotectMergeable (s.vma v) (s.vma w)) :
    ∃ s₁ s₂, (s.setVma v (merged (s.vma v) (s.vma w))).vmaRemoveIn w = some s₁ ∧
      s₁.vmaFree w = some (s₂, none) ∧ s₂.Ok (ls ++ v :: rs) ∧ Keeps s s₂ [v, w] ∧
      s₂.vma v = merged (s.vma v) (s.vma w) := by
  have hmm := mergeable_iff.mp hm
  have hv : v ∈ s.live := h.live v (by simp)
  have hw : w ∈ s.live := h.live w (by simp)
  have hne : v ≠ w := fun heq => h.not_mem (heq ▸ by simp)
  have h' := h
  rw [append_cons] at h'
  have hnot : w ∉ ls ++ v :: rs := by
    rw [append_cons]
    exact h'.not_mem
  obtain ⟨s₁, hrem, hok₁, hre⟩ := h'.vmaRemoveIn
  rw [← append_cons] at hok₁
  -- between its neighbours, the mapping grows over the place that became free
  have hgood : (merged (s.vma v) (s.vma w)).mapping.Ok s₁.burrows := by
    have hj := (h.good v hv).join (h.good w hw) hmm
    refine hj.later fun c _ _ => ?_
    obtain ⟨ht, hp, -⟩ := hre.burrows c
    exact ⟨ht, hp.ge⟩
  set s₂ := s₁.setVma v (merged (s.vma v) (s.vma w))
  have hok₂ : s₂.Ok (ls ++ v :: rs) := by
    refine hok₁.setVma (by rw [hre.vma]; rfl) hgood (fun y hy => ?_) fun z hz => ?_
    · rw [hre.vma]
      exact h.end_le hy
    · rw [hre.vma]
      exact h'.end_le_start hz
  have hvmaw : s₂.vma w = s.vma w := by
    refine (Function.update_of_ne hne.symm ..).trans ?_
    rw [hre.vma]
  have hw₂ : w ∈ s₂.live := hre.live.symm ▸ hw
  obtain ⟨s₃, dead, hfree, hfreed, hdead⟩ := hok₂.vmaFree hw₂ hnot
  refine ⟨_, s₃, vmaRemoveIn_setVma hrem, ?_, hok₂.freed hfreed hw₂ hnot, ?_, ?_⟩
  · rw [hfree]
    by_cases hnone : dead = none
    · rw [hnone]
    -- the neighbour still maps the Burrow
    obtain ⟨c, hc, hone⟩ := hdead hnone
    rw [hvmaw] at hc
    have htwo := h.two_le hv hw hne (hm.2.2.1.trans hc) hc
    have hcount : (s₂.burrows c).mappingCount = (s.burrows c).mappingCount := (hre.burrows c).2.2.1
    omega
  · have hk : Keeps s s₂ [v] :=
      (hre.keeps []).trans (keeps_setVma s₁ v _) (nil_subset _) (.refl _)
    exact hk.trans hfreed.keeps (by simp) (by simp)
  · rw [hfreed.vma]
    exact Function.update_self ..

/-! ### The coalescing pass -/

/-- No neighbours that meet at the range could be one mapping. -/
def Coalesced (s : AddrSpace) (lo hi : UInt64) : Prop :=
  s.list.IsChain fun x y => lo ≤ (s.vma x).vaddrEnd → (s.vma y).vaddrStart ≤ hi →
    ¬reprotectMergeable (s.vma x) (s.vma y)

/-- Past the range, no boundary touches it. -/
theorem Ok.isChain_past (h : s.Ok (ls ++ v :: rs)) (hpast : hi ≤ (s.vma v).vaddrStart) :
    (v :: rs).IsChain fun x y => (s.vma y).vaddrStart ≤ hi →
      ¬reprotectMergeable (s.vma x) (s.vma y) := by
  have hafter : ∀ y ∈ rs, ¬(s.vma y).vaddrStart ≤ hi := fun y hy =>
    not_le.mpr ((hpast.trans_lt (h.start_lt_end (by simp))).trans_le (h.end_le_start hy))
  exact (pairwise_cons.mpr ⟨fun y hy hle => absurd hle (hafter y hy),
    pairwise_of_forall_mem_list fun _ _ y hy hle => absurd hle (hafter y hy)⟩).isChain

/-- What the coalescing pass leaves from `v` on, which only grows. -/
structure MergedFrom (s s' : AddrSpace) (hi : UInt64) (ls : List VmaRef) (v : VmaRef)
    (rs ys : List VmaRef) : Prop where
  ok : s'.Ok (ls ++ v :: ys)
  sublist : ys.Sublist rs
  keeps : Keeps s s' (v :: rs)
  head : ∃ n, s'.vma v = merged (s.vma v) n
  chain : (v :: ys).IsChain fun x y => (s'.vma y).vaddrStart ≤ hi →
    ¬reprotectMergeable (s'.vma x) (s'.vma y)
  view : ∀ va, s'.view va = s.view va

theorem Ok.mergedFrom_self (h : s.Ok (ls ++ v :: rs))
    (hchain : (v :: rs).IsChain fun x y => (s.vma y).vaddrStart ≤ hi →
      ¬reprotectMergeable (s.vma x) (s.vma y)) : MergedFrom s s hi ls v rs rs :=
  ⟨h, .refl _, .refl s _, ⟨s.vma v, rfl⟩, hchain, fun _ => rfl⟩

/-- One merge changes nothing that is seen. -/
theorem Ok.view_mergeOne (h : s.Ok (ls ++ v :: w :: rs)) (h' : s'.Ok (ls ++ v :: rs))
    (hm : reprotectMergeable (s.vma v) (s.vma w)) (hkeep : Keeps s s' [v, w])
    (hv : s'.vma v = merged (s.vma v) (s.vma w)) (va : UInt64) : s'.view va = s.view va := by
  have hnd := h.holds.nodup
  have hrest : ∀ zs, zs ⊆ ls ++ v :: w :: rs → v ∉ zs → w ∉ zs →
      zs.map s'.mapping = zs.map s.mapping := fun zs hsub hvz hwz =>
    hkeep.map_eq (fun x hx => h.live x (hsub hx)) fun x hx hmem => by
      rcases mem_pair.mp hmem with rfl | rfl
      · exact hvz hx
      · exact hwz hx
  obtain ⟨-, hvw, hdisj⟩ := nodup_append.mp hnd
  obtain ⟨hv', hw'⟩ := nodup_cons.mp hvw
  have hls := hrest ls (by simp) (fun hx => hdisj v hx v (by simp) rfl)
    fun hx => hdisj w hx w (by simp) rfl
  have hrs := hrest rs (fun x hx => by simp [hx]) (fun hx => hv' (by simp [hx]))
    (nodup_cons.mp hw').1
  have hmap : s'.mapping v = (s.mapping v).join (s.mapping w) := by
    rw [mapping, hv]
    rfl
  rw [h.view_eq, h'.view_eq]
  simp only [map_append, map_cons, hls, hrs, hmap]
  exact Pieces.view_fuse (mergeable_iff.mp hm).joins (h.start_lt_end (by simp))
    (h.start_lt_end (by simp))

/-- **The loop** of the coalescing pass. -/
theorem Ok.mergeLoop (h : s.Ok (ls ++ v :: rs)) (hi : UInt64) {fuel : ℕ}
    (hfuel : rs.length < fuel) :
    ∃ s' ys, mergeLoop hi fuel s v = some s' ∧ MergedFrom s s' hi ls v rs ys := by
  induction fuel generalizing s ls v rs with
  | zero => exact absurd hfuel (Nat.not_lt_zero _)
  | succ fuel ih =>
    rw [AddrSpace.mergeLoop, h.next_eq]
    cases rs with
    | nil => exact ⟨s, [], rfl, h.mergedFrom_self (isChain_singleton _)⟩
    | cons w rs =>
      rw [head?_cons]
      dsimp only
      split_ifs with hpast hm
      · exact ⟨s, _, rfl, h.mergedFrom_self (h.isChain_past hpast)⟩
      · obtain ⟨s₁, s₂, hrem, hfree, hok, hkeep, hv⟩ := h.mergeOne hm
        obtain ⟨s', ys, hrun, hfrom⟩ := ih hok (Nat.lt_of_succ_lt_succ hfuel)
        refine ⟨s', ys, ?_, hfrom.ok, hfrom.sublist.cons w, ?_, ?_, hfrom.chain, fun va => ?_⟩
        · change ((s.setVma v (merged (s.vma v) (s.vma w))).vmaRemoveIn w).bind _ = _
          rw [hrem, bind_some, hfree]
          exact hrun
        · exact hkeep.trans hfrom.keeps (by simp) (cons_subset_cons v (subset_cons_self w rs))
        · obtain ⟨n, hn⟩ := hfrom.head
          exact ⟨n, hn.trans (by rw [hv]; rfl)⟩
        · rw [hfrom.view, h.view_mergeOne hok hm hkeep hv]
      · have h' := h
        rw [append_cons] at h'
        obtain ⟨s', ys, hrun, hfrom⟩ := ih h' (Nat.lt_of_succ_lt_succ hfuel)
        have hv : s'.vma v = s.vma v := by
          refine (hfrom.keeps.node v (h.live v (by simp)) fun hmem => h.not_mem ?_).2
          exact mem_append_right ls hmem
        have hok := hfrom.ok
        rw [← append_cons] at hok
        refine ⟨s', w :: ys, hrun, hok, hfrom.sublist.cons_cons w, ?_, ⟨s.vma v, hv⟩, ?_,
          hfrom.view⟩
        · exact hfrom.keeps.trans (.refl s' []) (subset_cons_self v _) (nil_subset _)
        · obtain ⟨n, hn⟩ := hfrom.head
          refine isChain_cons_cons.mpr ⟨fun _ => ?_, hfrom.chain⟩
          rw [hv, hn]
          exact hm

/-- What the coalescing pass does to the list. -/
structure Merged (s s' : AddrSpace) (xs xs' : List VmaRef) (lo hi : UInt64) : Prop where
  ok : s'.Ok xs'
  sublist : xs'.Sublist xs
  keeps : Keeps s s' xs
  coalesced : s'.Coalesced lo hi
  view : ∀ va, s'.view va = s.view va

/-- The loop, from where all mappings before end below the range. -/
theorem Ok.mergeLoop_merged (h : s.Ok (ls ++ v :: rs)) (hls : ∀ x ∈ ls, (s.vma x).vaddrEnd < lo) :
    ∃ s' xs', AddrSpace.mergeLoop hi loopFuel s v = some s' ∧ Merged s s' (ls ++ v :: rs) xs' lo hi := by
  have hfuel : rs.length < loopFuel := by
    have hlen := h.length_le
    rw [length_append, length_cons] at hlen
    unfold loopFuel
    omega
  obtain ⟨s', ys, hrun, hfrom⟩ := h.mergeLoop hi hfuel
  have hkeep : Keeps s s' (ls ++ v :: rs) :=
    hfrom.keeps.trans (.refl s' []) (subset_append_right ..) (nil_subset _)
  refine ⟨s', ls ++ v :: ys, hrun, hfrom.ok, ?_, hkeep, ?_, hfrom.view⟩
  · exact (hfrom.sublist.cons_cons v).append_left ls
  · have hpre : ∀ x ∈ ls, s'.vma x = s.vma x := fun x hx => by
      refine (hfrom.keeps.node x (h.live x (by simp [hx])) fun hmem => ?_).2
      have hnd := h.holds.nodup
      exact (nodup_append.mp hnd).2.2 x hx x hmem rfl
    have hbelow : ∀ x ∈ ls, ¬lo ≤ (s'.vma x).vaddrEnd := fun x hx => by
      rw [hpre x hx]
      exact not_le.mpr (hls x hx)
    rw [Coalesced, hfrom.ok.list_eq]
    refine IsChain.append ?_ (hfrom.chain.imp fun x y hxy _ => hxy) fun x hx y _ hle =>
      absurd hle (hbelow x (mem_of_getLast? hx))
    exact (pairwise_of_forall_mem_list fun x hx _ _ hle => absurd hle (hbelow x hx)).isChain

variable {prot : UInt32} {length vaddr : UInt64} {f l x : VmaRef} {exempt sealed : Bool}
  {ini tl : List VmaRef} {lp rp : Option VmaRef}

/-- Of two mappings that meet at or in the range, one meets it. -/
theorem Ok.meets_of_boundary (h : s.Ok xs) {y : VmaRef} (hx : x ∈ xs) (hy : y ∈ xs)
    (hlt : lo < hi) (hlo : lo ≤ (s.vma x).vaddrEnd) (hhi : (s.vma y).vaddrStart ≤ hi)
    (hm : reprotectMergeable (s.vma x) (s.vma y)) :
    lo < (s.vma x).vaddrEnd ∧ (s.vma x).vaddrStart < hi ∨
      lo < (s.vma y).vaddrEnd ∧ (s.vma y).vaddrStart < hi := by
  have hmeet : (s.vma x).vaddrEnd = (s.vma y).vaddrStart := hm.2.2.2.1
  have hxe := h.start_lt_end hx
  have hye := h.start_lt_end hy
  rcases hlo.lt_or_eq with hlo | hlo
  · exact .inl ⟨hlo, hxe.trans_le (hmeet ▸ hhi)⟩
  · rw [← hmeet, ← hlo] at hye ⊢
    exact .inr ⟨hye, hlt⟩

/-- **`reprotect_merge_in`** changes nothing seen, and leaves no two mappings that could be one. -/
theorem Ok.reprotectMergeIn (h : s.Ok xs) (hlt : lo < hi) :
    ∃ s' xs', s.reprotectMergeIn lo hi = some s' ∧ Merged s s' xs xs' lo hi := by
  obtain ⟨ls, ms, rs, hsp⟩ := h.exists_split lo hi
  rw [AddrSpace.reprotectMergeIn, h.vmaNextOverlapIn hsp hlt]
  have hxs := hsp.eq
  cases ms with
  | nil =>
    refine ⟨s, xs, rfl, h, .refl _, .refl s _, ?_, fun _ => rfl⟩
    have hoff : ∀ x ∈ xs, ¬(lo < (s.vma x).vaddrEnd ∧ (s.vma x).vaddrStart < hi) := by
      rw [hxs, append_nil]
      exact forall_mem_append.mpr ⟨fun x hx hmeet => hmeet.1.not_ge (hsp.before x hx),
        fun x hx hmeet => hmeet.2.not_ge (hsp.after x hx).2⟩
    rw [Coalesced, h.list_eq]
    refine (pairwise_of_forall_mem_list fun x hx y hy hlo hhi hm => ?_).isChain
    exact (h.meets_of_boundary hx hy hlt hlo hhi hm).elim (hoff x hx) (hoff y hy)
  | cons v ms =>
    rw [append_assoc] at hxs
    rw [hxs] at h ⊢
    rw [head?_cons]
    dsimp only
    rw [h.prev_eq]
    rcases eq_nil_or_concat ls with rfl | ⟨ls, p, rfl⟩
    · exact h.mergeLoop_merged fun x (hx : x ∈ []) => absurd hx not_mem_nil
    · -- the left neighbour is looked at too
      rw [concat_eq_append] at h ⊢
      rw [getLast?_concat]
      rw [append_assoc] at h ⊢
      refine h.mergeLoop_merged fun x hx => ?_
      exact (h.end_le hx).trans_lt ((h.start_lt_end (by simp)).trans_le (hsp.before p (by simp)))

/-! ### The precheck -/

/-- A reprotect to `prot` may write to the mapping. -/
structure Reprotectable (s : AddrSpace) (prot : UInt32) (v : VmaRef) : Prop where
  backed : ∃ c, (s.vma v).burrow = some c ∧ reprotectAdmits (s.burrows c).type = true
  own : (s.vma v).flags &&& vmaFlagSharedIn = 0
  ceiling : Within prot (vmaProtMax (s.vma v).flags)

/-- The precheck's walk: every mapping may be written, without a gap, or it is an error. -/
theorem precheckWalk_spec (s : AddrSpace) (prot : UInt32) (ms : List VmaRef) (cur : UInt64) :
    (∃ e, s.precheckWalk prot ms cur = .error e ∧ (e = -tENomem ∨ e = -tEAcces)) ∨
      ∃ last, s.precheckWalk prot ms cur = .ok last ∧ (∀ v ∈ ms, s.Reprotectable prot v) ∧
      ∀ va, cur ≤ va → va < last →
      ∃ v ∈ ms, (s.vma v).vaddrStart ≤ va ∧ va < (s.vma v).vaddrEnd := by
  induction ms generalizing cur with
  | nil => exact .inr ⟨cur, rfl, nofun, fun va hle hlt => absurd hlt (not_lt.mpr hle)⟩
  | cons v ms ih =>
    cases hc : (s.vma v).burrow with
    | none =>
      simp only [precheckWalk, hc, ite_self]
      exact .inl ⟨_, rfl, .inl rfl⟩
    | some c =>
      simp only [precheckWalk, hc]
      split_ifs with hgap hshared hadm hceil
      · exact .inl ⟨_, rfl, .inl rfl⟩
      · exact .inl ⟨_, rfl, .inr rfl⟩
      · exact .inl ⟨_, rfl, .inr rfl⟩
      · exact .inl ⟨_, rfl, .inr rfl⟩
      refine (ih (s.vma v).vaddrEnd).imp_right ?_
      rintro ⟨last, hrun, hall, hcov⟩
      refine ⟨last, hrun, forall_mem_cons.mpr ⟨⟨⟨c, hc, by simpa using hadm⟩, not_not.mp hshared,
        not_not.mp hceil⟩, hall⟩, fun va hle hlt => ?_⟩
      rcases lt_or_ge va (s.vma v).vaddrEnd with hin | hout
      · exact ⟨v, mem_cons_self, (not_lt.mp hgap).trans hle, hin⟩
      · obtain ⟨x, hx, hva⟩ := hcov va hout hlt
        exact ⟨x, mem_cons_of_mem v hx, hva⟩

/-- What the precheck knows of a range, which meets `ms`. -/
structure Prechecked (s : AddrSpace) (xs : List VmaRef) (vaddr length : UInt64) (prot : UInt32)
    (ls ms rs : List VmaRef) : Prop where
  range : RangeOk vaddr length
  noExec : prot &&& vmaProtExec = 0
  readable : ¬(prot &&& vmaProtWrite ≠ 0 ∧ prot &&& vmaProtRead = 0)
  rw : Within prot (vmaProtRead ||| vmaProtWrite)
  split : Split s xs vaddr (vaddr + length) ls ms rs
  nonempty : ms ≠ []
  each : ∀ v ∈ ms, s.Reprotectable prot v
  covered : ∀ va, vaddr ≤ va → va < vaddr + length →
    ∃ v ∈ ms, (s.vma v).vaddrStart ≤ va ∧ va < (s.vma v).vaddrEnd

theorem Ok.vmaReprotectPrecheckIn (h : s.Ok xs)
    (hrc : s.vmaReprotectPrecheckIn vaddr length prot = 0) :
    ∃ ls ms rs, Prechecked s xs vaddr length prot ls ms rs := by
  unfold AddrSpace.vmaReprotectPrecheckIn at hrc
  dsimp only at hrc
  iterate 5
    split at hrc
    · exact absurd hrc (by decide)
  rename_i hrange hexec hwr hrw hfree
  have hlt := (not_not.mp hrange).lt
  obtain ⟨ls, ms, rs, hsp⟩ := h.exists_split vaddr (vaddr + length)
  rw [h.vmaNextOverlapIn hsp hlt] at hfree
  rw [h.rangeVmas hsp hlt] at hrc
  rcases precheckWalk_spec s prot ms vaddr with ⟨e, hwalk, he⟩ | ⟨last, hwalk, hall, hcov⟩
  · rw [hwalk] at hrc
    obtain rfl : e = 0 := hrc
    exact absurd he (by decide)
  · rw [hwalk] at hrc
    dsimp only at hrc
    split_ifs at hrc with hgap
    · exact absurd hrc (by decide)
    exact ⟨ls, ms, rs, not_not.mp hrange, not_not.mp hexec, hwr, not_not.mp hrw, hsp,
      fun hnil => hfree (hnil ▸ rfl), hall,
      fun va hle hva => hcov va hle (hva.trans_le (not_lt.mp hgap))⟩

/-! ### The pieces outside the range -/

/-- `lp` and `rp` are what the range leaves of `f` on the left and `l` on the right, not linked yet. -/
structure Cuts (s : AddrSpace) (xs : List VmaRef) (f l : VmaRef) (a b : UInt64)
    (lp rp : Option VmaRef) : Prop where
  left : lp.toList.map s.mapping = (s.mapping f).part (s.vma f).vaddrStart a
  right : rp.toList.map s.mapping = (s.mapping l).part b (s.vma l).vaddrEnd
  idle : ∀ p ∈ lp.toList ++ rp.toList, p ∈ s.live ∧ p ∉ xs
  nodup : (lp.toList ++ rp.toList).Nodup

/-- A part of `v` was made a mapping; the list is as before. -/
structure Piece (s s' : AddrSpace) (xs : List VmaRef) (v : VmaRef) (c d : UInt64)
    (piece : Option VmaRef) : Prop where
  ok : s'.Ok xs
  same : SameList s s' xs
  keeps : Keeps s s' []
  map : piece.toList.map s'.mapping = (s.mapping v).part c d
  fresh : ∀ p ∈ piece.toList, p ∈ s'.live ∧ p ∉ s.live

section

variable {c d : UInt64}

theorem Ok.noPiece (h : s.Ok xs) (hcd : ¬c < d) : Piece s s xs v c d none :=
  ⟨h, .refl s xs, .refl s [], (if_neg hcd).symm, nofun⟩

/-- A piece of a mapping, if the slab has room. -/
theorem Ok.allocPiece (h : s.Ok xs) (hv : v ∈ xs) (hb : (s.vma v).burrow ≠ none) {o : UInt64}
    (hc : (s.vma v).vaddrStart ≤ c) (hcd : c < d) (hd : d ≤ (s.vma v).vaddrEnd) (hcl : Aligned c)
    (hdl : Aligned d) (hoff : o = (s.vma v).burrowOffset + (c - (s.vma v).vaddrStart))
    (pick : Option VmaRef) :
    s.allocLike pick v c d o = some (s, none) ∨
      ∃ s' p, s.allocLike pick v c d o = some (s', some p) ∧ Piece s s' xs v c d (some p) := by
  obtain ⟨w, hw⟩ := ne_none_iff_exists'.mp hb
  have hbyte : (s.mapping v).byteAt c = some (w, o) := by
    rw [mapping, Vma.mapping, hw, hoff]
    rfl
  refine (h.allocLike (h.live v hv) hw pick hbyte).imp_right ?_
  rintro ⟨s', p, mp, halloc, hfresh, hmp⟩
  have hgood : mp.mapping.Ok s.burrows := by
    rw [hmp]
    exact (h.good v (h.live v hv)).cut hc hcd hd hcl hdl
  refine ⟨s', p, halloc, h.fresh hfresh hgood, h.sameList_fresh hfresh, hfresh.keeps [], ?_,
    fun q hq => ?_⟩
  · rw [Mapping.part, if_pos hcd, toList_some, map_singleton, mapping, hfresh.vma_self, hmp]
  · rw [mem_singleton.mp hq]
    exact ⟨hfresh.mem_live, hfresh.fresh⟩

end

/-- A mapping made and freed again leaves no trace. -/
theorem Keeps.freed (h : Keeps s s' []) (hf : Freed s' s'' v) (hv : v ∉ s.live) :
    Keeps s s'' [] := by
  have hk := h.trans hf.keeps (nil_subset [v]) (.refl _)
  exact ⟨fun x hx _ => hk.node x hx fun hmem => hv (mem_singleton.mp hmem ▸ hx), hk.burrow⟩

/-- One piece after the other. -/
theorem Piece.cuts (h : s.Ok xs) (hf : f ∈ xs) (hl : l ∈ xs)
    (hlp : Piece s s' xs f (s.vma f).vaddrStart a lp)
    (hrp : Piece s' s'' xs l b (s'.vma l).vaddrEnd rp) :
    s''.Ok xs ∧ SameList s s'' xs ∧ Keeps s s'' [] ∧ Cuts s'' xs f l a b lp rp ∧
      ∀ p ∈ lp.toList ++ rp.toList, p ∉ s.live := by
  have hvf : s''.vma f = s.vma f := (hrp.same.node f hf).2.2.trans (hlp.same.node f hf).2.2
  have hvl : s''.vma l = s'.vma l := (hrp.same.node l hl).2.2
  have hnew : ∀ p ∈ lp.toList ++ rp.toList, p ∉ s.live := forall_mem_append.mpr
    ⟨fun p hp => (hlp.fresh p hp).2, fun p hp hmem =>
      (hrp.fresh p hp).2 (hlp.keeps.node p hmem not_mem_nil).1⟩
  refine ⟨hrp.ok, hlp.same.trans hrp.same, hlp.keeps.trans hrp.keeps (.refl _)
    (.refl _), ⟨?_, ?_, fun p hp => ⟨?_, fun hmem => hnew p hp (h.live p hmem)⟩, ?_⟩, hnew⟩
  · rw [hrp.keeps.map_eq (fun p hp => (hlp.fresh p hp).1) fun _ _ => not_mem_nil, hlp.map, mapping,
      mapping, hvf]
  · rw [hrp.map, mapping, mapping, hvl]
  · rcases mem_append.mp hp with hp | hp
    · exact (hrp.keeps.node p (hlp.fresh p hp).1 not_mem_nil).1
    · exact (hrp.fresh p hp).1
  · refine nodup_append.mpr ⟨by cases lp <;> simp, by cases rp <;> simp, fun q hq r hr heq => ?_⟩
    exact (hrp.fresh r hr).2 (heq ▸ (hlp.fresh q hq).1)

/-- Both pieces are there, or neither; the list is as before. -/
theorem Ok.reprotectPieces (h : s.Ok xs) (hf : f ∈ xs) (hl : l ∈ xs)
    (hfb : (s.vma f).burrow ≠ none) (hlb : (s.vma l).burrow ≠ none) (ha : a < (s.vma f).vaddrEnd)
    (hb : (s.vma l).vaddrStart < b) (hal : Aligned a) (hbl : Aligned b)
    (pickL pickR : Option VmaRef) :
    ∃ s' r, s.reprotectPieces pickL pickR f l a b = some (s', r) ∧ s'.Ok xs ∧ SameList s s' xs ∧
      Keeps s s' [] ∧ ∀ lp rp, r = some (lp, rp) → Cuts s' xs f l a b lp rp ∧
      ∀ p ∈ lp.toList ++ rp.toList, p ∉ s.live := by
  unfold AddrSpace.reprotectPieces
  dsimp only
  generalize hleft : ite ((s.vma f).vaddrStart < a) _ (some (s, some none)) = left
  have hcases : left = some (s, none) ∨ ∃ s₁ lp, left = some (s₁, some lp) ∧
      Piece s s₁ xs f (s.vma f).vaddrStart a lp := by
    split_ifs at hleft with hcut
    · rcases h.allocPiece hf hfb le_rfl hcut ha.le (h.aligned hf).1 hal
          (o := (s.vma f).burrowOffset) (by simp) pickL with hnone | ⟨s₁, p, halloc, hp⟩
      · rw [← hleft, hnone]
        exact .inl rfl
      · rw [← hleft, halloc]
        exact .inr ⟨s₁, some p, rfl, hp⟩
    · exact .inr ⟨s, none, hleft.symm, h.noPiece hcut⟩
  rcases hcases with rfl | ⟨s₁, lp, rfl, hlp⟩
  · exact ⟨s, none, rfl, h, .refl s xs, .refl s [], nofun⟩
  rw [bind_some]
  dsimp only
  rw [← show s₁.vma l = s.vma l from (hlp.same.node l hl).2.2] at hb hlb ⊢
  split_ifs with hcut
  · rcases hlp.ok.allocPiece hl hlb hb.le hcut le_rfl hbl (hlp.ok.aligned hl).2 rfl pickR with
      hnone | ⟨s₂, p, halloc, hrp⟩
    · rw [hnone, bind_some]
      cases lp with
      | none => exact ⟨s₁, none, rfl, hlp.ok, hlp.same, hlp.keeps, nofun⟩
      | some p =>
        -- the left piece is freed again
        obtain ⟨hlive, hnew⟩ := hlp.fresh p mem_cons_self
        have hnot : p ∉ xs := fun hmem => hnew (h.live p hmem)
        obtain ⟨s₂, d, hfree, hfreed, -⟩ := hlp.ok.vmaFree hlive hnot
        refine ⟨s₂, none, ?_, hlp.ok.freed hfreed hlive hnot, hlp.same.trans (hfreed.sameList xs),
          hlp.keeps.freed hfreed hnew, nofun⟩
        dsimp only
        rw [hfree]
        rfl
    · obtain ⟨hok, hsame, hkeep, hcuts⟩ := hlp.cuts h hf hl hrp
      rw [halloc]
      exact ⟨s₂, some (lp, some p), rfl, hok, hsame, hkeep, by rintro _ _ ⟨⟩; exact hcuts⟩
  · obtain ⟨hok, hsame, hkeep, hcuts⟩ := hlp.cuts h hf hl (hlp.ok.noPiece hcut)
    exact ⟨s₁, some (lp, none), rfl, hok, hsame, hkeep, by rintro _ _ ⟨⟩; exact hcuts⟩

/-! ### The cut -/

/-- The mapping `f` starts at the range, if before. -/
def cutHead (s : AddrSpace) (f : VmaRef) (a : UInt64) : AddrSpace :=
  if (s.vma f).vaddrStart < a then s.setVma f ((s.vma f).dropHead a) else s

/-- The mapping `l` ends with the range, if after. -/
def cutTail (s : AddrSpace) (l : VmaRef) (b : UInt64) : AddrSpace :=
  if b < (s.vma l).vaddrEnd then s.setVma l ((s.vma l).dropTail b) else s

/-- Only the range of `v` and its offset have changed. -/
structure Trimmed (s s' : AddrSpace) (v : VmaRef) : Prop where
  frame : ∀ x, x ≠ v → s'.vma x = s.vma x
  live : s'.live = s.live
  count : s'.vmaCount = s.vmaCount
  burrows : s'.burrows = s.burrows
  burrow : ∀ x, (s'.vma x).burrow = (s.vma x).burrow
  flags : ∀ x, (s'.vma x).flags = (s.vma x).flags

theorem Trimmed.refl (s : AddrSpace) (v : VmaRef) : Trimmed s s v :=
  ⟨fun _ _ => rfl, rfl, rfl, rfl, fun _ => rfl, fun _ => rfl⟩

theorem vma_setVma_self (s : AddrSpace) (v : VmaRef) (m : Vma) : (s.setVma v m).vma v = m :=
  Function.update_self ..

theorem vma_setVma_of_ne (s : AddrSpace) (m : Vma) (hx : x ≠ v) : (s.setVma v m).vma x = s.vma x :=
  Function.update_of_ne hx ..

theorem trimmed_setVma (hb : m.burrow = (s.vma v).burrow) (hf : m.flags = (s.vma v).flags) :
    Trimmed s (s.setVma v m) v := by
  have hsame {α : Type} (g : Vma → α) (hg : g m = g (s.vma v)) (x : VmaRef) :
      g ((s.setVma v m).vma x) = g (s.vma x) := by
    by_cases hx : x = v
    · rw [hx, vma_setVma_self, hg]
    · rw [vma_setVma_of_ne s m hx]
  exact ⟨fun x hx => vma_setVma_of_ne s m hx, rfl, rfl, rfl, hsame _ hb, hsame _ hf⟩

/-- What is cut off the front, the list sees in front. -/
theorem Ok.cutHead (h : s.Ok (ls ++ f :: rs)) (ha : a < (s.vma f).vaddrEnd) (hal : Aligned a) :
    (s.cutHead f a).Ok (ls ++ f :: rs) ∧ Trimmed s (s.cutHead f a) f ∧
      ((s.cutHead f a).vma f).vaddrStart = max (s.vma f).vaddrStart a ∧
      ((s.cutHead f a).vma f).vaddrEnd = (s.vma f).vaddrEnd ∧
      ∀ (ys zs : List Mapping) (va : UInt64),
      Mapping.pieces.view (ys ++ (s.mapping f).part (s.vma f).vaddrStart a ++
      (s.cutHead f a).mapping f :: zs) va = Mapping.pieces.view (ys ++ s.mapping f :: zs) va := by
  rw [AddrSpace.cutHead, Mapping.part]
  split_ifs with hcut
  · have hmap := (s.vma f).mapping_dropHead a
    refine ⟨h.shrink rfl hmap hcut.le ha le_rfl hal (h.aligned (by simp)).2,
      trimmed_setVma rfl rfl, ?_, ?_, fun ys zs va => ?_⟩
    · rw [vma_setVma_self, max_eq_right hcut.le]
      rfl
    · rw [vma_setVma_self]
      rfl
    · rw [mapping_setVma_self, hmap, append_assoc]
      exact Pieces.view_cut (x := s.mapping f) hcut ha
  · exact ⟨h, .refl s f, (max_eq_left (not_lt.mp hcut)).symm, rfl,
      fun ys zs va => by rw [append_nil]⟩

/-- Behind the cut, the mapping shows what it showed. -/
theorem cutHead_part (s : AddrSpace) (f x : VmaRef) (a c d : UInt64) :
    ((s.cutHead f a).mapping x).part c d = (s.mapping x).part c d := by
  rw [cutHead]
  split_ifs with hcut
  · by_cases hx : x = f
    · rw [hx, mapping_setVma_self, Vma.mapping_dropHead, Mapping.part, Mapping.cut_cut]
      rfl
    · rw [mapping_setVma_of_ne hx]
  · rfl

/-- What is cut off the back, the list sees behind. -/
theorem Ok.cutTail (h : s.Ok (ls ++ l :: rs)) (hb : (s.vma l).vaddrStart < b) (hbl : Aligned b) :
    (s.cutTail l b).Ok (ls ++ l :: rs) ∧ Trimmed s (s.cutTail l b) l ∧
      ((s.cutTail l b).vma l).vaddrEnd ≤ b ∧
      ((s.cutTail l b).vma l).vaddrStart = (s.vma l).vaddrStart ∧
      ∀ (ys zs : List Mapping) (va : UInt64),
      Mapping.pieces.view (ys ++ (s.cutTail l b).mapping l ::
      ((s.mapping l).part b (s.vma l).vaddrEnd ++ zs)) va =
      Mapping.pieces.view (ys ++ s.mapping l :: zs) va := by
  rw [AddrSpace.cutTail, Mapping.part]
  split_ifs with hcut
  · have hmap := (s.vma l).mapping_dropTail b
    refine ⟨h.shrink rfl hmap le_rfl hb hcut.le (h.aligned (by simp)).1 hbl,
      trimmed_setVma rfl rfl, ?_, ?_, fun ys zs va => ?_⟩
    · rw [vma_setVma_self]
      exact le_rfl
    · rw [vma_setVma_self]
      rfl
    · rw [mapping_setVma_self, hmap]
      exact Pieces.view_cut (x := s.mapping l) hb hcut
  · exact ⟨h, .refl s l, not_lt.mp hcut, rfl, fun ys zs va => by rw [nil_append]⟩

/-- The mappings `ms` of `s'` lie in the range whole; with the pieces cut off, the list shows what
it did. -/
structure Shrunk (s s' : AddrSpace) (f l : VmaRef) (a b : UInt64) (ls ms rs : List VmaRef) :
    Prop where
  frame : ∀ x, x ∉ ms → s'.vma x = s.vma x
  live : s'.live = s.live
  count : s'.vmaCount = s.vmaCount
  burrows : s'.burrows = s.burrows
  whole : ∀ v ∈ ms, s'.Whole a b v
  same : ∀ v ∈ ms, (s'.vma v).burrow = (s.vma v).burrow ∧ (s'.vma v).flags = (s.vma v).flags
  view : ∀ va, Mapping.pieces.view (ls.map s.mapping ++ (s.mapping f).part (s.vma f).vaddrStart a ++
    ms.map s'.mapping ++ ((s.mapping l).part b (s.vma l).vaddrEnd ++ rs.map s.mapping)) va = s.view va

/-- The first and last mapping that meet the range shrink to it. -/
theorem Ok.reprotectShrink (h : s.Ok xs)
    (hsp : Split s xs a b ls ms rs) (hf : ms = f :: tl) (hl : ms = ini ++ [l]) (hab : a < b)
    (hal : Aligned a) (hbl : Aligned b) :
    (s.reprotectShrink f l a b).Ok xs ∧ Shrunk s (s.reprotectShrink f l a b) f l a b ls ms rs := by
  have hfm : f ∈ ms := hf ▸ mem_cons_self
  have hlm : l ∈ ms := hl ▸ by simp
  have hxf : xs = ls ++ f :: (tl ++ rs) := by rw [hsp.eq, hf]; simp
  have hxl : xs = ls ++ ini ++ l :: rs := by rw [hsp.eq, hl]; simp
  have h₀ := h
  rw [hxf] at h
  obtain ⟨hok₁, htrim₁, hstart₁, hend₁, hview₁⟩ := h.cutHead (hsp.meet f hfm).1 hal
  rw [← hxf] at hok₁
  have hb₁ : ((s.cutHead f a).vma l).vaddrStart < b := by
    by_cases hlf : l = f
    · rw [hlf, hstart₁]
      exact max_lt (hsp.meet f hfm).2 hab
    · rw [htrim₁.frame l hlf]
      exact (hsp.meet l hlm).2
  rw [hxl] at hok₁
  obtain ⟨hok₂, htrim₂, hend₂, hstart₂, hview₂⟩ := hok₁.cutTail hb₁ hbl
  rw [← hxl] at hok₂
  have hstart : ∀ v, (((s.cutHead f a).cutTail l b).vma v).vaddrStart =
      ((s.cutHead f a).vma v).vaddrStart := fun v => by
    by_cases hvl : v = l
    · rw [hvl, hstart₂]
    · rw [htrim₂.frame v hvl]
  have hend : ∀ v, ((s.cutHead f a).vma v).vaddrEnd = (s.vma v).vaddrEnd := fun v => by
    by_cases hvf : v = f
    · rw [hvf, hend₁]
    · rw [htrim₁.frame v hvf]
  rw [show s.reprotectShrink f l a b = (s.cutHead f a).cutTail l b from rfl]
  refine ⟨hok₂, fun x hx => ?_, htrim₂.live.trans htrim₁.live, htrim₂.count.trans htrim₁.count,
    htrim₂.burrows.trans htrim₁.burrows, fun v hv => ⟨?_, ?_⟩, fun v _ =>
      ⟨(htrim₂.burrow v).trans (htrim₁.burrow v), (htrim₂.flags v).trans (htrim₁.flags v)⟩,
    fun va => ?_⟩
  · rw [htrim₂.frame x fun heq => hx (heq ▸ hlm), htrim₁.frame x fun heq => hx (heq ▸ hfm)]
  · rw [hstart]
    by_cases hvf : v = f
    · rw [hvf, hstart₁]
      exact le_max_right ..
    · rw [htrim₁.frame v hvf]
      have hvt : v ∈ tl := (mem_cons.mp (hf ▸ hv)).resolve_left hvf
      exact (hsp.meet f hfm).1.le.trans (h.end_le_start (by simp [hvt]))
  · by_cases hvl : v = l
    · rw [hvl]
      exact hend₂
    · rw [htrim₂.frame v hvl, hend]
      have hvi : v ∈ ini := by
        rw [hl, mem_append] at hv
        exact hv.resolve_right fun hmem => hvl (mem_singleton.mp hmem)
      rw [hxl] at h₀
      exact (h₀.end_le (by simp [hvi])).trans (hsp.meet l hlm).2.le
  · -- first the back of the last mapping, then the front of the first one
    rw [hxl] at h₀
    have hini : ini.map ((s.cutHead f a).cutTail l b).mapping = ini.map (s.cutHead f a).mapping :=
      map_congr_left fun x hx => congrArg Vma.mapping (htrim₂.frame x fun heq =>
        h₀.not_mem (by simp [← heq, hx]))
    have htl : tl.map (s.cutHead f a).mapping = tl.map s.mapping :=
      map_congr_left fun x hx => congrArg Vma.mapping (htrim₁.frame x fun heq =>
        h.not_mem (by simp [← heq, hx]))
    have hback := hview₂ (ls.map s.mapping ++ (s.mapping f).part (s.vma f).vaddrStart a ++
      ini.map (s.cutHead f a).mapping) (rs.map s.mapping) va
    rw [hend, cutHead_part] at hback
    have hmid : ms.map (s.cutHead f a).mapping = (s.cutHead f a).mapping f :: tl.map s.mapping := by
      rw [hf, map_cons, htl]
    have hms : ini.map (s.cutHead f a).mapping ++ [(s.cutHead f a).mapping l] =
        (s.cutHead f a).mapping f :: tl.map s.mapping := by
      rw [← hmid, hl, map_append, map_singleton]
    calc Mapping.pieces.view _ va
        = Mapping.pieces.view (ls.map s.mapping ++ (s.mapping f).part (s.vma f).vaddrStart a ++
            (s.cutHead f a).mapping f :: (tl.map s.mapping ++ rs.map s.mapping)) va := by
          rw [hl, map_append, map_singleton, hini]
          refine (congrArg (Mapping.pieces.view · va) ?_).trans
            (hback.trans (congrArg (Mapping.pieces.view · va) ?_))
          · simp only [append_assoc, singleton_append]
          · rw [append_cons, append_assoc _ _ [_], hms, append_assoc, cons_append]
      _ = s.view va := by
          rw [hview₁, h.view_eq]
          simp

/-- The insert of a piece, if any, at its place. -/
theorem Ok.insertPiece (h : s.Ok (ys ++ zs)) (exempt : Bool) (piece : Option VmaRef)
    (hp : ∀ p ∈ piece.toList, p ∈ s.live ∧ p ∉ ys ++ zs ∧ s.Place (s.vma p) ys zs ∧ s.Room exempt) :
    ∃ s', s.insertPiece exempt piece = some (s', true) ∧ s'.Ok (ys ++ piece.toList ++ zs) ∧
      Relinked s s' := by
  cases piece with
  | none =>
    refine ⟨s, rfl, ?_, ⟨rfl, rfl, fun _ => ⟨rfl, rfl, rfl, rfl⟩⟩⟩
    rwa [toList_none, append_nil]
  | some p =>
    obtain ⟨hlive, hnot, hpl, hroom⟩ := hp p mem_cons_self
    obtain ⟨s', hins, hok, hre⟩ := h.vmaInsertIn hlive hnot hpl hroom
    refine ⟨s', ?_, ?_, hre⟩
    · rw [AddrSpace.insertPiece]
      rw [hins]
      rfl
    · rwa [toList_some, append_assoc]

/-- A piece that was cut off has the range of the cut. -/
theorem range_of_piece {piece : Option VmaRef} {v p : VmaRef}
    (h : piece.toList.map s.mapping = (s.mapping v).part a b) (hp : p ∈ piece.toList) :
    (s.vma p).vaddrStart = a ∧ (s.vma p).vaddrEnd = b := by
  rw [mem_toList.mp hp, toList_some, map_singleton, Mapping.part] at h
  split_ifs at h
  have hmap : s.mapping p = (s.mapping v).cut a b := (cons.inj h).1
  exact ⟨congrArg Mapping.lo hmap, congrArg Mapping.hi hmap⟩

/-- The mappings `ms` lie in the range whole, and the same is seen. -/
structure Opened (s s' : AddrSpace) (a b : UInt64) (ls ms rs : List VmaRef) : Prop where
  ok : s'.Ok (ls ++ ms ++ rs)
  split : Split s' (ls ++ ms ++ rs) a b ls ms rs
  whole : ∀ v ∈ ms, s'.Whole a b v
  same : ∀ v ∈ ms, (s'.vma v).burrow = (s.vma v).burrow ∧ (s'.vma v).flags = (s.vma v).flags
  keeps : Keeps s s' ms
  view : ∀ va, s'.view va = s.view va

/-- The pieces go in where the mappings shrank. -/
theorem Ok.opened (h : s.Ok xs)
    (hsp : Split s xs a b ls ms rs) (hf : ms = f :: tl) (hl : ms = ini ++ [l]) (hab : a < b)
    (hal : Aligned a) (hbl : Aligned b) (hcuts : Cuts s xs f l a b lp rp)
    (hroom : exempt = true ∨
      xs.length + lp.toList.length + rp.toList.length ≤ max xs.length procVmaMax.toNat) :
    ∃ s₁ s₂, (s.reprotectShrink f l a b).insertPiece exempt lp = some (s₁, true) ∧
      s₁.insertPiece exempt rp = some (s₂, true) ∧
      Opened s s₂ a b (ls ++ lp.toList) ms (rp.toList ++ rs) := by
  obtain ⟨hok, hsh⟩ := h.reprotectShrink hsp hf hl hab hal hbl
  generalize s.reprotectShrink f l a b = s₀ at hok hsh ⊢
  have hxs := hsp.eq
  have hxf : xs = ls ++ f :: (tl ++ rs) := by rw [hxs, hf]; simp
  have hxl : xs = ls ++ ini ++ l :: rs := by rw [hxs, hl]; simp
  have hidle : ∀ p ∈ lp.toList ++ rp.toList, s₀.vma p = s.vma p := fun p hp =>
    hsh.frame p fun hmem => (hcuts.idle p hp).2 (by simp [hxs, hmem])
  have hother : ∀ x ∈ ls ++ rs, s₀.vma x = s.vma x := fun x hx =>
    hsh.frame x (h.split_not_mem hsp hx)
  have hleft : ∀ p ∈ lp.toList, (s₀.vma p).vaddrStart = (s.vma f).vaddrStart ∧
      (s₀.vma p).vaddrEnd = a := fun p hp => by
    rw [hidle p (mem_append_left _ hp)]
    exact range_of_piece hcuts.left hp
  have hright : ∀ p ∈ rp.toList, (s₀.vma p).vaddrStart = b ∧
      (s₀.vma p).vaddrEnd = (s.vma l).vaddrEnd := fun p hp => by
    rw [hidle p (mem_append_right _ hp)]
    exact range_of_piece hcuts.right hp
  -- the left piece goes in before the first mapping
  rw [hxs, append_assoc] at hok
  obtain ⟨s₁, hins₁, hok₁, hre₁⟩ := hok.insertPiece exempt lp <| by
    intro p hp
    obtain ⟨hlive, hnot⟩ := hcuts.idle p (mem_append_left _ hp)
    obtain ⟨hst, hen⟩ := hleft p hp
    refine ⟨hsh.live ▸ hlive, by rwa [← append_assoc, ← hxs], ⟨fun y hy => ?_, fun z hz => ?_⟩, ?_⟩
    · rw [hst, hother y (by simp [hy])]
      rw [hxf] at h
      exact h.end_le hy
    · rw [hen]
      rcases mem_append.mp hz with hz | hz
      · exact (hsh.whole z hz).1
      · rw [hother z (by simp [hz])]
        exact hab.le.trans (hsp.after z hz).2
    · rw [Room, hsh.count, ← Room, h.room_iff]
      refine hroom.imp_right fun hlen => ?_
      have := length_pos_of_mem hp
      omega
  rw [← append_assoc] at hok₁
  -- the right piece goes in after the last one
  obtain ⟨s₂, hins₂, hok₂, hre₂⟩ := hok₁.insertPiece exempt rp <| by
    intro p hp
    obtain ⟨hlive, hnot⟩ := hcuts.idle p (mem_append_right _ hp)
    obtain ⟨hst, hen⟩ := hright p hp
    have hnlp : p ∉ lp.toList := fun hmem => (nodup_append.mp hcuts.nodup).2.2 p hmem p hp rfl
    rw [hre₁.live, hre₁.vma]
    refine ⟨hsh.live ▸ hlive, ?_, ⟨fun y hy => ?_, fun z hz => ?_⟩, ?_⟩
    · rw [hxs] at hnot
      simp only [mem_append] at hnot hnlp ⊢
      tauto
    · rw [hst, hre₁.vma]
      rcases mem_append.mp hy with hy | hy
      · rcases mem_append.mp hy with hy | hy
        · rw [hother y (by simp [hy])]
          exact (hsp.before y hy).trans hab.le
        · exact (hleft y hy).2.trans_le hab.le
      · exact (hsh.whole y hy).2
    · rw [hen, hre₁.vma, hother z (by simp [hz])]
      rw [hxl] at h
      exact h.end_le_start hz
    · rw [hok₁.room_iff]
      refine hroom.imp_right fun hlen => ?_
      have := length_pos_of_mem hp
      rw [hxs] at hlen
      simp only [length_append] at hlen ⊢
      omega
  have hvma : s₂.vma = s₀.vma := hre₂.vma.trans hre₁.vma
  rw [append_assoc _ rp.toList] at hok₂
  refine ⟨s₁, s₂, hins₁, hins₂, hok₂, ⟨rfl, fun x hx => ?_, fun x hx => ?_, fun x hx => ?_⟩, ?_, ?_,
    ?_, fun va => ?_⟩
  · rw [hvma]
    rcases mem_append.mp hx with hx | hx
    · rw [hother x (by simp [hx])]
      exact hsp.before x hx
    · exact (hleft x hx).2.le
  · have hne := hok₂.start_lt_end (v := x) (by simp [hx])
    rw [hvma] at hne ⊢
    obtain ⟨hst, hen⟩ := hsh.whole x hx
    exact ⟨hst.trans_lt hne, hne.trans_le hen⟩
  · rw [hvma]
    rcases mem_append.mp hx with hx | hx
    · obtain ⟨hst, hen⟩ := hright x hx
      rw [hst, hen]
      exact ⟨(hsp.meet l (by simp [hl])).1, le_rfl⟩
    · rw [hother x (by simp [hx])]
      exact hsp.after x hx
  · intro v hv
    rw [Whole, hvma]
    exact hsh.whole v hv
  · rw [hvma]
    exact hsh.same
  · refine ⟨fun x hx hnot => ⟨?_, by rw [hvma, hsh.frame x hnot]⟩, fun w => ?_⟩
    · rwa [hre₂.live, hre₁.live, hsh.live]
    · rw [(hre₂.burrows w).1, (hre₂.burrows w).2.1, (hre₁.burrows w).1, (hre₁.burrows w).2.1,
        hsh.burrows]
      exact ⟨rfl, rfl⟩
  · have hmap : ∀ zs : List VmaRef, (∀ x ∈ zs, s₀.vma x = s.vma x) →
        zs.map s₂.mapping = zs.map s.mapping := fun zs hzs =>
      map_congr_left fun x hx => by rw [mapping, hvma, hzs x hx, mapping]
    have hms : ms.map s₂.mapping = ms.map s₀.mapping :=
      map_congr_left fun x _ => by rw [mapping, hvma, mapping]
    rw [hok₂.view_eq, ← hsh.view va]
    simp only [map_append, hms]
    rw [hmap ls fun x hx => hother x (by simp [hx]), hmap rs fun x hx => hother x (by simp [hx]),
      hmap lp.toList fun x hx => hidle x (by simp [hx]),
      hmap rp.toList fun x hx => hidle x (by simp [hx]), hcuts.left, hcuts.right]

/-- A mapping not of the range covers no address of it. -/
theorem Opened.out (h : Opened s s' a b ls ms rs) (hv : v ∈ ls ++ ms ++ rs) (hnot : v ∉ ms)
    {va : UInt64} (hc : Mapping.pieces.Covers (s'.mapping v) va) : ¬(a ≤ va ∧ va < b) := by
  rintro ⟨hlo, hhi⟩
  rcases mem_append.mp hv with hv | hv
  · have hv := (mem_append.mp hv).resolve_right hnot
    exact (hlo.trans_lt hc.2).not_ge (h.split.before v hv)
  · exact (hc.1.trans_lt hhi).not_ge (h.split.after v hv).2

/-! ### The new prot -/

/-- A mapping that a reprotect may write to stays good. -/
theorem ok_reprotected {burrows : BurrowRef → Burrow}
    (h : m.mapping.Ok burrows) (hexec : prot &&& vmaProtExec = 0)
    (hread : ¬(prot &&& vmaProtWrite ≠ 0 ∧ prot &&& vmaProtRead = 0))
    (hrw : Within prot (vmaProtRead ||| vmaProtWrite)) (hceil : Within prot (vmaProtMax m.flags))
    (hback : m.burrow ≠ none) (sealed : Bool) :
    (reprotected prot sealed m).mapping.Ok burrows where
  nonempty := h.nonempty
  alignedLo := h.alignedLo
  alignedHi := h.alignedHi
  prot := ⟨fun hwx => hwx.2 hexec, hread⟩
  ceiling := by
    cases sealed with
    | true => exact within_ceiling (hrw.mono (by decide)) m.flags
    | false => exact hceil
  guard := fun hnone => absurd (Option.map_eq_none_iff.mp hnone) hback
  backed := fun c o hc => by
    obtain ⟨ho, hfits, -⟩ := h.backed c o hc
    exact ⟨ho, hfits, absurd hexec⟩

/-- The loop that writes the new prot. -/
theorem Ok.reprotectFold (h : s.Ok xs) (hnd : ms.Nodup)
    (hms : ∀ v ∈ ms, v ∈ xs ∧ (reprotected prot sealed (s.vma v)).mapping.Ok s.burrows) :
    ∃ s', ms.foldl (fun s v => s.setVma v (reprotected prot sealed (s.vma v))) s = s' ∧ s'.Ok xs ∧
      s'.live = s.live ∧ s'.burrows = s.burrows ∧
      ∀ x, s'.vma x = if x ∈ ms then reprotected prot sealed (s.vma x) else s.vma x := by
  induction ms generalizing s with
  | nil => exact ⟨s, rfl, h, rfl, rfl, fun x => (if_neg not_mem_nil).symm⟩
  | cons v ms ih =>
    obtain ⟨hvms, hnd⟩ := nodup_cons.mp hnd
    obtain ⟨hv, hgood⟩ := hms v mem_cons_self
    obtain ⟨ys, zs, rfl⟩ := append_of_mem hv
    have hok : (s.setVma v (reprotected prot sealed (s.vma v))).Ok (ys ++ v :: zs) :=
      h.setVma rfl hgood (fun y hy => h.end_le hy) fun z hz => h.end_le_start hz
    have hrest : ∀ x ∈ ms, (s.setVma v (reprotected prot sealed (s.vma v))).vma x = s.vma x :=
      fun x hx => vma_setVma_of_ne s _ (ne_of_mem_of_not_mem hx hvms)
    obtain ⟨s', hfold, hok', hlive, hburrows, hvma⟩ := ih hok hnd fun x hx => by
      rw [hrest x hx]
      exact hms x (mem_cons_of_mem v hx)
    refine ⟨s', hfold, hok', hlive, hburrows, fun x => ?_⟩
    rw [hvma x]
    by_cases hxv : x = v
    · rw [hxv, if_neg hvms, if_pos mem_cons_self, vma_setVma_self]
    · rw [vma_setVma_of_ne s _ hxv]
      simp only [mem_cons, hxv, false_or]

/-- What is seen after the new prot was written. -/
theorem Opened.apply (h : Opened s s' a b ls ms rs) (hab : a < b)
    (hms : ∀ v ∈ ms, (reprotected prot sealed (s'.vma v)).mapping.Ok s'.burrows) :
    (s'.reprotectApply a b prot sealed).Ok (ls ++ ms ++ rs) ∧
      Keeps s' (s'.reprotectApply a b prot sealed) ms ∧
      ∀ va, (s'.reprotectApply a b prot sealed).view va =
      if a ≤ va ∧ va < b then (s.view va).map (Entry.reprotected prot sealed)
      else s.view va := by
  have hnd : ms.Nodup := (nodup_append.mp (nodup_append.mp h.ok.holds.nodup).1).2.1
  obtain ⟨s'', hfold, hok, hlive, hburrows, hvma⟩ := h.ok.reprotectFold hnd
    fun v hv => ⟨by simp [hv], hms v hv⟩
  rw [reprotectApply, h.ok.rangeVmas h.split hab, hfold]
  refine ⟨hok, ⟨fun x hx hnot => ⟨hlive.symm ▸ hx, by rw [hvma, if_neg hnot]⟩, fun w => ?_⟩,
    fun va => ?_⟩
  · rw [hburrows]
    exact ⟨rfl, rfl⟩
  have hview : s''.view va = (s'.view va).map
      (if a ≤ va ∧ va < b then Entry.reprotected prot sealed else id) := by
    rw [hok.view_eq, h.ok.view_eq]
    refine Pieces.view_map fun v hv => ?_
    by_cases hc : Mapping.pieces.Covers (s'.mapping v) va
    · by_cases hmem : v ∈ ms
      · obtain ⟨hst, hen⟩ := h.whole v hmem
        rw [Pieces.shows_of_covers hc, if_pos ⟨hst.trans hc.1, hc.2.trans_le hen⟩, mapping, hvma,
          if_pos hmem]
        exact Pieces.shows_of_covers hc
      · have hout : ¬(a ≤ va ∧ va < b) := h.out hv hmem hc
        rw [mapping, hvma, if_neg hmem, if_neg hout, Option.map_id_fun, id, mapping]
    · have hc' : ¬Mapping.pieces.Covers (s''.mapping v) va := by
        rw [mapping, hvma]
        split_ifs
        · exact hc
        · exact hc
      rw [Pieces.shows_of_not_covers hc, Pieces.shows_of_not_covers hc', Option.map_none]
  rw [hview, h.view]
  split_ifs
  · rfl
  · exact Option.map_id_apply

/-! ### The whole call -/

/-- A ceiling that is already there may be set again. -/
theorem vmaSetProtMax_self {flags : UInt32} (h : vmaProtMax flags = prot) :
    vmaSetProtMax flags prot = flags := by
  subst h
  apply UInt32.eq_of_toBitVec_eq
  ext i hi
  simp only [vmaProtMax, vmaSetProtMax, vmaFlagMaxMask, vmaFlagMaxShift]
  interval_cases i <;> simp

/-- A reprotect returned an error; the list is as before. -/
structure ReprotectRefused (s s' : AddrSpace) (xs : List VmaRef) : Prop where
  ok : s'.Ok xs
  same : SameList s s' xs
  keeps : Keeps s s' []

/-- A reprotect returned 0. -/
structure Reprotected (s s' : AddrSpace) (xs : List VmaRef) (vaddr length : UInt64)
    (prot : UInt32) (sealed : Bool) : Prop where
  ok : s'.Ok xs
  burrow : ∀ w, (s'.burrows w).type = (s.burrows w).type ∧
    (s'.burrows w).pageCount = (s.burrows w).pageCount
  view : ∀ va, s'.view va = if vaddr ≤ va ∧ va < vaddr + length then
    (s.view va).map (Entry.reprotected prot sealed) else s.view va

/-- The headroom check, in numbers. -/
theorem Rep.headroom_pieces (h : s.Rep xs) {adding : UInt32}
    (hadd : adding = (if lp.isSome then 1 else 0) + (if rp.isSome then 1 else 0))
    (hno : ¬(!exempt && adding != 0 && procVmaMax - adding < s.vmaCount) = true) :
    exempt = true ∨
      xs.length + lp.toList.length + rp.toList.length ≤ max xs.length procVmaMax.toNat := by
  have hlen : adding.toNat = lp.toList.length + rp.toList.length := by
    subst hadd
    cases lp <;> cases rp <;> rfl
  cases exempt with
  | true => exact .inl rfl
  | false =>
    refine .inr ?_
    by_cases hzero : adding = 0
    · rw [hzero, UInt32.toNat_zero] at hlen
      omega
    have hle : adding ≤ procVmaMax := by
      rw [UInt32.le_iff_toNat_le, hlen]
      cases lp <;> cases rp <;> exact Nat.le_of_ble_eq_true rfl
    have hroom : s.vmaCount ≤ procVmaMax - adding := UInt32.not_lt.mp fun hlt => hno (by
      simp [hzero, hlt])
    have hnat := UInt32.le_iff_toNat_le.mp hroom
    rw [UInt32.toNat_sub_of_le _ _ hle, h.count] at hnat
    have hle' := UInt32.le_iff_toNat_le.mp hle
    omega

/-- Freeing a piece not linked leaves the list. -/
theorem Ok.freePiece (h : s.Ok xs) (piece : Option VmaRef)
    (hp : ∀ p ∈ piece.toList, p ∈ s.live ∧ p ∉ xs) :
    ∃ s', s.freePiece piece = some s' ∧ s'.Ok xs ∧ SameList s s' xs ∧ Keeps s s' piece.toList := by
  cases piece with
  | none => exact ⟨s, rfl, h, .refl s xs, .refl s _⟩
  | some p =>
    obtain ⟨hlive, hnot⟩ := hp p mem_cons_self
    obtain ⟨s', d, hfree, hfreed, -⟩ := h.vmaFree hlive hnot
    refine ⟨s', ?_, h.freed hfreed hlive hnot, hfreed.sameList xs, hfreed.keeps⟩
    rw [AddrSpace.freePiece, hfree]
    rfl

/-- What a mapping of the list shows is what is seen. -/
theorem Ok.view_of_mem (h : s.Ok xs) (hv : v ∈ xs) {va : UInt64}
    (hlo : (s.vma v).vaddrStart ≤ va) (hhi : va < (s.vma v).vaddrEnd) :
    s.view va = some ⟨(s.mapping v).byteAt va, (s.vma v).prot, (s.vma v).flags⟩ := by
  rw [h.view_eq]
  exact h.sorted.view_of_mem (mem_map_of_mem hv)
    (show Mapping.pieces.Covers (s.mapping v) va from ⟨hlo, hhi⟩)

/-- The no-op check reads the mappings of the range. -/
theorem Ok.isNoop_iff (h : s.Ok xs)
    (hsp : Split s xs vaddr (vaddr + length) ls ms rs) (hlt : vaddr < vaddr + length) :
    s.vmaReprotectIsNoopIn vaddr length prot sealed = true ↔
      ∀ v ∈ ms, (s.vma v).prot = prot ∧ (sealed = true → vmaProtMax (s.vma v).flags = prot) := by
  rw [vmaReprotectIsNoopIn, h.rangeVmas hsp hlt, all_eq_true]
  refine forall₂_congr fun v _ => ?_
  cases sealed <;> simp

/-- The precheck reads the list alone. -/
theorem Prechecked.sameList
    (h : Prechecked s xs vaddr length prot ls ms rs) (hsame : SameList s s' xs)
    (hkeep : Keeps s s' []) : Prechecked s' xs vaddr length prot ls ms rs := by
  have hvma : ∀ v ∈ ms, s'.vma v = s.vma v := fun v hv =>
    (hsame.node v (h.split.mem hv)).2.2
  refine ⟨h.range, h.noExec, h.readable, h.rw, h.split.sameList hsame, h.nonempty, fun v hv => ?_,
    fun va hlo hhi => ?_⟩
  · obtain ⟨⟨c, hc, hadm⟩, hown, hceil⟩ := h.each v hv
    refine ⟨⟨c, ?_, ?_⟩, ?_, ?_⟩
    · rwa [hvma v hv]
    · rwa [(hkeep.burrow c).1]
    · rwa [hvma v hv]
    · rwa [hvma v hv]
  · obtain ⟨v, hv, hva⟩ := h.covered va hlo hhi
    exact ⟨v, hv, by rwa [hvma v hv]⟩

/-- A reprotect that needs no change changes nothing. -/
theorem Ok.reprotected_noop (h : s.Ok xs) (hpre : Prechecked s xs vaddr length prot ls ms rs)
    (hnoop : s.vmaReprotectIsNoopIn vaddr length prot sealed = true) :
    Reprotected s s xs vaddr length prot sealed := by
  refine ⟨h, fun _ => ⟨rfl, rfl⟩, fun va => ?_⟩
  split_ifs with hin
  · obtain ⟨v, hv, hlo, hhi⟩ := hpre.covered va hin.1 hin.2
    obtain ⟨hprot, hceil⟩ := (h.isNoop_iff hpre.split hpre.range.lt).mp hnoop v hv
    rw [h.view_of_mem (hpre.split.mem hv) hlo hhi, map_some, Entry.reprotected, hprot]
    cases sealed with
    | true => simp only [if_true, vmaSetProtMax_self (hceil rfl)]
    | false => rfl
  · rfl

/-- A reprotect changes the list without failing. -/
theorem Ok.reprotectCut (h : s.Ok xs) (hpre : Prechecked s xs vaddr length prot ls ms rs)
    (hf : ms = f :: tl) (hl : ms = ini ++ [l])
    (hcuts : Cuts s xs f l vaddr (vaddr + length) lp rp)
    (hroom : exempt = true ∨
      xs.length + lp.toList.length + rp.toList.length ≤ max xs.length procVmaMax.toNat) (sealed : Bool) :
    ∃ s' xs', s.reprotectCut exempt lp rp f l vaddr (vaddr + length) prot sealed = some (s', 0) ∧
      Reprotected s s' xs' vaddr length prot sealed ∧ s'.Coalesced vaddr (vaddr + length) ∧
      xs'.length ≤ xs.length + lp.toList.length + rp.toList.length := by
  have hlt := hpre.range.lt
  obtain ⟨s₁, s₂, hins₁, hins₂, hop⟩ := h.opened hpre.split hf hl hlt hpre.range.2.1
    hpre.range.alignedEnd hcuts hroom
  have hgood : ∀ v ∈ ms, (reprotected prot sealed (s₂.vma v)).mapping.Ok s₂.burrows := by
    intro v hv
    obtain ⟨hb, hfl⟩ := hop.same v hv
    obtain ⟨⟨c, hc, -⟩, -, hceil⟩ := hpre.each v hv
    refine ok_reprotected (hop.ok.good v (hop.ok.live v (by simp [hv]))) hpre.noExec hpre.readable
      hpre.rw ?_ ?_ sealed
    · rwa [hfl]
    · rw [hb, hc]
      nofun
  obtain ⟨hok₃, hkeep₃, hview₃⟩ := hop.apply hlt hgood
  obtain ⟨s', xs', hmerge, hm⟩ := hok₃.reprotectMergeIn hlt
  refine ⟨s', xs', ?_, ⟨hm.ok, fun w => ?_, fun va => by rw [hm.view, hview₃]⟩, hm.coalesced, ?_⟩
  · rw [AddrSpace.reprotectCut]
    rw [hins₁, bind_some]
    dsimp only
    rw [Bool.not_true, hins₂, bind_some]
    rw [Bool.not_true, hmerge]
    rfl
  · obtain ⟨h₁, h₂⟩ := hop.keeps.burrow w
    obtain ⟨h₃, h₄⟩ := hkeep₃.burrow w
    obtain ⟨h₅, h₆⟩ := hm.keeps.burrow w
    exact ⟨h₅.trans (h₃.trans h₁), h₆.trans (h₄.trans h₂)⟩
  · refine hm.sublist.length_le.trans (le_of_eq ?_)
    rw [hpre.split.eq]
    simp only [length_append]
    omega

/-- **`vma_reprotect_range_in`** is refused and leaves the list, or the range shows the new prot. -/
theorem Ok.vmaReprotectRangeIn (h : s.Ok xs) (exempt : Bool) (pickL pickR : Option VmaRef)
    (vaddr length : UInt64) (prot : UInt32) (sealed : Bool) :
    ∃ s' rc, s.vmaReprotectRangeIn exempt pickL pickR vaddr length prot sealed = some (s', rc) ∧
      (rc ≠ 0 ∧ ReprotectRefused s s' xs ∨
      rc = 0 ∧ s.vmaReprotectPrecheckIn vaddr length prot = 0 ∧
      ∃ xs', Reprotected s s' xs' vaddr length prot sealed ∧
      (s' = s ∨ s'.Coalesced vaddr (vaddr + length)) ∧
      (exempt = false → xs'.length ≤ max xs.length procVmaMax.toNat)) := by
  unfold AddrSpace.vmaReprotectRangeIn
  dsimp only
  by_cases hrc : s.vmaReprotectPrecheckIn vaddr length prot = 0
  swap
  · rw [if_pos hrc]
    exact ⟨s, _, rfl, .inl ⟨hrc, h, .refl s xs, .refl s []⟩⟩
  obtain ⟨ls, ms, rs, hpre⟩ := h.vmaReprotectPrecheckIn hrc
  have hlt := hpre.range.lt
  rw [if_neg (not_not.mpr hrc)]
  by_cases hnoop : s.vmaReprotectIsNoopIn vaddr length prot sealed = true
  · rw [if_pos hnoop]
    exact ⟨s, 0, rfl, .inr ⟨rfl, hrc, xs, h.reprotected_noop hpre hnoop, .inl rfl,
      fun _ => le_max_left ..⟩⟩
  rw [if_neg hnoop, h.vmaNextOverlapIn hpre.split hlt, h.rangeVmas hpre.split hlt]
  -- the first and the last mapping of the range
  obtain ⟨f, tl, hf⟩ := exists_cons_of_ne_nil hpre.nonempty
  obtain ⟨ini, l, hl⟩ := (eq_nil_or_concat' ms).resolve_left hpre.nonempty
  have hfm : f ∈ ms := hf ▸ mem_cons_self
  have hlm : l ∈ ms := hl ▸ by simp
  have hback : ∀ v ∈ ms, (s.vma v).burrow ≠ none := fun v hv => by
    obtain ⟨⟨c, hc, -⟩, -, -⟩ := hpre.each v hv
    rw [hc]
    nofun
  have hhead : ms.head? = some f := by rw [hf]; rfl
  have hlast : ms.getLastD f = l := by rw [hl, getLastD_concat]
  rw [hhead, bind_some, hlast]
  obtain ⟨s₁, r, hpieces, hok₁, hsame, hkeep, hcuts⟩ := h.reprotectPieces (hpre.split.mem hfm)
    (hpre.split.mem hlm) (hback f hfm) (hback l hlm) (hpre.split.meet f hfm).1 (hpre.split.meet l hlm).2 hpre.range.2.1
    hpre.range.alignedEnd pickL pickR
  rw [hpieces, bind_some]
  rcases r with - | ⟨lp, rp⟩
  · exact ⟨s₁, _, rfl, .inl ⟨by decide, hok₁, hsame, hkeep⟩⟩
  obtain ⟨hcuts, hnew⟩ := hcuts lp rp rfl
  dsimp only
  generalize hadd : ((if lp.isSome then 1 else 0) + (if rp.isSome then 1 else 0) : UInt32) = adding
  split_ifs with hfull
  · -- no headroom: both pieces are freed again
    obtain ⟨s₂, hfree₂, hok₂, hsame₂, hkeep₂⟩ := hok₁.freePiece lp fun p hp =>
      hcuts.idle p (mem_append_left _ hp)
    obtain ⟨s₃, hfree₃, hok₃, hsame₃, hkeep₃⟩ := hok₂.freePiece rp fun p hp => by
      obtain ⟨hlive, hnot⟩ := hcuts.idle p (mem_append_right _ hp)
      refine ⟨(hkeep₂.node p hlive fun hmem => ?_).1, hnot⟩
      exact (nodup_append.mp hcuts.nodup).2.2 p hmem p hp rfl
    have hk : Keeps s s₃ (lp.toList ++ rp.toList) :=
      (hkeep.trans hkeep₂ (nil_subset _) (.refl _)).trans hkeep₃
        (subset_append_left ..) (subset_append_right ..)
    refine ⟨s₃, -tENomem, ?_, .inl ⟨by decide, hok₃, (hsame.trans hsame₂).trans hsame₃,
      fun x hx _ => hk.node x hx fun hmem => hnew x hmem hx, hk.burrow⟩⟩
    rw [hfree₂, bind_some, hfree₃]
    rfl
  · have hroom := hok₁.headroom_pieces hadd.symm hfull
    obtain ⟨s', xs', hcut, hre, hco, hlen⟩ :=
      hok₁.reprotectCut (hpre.sameList hsame hkeep) hf hl hcuts hroom sealed
    refine ⟨s', 0, hcut, .inr ⟨rfl, hrc, xs', ⟨hre.ok, fun w => ?_, fun va => ?_⟩, .inr hco,
      fun hex => ?_⟩⟩
    · obtain ⟨h₁, h₂⟩ := hkeep.burrow w
      obtain ⟨h₃, h₄⟩ := hre.burrow w
      exact ⟨h₃.trans h₁, h₄.trans h₂⟩
    · rw [hre.view, h.view_sameList hok₁ hsame]
    · exact hlen.trans (hroom.resolve_left (by rw [hex]; nofun))

/-! ### Pointwise -/

/-- The range shows `prot` already, and if `sealed` for a ceiling. -/
def Shows (s : AddrSpace) (a b : UInt64) (prot : UInt32) (sealed : Bool) : Prop :=
  ∀ va, a ≤ va → va < b → ∃ e, s.view va = some e ∧ e.prot = prot ∧
    (sealed = true → vmaProtMax e.flags = prot)

/-- A range that shows the prot needs no change. -/
theorem Ok.isNoop_of_shows (h : s.Ok xs) (hpre : Prechecked s xs vaddr length prot ls ms rs)
    (hshows : s.Shows vaddr (vaddr + length) prot sealed) :
    s.vmaReprotectIsNoopIn vaddr length prot sealed = true := by
  rw [h.isNoop_iff hpre.split hpre.range.lt]
  intro v hv
  have hvx := hpre.split.mem hv
  obtain ⟨hlo, hhi⟩ := hpre.split.meet v hv
  -- an address of the range that the mapping covers
  obtain ⟨e, he, hprot⟩ := hshows (max vaddr (s.vma v).vaddrStart) (le_max_left ..)
    (max_lt hpre.range.lt hhi)
  rw [h.view_of_mem hvx (le_max_right ..) (max_lt hlo (h.start_lt_end hvx))] at he
  cases he
  exact hprot

section

variable {vaddr length : UInt64} {prot : UInt32} {sealed : Bool}

theorem Reprotected.byte (h : Reprotected s s' xs vaddr length prot sealed) (va : UInt64) :
    (s'.view va).map Entry.byte = (s.view va).map Entry.byte := by
  rw [h.view]
  split_ifs
  · rw [Option.map_map]
    rfl
  · rfl

/-- A prot that passed the precheck is a seal's ceiling. -/
theorem Prechecked.ceiling_eq (hpre : Prechecked s xs vaddr length prot ls ms rs) (flags : UInt32) :
    vmaProtMax (vmaSetProtMax flags prot) = prot := by
  rw [vmaProtMax_set, (hpre.rw.mono (by decide)).and_eq]

variable (hr : Reprotected s s' zs vaddr length prot sealed) (h : s.Ok xs)
  (hpre : Prechecked s xs vaddr length prot ls ms rs)
include hr h hpre

/-- An address of the range, before and after. -/
theorem Reprotected.view_inside {va : UInt64} (hlo : vaddr ≤ va) (hhi : va < vaddr + length) :
    ∃ e, s.view va = some e ∧ s'.view va = some (e.reprotected prot sealed) ∧
      Within prot (vmaProtMax e.flags) := by
  obtain ⟨v, hv, hst, hen⟩ := hpre.covered va hlo hhi
  have hview := h.view_of_mem (hpre.split.mem hv) hst hen
  refine ⟨_, hview, ?_, (hpre.each v hv).ceiling⟩
  rw [hr.view, if_pos ⟨hlo, hhi⟩, hview, map_some]

theorem Reprotected.shows : s'.Shows vaddr (vaddr + length) prot sealed := by
  intro va hlo hhi
  obtain ⟨e, -, hview, -⟩ := hr.view_inside h hpre hlo hhi
  refine ⟨_, hview, rfl, ?_⟩
  rintro rfl
  exact hpre.ceiling_eq e.flags

/-- No ceiling grows. -/
theorem Reprotected.ceiling {va : UInt64} {e e' : Entry} (he : s.view va = some e)
    (he' : s'.view va = some e') :
    Within (vmaProtMax e'.flags) (vmaProtMax e.flags) := by
  by_cases hin : vaddr ≤ va ∧ va < vaddr + length
  · obtain ⟨e₀, he₀, hview, hceil⟩ := hr.view_inside h hpre hin.1 hin.2
    cases he₀.symm.trans he
    cases hview.symm.trans he'
    cases sealed with
    | true =>
      change Within (vmaProtMax (vmaSetProtMax e.flags prot)) _
      rwa [hpre.ceiling_eq]
    | false => exact within_self _
  · rw [hr.view, if_neg hin, he] at he'
    cases he'
    exact within_self _

end

/-- **Reprotect, pointwise and atomic.** If it returns 0, every address keeps its byte, those in the
range have the prot (and, sealed, the ceiling) asked for, the others keep prot and flags, and no
ceiling grows; an error leaves the list as it was. The coalescing pass changes nothing that is seen,
and leaves no two mappings at the range that could be one. A request that passes the precheck and
changes nothing returns 0, whatever the count. -/
theorem reprotect_pointwise (s : AddrSpace) (h : s.WellFormed) (vaddr length : UInt64)
    (prot : UInt32) (sealed : Bool) :
    (∀ (exempt : Bool) (pickL pickR : Option VmaRef), ∃ s' rc,
      s.vmaReprotectRangeIn exempt pickL pickR vaddr length prot sealed = some (s', rc) ∧
      (rc = 0 → s'.WellFormed ∧
        (∀ va, (s'.view va).map Entry.byte = (s.view va).map Entry.byte) ∧
        s'.Shows vaddr (vaddr + length) prot sealed ∧
        (∀ va, ¬(vaddr ≤ va ∧ va < vaddr + length) → s'.view va = s.view va) ∧
        (∀ va e e', s.view va = some e → s'.view va = some e' →
          Within (vmaProtMax e'.flags) (vmaProtMax e.flags)) ∧
        (s' = s ∨ s'.Coalesced vaddr (vaddr + length))) ∧
      (rc ≠ 0 → s'.list = s.list ∧ SameList s s' s.list)) ∧
    (∀ lo hi, lo < hi → ∃ s', s.reprotectMergeIn lo hi = some s' ∧ s'.WellFormed ∧
      s'.view = s.view ∧ s'.Coalesced lo hi) ∧
    (s.vmaReprotectPrecheckIn vaddr length prot = 0 →
      s.Shows vaddr (vaddr + length) prot sealed → ∀ (exempt : Bool) (pickL pickR : Option VmaRef),
        s.vmaReprotectRangeIn exempt pickL pickR vaddr length prot sealed = some (s, 0)) := by
  refine ⟨fun exempt pickL pickR => ?_, fun lo hi hlt => ?_, fun hrc hshows exempt pickL pickR => ?_⟩
  · obtain ⟨s', rc, hrun, hres⟩ := h.vmaReprotectRangeIn exempt pickL pickR vaddr length prot sealed
    refine ⟨s', rc, hrun, fun h0 => ?_, fun hne => ?_⟩
    · obtain ⟨-, hpre, xs', hre, hco, -⟩ := hres.resolve_left fun hr => hr.1 h0
      obtain ⟨ls, ms, rs, hpre⟩ := h.vmaReprotectPrecheckIn hpre
      exact ⟨hre.ok.wellFormed, hre.byte, hre.shows h hpre, fun va hout => by
        rw [hre.view, if_neg hout], fun va e e' => hre.ceiling h hpre, hco⟩
    · obtain ⟨-, href⟩ := hres.resolve_right fun hr => hne hr.1
      exact ⟨href.ok.list_eq, href.same⟩
  · obtain ⟨s', xs', hrun, hm⟩ := h.reprotectMergeIn hlt
    exact ⟨s', hrun, hm.ok.wellFormed, funext hm.view, hm.coalesced⟩
  · obtain ⟨ls, ms, rs, hpre⟩ := h.vmaReprotectPrecheckIn hrc
    unfold AddrSpace.vmaReprotectRangeIn
    rw [if_neg (not_not.mpr hrc), if_pos (h.isNoop_of_shows hpre hshows)]

/-- The second of four pages is made read-only. -/
theorem reprotect_pointwise_second_page :
    ∃ s s' dead, (init fun _ => heldBurrow).vmaReplaceRangeIn false (some ⟨0, by decide⟩) none
        0x10000 0x4000 (some 7) vmaProtRw 0 = some (s, 0, dead) ∧
      s.vmaReprotectRangeIn false (some ⟨1, by decide⟩) (some ⟨2, by decide⟩) 0x11000 0x1000
        vmaProtRead true = some (s', 0) ∧ s'.Shows 0x11000 0x12000 vmaProtRead true := by
  have hrc : ((init fun _ => heldBurrow).vmaReplaceRangeIn false (some ⟨0, by decide⟩) none
      0x10000 0x4000 (some 7) vmaProtRw 0).bind (fun r =>
        (r.1.vmaReprotectRangeIn false (some ⟨1, by decide⟩) (some ⟨2, by decide⟩) 0x11000 0x1000
          vmaProtRead true).map fun r' => (r.2.1, r'.2)) = some (0, 0) := by
    decide +kernel
  obtain ⟨⟨s, rc, dead⟩, hrun, hrc⟩ := Option.bind_eq_some_iff.mp hrc
  obtain ⟨⟨s', rc'⟩, hrun', hrc⟩ := Option.map_eq_some_iff.mp hrc
  cases hrc
  have hfour : fourPages heldBurrow = s := by rw [fourPages, hrun]; rfl
  have hwf : s.WellFormed := hfour ▸ fourPages_wellFormed one_pos
  obtain ⟨s₁, rc₁, heq, hzero, -⟩ := (reprotect_pointwise s hwf 0x11000 0x1000 vmaProtRead true).1
    false (some ⟨1, by decide⟩) (some ⟨2, by decide⟩)
  cases heq.symm.trans hrun'
  exact ⟨s, s', dead, hrun, hrun', (hzero rfl).2.2.1⟩

end AddrSpace

end Thylacine
