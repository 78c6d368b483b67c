import Mathlib.Data.Fintype.Card
import Thylacine.Vma.Mapping

/-!
# The Representation of an Address Space

`AddrSpace.Ok s xs` says that the list of `s` is `xs`: the links are those of `xs`, the count is
its length, its mappings are sorted, and every `struct Vma` in use, linked or not, is a good
mapping whose Burrow counts it. `Fresh` and `Freed` are what an allocation and a free do, and a
`Split` is the list as a range divides it.

## Main results

* `Ok.vmaInsertIn`, `Ok.vmaRemoveIn`: the two edits of the list.
-/

namespace Thylacine

open Function (update update_idem update_of_ne update_self)
open DoublyLinked IntervalMap List Word

/-- The Burrow with another count of mappings. -/
def Burrow.withMaps (w : Burrow) (n : ℕ) : Burrow := { w with mappingCount := n }

namespace AddrSpace

def mapping (s : AddrSpace) (v : VmaRef) : Mapping := (s.vma v).mapping

/-- What the address space shows at an address. -/
def view (s : AddrSpace) (va : UInt64) : Option Entry :=
  Mapping.pieces.view (s.list.map s.mapping) va

/-- The mappings of a Burrow, linked or not. -/
def users (s : AddrSpace) (b : BurrowRef) : Finset VmaRef :=
  s.live.filter fun v => (s.vma v).burrow = some b

/-- The links are those of `xs`, the count its length. -/
structure Rep (s : AddrSpace) (xs : List VmaRef) : Prop where
  holds : DList.Holds ⟨s.vmas, xs.getLast?, s.next, s.prev⟩ xs
  live : ∀ v ∈ xs, v ∈ s.live
  idle : ∀ v ∈ s.live, v ∉ xs → s.next v = none ∧ s.prev v = none
  count : s.vmaCount.toNat = xs.length

/-- The invariant of an address space with the list `xs`. -/
structure Ok (s : AddrSpace) (xs : List VmaRef) : Prop extends Rep s xs where
  good : ∀ v ∈ s.live, (s.mapping v).Ok s.burrows
  counted : ∀ b, (s.users b).card ≤ (s.burrows b).mappingCount
  sorted : Mapping.pieces.Sorted (xs.map s.mapping)

variable {s s' s'' : AddrSpace} {xs ys zs : List VmaRef} {v : VmaRef} {m : Vma}

/-- The invariant, for the list that the pointers lead through. -/
def WellFormed (s : AddrSpace) : Prop := s.Ok s.list

/-! ### Reading the list -/

theorem Rep.length_le (h : s.Rep xs) : xs.length ≤ vmaSlots := by
  have hle := h.holds.nodup.length_le_card
  rwa [Fintype.card_fin] at hle

/-- The pointer before `zs` leads through `zs`. -/
theorem Rep.listFrom_eq (h : s.Rep (ys ++ zs)) : s.listFrom zs.head? = zs := by
  have hlen := h.length_le
  rw [length_append] at hlen
  obtain ⟨r, -, hzs⟩ := PointerChain.chain_append.mp h.holds.fwd
  rw [hzs.head_eq] at hzs
  exact PointerChain.walk_eq hzs (by omega)

theorem Rep.list_eq (h : s.Rep xs) : s.list = xs := by
  have hfirst : s.vmas = xs.head? := h.holds.first_eq
  rw [← nil_append xs] at h
  rw [list, hfirst]
  exact h.listFrom_eq

theorem Ok.wellFormed (h : s.Ok xs) : s.WellFormed := by rwa [WellFormed, h.list_eq]

theorem init_ok (burrows : BurrowRef → Burrow) : (init burrows).Ok [] where
  holds := ⟨rfl, rfl, .nil⟩
  live := nofun
  idle := fun _ _ _ => ⟨rfl, rfl⟩
  count := rfl
  good := fun _ hv => absurd hv (Finset.notMem_empty _)
  counted := fun _ => Nat.zero_le _
  sorted := .nil

theorem Rep.next_eq (h : s.Rep (ys ++ v :: zs)) : s.next v = zs.head? := h.holds.next_eq

theorem Rep.prev_eq (h : s.Rep (ys ++ v :: zs)) : s.prev v = ys.getLast? := h.holds.prev_eq

theorem Ok.view_eq (h : s.Ok xs) (va : UInt64) :
    s.view va = Mapping.pieces.view (xs.map s.mapping) va := by
  rw [view, h.list_eq]

theorem Ok.aligned (h : s.Ok xs) (hv : v ∈ xs) :
    Aligned (s.vma v).vaddrStart ∧ Aligned (s.vma v).vaddrEnd :=
  have hgood := h.good v (h.live v hv)
  ⟨hgood.alignedLo, hgood.alignedHi⟩

theorem Ok.start_lt_end (h : s.Ok xs) (hv : v ∈ xs) : (s.vma v).vaddrStart < (s.vma v).vaddrEnd :=
  (h.good v (h.live v hv)).nonempty

theorem Ok.end_le_start (h : s.Ok (ys ++ v :: zs)) {w : VmaRef} (hw : w ∈ zs) :
    (s.vma v).vaddrEnd ≤ (s.vma w).vaddrStart := by
  have hsorted := h.sorted.apart
  rw [map_append, map_cons] at hsorted
  exact (pairwise_cons.mp (pairwise_append.mp hsorted).2.1).1 _ (mem_map_of_mem hw)

theorem Ok.end_le (h : s.Ok (ys ++ v :: zs)) {w : VmaRef} (hw : w ∈ ys) :
    (s.vma w).vaddrEnd ≤ (s.vma v).vaddrStart := by
  have hsorted := h.sorted.apart
  rw [map_append, map_cons] at hsorted
  exact (pairwise_append.mp hsorted).2.2 _ (mem_map_of_mem hw) _ mem_cons_self

theorem Rep.not_mem (h : s.Rep (ys ++ v :: zs)) : v ∉ ys ++ zs := by
  have hnd := h.holds.nodup
  rw [nodup_middle] at hnd
  exact (nodup_cons.mp hnd).1

/-! ### Frames -/

/-- The list and its mappings are the same. -/
structure SameList (s s' : AddrSpace) (xs : List VmaRef) : Prop where
  vmas : s'.vmas = s.vmas
  count : s'.vmaCount = s.vmaCount
  node : ∀ v ∈ xs, s'.next v = s.next v ∧ s'.prev v = s.prev v ∧ s'.vma v = s.vma v

theorem SameList.refl (s : AddrSpace) (xs : List VmaRef) : SameList s s xs :=
  ⟨rfl, rfl, fun _ _ => ⟨rfl, rfl, rfl⟩⟩

theorem SameList.trans (h : SameList s s' xs) (h' : SameList s' s'' xs) : SameList s s'' xs := by
  refine ⟨h'.vmas.trans h.vmas, h'.count.trans h.count, fun v hv => ?_⟩
  obtain ⟨hn, hp, hv'⟩ := h.node v hv
  obtain ⟨hn', hp', hv''⟩ := h'.node v hv
  exact ⟨hn'.trans hn, hp'.trans hp, hv''.trans hv'⟩

theorem SameList.map_eq (h : SameList s s' xs) : xs.map s'.mapping = xs.map s.mapping :=
  map_congr_left fun v hv => by rw [mapping, (h.node v hv).2.2, mapping]

/-- **The frame rule**: a list not written to survives. -/
theorem Ok.of_sameList (h : s.Ok xs) (hsame : SameList s s' xs) (hlive : ∀ v ∈ xs, v ∈ s'.live)
    (hidle : ∀ v ∈ s'.live, v ∉ xs → s'.next v = none ∧ s'.prev v = none)
    (hgood : ∀ v ∈ s'.live, (s'.mapping v).Ok s'.burrows)
    (hcounted : ∀ b, (s'.users b).card ≤ (s'.burrows b).mappingCount) : s'.Ok xs := by
  refine ⟨⟨⟨?_, ?_, h.holds.nodup⟩, hlive, hidle, ?_⟩, hgood, hcounted, ?_⟩
  · have hfwd := h.holds.fwd.congr fun v hv => (hsame.node v hv).1
    rw [← hsame.vmas] at hfwd
    exact hfwd
  · exact h.holds.bwd.congr fun v hv => (hsame.node v (mem_reverse.mp hv)).2.1
  · rw [hsame.count, h.count]
  · rw [hsame.map_eq]
    exact h.sorted

/-! ### Allocation and free -/

/-- `s'` is `s` with the mapping `v`, not yet linked. -/
structure Fresh (s s' : AddrSpace) (v : VmaRef) (m : Vma) : Prop where
  fresh : v ∉ s.live
  vmas : s'.vmas = s.vmas
  count : s'.vmaCount = s.vmaCount
  next : s'.next = Function.update s.next v none
  prev : s'.prev = Function.update s.prev v none
  vma : s'.vma = Function.update s.vma v m
  live : s'.live = insert v s.live
  burrows : ∀ b, s'.burrows b = (s.burrows b).withMaps
    ((s.burrows b).mappingCount + if m.burrow = some b then 1 else 0)

theorem Fresh.users (h : Fresh s s' v m) (b : BurrowRef) :
    s'.users b = if m.burrow = some b then insert v (s.users b) else s.users b := by
  ext x
  by_cases hx : x = v
  · subst hx
    have hnot : x ∉ s.users b := fun hmem => h.fresh (Finset.mem_of_mem_filter x hmem)
    rw [AddrSpace.users, Finset.mem_filter, h.live, h.vma, update_self]
    split_ifs with hb
    · simp [hb]
    · simp [hb, hnot]
  · have hold : x ∈ s'.users b ↔ x ∈ s.users b := by
      simp [AddrSpace.users, h.live, h.vma, hx]
    rw [hold]
    split_ifs
    · rw [Finset.mem_insert, or_iff_right hx]
    · rfl

theorem Fresh.mem_live (h : Fresh s s' v m) : v ∈ s'.live := h.live ▸ Finset.mem_insert_self v _

theorem Fresh.vma_self (h : Fresh s s' v m) : s'.vma v = m := by rw [h.vma, update_self]

variable {exempt : Bool} {x : VmaRef}

theorem Fresh.vma_of_ne (h : Fresh s s' v m) (hx : x ≠ v) : s'.vma x = s.vma x := by
  rw [h.vma, update_of_ne hx]

theorem Fresh.later (h : Fresh s s' v m) (b : BurrowRef) :
    Mapping.Later (s.burrows b) (s'.burrows b) := by
  rw [h.burrows b]
  exact ⟨rfl, le_rfl⟩

theorem Rep.ne_of_fresh (h : s.Rep xs) (hf : Fresh s s' v m) (hx : x ∈ xs) : x ≠ v :=
  fun heq => hf.fresh (heq ▸ h.live x hx)

theorem Rep.sameList_fresh (h : s.Rep xs) (hf : Fresh s s' v m) : SameList s s' xs := by
  refine ⟨hf.vmas, hf.count, fun x hx => ?_⟩
  have hne := h.ne_of_fresh hf hx
  rw [hf.next, hf.prev, hf.vma, update_of_ne hne, update_of_ne hne, update_of_ne hne]
  exact ⟨rfl, rfl, rfl⟩

/-- **An allocation** keeps the invariant. -/
theorem Ok.fresh (h : s.Ok xs) (hf : Fresh s s' v m) (hm : m.mapping.Ok s.burrows) : s'.Ok xs := by
  refine h.of_sameList (h.sameList_fresh hf) (fun x hx => ?_) (fun x hx hnot => ?_)
    (fun x hx => ?_) fun b => ?_
  · rw [hf.live]
    exact Finset.mem_insert_of_mem (h.live x hx)
  · rw [hf.next, hf.prev]
    by_cases hxv : x = v
    · rw [hxv, update_self, update_self]
      exact ⟨rfl, rfl⟩
    · rw [update_of_ne hxv, update_of_ne hxv]
      rw [hf.live] at hx
      exact h.idle x (Finset.mem_of_mem_insert_of_ne hx hxv) hnot
  · rw [mapping]
    by_cases hxv : x = v
    · rw [hxv, hf.vma_self]
      exact hm.later fun b _ _ => hf.later b
    · rw [hf.vma_of_ne hxv]
      rw [hf.live] at hx
      exact (h.good x (Finset.mem_of_mem_insert_of_ne hx hxv)).later fun b _ _ => hf.later b
  · have hle := h.counted b
    rw [hf.users, hf.burrows]
    split_ifs
    · exact (Finset.card_insert_le _ _).trans (Nat.succ_le_succ hle)
    · exact hle

/-- `s'` is `s` without the unlinked mapping `v`. -/
structure Freed (s s' : AddrSpace) (v : VmaRef) : Prop where
  vmas : s'.vmas = s.vmas
  count : s'.vmaCount = s.vmaCount
  next : s'.next = s.next
  prev : s'.prev = s.prev
  vma : s'.vma = s.vma
  live : s'.live = s.live.erase v
  burrows : ∀ b, s'.burrows b = (s.burrows b).withMaps
    ((s.burrows b).mappingCount - if (s.vma v).burrow = some b then 1 else 0)

theorem Freed.sameList (h : Freed s s' v) (xs : List VmaRef) : SameList s s' xs :=
  ⟨h.vmas, h.count, fun x _ => ⟨by rw [h.next], by rw [h.prev], by rw [h.vma]⟩⟩

theorem Freed.users (h : Freed s s' v) (b : BurrowRef) : s'.users b = (s.users b).erase v := by
  ext x
  simp only [AddrSpace.users, h.live, h.vma, Finset.mem_filter, Finset.mem_erase]
  tauto

theorem Freed.later (h : Freed s s' v) (b : BurrowRef) :
    Mapping.Later (s.burrows b) (s'.burrows b) := by
  rw [h.burrows b]
  exact ⟨rfl, le_rfl⟩

/-- **A free** keeps the invariant. -/
theorem Ok.freed (h : s.Ok xs) (hf : Freed s s' v) (hv : v ∈ s.live) (hnot : v ∉ xs) :
    s'.Ok xs := by
  refine h.of_sameList (hf.sameList xs) (fun x hx => ?_) (fun x hx => ?_) (fun x hx => ?_)
    fun b => ?_
  · rw [hf.live]
    exact Finset.mem_erase_of_ne_of_mem (ne_of_mem_of_not_mem hx hnot) (h.live x hx)
  · rw [hf.live] at hx
    rw [hf.next, hf.prev]
    exact h.idle x (Finset.mem_of_mem_erase hx)
  · rw [hf.live] at hx
    rw [mapping, hf.vma]
    exact (h.good x (Finset.mem_of_mem_erase hx)).later fun b _ _ => hf.later b
  · have hle := h.counted b
    rw [hf.users, hf.burrows]
    split_ifs with hb
    · have hmem : v ∈ s.users b := Finset.mem_filter.mpr ⟨hv, hb⟩
      rw [Finset.card_erase_of_mem hmem]
      exact Nat.sub_le_sub_right hle 1
    · exact (Finset.card_erase_le).trans hle

/-! ### The checks of an allocation -/

theorem span_toNat (w : Burrow) :
    (UInt64.ofNat (w.pageCount * pageBytes)).toNat = w.pageCount * pageBytes := by
  rw [UInt64.toNat_ofNat', Nat.mod_eq_of_lt w.fits]

/-- What `vma_alloc` admits is a good mapping. -/
theorem ok_of_admits {burrows : BurrowRef → Burrow} {b : BurrowRef} {st en off : UInt64}
    {prot flags : UInt32} (h : vmaAdmits (burrows b) st en prot off) (hprot : Within prot 7)
    (hoff : Aligned off) :
    Mapping.Ok burrows
      { lo := st, hi := en, prot := normalProt (burrows b).type prot
        flags := vmaSetProtMax flags (normalProt (burrows b).type prot), back := some (b, off) } := by
  obtain ⟨hlt, hst, hen, hwx, hwr, hle, hlen⟩ := h
  refine ⟨hlt, hst, hen, ProtOk.normal ⟨hwx, hwr⟩ _, within_ceiling (normalProt_within hprot _) _,
    nofun, fun b' o heq => ?_⟩
  cases heq
  refine ⟨hoff, ?_, type_of_normalProt⟩
  rw [UInt64.le_iff_toNat_le, UInt64.toNat_sub_of_le _ _ hle, span_toNat] at hlen
  rw [UInt64.le_iff_toNat_le, span_toNat] at hle
  dsimp only
  rw [Mapping.Fits]
  omega

/-- Somebody holds the Burrow. -/
def Alive (s : AddrSpace) (b : BurrowRef) : Prop :=
  0 < (s.burrows b).handleCount ∨ 0 < (s.burrows b).mappingCount

theorem burrowAcquireMapping_eq {b : BurrowRef} (h : s.Alive b) :
    s.burrowAcquireMapping b =
      some (s.setBurrow b ((s.burrows b).withMaps ((s.burrows b).mappingCount + 1))) := by
  refine if_neg fun hzero => ?_
  unfold Alive at h
  omega

/-- The mapping that `vma_alloc` makes. -/
def minted (s : AddrSpace) (st en : UInt64) (prot : UInt32) (b : BurrowRef) (off : UInt64) : Vma :=
  let prot := normalProt (s.burrows b).type prot
  { vaddrStart := st, vaddrEnd := en, prot := prot, flags := vmaSetProtMax 0 prot
    burrow := some b, burrowOffset := off }

/-- `vma_alloc` returns null and changes nothing, or makes a mapping. -/
theorem vmaAlloc_spec (s : AddrSpace) (pick : Option VmaRef) (st en : UInt64) (prot : UInt32)
    (burrow : Option BurrowRef) (off : UInt64) (halive : ∀ b, burrow = some b → s.Alive b) :
    s.vmaAlloc pick st en prot burrow off = some (s, none) ∨
      ∃ s' v b, s.vmaAlloc pick st en prot burrow off = some (s', some v) ∧ pick = some v ∧
        burrow = some b ∧ vmaAdmits (s.burrows b) st en prot off ∧
          Fresh s s' v (s.minted st en prot b off) := by
  unfold vmaAlloc
  cases burrow with
  | none => exact .inl rfl
  | some b =>
    cases hpick : pick.filter (· ∉ s.live) with
    | none => exact .inl rfl
    | some v =>
      obtain ⟨hv, hlive⟩ := Option.filter_eq_some_iff.mp hpick
      dsimp only
      split_ifs with hadm
      · have hacq : (s.newVma v (s.minted st en prot b off)).burrowAcquireMapping b = some _ :=
          burrowAcquireMapping_eq (halive b rfl)
        refine .inr ⟨_, v, b, congrArg (Option.map _) hacq, hv, rfl, hadm, ?_⟩
        refine ⟨of_decide_eq_true hlive, rfl, rfl, rfl, rfl, rfl, rfl, fun b' => ?_⟩
        change update s.burrows b _ b' = _
        by_cases hb : b' = b
        · have hif : (s.minted st en prot b off).burrow = some b' := hb ▸ rfl
          rw [if_pos hif, hb, update_self]
          rfl
        · have hif : ¬(s.minted st en prot b off).burrow = some b' := fun heq =>
            hb (Option.some.inj heq).symm
          rw [if_neg hif, update_of_ne hb]
          rfl
      · exact .inl rfl

/-- The mapping that `vma_alloc_guard` makes. -/
def guardVma (st en : UInt64) : Vma :=
  { vaddrStart := st, vaddrEnd := en, prot := 0, flags := 0, burrow := none, burrowOffset := 0 }

theorem vmaAllocGuard_spec (s : AddrSpace) (pick : Option VmaRef) (st en : UInt64) :
    s.vmaAllocGuard pick st en = (s, none) ∨
      ∃ s' v, s.vmaAllocGuard pick st en = (s', some v) ∧ pick = some v ∧
        (st < en ∧ Aligned st ∧ Aligned en) ∧ Fresh s s' v (guardVma st en) := by
  rw [vmaAllocGuard]
  cases hpick : pick.filter (· ∉ s.live) with
  | none => exact .inl rfl
  | some v =>
    obtain ⟨hv, hlive⟩ := Option.filter_eq_some_iff.mp hpick
    split_ifs with hrange
    · exact .inr ⟨_, v, rfl, hv, hrange, of_decide_eq_true hlive, rfl, rfl, rfl, rfl, rfl, rfl,
        fun _ => rfl⟩
    · exact .inl rfl

/-- A free of a mapping that is not linked. -/
theorem Ok.vmaFree (h : s.Ok xs) (hv : v ∈ s.live) (hnot : v ∉ xs) :
    ∃ s' dead, s.vmaFree v = some (s', dead) ∧ Freed s s' v ∧
      (dead ≠ none → ∃ b, (s.vma v).burrow = some b ∧ (s.burrows b).mappingCount = 1) := by
  obtain ⟨hnext, hprev⟩ := h.idle v hv hnot
  rw [AddrSpace.vmaFree, if_neg (by rw [hnext, hprev]; simp)]
  cases hb : (s.vma v).burrow with
  | none =>
    refine ⟨{ s with live := s.live.erase v }, none, rfl,
      ⟨rfl, rfl, rfl, rfl, rfl, rfl, fun b => ?_⟩, absurd rfl⟩
    rw [hb]
    rfl
  | some b =>
    have hpos : 0 < (s.burrows b).mappingCount :=
      (Finset.card_pos.mpr ⟨v, Finset.mem_filter.mpr ⟨hv, hb⟩⟩).trans_le (h.counted b)
    dsimp only
    rw [burrowReleaseMapping, if_neg hpos.ne']
    refine ⟨_, _, rfl, ⟨rfl, rfl, rfl, rfl, rfl, rfl, fun b' => ?_⟩, fun hne => ⟨b, rfl, ?_⟩⟩
    · change update s.burrows b _ b' = _
      by_cases hbb : b' = b
      · rw [hb, hbb, update_self, if_pos rfl]
        rfl
      · rw [hb, update_of_ne hbb, if_neg fun heq => hbb (Option.some.inj heq).symm]
        rfl
    · by_contra hone
      exact hne (if_neg fun hzero => hone (by dsimp only at hzero; omega))

/-! ### Linking and unlinking -/

theorem Ok.ne_links (h : s.Ok xs) (hv : v ∈ s.live) (hnot : v ∉ xs) :
    ¬(s.next v ≠ none ∨ s.prev v ≠ none ∨ s.vmas = some v) := by
  obtain ⟨hnext, hprev⟩ := h.idle v hv hnot
  have hfirst : s.vmas = xs.head? := h.holds.first_eq
  rintro (hn | hp | hh)
  · exact hn hnext
  · exact hp hprev
  · exact hnot (mem_of_head? (hfirst.symm.trans hh))

/-- `m` overlaps no mapping of the list. -/
def Clear (s : AddrSpace) (xs : List VmaRef) (m : Vma) : Prop :=
  ∀ x ∈ xs, ¬rangesOverlap m.vaddrStart m.vaddrEnd (s.vma x).vaddrStart (s.vma x).vaddrEnd

/-- The place of `m` is between `ys` and `zs`. -/
structure Place (s : AddrSpace) (m : Vma) (ys zs : List VmaRef) : Prop where
  before : ∀ y ∈ ys, (s.vma y).vaddrEnd ≤ m.vaddrStart
  after : ∀ z ∈ zs, m.vaddrEnd ≤ (s.vma z).vaddrStart

/-- A mapping that overlaps no other has its place. -/
theorem Ok.exists_place (h : s.Ok xs) (hclear : s.Clear xs m) :
    ∃ ys zs, xs = ys ++ zs ∧ s.Place m ys zs := by
  obtain ⟨ys, ms, zs, rfl, hys, hms, hzs⟩ := h.sorted.exists_split m.vaddrStart m.vaddrEnd
  obtain rfl : ms = [] := by
    refine eq_nil_iff_forall_not_mem.mpr fun x hx => ?_
    exact hclear x (by simp [hx]) (hms x hx)
  exact ⟨ys, zs, by simp, hys, fun z hz => (hzs z hz).2⟩

/-- The walk finds the place. -/
theorem insertWalk_eq (hm : m.vaddrStart < m.vaddrEnd)
    (hys : ∀ y ∈ ys, (s.vma y).vaddrStart < (s.vma y).vaddrEnd) (hpl : s.Place m ys zs)
    (prev : Option VmaRef) :
    s.insertWalk m (ys ++ zs) prev = some (ys.getLast?.or prev, zs.head?) := by
  induction ys generalizing prev with
  | nil =>
    cases zs with
    | nil => rfl
    | cons z =>
      have hz := hpl.after z mem_cons_self
      exact (if_neg fun hov => absurd (hov.2.trans_le hz) (lt_irrefl _)).trans (if_pos hz)
  | cons y ys ih =>
    have hy := hpl.before y mem_cons_self
    have hend : ¬m.vaddrEnd ≤ (s.vma y).vaddrStart := fun hle =>
      absurd ((hm.trans_le hle).trans ((hys y mem_cons_self).trans_le hy)) (lt_irrefl _)
    rw [cons_append, insertWalk, if_neg fun hov => absurd (hov.1.trans_le hy) (lt_irrefl _),
      if_neg hend, ih (fun w hw => hys w (mem_cons_of_mem y hw))
        ⟨fun w hw => hpl.before w (mem_cons_of_mem y hw), hpl.after⟩, getLast?_cons]
    cases ys.getLast? <;> rfl

/-- The walk refuses what overlaps. -/
theorem insertWalk_eq_none (hsort : Mapping.pieces.Sorted (xs.map s.mapping)) (hx : x ∈ xs)
    (hov : rangesOverlap m.vaddrStart m.vaddrEnd (s.vma x).vaddrStart (s.vma x).vaddrEnd)
    (prev : Option VmaRef) : s.insertWalk m xs prev = none := by
  induction xs generalizing prev with
  | nil => cases hx
  | cons y xs ih =>
    rw [insertWalk]
    rcases mem_cons.mp hx with rfl | hx
    · exact if_pos hov
    · have hyx : (s.vma y).vaddrEnd ≤ (s.vma x).vaddrStart :=
        (pairwise_cons.mp hsort.apart).1 _ (mem_map_of_mem hx)
      have hy : (s.vma y).vaddrStart < (s.vma y).vaddrEnd := hsort.nonempty _ mem_cons_self
      have hend : ¬m.vaddrEnd ≤ (s.vma y).vaddrStart := fun hle =>
        absurd ((hle.trans_lt hy).trans_le (hyx.trans hov.2.le)) (lt_irrefl _)
      rw [if_neg hend, ih (hsort.sublist (sublist_cons_self ..)) hx]
      exact ite_self _

/-- `s'` is `s` with another list: the same mappings and, as the invariant reads them, Burrows. -/
structure Relinked (s s' : AddrSpace) : Prop where
  vma : s'.vma = s.vma
  live : s'.live = s.live
  burrows : ∀ b, (s'.burrows b).type = (s.burrows b).type ∧
    (s'.burrows b).pageCount = (s.burrows b).pageCount ∧
      (s'.burrows b).mappingCount = (s.burrows b).mappingCount ∧
        (s'.burrows b).handleCount = (s.burrows b).handleCount

theorem Relinked.good (h : Relinked s s') (hgood : ∀ v ∈ s.live, (s.mapping v).Ok s.burrows) :
    ∀ v ∈ s'.live, (s'.mapping v).Ok s'.burrows := by
  intro v hv
  rw [h.live] at hv
  rw [mapping, h.vma]
  exact (hgood v hv).later fun b _ _ => ⟨(h.burrows b).1, (h.burrows b).2.1.ge⟩

theorem Relinked.counted (h : Relinked s s')
    (hc : ∀ b, (s.users b).card ≤ (s.burrows b).mappingCount) (b : BurrowRef) :
    (s'.users b).card ≤ (s'.burrows b).mappingCount := by
  rw [(h.burrows b).2.2.1, users, h.live, h.vma]
  exact hc b

/-- Binding the bias of a Burrow writes nothing else. -/
theorem burrowLazyBindVa0_spec (s : AddrSpace) (v : VmaRef) :
    Relinked s (s.burrowLazyBindVa0 v) ∧ (s.burrowLazyBindVa0 v).vmas = s.vmas ∧
      (s.burrowLazyBindVa0 v).vmaCount = s.vmaCount ∧ (s.burrowLazyBindVa0 v).next = s.next ∧
        (s.burrowLazyBindVa0 v).prev = s.prev := by
  fun_cases burrowLazyBindVa0 s v with
  | case1 => exact ⟨⟨rfl, rfl, fun _ => ⟨rfl, rfl, rfl, rfl⟩⟩, rfl, rfl, rfl, rfl⟩
  | case2 m b =>
    refine ⟨⟨rfl, rfl, fun b' => ?_⟩, rfl, rfl, rfl, rfl⟩
    dsimp only [setBurrow]
    by_cases hbb : b' = b
    · rw [hbb, update_self]
      fun_cases lazyBindVa0 <;> exact ⟨rfl, rfl, rfl, rfl⟩
    · rw [update_of_ne hbb]
      exact ⟨rfl, rfl, rfl, rfl⟩

/-- There is room for one more mapping. -/
def Room (s : AddrSpace) (exempt : Bool) : Prop := exempt = true ∨ s.vmaCount < procVmaMax

theorem Rep.room_iff (h : s.Rep xs) :
    s.Room exempt ↔ exempt = true ∨ xs.length < procVmaMax.toNat := by
  rw [Room, UInt32.lt_iff_toNat_lt, h.count]

theorem Rep.count_ne (h : s.Rep xs) : s.vmaCount ≠ 0xFFFFFFFF := by
  intro heq
  have hcount := h.count
  have hlen := h.length_le
  rw [heq] at hcount
  change 4294967295 = xs.length at hcount
  unfold vmaSlots at hlen
  omega

theorem Rep.charge_eq (h : s.Rep xs) (hroom : s.Room exempt) :
    s.addrspaceChargeVma exempt = some { s with vmaCount := s.vmaCount + 1 } := by
  rw [addrspaceChargeVma, if_neg h.count_ne]
  refine if_neg ?_
  rcases hroom with rfl | hlt
  · simp
  · simp [UInt32.not_le.mpr hlt]

theorem charge_eq_none (hroom : ¬s.Room exempt) : s.addrspaceChargeVma exempt = none := by
  rw [Room, not_or, Bool.not_eq_true, UInt32.not_lt] at hroom
  rw [addrspaceChargeVma]
  split_ifs with h1 h2
  · rfl
  · rfl
  · simp [hroom] at h2

theorem Rep.count_succ (h : s.Rep xs) (hv : v ∉ xs) : (s.vmaCount + 1).toNat = xs.length + 1 := by
  have hlen : (v :: xs).length ≤ vmaSlots := by
    have hle := (nodup_cons.mpr ⟨hv, h.holds.nodup⟩).length_le_card
    rwa [Fintype.card_fin] at hle
  rw [length_cons] at hlen
  unfold vmaSlots at hlen
  rw [UInt32.toNat_add, h.count]
  change (xs.length + 1) % 2 ^ 32 = _
  omega

/-- **Linking** keeps the invariant. -/
theorem Ok.link (h : s.Ok (ys ++ zs)) (hv : v ∈ s.live) (hnot : v ∉ ys ++ zs)
    (hpl : s.Place (s.vma v) ys zs) :
    ({ s with vmaCount := s.vmaCount + 1 }.setLinks
      (s.links.insertBetween ys.getLast? zs.head? v)).Ok (ys ++ v :: zs) := by
  have hup : DList.UpToLast ⟨s.vmas, (ys ++ zs).getLast?, s.next, s.prev⟩ s.links := ⟨rfl, rfl, rfl⟩
  have hholds := (h.holds.insertBetween hnot).upToLast (hup.insertBetween ys.getLast? zs.head? v)
  have hsame := DList.sameLinks_insertBetween s.links ys zs v
  obtain ⟨hlive, hlive'⟩ := forall_mem_append.mp h.live
  refine ⟨⟨hholds, forall_mem_append.mpr ⟨hlive, forall_mem_cons.mpr ⟨hv, hlive'⟩⟩,
    fun x hx hnx => ?_, ?_⟩, h.good, h.counted, ?_⟩
  · have hxs : x ∉ v :: (ys ++ zs) := fun hmem => hnx (perm_middle.mem_iff.mpr hmem)
    obtain ⟨hn, hp⟩ := h.idle x hx fun hmem => hxs (mem_cons_of_mem v hmem)
    exact ⟨(hsame x hxs).1.trans hn, (hsame x hxs).2.trans hp⟩
  · change (s.vmaCount + 1).toNat = _
    rw [h.count_succ hnot, length_append, length_append, length_cons]
    rfl
  · have hsorted := h.sorted
    rw [map_append] at hsorted
    rw [map_append, map_cons]
    exact hsorted.insert (h.good v hv).nonempty (forall_mem_map.mpr hpl.before)
      (forall_mem_map.mpr hpl.after)

theorem Ok.relinked (h : s.Ok xs) (hr : Relinked s s') (hvmas : s'.vmas = s.vmas)
    (hcount : s'.vmaCount = s.vmaCount) (hnext : s'.next = s.next) (hprev : s'.prev = s.prev) :
    s'.Ok xs := by
  refine h.of_sameList ⟨hvmas, hcount, fun v _ => ?_⟩ (fun v hv => ?_) (fun v hv => ?_)
    (hr.good h.good) (hr.counted h.counted)
  · rw [hnext, hprev, hr.vma]
    exact ⟨rfl, rfl, rfl⟩
  · rw [hr.live]
    exact h.live v hv
  · rw [hr.live] at hv
    rw [hnext, hprev]
    exact h.idle v hv

/-- **`vma_insert_in`** of a mapping at its place, with room. -/
theorem Ok.vmaInsertIn (h : s.Ok (ys ++ zs)) (hv : v ∈ s.live) (hnot : v ∉ ys ++ zs)
    (hpl : s.Place (s.vma v) ys zs) (hroom : s.Room exempt) :
    ∃ s', s.vmaInsertIn exempt v = some (s', 0) ∧ s'.Ok (ys ++ v :: zs) ∧ Relinked s s' := by
  have hwalk := insertWalk_eq (h.good v hv).nonempty
    (fun y hy => h.start_lt_end (mem_append_left zs hy)) hpl none
  rw [Option.or_none] at hwalk
  obtain ⟨hbind, hvmas, hcount, hnext, hprev⟩ := burrowLazyBindVa0_spec
    ({ s with vmaCount := s.vmaCount + 1 }.setLinks
      (s.links.insertBetween ys.getLast? zs.head? v)) v
  refine ⟨_, ?_, (h.link hv hnot hpl).relinked hbind hvmas hcount hnext hprev,
    ⟨hbind.vma, hbind.live, hbind.burrows⟩⟩
  rw [AddrSpace.vmaInsertIn, if_neg (h.ne_links hv hnot), h.list_eq, hwalk]
  rw [h.charge_eq hroom]
  rfl

/-- `vma_insert_in` refuses an overlap or want of room. -/
theorem Ok.vmaInsertIn_refused (h : s.Ok xs) (hv : v ∈ s.live) (hnot : v ∉ xs)
    (hne : ¬(s.Clear xs (s.vma v) ∧ s.Room exempt)) :
    ∃ rc, s.vmaInsertIn exempt v = some (s, rc) ∧ rc ≠ 0 := by
  rw [AddrSpace.vmaInsertIn, if_neg (h.ne_links hv hnot), h.list_eq]
  by_cases hclear : s.Clear xs (s.vma v)
  · obtain ⟨ys, zs, rfl, hpl⟩ := h.exists_place hclear
    rw [insertWalk_eq (h.good v hv).nonempty
      (fun y hy => h.start_lt_end (mem_append_left zs hy)) hpl]
    rw [charge_eq_none fun hroom => hne ⟨hclear, hroom⟩]
    exact ⟨-tENomem, rfl, by decide⟩
  · rw [Clear] at hclear
    push Not at hclear
    obtain ⟨x, hx, hov⟩ := hclear
    rw [insertWalk_eq_none h.sorted hx hov]
    exact ⟨-1, rfl, by decide⟩

theorem Rep.vmaLinkedIn (h : s.Rep (ys ++ v :: zs)) : s.vmaLinkedIn v = true := by
  have hnext := h.next_eq
  have hprev := h.prev_eq
  rw [AddrSpace.vmaLinkedIn, Bool.and_eq_true, hnext, hprev]
  constructor
  · rcases eq_nil_or_concat ys with rfl | ⟨ys, p, rfl⟩
    · have hfirst : s.vmas = some v := h.holds.first_eq
      simp [hfirst]
    · rw [concat_eq_append, append_assoc, singleton_append] at h
      have hp : s.next p = some v := h.next_eq
      simp [hp]
  · cases zs with
    | nil => rfl
    | cons n =>
      rw [append_cons] at h
      have hn : s.prev n = some v := by rw [h.prev_eq, getLast?_concat]
      simp [hn]

/-- **`vma_remove_in`** of a mapping of the list. -/
theorem Ok.vmaRemoveIn (h : s.Ok (ys ++ v :: zs)) :
    ∃ s', s.vmaRemoveIn v = some s' ∧ s'.Ok (ys ++ zs) ∧ Relinked s s' := by
  have hup : DList.UpToLast ⟨s.vmas, (ys ++ v :: zs).getLast?, s.next, s.prev⟩ s.links :=
    ⟨rfl, rfl, rfl⟩
  have hholds := h.holds.unlink.upToLast (hup.unlink v)
  have hsame := h.holds.sameLinks_unlink
  refine ⟨_, if_pos h.vmaLinkedIn, ⟨⟨hholds, fun x hx => ?_, fun x hx hnx => ?_, ?_⟩, h.good,
    h.counted, ?_⟩, ⟨rfl, rfl, fun _ => ⟨rfl, rfl, rfl, rfl⟩⟩⟩
  · exact h.live x (perm_middle.mem_iff.mpr (mem_cons_of_mem v hx))
  · by_cases hxv : x = v
    · subst hxv
      exact ⟨update_self .., update_self ..⟩
    · have hxs : x ∉ ys ++ v :: zs := fun hmem =>
        (mem_cons.mp (perm_middle.mem_iff.mp hmem)).elim hxv hnx
      obtain ⟨hn, hp⟩ := h.idle x hx hxs
      have hl := hup.unlink v
      refine ⟨?_, ?_⟩
      · change (s.links.unlink v).next x = none
        rw [hl.next]
        exact (hsame x hxs).1.trans hn
      · change (s.links.unlink v).prev x = none
        rw [hl.prev]
        exact (hsame x hxs).2.trans hp
  · have hcount := h.count
    rw [length_append, length_cons] at hcount
    have hpos : 0 < s.vmaCount := by
      rw [UInt32.lt_iff_toNat_lt, hcount]
      exact Nat.succ_pos _
    change (if 0 < s.vmaCount then s.vmaCount - 1 else 0).toNat = _
    rw [if_pos hpos, UInt32.toNat_sub_of_le _ _ (UInt32.le_iff_toNat_le.mpr ?_), hcount,
      length_append]
    · rfl
    · rw [hcount]
      exact Nat.succ_pos _
  · exact h.sorted.sublist (Sublist.map _ ((sublist_cons_self v zs).append_left ys))

/-! ### Writing to a mapping -/

theorem users_setVma (hb : m.burrow = (s.vma v).burrow) (b : BurrowRef) :
    (s.setVma v m).users b = s.users b := by
  ext x
  rw [users, users, Finset.mem_filter, Finset.mem_filter]
  refine and_congr_right fun _ => ?_
  change (update s.vma v m x).burrow = some b ↔ _
  by_cases hx : x = v
  · rw [hx, update_self, hb]
  · rw [update_of_ne hx]

theorem mapping_setVma_self : (s.setVma v m).mapping v = m.mapping :=
  congrArg Vma.mapping (update_self ..)

theorem mapping_setVma_of_ne (hx : x ≠ v) : (s.setVma v m).mapping x = s.mapping x :=
  congrArg Vma.mapping (update_of_ne hx ..)

theorem map_setVma_of_not_mem (hv : v ∉ xs) : xs.map (s.setVma v m).mapping = xs.map s.mapping :=
  map_congr_left fun _ hx => mapping_setVma_of_ne (ne_of_mem_of_not_mem hx hv)

theorem Ok.good_setVma (h : s.Ok xs) (hm : m.mapping.Ok s.burrows) :
    ∀ x ∈ (s.setVma v m).live, ((s.setVma v m).mapping x).Ok (s.setVma v m).burrows := by
  intro x hx
  by_cases hxv : x = v
  · rw [hxv, mapping_setVma_self]
    exact hm
  · rw [mapping_setVma_of_ne hxv]
    exact h.good x hx

/-- A mapping may change between its neighbours. -/
theorem Ok.setVma (h : s.Ok (ys ++ v :: zs)) (hb : m.burrow = (s.vma v).burrow)
    (hm : m.mapping.Ok s.burrows) (hys : ∀ y ∈ ys, (s.vma y).vaddrEnd ≤ m.vaddrStart)
    (hzs : ∀ z ∈ zs, m.vaddrEnd ≤ (s.vma z).vaddrStart) : (s.setVma v m).Ok (ys ++ v :: zs) := by
  have hnd := h.holds.nodup
  rw [nodup_middle, nodup_cons, mem_append, not_or] at hnd
  refine ⟨⟨h.holds, h.live, h.idle, h.count⟩, h.good_setVma hm, fun b => ?_, ?_⟩
  · rw [users_setVma hb]
    exact h.counted b
  · have hsub : (ys ++ zs).Sublist (ys ++ v :: zs) := (sublist_cons_self v zs).append_left ys
    have hsorted := h.sorted.sublist (hsub.map s.mapping)
    rw [map_append] at hsorted
    rw [map_append, map_cons, mapping_setVma_self, map_setVma_of_not_mem hnd.1.1,
      map_setVma_of_not_mem hnd.1.2]
    exact hsorted.insert hm.nonempty (forall_mem_map.mpr hys) (forall_mem_map.mpr hzs)

/-- A mapping may be cut down to a part of itself. -/
theorem Ok.shrink (h : s.Ok (ys ++ v :: zs)) (hb : m.burrow = (s.vma v).burrow) {c d : UInt64}
    (hm : m.mapping = (s.mapping v).cut c d) (hc : (s.vma v).vaddrStart ≤ c) (hcd : c < d)
    (hd : d ≤ (s.vma v).vaddrEnd) (hcl : Aligned c) (hdl : Aligned d) :
    (s.setVma v m).Ok (ys ++ v :: zs) := by
  have hlo : m.vaddrStart = c := congrArg Mapping.lo hm
  have hhi : m.vaddrEnd = d := congrArg Mapping.hi hm
  refine h.setVma hb ?_ (fun y hy => ?_) fun z hz => ?_
  · rw [hm]
    exact (h.good v (h.live v (by simp))).cut hc hcd hd hcl hdl
  · rw [hlo]
    exact (h.end_le hy).trans hc
  · rw [hhi]
    exact hd.trans (h.end_le_start hz)

/-- A mapping that is not linked may be changed. -/
theorem Ok.setVma_idle (h : s.Ok xs) (hv : v ∉ xs) (hb : m.burrow = (s.vma v).burrow)
    (hm : m.mapping.Ok s.burrows) : (s.setVma v m).Ok xs := by
  refine h.of_sameList ⟨rfl, rfl, fun x hx => ⟨rfl, rfl, ?_⟩⟩ h.live h.idle (h.good_setVma hm)
    fun b => ?_
  · exact update_of_ne (ne_of_mem_of_not_mem hx hv) ..
  · rw [users_setVma hb]
    exact h.counted b

theorem Fresh.setVma {m' : Vma} (h : Fresh s s' v m) (hb : m'.burrow = m.burrow) :
    Fresh s (s'.setVma v m') v m' := by
  refine ⟨h.fresh, h.vmas, h.count, h.next, h.prev, ?_, h.live, fun b => ?_⟩
  · change update s'.vma v m' = _
    rw [h.vma, update_idem]
  · rw [hb]
    exact h.burrows b

/-! ### The mappings of a range -/

/-- The list, as the range from `a` to `b` divides it. -/
structure Split (s : AddrSpace) (xs : List VmaRef) (a b : UInt64) (ls ms rs : List VmaRef) :
    Prop where
  eq : xs = ls ++ ms ++ rs
  before : ∀ v ∈ ls, (s.vma v).vaddrEnd ≤ a
  meet : ∀ v ∈ ms, a < (s.vma v).vaddrEnd ∧ (s.vma v).vaddrStart < b
  after : ∀ v ∈ rs, a < (s.vma v).vaddrEnd ∧ b ≤ (s.vma v).vaddrStart

variable {ls ms rs : List VmaRef} {a b : UInt64}

theorem Split.mem (h : Split s xs a b ls ms rs) (hv : v ∈ ms) : v ∈ xs := by simp [h.eq, hv]

theorem Ok.exists_split (h : s.Ok xs) (a b : UInt64) : ∃ ls ms rs, Split s xs a b ls ms rs := by
  obtain ⟨ls, ms, rs, heq, hls, hms, hrs⟩ := h.sorted.exists_split a b
  exact ⟨ls, ms, rs, heq, hls, hms, hrs⟩

theorem overlapWalk_eq (hls : ∀ v ∈ ls, (s.vma v).vaddrEnd ≤ a ∧ (s.vma v).vaddrStart < b)
    (hms : ∀ v ∈ ms, a < (s.vma v).vaddrEnd ∧ (s.vma v).vaddrStart < b)
    (hrs : ∀ v ∈ rs, b ≤ (s.vma v).vaddrStart) :
    s.overlapWalk a b (ls ++ ms ++ rs) = ms.head? := by
  induction ls with
  | nil =>
    cases ms with
    | nil =>
      cases rs with
      | nil => rfl
      | cons v => exact if_pos (hrs v mem_cons_self)
    | cons v =>
      obtain ⟨ha, hb⟩ := hms v mem_cons_self
      exact (if_neg (not_le.mpr hb)).trans (if_pos ha)
  | cons v ls ih =>
    obtain ⟨ha, hb⟩ := hls v mem_cons_self
    refine (if_neg (not_le.mpr hb)).trans ((if_neg (not_lt.mpr ha)).trans ?_)
    exact ih fun w hw => hls w (mem_cons_of_mem v hw)

/-- `vma_next_overlap_in` finds the first that meets the range. -/
theorem Ok.vmaNextOverlapIn (h : s.Ok xs) (hsp : Split s xs a b ls ms rs) (hab : a < b) :
    s.vmaNextOverlapIn a b = ms.head? := by
  rw [AddrSpace.vmaNextOverlapIn, if_neg (not_le.mpr hab), h.list_eq, hsp.eq]
  refine overlapWalk_eq (fun v hv => ⟨hsp.before v hv, ?_⟩) hsp.meet fun v hv => (hsp.after v hv).2
  have hmem : v ∈ xs := by simp [hsp.eq, hv]
  exact (h.start_lt_end hmem).trans_le ((hsp.before v hv).trans hab.le)

/-- A loop over the range goes through what meets it. -/
theorem Ok.rangeVmas (h : s.Ok xs) (hsp : Split s xs a b ls ms rs) (hab : a < b) :
    s.rangeVmas a b = ms := by
  rw [AddrSpace.rangeVmas, h.vmaNextOverlapIn hsp hab]
  cases ms with
  | nil => rfl
  | cons =>
    have hrep := h.toRep
    rw [hsp.eq, append_assoc] at hrep
    have hfrom := hrep.listFrom_eq
    rw [cons_append, head?_cons] at hfrom
    rw [head?_cons, hfrom, ← cons_append]
    rw [takeWhile_append_of_pos fun w hw => decide_eq_true (hsp.meet w hw).2]
    have hstop : rs.takeWhile (fun w => (s.vma w).vaddrStart < b) = [] := by
      cases rs with
      | nil => rfl
      | cons w =>
        refine takeWhile_cons_of_neg ?_
        rw [decide_eq_true_eq, not_lt]
        exact (hsp.after w mem_cons_self).2
    rw [hstop, append_nil]

end AddrSpace

end Thylacine
