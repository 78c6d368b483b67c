import Thylacine.Vma.ReprotectSpec

/-!
# Extension and Drain

The specification of `vma_extend_anon_in` and `vma_drain_in` against the invariant. A mapping that
grows is the old one and a new piece, joined.

## Main results

* `extend_pointwise`: the range shows new bytes of a Burrow, and all else is as before.
-/

namespace Thylacine

open DoublyLinked IntervalMap List Word

namespace AddrSpace

variable {s s' s'' : AddrSpace} {xs ys zs ls rs : List VmaRef} {v : VmaRef} {m : Vma}
  {a b vaddr length winLo winHi : UInt64} {prot : UInt32}

/-! ### The Burrow grows -/

/-- `w'` is `w` to its mappings, with no fewer pages. -/
structure Grown (w w' : Burrow) : Prop where
  type : w'.type = w.type
  pages : w.pageCount ≤ w'.pageCount
  mappings : w'.mappingCount = w.mappingCount

theorem Grown.refl (w : Burrow) : Grown w w := ⟨rfl, le_rfl, rfl⟩

theorem burrows_setBurrow_self (s : AddrSpace) (c : BurrowRef) (w : Burrow) :
    (s.setBurrow c w).burrows c = w :=
  Function.update_self ..

variable {c : BurrowRef} {w : Burrow} {grows : Bool} {o : UInt64}

/-- If one Burrow grows, every Burrow has grown. -/
theorem grown_setBurrow (hw : Grown (s.burrows c) w) (d : BurrowRef) :
    Grown (s.burrows d) ((s.setBurrow c w).burrows d) := by
  by_cases hd : d = c
  · rwa [hd, burrows_setBurrow_self]
  · exact (Function.update_of_ne hd w s.burrows).symm ▸ .refl _

/-- A Burrow of the address space may grow. -/
theorem Ok.setBurrow (h : s.Ok xs) (hw : Grown (s.burrows c) w) : (s.setBurrow c w).Ok xs := by
  have hgrown := grown_setBurrow hw
  refine h.of_sameList ⟨rfl, rfl, fun _ _ => ⟨rfl, rfl, rfl⟩⟩ h.live h.idle (fun v hv => ?_)
    fun d => ?_
  · exact (h.good v hv).later fun d _ _ => ⟨(hgrown d).type, (hgrown d).pages⟩
  · rw [(hgrown d).mappings]
    exact h.counted d

/-- `burrow_lazy_extend` leaves room for the new pages. -/
theorem burrowLazyExtend_spec {maps first n : ℕ}
    (h : s.burrowLazyExtend grows c maps first n = some s') :
    ∃ w, s' = s.setBurrow c w ∧ Grown (s.burrows c) w ∧ first + n ≤ w.pageCount := by
  unfold burrowLazyExtend at h
  dsimp only at h
  split_ifs at h with h₁ h₂ h₃ h₄ h₅
  · cases h
    exact ⟨s.burrows c, by rw [setBurrow, Function.update_eq_self], .refl _, h₄⟩
  · cases h
    exact ⟨_, rfl, ⟨rfl, (not_le.mp h₄).le, rfl⟩, le_rfl⟩

/-! ### The neighbours of a free range -/

/-- The walk finds the mappings on either side of `vaddr`. -/
theorem extendWalk_eq (hys : ∀ y ∈ ys, (s.vma y).vaddrStart < vaddr)
    (hzs : ∀ z ∈ zs, vaddr ≤ (s.vma z).vaddrStart) (prev : Option VmaRef) :
    s.extendWalk vaddr (ys ++ zs) prev = (ys.getLast?.or prev, zs.head?) := by
  induction ys generalizing prev with
  | nil =>
    cases zs with
    | nil => rfl
    | cons z =>
      rw [nil_append, extendWalk, if_neg (not_lt.mpr (hzs z mem_cons_self))]
      rfl
  | cons y ys ih =>
    rw [cons_append, extendWalk, if_pos (hys y mem_cons_self),
      ih (fun x hx => hys x (mem_cons_of_mem y hx)), getLast?_cons]
    cases ys.getLast? <;> rfl

/-- A list falls apart at every address. -/
theorem Ok.exists_split_start (h : s.Ok xs) (vaddr : UInt64) :
    ∃ ys zs, xs = ys ++ zs ∧ (∀ y ∈ ys, (s.vma y).vaddrStart < vaddr) ∧
      ∀ z ∈ zs, vaddr ≤ (s.vma z).vaddrStart := by
  obtain ⟨ls, ms, rs, hsp⟩ := h.exists_split 0 vaddr
  refine ⟨ls ++ ms, rs, hsp.eq, fun y hy => ?_, fun z hz => (hsp.after z hz).2⟩
  rcases mem_append.mp hy with hy | hy
  · have hlt := h.start_lt_end (v := y) (by rw [hsp.eq]; simp [hy])
    exact absurd (hlt.trans_le (hsp.before y hy)) (by simp)
  · exact (hsp.meet y hy).2

/-! ### A mapping grows -/

/-- The flags that an extension admits: the ceiling alone. -/
def lazyFlags : UInt32 := vmaProtRw <<< vmaFlagMaxShift

/-- An extension's new piece: the Burrow `c` from `o` on. -/
def newPiece (vaddr length : UInt64) (prot : UInt32) (c : BurrowRef) (o : UInt64) : Mapping :=
  ⟨vaddr, vaddr + length, prot, lazyFlags, some (c, o)⟩

/-- The new piece is good if its neighbour is and the Burrow has the pages. -/
theorem newPiece_ok {burrows : BurrowRef → Burrow} {x : Mapping} {o' : UInt64}
    (hx : x.Ok burrows) (hrange : RangeOk vaddr length) (hprot : x.prot = prot)
    (hflags : x.flags = lazyFlags) (hback : x.back = some (c, o')) (ho : Aligned o)
    (hfits : o.toNat / pageBytes + length.toNat / pageBytes ≤ (burrows c).pageCount) :
    (newPiece vaddr length prot c o).Ok burrows where
  nonempty := hrange.lt
  alignedLo := hrange.2.1
  alignedHi := hrange.alignedEnd
  prot := hprot ▸ hx.prot
  ceiling := by
    have hc := hx.ceiling
    rwa [hprot, hflags] at hc
  guard := nofun
  backed := by
    rintro _ _ ⟨⟩
    refine ⟨ho, ?_, fun he hr => ?_⟩
    · have hl := aligned_iff.mp hrange.2.2.1
      rw [aligned_iff] at ho
      have hsub : (vaddr + length - vaddr).toNat = length.toNat := by
        rw [UInt64.toNat_sub_of_le _ _ hrange.2.2.2, toNat_add_of_le hrange.2.2.2]
        omega
      change _ + (vaddr + length - vaddr).toNat ≤ _
      unfold pageBytes at *
      omega
    · exact (hx.backed c o' hback).2.2 (hprot ▸ he) (hprot ▸ hr)

/-- A neighbour has grown over the range, into new bytes of its Burrow. -/
structure Extended (s s' : AddrSpace) (xs : List VmaRef) (vaddr length : UInt64) (prot : UInt32)
    (c : BurrowRef) (o : UInt64) : Prop where
  ok : s'.Ok xs
  grown : ∀ w, Grown (s.burrows w) (s'.burrows w)
  view : ∀ va, s'.view va =
    (Mapping.pieces.shows (newPiece vaddr length prot c o) va).or (s.view va)

/-- A mapping becomes what it was and the new piece in one. -/
theorem Ok.extended (h : s.Ok (ys ++ v :: zs))
    (hgrown : Grown (s.burrows c) w) (hb : m.burrow = (s.vma v).burrow)
    (hm : m.mapping.Ok (s.setBurrow c w).burrows)
    (hys : ∀ y ∈ ys, (s.vma y).vaddrEnd ≤ m.vaddrStart)
    (hzs : ∀ z ∈ zs, m.vaddrEnd ≤ (s.vma z).vaddrStart)
    (hview : ∀ va, Mapping.pieces.view (ys.map s.mapping ++ m.mapping :: zs.map s.mapping) va =
      (Mapping.pieces.shows (newPiece vaddr length prot c o) va).or
      (Mapping.pieces.view (ys.map s.mapping ++ s.mapping v :: zs.map s.mapping) va)) :
    Extended s ((s.setBurrow c w).setVma v m) (ys ++ v :: zs) vaddr length prot c o := by
  have hok := (h.setBurrow hgrown).setVma hb hm hys hzs
  have hnd := h.not_mem
  refine ⟨hok, grown_setBurrow hgrown, fun va => ?_⟩
  have hmap : ∀ ws : List VmaRef, v ∉ ws →
      ws.map ((s.setBurrow c w).setVma v m).mapping = ws.map s.mapping := fun ws hws =>
    map_setVma_of_not_mem hws
  rw [hok.view_eq, h.view_eq, map_append, map_append, map_cons,
    hmap ys fun hmem => hnd (by simp [hmem]), hmap zs fun hmem => hnd (by simp [hmem]),
    mapping_setVma_self]
  exact hview va

/-- A mapping of a growing Burrow stays good. -/
theorem Ok.good_setBurrow (h : s.Ok xs) (hv : v ∈ xs) (hc : (s.vma v).burrow = some c)
    (hgrown : Grown (s.burrows c) w) : (s.mapping v).Ok (s.setBurrow c w).burrows ∧
      (s.mapping v).back = some (c, (s.vma v).burrowOffset) := by
  refine ⟨(h.good v (h.live v hv)).later fun d _ _ =>
    ⟨(grown_setBurrow hgrown d).type, (grown_setBurrow hgrown d).pages⟩, ?_⟩
  rw [mapping, Vma.mapping, hc]
  rfl

/-- An extension does not admit a mapping shared in. -/
theorem lazyFlags_own : lazyFlags &&& vmaFlagSharedIn = 0 := by decide

/-- The mapping `v` **lends** the range: an extension admits it as a neighbour, and the bytes of its
Burrow `c` from `o` on come after its own, or before. -/
structure Lends (s : AddrSpace) (vaddr length : UInt64) (prot : UInt32) (winLo winHi : UInt64)
    (v : VmaRef) (c : BurrowRef) (o : UInt64) : Prop where
  mem : v ∈ s.list
  admits : s.extendAdmits v prot winLo winHi
  burrow : (s.vma v).burrow = some c
  side : (s.vma v).vaddrEnd = vaddr ∧
      o = (s.vma v).burrowOffset + ((s.vma v).vaddrEnd - (s.vma v).vaddrStart) ∨
    (s.vma v).vaddrStart = vaddr + length ∧ length ≤ (s.vma v).burrowOffset ∧
      o = (s.vma v).burrowOffset - length

/-- **The predecessor grows forward**. -/
theorem Ok.extendPrev (h : s.Ok (ys ++ zs)) (hrange : RangeOk vaddr length)
    (hzs : ∀ z ∈ zs, vaddr + length ≤ (s.vma z).vaddrStart)
    (hrun : s.extendPrev grows ys.getLast? vaddr length prot winLo winHi = some s') :
    ∃ v c o, s.Lends vaddr length prot winLo winHi v c o ∧
      Extended s s' (ys ++ zs) vaddr length prot c o := by
  obtain ⟨v, hv, hrun⟩ := Option.bind_eq_some_iff.mp hrun
  dsimp only at hrun
  split_ifs at hrun with hadm
  obtain ⟨c, hc, hrun⟩ := Option.bind_eq_some_iff.mp hrun
  obtain ⟨s₁, hext, rfl⟩ := Option.map_eq_some_iff.mp hrun
  obtain ⟨w, rfl, hgrown, hfits⟩ := burrowLazyExtend_spec hext
  obtain ⟨hend, hadmits⟩ := hadm
  obtain ⟨-, hprot, hflags, -⟩ := id hadmits
  obtain ⟨ys, rfl⟩ := getLast?_eq_some_iff.mp hv
  rw [append_assoc] at h ⊢
  obtain ⟨hgood, hback⟩ := h.good_setBurrow (by simp) hc hgrown
  set o := (s.vma v).burrowOffset + ((s.vma v).vaddrEnd - (s.vma v).vaddrStart)
  have hoff : Aligned o := (hgood.backed c _ hback).1.add (hgood.alignedHi.sub hgood.alignedLo)
  have hnew := newPiece_ok hgood hrange hprot hflags hback hoff (by rwa [burrows_setBurrow_self])
  have hmerge : (s.mapping v).Mergeable (newPiece vaddr length prot c o) := by
    refine ⟨by rw [hback]; nofun, hend, hprot, hflags, ?_, ?_⟩
    · exact (congrArg (· &&& vmaFlagSharedIn) hflags).trans lazyFlags_own
    · rw [Mapping.byteAt, hback]
      rfl
  have hlends : s.Lends vaddr length prot winLo winHi v c o :=
    ⟨h.list_eq ▸ by simp, hadmits, hc, .inl ⟨hend, rfl⟩⟩
  refine ⟨v, c, o, hlends, h.extended hgrown rfl
    (hgood.join hnew hmerge) (fun y hy => h.end_le hy) hzs fun va => ?_⟩
  refine (Pieces.view_fuse hmerge.joins (h.start_lt_end (by simp)) hrange.lt).trans ?_
  refine Pieces.view_insert_after (fun x hx => ?_) hend.le
  obtain ⟨y, hy, rfl⟩ := mem_map.mp hx
  exact (h.end_le hy).trans ((h.start_lt_end (by simp)).le.trans hend.le)

/-- **The successor grows backward**. -/
theorem Ok.extendNext (h : s.Ok (ys ++ zs)) (hrange : RangeOk vaddr length)
    (hys : ∀ y ∈ ys, (s.vma y).vaddrEnd ≤ vaddr)
    (hrun : s.extendNext grows zs.head? vaddr length prot winLo winHi = some s') :
    ∃ v c o, s.Lends vaddr length prot winLo winHi v c o ∧
      Extended s s' (ys ++ zs) vaddr length prot c o := by
  obtain ⟨v, hv, hrun⟩ := Option.bind_eq_some_iff.mp hrun
  dsimp only at hrun
  split_ifs at hrun with hadm
  obtain ⟨c, hc, hrun⟩ := Option.bind_eq_some_iff.mp hrun
  obtain ⟨s₁, hext, rfl⟩ := Option.map_eq_some_iff.mp hrun
  obtain ⟨w, rfl, hgrown, hfits⟩ := burrowLazyExtend_spec hext
  obtain ⟨hstart, hadmits, hlow⟩ := hadm
  obtain ⟨-, hprot, hflags, -⟩ := id hadmits
  obtain ⟨zs, rfl⟩ := head?_eq_some_iff.mp hv
  obtain ⟨hgood, hback⟩ := h.good_setBurrow (by simp) hc hgrown
  set o := (s.vma v).burrowOffset - length
  have hoff : Aligned o := (hgood.backed c _ hback).1.sub hrange.2.2.1
  have hnew := newPiece_ok hgood hrange hprot hflags hback hoff (by rwa [burrows_setBurrow_self])
  have hmerge : (newPiece vaddr length prot c o).Mergeable (s.mapping v) := by
    refine ⟨nofun, hstart.symm, hprot.symm, hflags.symm, lazyFlags_own, ?_⟩
    rw [hback]
    change some (c, o + (vaddr + length - vaddr)) = _
    congr 2
    grind
  -- the offset and the start of the mapping move down together
  have hmap : Vma.mapping { s.vma v with burrowOffset := o, vaddrStart := vaddr } =
      (newPiece vaddr length prot c o).join (s.mapping v) := by
    rw [Vma.mapping, hc]
    simp only [hprot, hflags]
    rfl
  have hlends : s.Lends vaddr length prot winLo winHi v c o :=
    ⟨h.list_eq ▸ by simp, hadmits, hc, .inr ⟨hstart, hlow, rfl⟩⟩
  refine ⟨v, c, o, hlends, h.extended hgrown rfl (hmap ▸ hnew.join hgood hmerge) hys
    (fun z hz => h.end_le_start hz) fun va => ?_⟩
  rw [hmap]
  refine (Pieces.view_fuse hmerge.joins hrange.lt (h.start_lt_end (by simp))).trans ?_
  refine Pieces.view_insert fun x hx => ?_
  obtain ⟨y, hy, rfl⟩ := mem_map.mp hx
  exact hys y hy

/-! ### The whole call -/

/-- An extension returned 0: the range shows the Burrow `c` from `o` on, new bytes. -/
structure ExtendDone (s s' : AddrSpace) (xs xs' : List VmaRef) (vaddr length : UInt64)
    (prot : UInt32) (c : BurrowRef) (o : UInt64) : Prop where
  ok : s'.Ok xs'
  shorter : xs'.length ≤ xs.length
  later : ∀ w, Mapping.Later (s.burrows w) (s'.burrows w)
  view : ∀ va, s'.view va =
    (Mapping.pieces.shows (newPiece vaddr length prot c o) va).or (s.view va)

/-- A grown neighbour is merged with the other side's. -/
theorem Extended.merge (h : Extended s s' xs vaddr length prot c o)
    (hrange : RangeOk vaddr length) :
    ∃ s'' xs', s'.reprotectMergeIn vaddr (vaddr + length) = some s'' ∧
      ExtendDone s s'' xs xs' vaddr length prot c o := by
  obtain ⟨s'', xs', hrun, hm⟩ := h.ok.reprotectMergeIn hrange.lt
  refine ⟨s'', xs', hrun, hm.ok, hm.sublist.length_le, fun w => ?_, fun va => by
    rw [hm.view, h.view]⟩
  obtain ⟨ht, hp⟩ := hm.keeps.burrow w
  exact ⟨ht.trans (h.grown w).type, (h.grown w).pages.trans hp.ge⟩

/-- If the last mapping before the range ends before it, all do. -/
theorem Ok.end_le_of_last (h : s.Ok (ys ++ zs)) (hys : ∀ y ∈ ys, (s.vma y).vaddrStart < vaddr)
    (hlast : ¬ys.getLast?.any (fun v => decide (vaddr < (s.vma v).vaddrEnd)) = true) :
    ∀ y ∈ ys, (s.vma y).vaddrEnd ≤ vaddr := by
  rcases eq_nil_or_concat' ys with rfl | ⟨ys, l, rfl⟩
  · exact nofun
  · rw [getLast?_concat, Option.any_some, decide_eq_true_eq] at hlast
    rw [append_assoc] at h
    refine forall_mem_append.mpr ⟨fun y hy => ?_, forall_mem_singleton.mpr (not_lt.mp hlast)⟩
    exact (h.end_le hy).trans (hys l (by simp)).le

/-- If the first after `vaddr` starts behind the range, all do. -/
theorem Ok.start_ge_of_head (h : s.Ok (ys ++ zs))
    (hhead : ¬zs.head?.any (fun v => decide ((s.vma v).vaddrStart < b)) = true) :
    ∀ z ∈ zs, b ≤ (s.vma z).vaddrStart := by
  cases zs with
  | nil => exact nofun
  | cons =>
    rw [head?_cons, Option.any_some, decide_eq_true_eq, not_lt] at hhead
    refine forall_mem_cons.mpr ⟨hhead, fun z hz => ?_⟩
    exact hhead.trans ((h.start_lt_end (by simp)).le.trans (h.end_le_start hz))

/-- **`vma_extend_anon_in`** changes nothing, or the range, then free, shows new bytes of a
neighbour's Burrow. -/
theorem Ok.vmaExtendAnonIn (h : s.Ok xs) (growsPrev growsNext : Bool) (vaddr length : UInt64)
    (prot : UInt32) (winLo winHi : UInt64) :
    s.vmaExtendAnonIn growsPrev growsNext vaddr length prot winLo winHi = some (s, -1) ∨
      ∃ s' xs' v c o,
      s.vmaExtendAnonIn growsPrev growsNext vaddr length prot winLo winHi = some (s', 0) ∧
      s.Lends vaddr length prot winLo winHi v c o ∧
      (∀ x ∈ xs, Mapping.pieces.Off vaddr (vaddr + length) (s.mapping x)) ∧
      ExtendDone s s' xs xs' vaddr length prot c o := by
  unfold AddrSpace.vmaExtendAnonIn
  by_cases hbad : ¬RangeOk vaddr length ∨ vaddr < winLo ∨ winHi < vaddr + length
  · exact .inl (if_pos hbad)
  have hrange : RangeOk vaddr length := not_not.mp (not_or.mp hbad).1
  obtain ⟨ys, zs, rfl, hys, hzs⟩ := h.exists_split_start vaddr
  rw [h.list_eq, extendWalk_eq hys hzs, Option.or_none]
  dsimp only
  split_ifs with hov
  · exact .inl rfl
  rw [not_or] at hov
  -- the range lies between the two neighbours
  have hbefore : ∀ y ∈ ys, (s.vma y).vaddrEnd ≤ vaddr := h.end_le_of_last hys hov.1
  have hafter : ∀ z ∈ zs, vaddr + length ≤ (s.vma z).vaddrStart := h.start_ge_of_head hov.2
  have hoff : ∀ x ∈ ys ++ zs, Mapping.pieces.Off vaddr (vaddr + length) (s.mapping x) :=
    forall_mem_append.mpr ⟨fun x hx => .inl (hbefore x hx), fun x hx => .inr (hafter x hx)⟩
  cases hprev : s.extendPrev growsPrev ys.getLast? vaddr length prot winLo winHi with
  | some =>
    obtain ⟨v, c, o, hlends, hext⟩ := h.extendPrev hrange hafter hprev
    obtain ⟨s', xs', hrun, hdone⟩ := hext.merge hrange
    exact .inr ⟨s', xs', v, c, o, congrArg (Option.map fun s => (s, 0)) hrun, hlends, hoff, hdone⟩
  | none =>
    cases hnext : s.extendNext growsNext zs.head? vaddr length prot winLo winHi with
    | some =>
      obtain ⟨v, c, o, hlends, hext⟩ := h.extendNext hrange hbefore hnext
      obtain ⟨s', xs', hrun, hdone⟩ := hext.merge hrange
      exact .inr ⟨s', xs', v, c, o, congrArg (Option.map fun s => (s, 0)) hrun, hlends, hoff, hdone⟩
    | none => exact .inl rfl

/-- **An extension shows in its range alone**: bytes of a neighbour's Burrow that follow the
neighbour's own, or come before. No mapping met the range. -/
theorem extend_pointwise (h : s.WellFormed) (growsPrev growsNext : Bool) :
    let r := s.vmaExtendAnonIn growsPrev growsNext vaddr length prot winLo winHi
    r = some (s, -1) ∨ ∃ s' v c o, r = some (s', 0) ∧ s.Lends vaddr length prot winLo winHi v c o ∧
      (∀ v ∈ s.list, Mapping.pieces.Off vaddr (vaddr + length) (s.mapping v)) ∧
      ∀ va, s'.view va = if vaddr ≤ va ∧ va < vaddr + length then
        some ⟨some (c, o + (va - vaddr)), prot, lazyFlags⟩ else s.view va := by
  obtain hrc | ⟨s', xs', v, c, o, hrc, hlends, hoff, hdone⟩ :=
    h.vmaExtendAnonIn growsPrev growsNext vaddr length prot winLo winHi
  · exact .inl hrc
  · refine .inr ⟨s', v, c, o, hrc, hlends, hoff, fun va => ?_⟩
    rw [hdone.view, Pieces.shows]
    change Option.or (if vaddr ≤ va ∧ va < vaddr + length then _ else _) _ = _
    split_ifs <;> rfl

/-- A lazy Burrow of eight pages. -/
def lazyBurrow : Burrow := ⟨.anonLazy, 8, 1, 0, none, false, by decide⟩

/-- Four of its pages are mapped, and nobody else holds it. -/
def lazyPages : AddrSpace :=
  (fourPages lazyBurrow).setBurrow 7 { (fourPages lazyBurrow).burrows 7 with handleCount := 0 }

theorem lazyPages_wellFormed : lazyPages.WellFormed := by
  have hok : (fourPages lazyBurrow).WellFormed := fourPages_wellFormed one_pos
  have hok' : lazyPages.Ok _ := hok.setBurrow ⟨rfl, le_rfl, rfl⟩
  exact hok'.wellFormed

/-- The mapping grows forward, over its fifth page. -/
theorem extend_pointwise_init :
    ∃ s', lazyPages.vmaExtendAnonIn false false 0x14000 0x1000 vmaProtRw 0 0x20000 = some (s', 0) ∧
      s'.view 0x14000 = some ⟨some (7, 0x4000), vmaProtRw, lazyFlags⟩ ∧
      s'.view 0x13000 = lazyPages.view 0x13000 := by
  have hrc : (lazyPages.vmaExtendAnonIn false false 0x14000 0x1000 vmaProtRw 0 0x20000).map
      (fun r => r.2) = some 0 := by
    decide +kernel
  obtain hno | ⟨s', v, c, o, hrun, ⟨hmem, -, hburrow, hside⟩, -, hview⟩ :=
    extend_pointwise lazyPages_wellFormed false false
  · rw [hno] at hrc
    cases hrc
  · have hlist : lazyPages.list = [⟨0, by decide⟩] := by decide +kernel
    have hvma : lazyPages.vma v = ⟨0x10000, 0x14000, vmaProtRw, lazyFlags, some 7, 0⟩ := by
      rw [mem_singleton.mp hmem]
      decide +kernel
    rw [hvma] at hburrow hside
    cases hburrow
    obtain ⟨-, rfl⟩ | ⟨hend, -⟩ := hside
    · exact ⟨s', hrun, hview 0x14000, hview 0x13000⟩
    · exact absurd hend (by decide)

/-! ### Drain -/

/-- The loop of a drain takes the mappings out in turn. -/
theorem Ok.drainLoop (h : s.Ok xs) {fuel : ℕ} (hfuel : xs.length < fuel) (dead : List BurrowRef) :
    ∃ s' dead', drainLoop fuel s dead = some (s', dead') ∧ s'.Ok [] ∧ Keeps s s' xs := by
  induction fuel generalizing s xs dead with
  | zero => exact absurd hfuel (Nat.not_lt_zero _)
  | succ fuel ih =>
    cases xs with
    | nil =>
      have hvmas : s.vmas = none := h.holds.first_eq
      rw [AddrSpace.drainLoop, hvmas]
      exact ⟨s, dead, rfl, h, .refl s []⟩
    | cons v xs =>
      have hvmas : s.vmas = some v := h.holds.first_eq
      have h' : s.Ok ([] ++ v :: xs) := h
      obtain ⟨s₁, hrem, hok₁, hre⟩ := h'.vmaRemoveIn
      have hlive : v ∈ s₁.live := hre.live ▸ h.live v mem_cons_self
      obtain ⟨s₂, d, hfree, hfreed, -⟩ := hok₁.vmaFree hlive h'.not_mem
      have hok₂ := hok₁.freed hfreed hlive h'.not_mem
      obtain ⟨s', dead', hrun, hok', hkeep⟩ :=
        ih hok₂ (Nat.lt_of_succ_lt_succ hfuel) (d.toList ++ dead)
      refine ⟨s', dead', ?_, hok', ?_⟩
      · rw [AddrSpace.drainLoop, hvmas]
        dsimp only
        rw [hrem, Option.bind_some, hfree]
        exact hrun
      · have hk : Keeps s s₂ [v] :=
          (hre.keeps []).trans hfreed.keeps (nil_subset _) (.refl _)
        exact hk.trans hkeep (by simp) (subset_cons_self v xs)

/-- **`vma_drain_in`** leaves no mapping. -/
theorem Ok.vmaDrainIn (h : s.Ok xs) :
    ∃ s' dead, s.vmaDrainIn = some (s', dead) ∧ s'.Ok [] ∧ Keeps s s' xs :=
  h.drainLoop (Nat.lt_succ_of_le h.length_le) []

end AddrSpace

end Thylacine
