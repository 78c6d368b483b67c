import Thylacine.Territory.PruneSpec

/-!
# The Copy and the Release of a Table

`copyEntries` builds the table of a child from the entries of its parent, in the same memory. The
nodes come from two pools that were filled before, so the copy cannot fail. `releaseTable` gives
up a whole table.

## Main results

* `copyEntries_spec`: the pools suffice, and the child lists what the parent lists.
-/

namespace Thylacine

open DoublyLinked List PointerChain Relation Worklist

namespace Table

variable {spoors : SpoorRef → Spoor} {T T' : Table} {es es' ms : List MountRef}
  {hs hs' : List HeadRef} {m : MountRef} {h : HeadRef}

/-! ### The copy -/

/-- The child's point with this key: its own, or one from the pool. -/
def childPoint (T : Table) (k : MKey) (ppool : List HeadRef) :
    Option (Table × HeadRef × List HeadRef) :=
  match T.mheadFind k with
  | some ch => some (T, ch, ppool)
  | none =>
    match ppool with
    | [] => none
    | ch :: ppool => some (T.mheadInsert ch k, ch, ppool)

theorem copyEntries_cons (T : Table) (m cm : MountRef) (ms epool : List MountRef)
    (ppool : List HeadRef) :
    copyEntries (m :: ms) T (cm :: epool) ppool = (T.head m).bind fun h =>
      (T.childPoint (T.key h) ppool).bind fun (T₁, ch, ppool) =>
      copyEntries ms ((T₁.setEntry cm (T₁.source m) (T₁.mpPath m) (T₁.flags m)).mountLink ch cm
      false) epool ppool := by
  rw [copyEntries]
  cases T.head m with
  | none => rfl
  | some h =>
    simp only [childPoint, Option.bind_eq_bind, Option.bind_some]
    cases T.mheadFind (T.key h) with
    | some ch => rfl
    | none => cases ppool <;> rfl

/-- Copying the entries `ms` needs fresh nodes for them and the points `phs` to be copied, and room. -/
structure CopyReady (T : Table) (es : List MountRef) (hs : List HeadRef) (ms : List MountRef)
    (phs : List HeadRef) (epool : List MountRef) (ppool : List HeadRef) : Prop where
  rep : T.Rep es hs
  hosts : ∀ h ∈ hs, Listing.seq (es.map T.entryOf) (T.key h) ≠ []
  entries : epool.Nodup ∧ ∀ m ∈ epool, m ∉ es
  points : ppool.Nodup ∧ ∀ p ∈ ppool, p ∉ hs
  parent : ∀ m ∈ ms, m ∉ es ∧ m ∉ epool
  head : ∀ m ∈ ms, ∃ p, T.head m = some p ∧ p ∉ hs ∧ p ∉ ppool ∧
    (p ∈ phs ∨ ∃ q ∈ hs, T.key q = T.key p)
  todo : phs.Nodup ∧ ∀ p ∈ phs, p ∉ hs ∧ p ∉ ppool
  entryRoom : ms.length ≤ epool.length ∧ es.length + ms.length ≤ pgrpMountCap
  pointRoom : phs.length ≤ ppool.length ∧ hs.length + phs.length ≤ pgrpMountCap

variable {epool : List MountRef} {phs ppool : List HeadRef}

/-- The point of the child for a point of the parent. -/
theorem CopyReady.point
    (hready : CopyReady T es hs (m :: ms) phs epool ppool) (hm : T.head m = some h) :
    ∃ T₁ ch ppool₁ phs₁ hs₁ used, T.childPoint (T.key h) ppool = some (T₁, ch, ppool₁) ∧
      T₁.Rep es hs₁ ∧ ch ∈ hs₁ ∧ T₁.key ch = T.key h ∧ Edit T T₁ [] used ∧
      ppool = used ++ ppool₁ ∧ hs₁ = used ++ hs ∧ (∀ q, q ∉ used → T₁.key q = T.key q) ∧
      (∀ q ∈ used, q = ch) ∧ phs₁.length ≤ ppool₁.length ∧ hs₁.length + phs₁.length ≤ pgrpMountCap ∧
      phs₁.Nodup ∧ phs₁ ⊆ phs ∧ (∀ p ∈ phs, p ∈ phs₁ ∨ p = h) := by
  obtain ⟨p, hp, hnot, hnotpool, hcase⟩ := hready.head m mem_cons_self
  cases hm.symm.trans hp
  unfold childPoint
  cases hfind : T.mheadFind (T.key h) with
  | some ch =>
    obtain ⟨hch, hkey⟩ := hready.rep.mheadFind_eq_some.mp hfind
    exact ⟨T, ch, ppool, phs, hs, [], rfl, hready.rep, hch, hkey, .refl .., rfl, rfl, fun _ _ => rfl,
      nofun, hready.pointRoom.1, hready.pointRoom.2, hready.todo.1, Subset.refl phs, fun _ => .inl⟩
  | none =>
    have hnokey := hready.rep.mheadFind_eq_none.mp hfind
    have hin : h ∈ phs := hcase.resolve_right fun ⟨q, hq, heq⟩ => hnokey q hq heq
    have hpos := length_pos_of_mem hin
    have hroom := hready.pointRoom
    match ppool, hready, hroom, hnotpool with
    | [], _, hroom, _ =>
      rw [length_nil] at hroom
      omega
    | ch :: ppool, hready, hroom, hnotpool =>
      rw [length_cons] at hroom
      have herase := length_erase_of_mem hin
      refine ⟨T.mheadInsert ch (T.key h), ch, ppool, phs.erase h, ch :: hs, [ch], rfl,
        hready.rep.mheadInsert (hready.points.2 ch mem_cons_self) hnokey (by omega),
        mem_cons_self, Function.update_self .., mheadInsert_edit .., rfl, rfl,
        fun q hq => Function.update_of_ne (ne_of_not_mem_cons hq) _ _,
        fun q hq => mem_singleton.mp hq, by omega, ?_, hready.todo.1.erase h,
        erase_subset, fun q hq => ?_⟩
      · rw [length_cons]
        omega
      · by_cases hqh : q = h
        · exact .inr hqh
        · exact .inl (hready.todo.1.mem_erase_iff.mpr ⟨hqh, hq⟩)

/-- One entry of the parent is copied. -/
theorem CopyReady.step {cm : MountRef}
    (hready : CopyReady T es hs (m :: ms) phs (cm :: epool) ppool)
    (hm : T.head m = some h) :
    ∃ T₁ ch ppool₁ phs₁ hs₁ used, T.childPoint (T.key h) ppool = some (T₁, ch, ppool₁) ∧
      ppool = used ++ ppool₁ ∧ hs₁ = used ++ hs ∧ ∀ T₂, (T₁.setEntry cm (T₁.source m) (T₁.mpPath m)
      (T₁.flags m)).mountLink ch cm false = T₂ →
      CopyReady T₂ (es ++ [cm]) hs₁ ms phs₁ epool ppool₁ ∧
      (es ++ [cm]).map T₂.entryOf = es.map T.entryOf ++ [T.entryOf m] ∧
      ms.map T₂.entryOf = ms.map T.entryOf ∧ Balanced T es T₂ (es ++ [cm]) ∧
      SameOff T.toNsMem T₂.toNsMem (cm :: es) (used ++ hs) ∧ T₂.mountLive = T.mountLive ∧
      T₂.headLive = T.headLive ∧ T₂.rootSpoor = T.rootSpoor := by
  obtain ⟨T₁, ch, ppool₁, phs₁, hs₁, used, hpoint, hrep₁, hch, hkey, hedit, hpool, rfl, hkeys, hused,
    hroom, hcap, hnd₁, hsub₁, htodo⟩ := hready.point hm
  refine ⟨T₁, ch, ppool₁, phs₁, _, used, hpoint, hpool, rfl, ?_⟩
  rintro T₂ rfl
  have hcm : cm ∉ es := hready.entries.2 cm mem_cons_self
  have hlt : es.length < pgrpMountCap := by
    have := hready.entryRoom.2
    rw [length_cons] at this
    omega
  have hadd := hrep₁.addOne hch hcm hlt (T₁.source m) (T₁.mpPath m) (T₁.flags m) false
  obtain ⟨T₂, hT₂⟩ : ∃ T₂, (T₁.setEntry cm (T₁.source m) (T₁.mpPath m) (T₁.flags m)).mountLink ch cm
    false = T₂ := ⟨_, rfl⟩
  rw [hT₂] at hadd ⊢
  have husedpool : used ⊆ ppool := hpool ▸ subset_append_left used ppool₁
  have hnotused {q : HeadRef} (hq : q ∈ hs) : q ∉ used := fun hu =>
    hready.points.2 q (husedpool hu) hq
  have hsame : SameOff T.toNsMem T₂.toNsMem (cm :: es) (used ++ hs) :=
    (hedit.same.mono (nil_subset _) (subset_append_left used hs)).trans hadd.same
  have holdmap : es.map T₁.entryOf = es.map T.entryOf :=
    hready.rep.map_entryOf_congr hedit.same (fun _ _ => not_mem_nil) fun q hq => hnotused hq
  have hlist : (es ++ [cm]).map T₂.entryOf = es.map T.entryOf ++ [T.entryOf m] := by
    have hentry : T.entryOf m = ⟨T₁.key ch, T₁.source m, T₁.mpPath m, T₁.flags m⟩ := by
      rw [entryOf, pointKey_of_head hm, hkey, hedit.source, hedit.mpPath, hedit.flags]
    rw [hentry, ← holdmap]
    exact hadd.listing
  have hparent {x : MountRef} (hx : x ∈ ms) : x ∉ cm :: es := fun hmem => by
    obtain ⟨hxes, hxpool⟩ := hready.parent x (mem_cons_of_mem m hx)
    rcases mem_cons.mp hmem with rfl | hmem
    · exact hxpool mem_cons_self
    · exact hxes hmem
  have hhead {x : MountRef} (hx : x ∈ ms) : ∃ p, T₂.head x = some p ∧ T.head x = some p ∧
      p ∉ used ++ hs ∧ p ∉ ppool₁ ∧ T₂.key p = T.key p ∧
      (p ∈ phs₁ ∨ ∃ q ∈ used ++ hs, T₂.key q = T₂.key p) := by
    obtain ⟨p, hp, hnhs, hnpool, hcase⟩ := hready.head x (mem_cons_of_mem m hx)
    have hnused : p ∉ used := fun hu => hnpool (husedpool hu)
    have hkeyp : T₂.key p = T.key p := by rw [hadd.key, hkeys p hnused]
    refine ⟨p, (hsame.entry x (hparent hx)).2.2.2.2.1.trans hp, hp, fun hmem =>
      (mem_append.mp hmem).elim hnused hnhs,
      fun hmem => hnpool (hpool ▸ mem_append_right used hmem), hkeyp, ?_⟩
    rw [hkeyp, hadd.key]
    rcases hcase with hin | ⟨q, hq, hqkey⟩
    · rcases htodo p hin with hin | rfl
      · exact .inl hin
      · exact .inr ⟨ch, hch, hkey⟩
    · exact .inr ⟨q, mem_append_right used hq, (hkeys q (hnotused hq)).trans hqkey⟩
  refine ⟨?_, hlist, map_congr_left fun x hx => ?_, (hedit.balanced es).trans hadd.balanced,
    hsame, hadd.mountLive.trans hedit.mountLive, hadd.headLive.trans hedit.headLive,
    hadd.root.trans hedit.rootSpoor⟩
  · obtain ⟨hnde, hnotes⟩ := hready.entries
    obtain ⟨hndp, hnoths⟩ := hready.points
    rw [hpool] at hndp hnoths
    constructor
    · exact hadd.rep
    · intro q hq
      rw [hlist, hadd.key, Listing.seq_append]
      rcases mem_append.mp hq with hq | hq
      · obtain rfl := hused q hq
        rw [hkey, ← pointKey_of_head hm]
        exact append_ne_nil_of_right_ne_nil _
          (by rw [show T.pointKey m = (T.entryOf m).key from rfl, Listing.seq_singleton]; exact cons_ne_nil _ _)
      · rw [hkeys q (hnotused hq)]
        exact append_ne_nil_of_left_ne_nil (hready.hosts q hq) _
    · refine ⟨(nodup_cons.mp hnde).2, fun x hx hmem => ?_⟩
      rcases mem_append.mp hmem with hmem | hmem
      · exact hnotes x (mem_cons_of_mem cm hx) hmem
      · exact (nodup_cons.mp hnde).1 (mem_singleton.mp hmem ▸ hx)
    · refine ⟨(nodup_append.mp hndp).2.1, fun q hq hmem => ?_⟩
      rcases mem_append.mp hmem with hmem | hmem
      · exact (nodup_append.mp hndp).2.2 q hmem q hq rfl
      · exact hnoths q (mem_append_right used hq) hmem
    · intro x hx
      refine ⟨fun hmem => hparent hx ?_, fun hmem =>
        (hready.parent x (mem_cons_of_mem m hx)).2 (mem_cons_of_mem cm hmem)⟩
      rcases mem_append.mp hmem with hmem | hmem
      · exact mem_cons_of_mem cm hmem
      · exact mem_singleton.mp hmem ▸ mem_cons_self
    · intro x hx
      obtain ⟨p, hp, -, hnhs, hnpool, -, hcase⟩ := hhead hx
      exact ⟨p, hp, hnhs, hnpool, hcase⟩
    · refine ⟨hnd₁, fun p hp => ?_⟩
      obtain ⟨hnhs, hnpool⟩ := hready.todo.2 p (hsub₁ hp)
      rw [hpool] at hnpool
      exact ⟨fun hmem => (mem_append.mp hmem).elim
        (fun hu => hnpool (mem_append_left ppool₁ hu)) hnhs,
        fun hmem => hnpool (mem_append_right used hmem)⟩
    · have hroom₁ := hready.entryRoom
      simp only [length_cons, length_append, length_nil] at hroom₁ ⊢
      omega
    · exact ⟨hroom, hcap⟩
  · obtain ⟨p, hp₂, hp, -, -, hkeyp, -⟩ := hhead hx
    obtain ⟨-, -, -, -, -, hsrc, hpath, hflags⟩ := hsame.entry x (hparent hx)
    refine entryOf_congr ?_ hsrc hpath hflags
    rw [pointKey_of_head hp₂, pointKey_of_head hp, hkeyp]

/-- **The copy** cannot fail; the child lists what the parent does. -/
theorem copyEntries_spec (hready : CopyReady T es hs ms phs epool ppool) :
    ∃ T' epool' ppool' es' hs' used usedp, copyEntries ms T epool ppool = some (T', epool', ppool') ∧
      epool = used ++ epool' ∧ ppool = usedp ++ ppool' ∧ es' ⊆ used ++ es ∧ hs' ⊆ usedp ++ hs ∧
      T'.Rep es' hs' ∧ (∀ h ∈ hs', Listing.seq (es'.map T'.entryOf) (T'.key h) ≠ []) ∧
      es'.map T'.entryOf = es.map T.entryOf ++ ms.map T.entryOf ∧ Balanced T es T' es' ∧
      SameOff T.toNsMem T'.toNsMem (used ++ es) (usedp ++ hs) ∧ T'.mountLive = T.mountLive ∧
      T'.headLive = T.headLive ∧ T'.rootSpoor = T.rootSpoor := by
  induction ms generalizing T es hs phs epool ppool with
  | nil =>
    refine ⟨T, epool, ppool, es, hs, [], [], rfl, rfl, rfl, Subset.refl es,
      Subset.refl hs, hready.rep, hready.hosts, ?_, .refl T es, .refl .., rfl, rfl, rfl⟩
    rw [map_nil, append_nil]
  | cons m ms ih =>
    obtain ⟨h, hm, -⟩ := hready.head m mem_cons_self
    match epool, hready with
    | [], hready =>
      have hroom := hready.entryRoom.1
      rw [length_cons, length_nil] at hroom
      omega
    | cm :: epool, hready =>
      obtain ⟨T₁, ch, ppool₁, phs₁, hs₁, used₁, hpoint, hpool, rfl, hstep⟩ := hready.step hm
      obtain ⟨hready₂, hlist, hmap, hbal, hsame, hml, hhl, hroot⟩ := hstep _ rfl
      obtain ⟨T', epool', ppool', es', hs', used, usedp, hcopy, hepool, hppool, hes', hhs', hrep',
        hhosts', hlist', hbal', hsame', hml', hhl', hroot'⟩ := ih hready₂
      refine ⟨T', epool', ppool', es', hs', cm :: used, used₁ ++ usedp, ?_, ?_, ?_, ?_, ?_, hrep',
        hhosts', ?_, hbal.trans hbal', ?_, hml'.trans hml, hhl'.trans hhl, hroot'.trans hroot⟩
      · rw [copyEntries_cons, hm, Option.bind_some, hpoint]
        exact hcopy
      · rw [hepool, cons_append]
      · rw [hpool, hppool, append_assoc]
      · intro x hx
        have := hes' hx
        simp only [mem_append, mem_cons] at this ⊢
        tauto
      · intro q hq
        have := hhs' hq
        simp only [mem_append] at this ⊢
        tauto
      · rw [hlist', hlist, hmap, map_cons, append_assoc, singleton_append]
      · refine (hsame.mono ?_ ?_).trans (hsame'.mono ?_ ?_) <;> intro x hx <;>
          simp only [mem_append, mem_cons] at hx ⊢ <;> tauto

/-! ### The pools -/

/-- A pool is filled with nodes not in use; `put` puts them in use. -/
theorem allocPool_spec {α : Type} [DecidableEq α] {alloc : Table → Option α → Table × Option α}
    {put : Finset α → Table}
    (hstep : ∀ live pick, ∃ r, alloc (put live) pick = (put (live ∪ r.toList.toFinset), r) ∧
      ∀ a, r = some a → a ∉ live)
    (live : Finset α) (picks : List (Option α)) (pool : List α) :
    ∃ new ok, allocPool alloc picks (put live, pool) =
      (put (live ∪ new.toFinset), new ++ pool, ok) ∧
      new.Nodup ∧ (∀ a ∈ new, a ∉ live) ∧ (ok = true → new.length = picks.length) := by
  induction picks generalizing live pool with
  | nil => exact ⟨[], true, by simp [allocPool], nodup_nil, nofun, fun _ => rfl⟩
  | cons pick picks ih =>
    obtain ⟨r, halloc, hnew⟩ := hstep live pick
    rw [allocPool, halloc]
    cases r with
    | none => exact ⟨[], false, by simp, nodup_nil, nofun, nofun⟩
    | some a =>
      obtain ⟨new, ok, hpool, hnd, hfresh, hlen⟩ := ih (live ∪ {a}) (a :: pool)
      have hout (x : α) (hx : x ∈ new) : x ≠ a ∧ x ∉ live := by simpa using hfresh x hx
      refine ⟨new ++ [a], ok, ?_, ?_, ?_, fun hok => ?_⟩
      · rw [append_assoc, toFinset_append, Finset.union_comm new.toFinset, ← Finset.union_assoc]
        exact hpool
      · rw [← concat_eq_append]
        exact hnd.concat fun hin => (hout a hin).1 rfl
      · exact forall_mem_append.mpr
          ⟨fun x hx => (hout x hx).2, forall_mem_singleton.mpr (hnew a rfl)⟩
      · rw [length_append, hlen hok]
        rfl

theorem mountPoolsFree_eq (T : Table) (epool : List MountRef) (ppool : List HeadRef) :
    T.mountPoolsFree epool ppool =
      T.withNodes (T.mountLive \ epool.toFinset) (T.headLive \ ppool.toFinset) := by
  rw [mountPoolsFree, foldl_mountFree, foldl_mheadFree]
  rfl

/-- The pools are filled with nodes not in use. -/
theorem mountPools_spec (T : Table) (ns : NsTable) (mem : CopyAlloc) :
    ∃ epool ppool ok, T.mountPools ns mem = (T.withNodes (T.mountLive ∪ epool.toFinset)
      (T.headLive ∪ ppool.toFinset), epool, ppool, ok) ∧ epool.Nodup ∧ ppool.Nodup ∧
      (∀ m ∈ epool, m ∉ T.mountLive) ∧ (∀ h ∈ ppool, h ∉ T.headLive) ∧
      (ok = true → epool.length = ns.nmounts ∧ ppool.length = ns.npoints) := by
  rw [mountPools]
  obtain ⟨epool, eok, (halloc₁ : allocEntries _ (T, []) = _), hnd₁, hfresh₁, hlen₁⟩ :=
    allocPool_spec (T.mountNodeAlloc_spec · T.headLive) T.mountLive
      ((range ns.nmounts).map fun i => (mem.entries[i]?).join) []
  rw [append_nil] at halloc₁
  simp only [halloc₁]
  cases eok with
  | false => exact ⟨epool, [], false, by simp, hnd₁, nodup_nil, hfresh₁, nofun, nofun⟩
  | true =>
    obtain ⟨ppool, pok, halloc₂, hnd₂, hfresh₂, hlen₂⟩ :=
      allocPool_spec (T.mheadNodeAlloc_spec (T.mountLive ∪ epool.toFinset)) T.headLive
        ((range ns.npoints).map fun i => (mem.points[i]?).join) []
    rw [append_nil] at halloc₂
    simp only [allocPoints, halloc₂]
    refine ⟨epool, ppool, pok, rfl, hnd₁, hnd₂, hfresh₁, hfresh₂, fun hok => ⟨?_, ?_⟩⟩
    · rw [hlen₁ rfl, length_map, length_range]
    · rw [hlen₂ hok, length_map, length_range]

/-! ### The copy of a table -/

/-- **The frame rule** for the invariant. -/
theorem Ok.congr (hok : Ok spoors T es hs) {ps : List HeadRef}
    (hsame : SameOff T.toNsMem T'.toNsMem ms ps) (hns : T'.toNsTable = T.toNsTable)
    (hms : ∀ m ∈ es, m ∉ ms) (hps : ∀ h ∈ hs, h ∉ ps) : Ok spoors T' es hs := by
  have hmap := hok.rep.map_entryOf_congr hsame hms hps
  refine ⟨hok.rep.congr hsame hns hms hps, fun h hh => ?_, hmap ▸ hok.rules⟩
  rw [hmap, (hsame.point h (hps h hh)).2.2.2.1]
  exact hok.hosts h hh

/-- The root of the parent is taken over by the child. -/
theorem Ok.copyRoot (hok : Ok spoors T es hs) (hroot : T.rootSpoor = none) (root : Option SpoorRef)
    (hT' : T.copyRoot root = T') :
    Ok spoors T' es hs ∧ T'.entryOf = T.entryOf ∧ T'.rootSpoor = root ∧ Settled T es T' es ∧
      SameOff T.toNsMem T'.toNsMem [] [] ∧ T'.mountLive = T.mountLive ∧ T'.headLive = T.headLive := by
  cases root with
  | none =>
    subst hT'
    exact ⟨hok.setRoot _ none, rfl, rfl, ⟨fun s => by rw [hroot]; rfl, rfl⟩, .refl .., rfl, rfl⟩
  | some r =>
    subst hT'
    refine ⟨hok.setRoot _ (some r), rfl, rfl, ⟨fun s => ?_, rfl⟩, ⟨fun _ _ => ⟨rfl, rfl, rfl, rfl,
      rfl, rfl, rfl, rfl⟩, fun _ _ => ⟨rfl, rfl, rfl, rfl, rfl, rfl⟩⟩, rfl, rfl⟩
    have howed := owed_spoorRef T es r s
    rw [hroot, Option.toList_none, count_nil]
    change (T.spoorRef r).owed es s - [r].count s = _
    omega

/-- Filled pools suffice to copy a table in the same memory. -/
theorem CopyReady.start {M : NsMem} {ns : NsTable}
    (hrep : Rep { M with toNsTable := ns } es hs) (hentries : ∀ m ∈ es, m ∈ M.mountLive)
    (hpoints : ∀ h ∈ hs, h ∈ M.headLive) (hsame : SameTable { M with toNsTable := .empty } T)
    (hnd : epool.Nodup) (hndp : ppool.Nodup) (hfresh : ∀ m ∈ epool, m ∉ M.mountLive)
    (hfreshp : ∀ h ∈ ppool, h ∉ M.headLive) (hlen : epool.length = ns.nmounts)
    (hlenp : ppool.length = ns.npoints) : CopyReady T [] [] es hs epool ppool where
  rep := hsame.rep (rep_empty M 0)
  hosts := nofun
  entries := ⟨hnd, fun _ _ => not_mem_nil⟩
  points := ⟨hndp, fun _ _ => not_mem_nil⟩
  parent := fun m hm => ⟨not_mem_nil, fun hin => hfresh m hin (hentries m hm)⟩
  head := fun m hm => by
    obtain ⟨p, hp, heq⟩ := hrep.headed m hm
    refine ⟨p, ?_, not_mem_nil, fun hin => hfreshp p hin (hpoints p hp), .inl hp⟩
    rw [((hsame.sameOff [] []).entry m not_mem_nil).2.2.2.2.1]
    exact heq
  todo := ⟨hrep.headsNodup, fun p hp => ⟨not_mem_nil, fun hin => hfreshp p hin (hpoints p hp)⟩⟩
  entryRoom := by
    have hle := hrep.entriesLe
    have hcount := hrep.nmounts
    simp only [length_nil] at hcount ⊢
    omega
  pointRoom := by
    have hle := hrep.pointsLe
    have hcount := hrep.npoints
    simp only [length_nil] at hcount ⊢
    omega

theorem Settled.trans {T'' : Table} {es'' : List MountRef} (h : Settled T es T' es')
    (h' : Settled T' es' T'' es'') : Settled T es T'' es'' :=
  ⟨fun s => (h'.spoors s).trans (h.spoors s), h'.paths.trans h.paths⟩

/-- The nodes in use after part of a pool was used and the rest freed. -/
theorem mem_pool {α : Type} [DecidableEq α] {s : Finset α} {u rest : List α}
    (hnd : (u ++ rest).Nodup) (hfresh : ∀ a ∈ u ++ rest, a ∉ s) (a : α) :
    a ∈ (s ∪ (u ++ rest).toFinset) \ rest.toFinset ↔ a ∈ s ∨ a ∈ u := by
  have hrest : a ∈ rest → a ∉ s ∧ a ∉ u := fun hr =>
    ⟨hfresh a (mem_append_right u hr), fun hu => disjoint_of_nodup_append hnd hu hr⟩
  rw [Finset.mem_sdiff, Finset.mem_union, mem_toFinset, mem_toFinset, mem_append]
  tauto

/-- **The copy of a table** fails for want of nodes only, and lists what the parent does. -/
theorem Ok.copyTable {M : NsMem} {ns : NsTable} (hok : Ok spoors { M with toNsTable := ns } es hs)
    (hentries : ∀ m ∈ es, m ∈ M.mountLive) (hpoints : ∀ h ∈ hs, h ∈ M.headLive) (mem : CopyAlloc) :
    ∃ T' copied es' hs', Table.copyTable { M with toNsTable := .empty } ns mem = some (T', copied) ∧
      Ok spoors T' es' hs' ∧ Moves { M with toNsTable := .empty } [] [] T' es' hs' ∧
      Settled { M with toNsTable := .empty } [] T' es' ∧
      (copied = true → es'.map T'.entryOf = es.map ({ M with toNsTable := ns } : Table).entryOf ∧
        T'.rootSpoor = ns.rootSpoor) := by
  obtain ⟨T₀, hT₀⟩ : ∃ T₀, ({ M with toNsTable := .empty } : Table) = T₀ := ⟨_, rfl⟩
  have hlive₀ : T₀.mountLive = M.mountLive ∧ T₀.headLive = M.headLive := hT₀ ▸ ⟨rfl, rfl⟩
  have hroot₀ : T₀.rootSpoor = none := hT₀ ▸ rfl
  have hok₀ : Ok spoors T₀ [] [] := hT₀ ▸ empty M
  obtain ⟨epool, ppool, ok, hpools, hnd, hndp, hfresh, hfreshp, hlen⟩ := mountPools_spec T₀ ns mem
  rw [hlive₀.1, hlive₀.2] at hpools
  rw [hlive₀.1] at hfresh
  rw [hlive₀.2] at hfreshp
  rw [hT₀, Table.copyTable, hpools]
  obtain ⟨T₁, hT₁⟩ : ∃ T₁, T₀.withNodes (M.mountLive ∪ epool.toFinset)
    (M.headLive ∪ ppool.toFinset) = T₁ := ⟨_, rfl⟩
  rw [hT₁]
  have hsame₁ : SameTable T₀ T₁ := hT₁ ▸ (SameTable.refl T₀).withNodes ..
  have hbal₁ : Balanced T₀ [] T₁ [] := hT₁ ▸ balanced_withNodes ..
  have hm₁ : T₁.mountLive = M.mountLive ∪ epool.toFinset := hT₁ ▸ rfl
  have hh₁ : T₁.headLive = M.headLive ∪ ppool.toFinset := hT₁ ▸ rfl
  cases ok with
  | false =>
    have hsame := hsame₁.withNodes (T₁.mountLive \ epool.toFinset) (T₁.headLive \ ppool.toFinset)
    refine ⟨_, false, [], [], congrArg (fun T => some (T, false)) (mountPoolsFree_eq ..),
      hsame.ok hok₀, .keep hsame nofun nofun (fun m hm => ?_) (fun h hh => ?_),
      (hbal₁.trans (balanced_withNodes ..)).settled hsame.root, nofun⟩
    · rw [hlive₀.1] at hm
      rw [hm₁]
      exact (mem_pool (u := []) hnd hfresh m).mpr (.inl hm)
    · rw [hlive₀.2] at hh
      rw [hh₁]
      exact (mem_pool (u := []) hndp hfreshp h).mpr (.inl hh)
  | true =>
    have hoff₁ : SameOff M T₁.toNsMem [] [] := by
      have := hsame₁.sameOff [] []
      rwa [← hT₀] at this
    have hrep₁ : Rep { T₁ with toNsTable := ns } es hs := hok.rep.congr hoff₁ rfl
      (fun _ _ => not_mem_nil) fun _ _ => not_mem_nil
    have hready := CopyReady.start hok.rep hentries hpoints (hT₀ ▸ hsame₁) hnd hndp hfresh hfreshp
      (hlen rfl).1 (hlen rfl).2
    obtain ⟨T₂, epool', ppool', es', hs', used, usedp, hcopy, rfl, rfl, hes', hhs', hrep₂, hhosts,
      hlist, hbal₂, hoff₂, hm₂, hh₂, hroot₂⟩ := copyEntries_spec hready
    rw [append_nil] at hes' hhs' hoff₂
    rw [append_nil] at hoff₂
    have hlist₂ : es'.map T₂.entryOf = es.map ({ M with toNsTable := ns } : Table).entryOf :=
      hlist.trans (hok.rep.map_entryOf_congr hoff₁ (fun _ _ => not_mem_nil) fun _ _ => not_mem_nil)
    have hok₂ : Ok spoors T₂ es' hs' := ⟨hrep₂, hhosts, hlist₂ ▸ hok.rules⟩
    obtain ⟨T₃, hT₃⟩ : ∃ T₃, T₂.copyRoot ns.rootSpoor = T₃ := ⟨_, rfl⟩
    obtain ⟨hok₃, hentry₃, hroot₃, hset₃, hoff₃, hm₃, hh₃⟩ :=
      hok₂.copyRoot (hroot₂.trans (hsame₁.root.trans hroot₀)) ns.rootSpoor hT₃
    have hsame₄ := (SameTable.refl T₃).withNodes (T₃.mountLive \ epool'.toFinset)
      (T₃.headLive \ ppool'.toFinset)
    refine ⟨_, true, es', hs', ?_, hsame₄.ok hok₃, ?_, ?_, fun _ => ⟨?_, ?_⟩⟩
    · simp only [hrep₁.entries_eq, hcopy, Option.bind_eq_bind, Option.bind_some, hT₃,
        mountPoolsFree_eq]
    · have hlive (m : MountRef) : m ∈ T₃.mountLive \ epool'.toFinset ↔
          m ∈ M.mountLive ∨ m ∈ used := by
        rw [hm₃, hm₂, hm₁]
        exact mem_pool hnd hfresh m
      have hlivep (h : HeadRef) : h ∈ T₃.headLive \ ppool'.toFinset ↔
          h ∈ M.headLive ∨ h ∈ usedp := by
        rw [hh₃, hh₂, hh₁]
        exact mem_pool hndp hfreshp h
      have hnew {m : MountRef} (hm : m ∈ T₀.mountLive) : m ∉ used := fun hin =>
        hfresh m (mem_append_left epool' hin) (hlive₀.1 ▸ hm)
      have hnewp {h : HeadRef} (hh : h ∈ T₀.headLive) : h ∉ usedp := fun hin =>
        hfreshp h (mem_append_left ppool' hin) (hlive₀.2 ▸ hh)
      refine ⟨fun m hm => (hlive m).mpr (.inr (hes' hm)), fun h hh => (hlivep h).mpr (.inr (hhs' hh)),
        fun m hm _ => ⟨(hlive m).mpr (.inl (hlive₀.1 ▸ hm)), fun hin => hnew hm (hes' hin)⟩,
        fun h hh _ => ⟨(hlivep h).mpr (.inl (hlive₀.2 ▸ hh)), fun hin => hnewp hh (hhs' hin)⟩,
        used, usedp, ?_, fun m hm _ => hnew hm, fun h hh _ => hnewp hh⟩
      exact (((hsame₁.sameOff ..).trans hoff₂).trans
        (hoff₃.mono (nil_subset _) (nil_subset _))).trans (hsame₄.sameOff ..)
    · exact (((hbal₁.trans hbal₂).settled (hroot₂.trans hsame₁.root)).trans hset₃).trans
        ((balanced_withNodes ..).settled hsame₄.root)
    · rw [hsame₄.entryOf, hentry₃, hlist₂]
    · exact hsame₄.root.trans hroot₃

/-! ### The release -/

/-- Releasing a table settles its references. -/
theorem Rep.releaseTable (hrep : T.Rep es hs) :
    (∀ s, T.releaseTable.owed [] s = T.owed es s - T.rootSpoor.toList.count s) ∧
      T.releaseTable.pathOwed [] = T.pathOwed es ∧
      SameOff T.toNsMem T.releaseTable.toNsMem [] [] ∧
      T.releaseTable.mountLive = T.mountLive \ es.toFinset ∧
      (∀ h, h ∈ T.releaseTable.headLive ↔ h ∈ T.headLive ∧ h ∉ hs) ∧
      T.releaseTable.toNsTable = { NsTable.empty with mvisit := T.mvisit } := by
  have hback : walk T.tprev fuel T.mlast = es.reverse := by
    refine walk_eq hrep.table.bwd ?_
    rw [length_reverse]
    exact hrep.entriesLe.trans (Nat.le_succ _)
  obtain ⟨T₁, hT₁⟩ : ∃ T₁, ({ T with
      mhash := fun _ => none
      mfirst := none
      mlast := none
      nmounts := 0
      npoints := 0
      rootSpoor := none } : Table) = T₁ := ⟨_, rfl⟩
  have hoff₁ : SameOff T.toNsMem T₁.toNsMem [] [] := hT₁ ▸ .refl ..
  have hbal₁ : Balanced T es T₁ (es.reverse ++ []) := by
    have hfields : Balanced T es T₁ es := hT₁ ▸ ⟨rfl, rfl⟩
    rw [append_nil]
    exact hfields.trans (balanced_perm (reverse_perm es).symm)
  obtain ⟨hsame, hbal, hml, hhl⟩ := mountDeadRelease_spec T₁ ⟨es.reverse, T.points⟩ []
  have hml₁ : T₁.mountLive = T.mountLive := hT₁ ▸ rfl
  have hhl₁ : T₁.headLive = T.headLive := hT₁ ▸ rfl
  have hdef : T.releaseTable =
      (T₁.mountDeadRelease ⟨es.reverse, T.points⟩).clunkRoot T.rootSpoor := by
    rw [Table.releaseTable, hback, hT₁]
  generalize T₁.mountDeadRelease ⟨es.reverse, T.points⟩ = T₂ at hsame hbal hml hhl hdef
  have hfinal := hbal₁.trans hbal
  have hheads (h : HeadRef) : h ∈ T₂.headLive ↔ h ∈ T.headLive ∧ h ∉ hs := by
    rw [hhl, hhl₁, Finset.mem_sdiff, mem_toFinset, hrep.mem_points]
  have hentries : T₂.mountLive = T.mountLive \ es.toFinset := by rw [hml, hml₁, toFinset_reverse]
  have hns : T₂.toNsTable = { NsTable.empty with mvisit := T.mvisit } := by
    rw [hsame.ns, ← hT₁]
    rfl
  obtain ⟨hclunk, hdrop, hdropp, hml', hhl'⟩ := clunkRoot_spec T₂ T.rootSpoor []
  rw [hdef, hml', hhl', hclunk.ns, hdropp]
  refine ⟨fun s => ?_, hfinal.paths, hoff₁.trans ((hsame.trans hclunk).sameOff ..), hentries, hheads,
    hns⟩
  rw [hdrop, hfinal.spoors]

end Table

end Thylacine
