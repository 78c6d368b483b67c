import Thylacine.Territory.TableRep

/-!
# The Edits of the Table

What the four primitives do to the lists of a table: a point is hashed or taken out of its
chain, an entry is linked or unlinked. `Edit` is what they leave alone.
-/

namespace Thylacine

open DoublyLinked List PointerChain
open Option (some_or)

namespace Table

open Function (update update_eq_self update_of_ne update_self)

/-- An edit of links writes only to `ms` and `ps`, and no data. -/
structure Edit (T T' : Table) (ms : List MountRef) (ps : List HeadRef) : Prop where
  same : SameOff T.toNsMem T'.toNsMem ms ps
  source : T'.source = T.source
  mpPath : T'.mpPath = T.mpPath
  flags : T'.flags = T.flags
  mountLive : T'.mountLive = T.mountLive
  headLive : T'.headLive = T.headLive
  spoorRefs : T'.spoorRefs = T.spoorRefs
  pathRefs : T'.pathRefs = T.pathRefs
  rootSpoor : T'.rootSpoor = T.rootSpoor
  mvisit : T'.mvisit = T.mvisit

variable {T T' T'' : Table} {es : List MountRef} {hs : List HeadRef} {m : MountRef} {h : HeadRef}
  {ms ms' : List MountRef} {ps ps' : List HeadRef}

theorem Edit.refl (T : Table) (ms : List MountRef) (ps : List HeadRef) : Edit T T ms ps :=
  ⟨.refl .., rfl, rfl, rfl, rfl, rfl, rfl, rfl, rfl, rfl⟩

theorem Edit.trans (h : Edit T T' ms ps) (h' : Edit T' T'' ms ps) : Edit T T'' ms ps :=
  ⟨h.same.trans h'.same, h'.source.trans h.source, h'.mpPath.trans h.mpPath,
    h'.flags.trans h.flags, h'.mountLive.trans h.mountLive, h'.headLive.trans h.headLive,
    h'.spoorRefs.trans h.spoorRefs, h'.pathRefs.trans h.pathRefs, h'.rootSpoor.trans h.rootSpoor,
    h'.mvisit.trans h.mvisit⟩

theorem Edit.mono (h : Edit T T' ms ps) (hms : ms ⊆ ms') (hps : ps ⊆ ps') : Edit T T' ms' ps' :=
  { h with same := h.same.mono hms hps }

/-! ### Points -/

theorem mheadInsert_edit (T : Table) (h : HeadRef) (k : MKey) :
    Edit T (T.mheadInsert h k) [] [h] where
  same := ⟨fun _ _ => ⟨rfl, rfl, rfl, rfl, rfl, rfl, rfl, rfl⟩, fun p hp => by
    have hne : p ≠ h := fun heq => hp (heq ▸ mem_cons_self)
    simp only [mheadInsert, update_of_ne hne, and_self]⟩
  source := rfl
  mpPath := rfl
  flags := rfl
  mountLive := rfl
  headLive := rfl
  spoorRefs := rfl
  pathRefs := rfl
  rootSpoor := rfl
  mvisit := rfl

/-- A new point is put **first** in its chain. -/
theorem Rep.mheadInsert (hrep : T.Rep es hs) {k : MKey} (hh : h ∉ hs)
    (hk : ∀ p ∈ hs, T.key p ≠ k) (hle : hs.length < pgrpMountCap) :
    (T.mheadInsert h k).Rep es (h :: hs) := by
  have hne {p : HeadRef} (hp : p ∈ hs) : p ≠ h := ne_of_mem_of_not_mem hp hh
  have hkey {p : HeadRef} (hp : p ∈ hs) : (T.mheadInsert h k).key p = T.key p :=
    update_of_ne (hne hp) _ _
  have hself : (T.mheadInsert h k).key h = k := update_self ..
  have hnohead : T.membersIn es h = [] := by
    refine filter_eq_nil_iff.mpr fun m hm heq => ?_
    obtain ⟨p, hp, hhead⟩ := hrep.headed m hm
    rw [decide_eq_true_iff, hhead] at heq
    exact hne hp (Option.some.inj heq)
  exact {
    table := hrep.table
    chains := fun b => by
      have hold : (hs.filter fun p => mhashOf ((T.mheadInsert h k).key p) = b) =
          hs.filter fun p => mhashOf (T.key p) = b :=
        filter_congr fun p hp => by rw [hkey hp]
      have hnotin : h ∉ hs.filter fun p => mhashOf (T.key p) = b :=
        fun hmem => hh (mem_filter.mp hmem).1
      rw [filter_cons, hself, hold]
      by_cases hb : mhashOf k = b
      · subst hb
        rw [if_pos (decide_eq_true rfl)]
        have hhash : (T.mheadInsert h k).mhash (mhashOf k) = some h := update_self ..
        rw [hhash]
        exact (hrep.chains _).push hnotin
      · rw [if_neg (by simpa using hb)]
        have hhash : (T.mheadInsert h k).mhash b = T.mhash b :=
          update_of_ne (fun heq => hb heq.symm) _ _
        rw [hhash]
        exact DList.chain_update (hrep.chains b) hnotin
    keys := by
      rw [map_cons, map_congr_left fun p hp => hkey hp, hself]
      refine nodup_cons.mpr ⟨fun hmem => ?_, hrep.keys⟩
      obtain ⟨p, hp, heq⟩ := mem_map.mp hmem
      exact hk p hp heq
    members := fun p hp => by
      rcases mem_cons.mp hp with rfl | hp
      · change DList.Holds ⟨update T.first p none p, update T.last p none p,
          T.next, T.prev⟩ (T.membersIn es p)
        rw [hnohead, update_self, update_self]
        exact ⟨rfl, rfl, nodup_nil⟩
      · change DList.Holds ⟨update T.first h none p, update T.last h none p,
          T.next, T.prev⟩ (T.membersIn es p)
        rw [update_of_ne (hne hp), update_of_ne (hne hp)]
        exact hrep.members p hp
    nmembers := fun p hp => by
      rcases mem_cons.mp hp with rfl | hp
      · change update T.nmembers p 0 p = (T.membersIn es p).length
        rw [hnohead, update_self, length_nil]
      · change update T.nmembers h 0 p = (T.membersIn es p).length
        rw [update_of_ne (hne hp)]
        exact hrep.nmembers p hp
    headed := fun m hm => by
      obtain ⟨p, hp, hhead⟩ := hrep.headed m hm
      exact ⟨p, mem_cons_of_mem h hp, hhead⟩
    nmounts := hrep.nmounts
    npoints := by
      change T.npoints + 1 = (h :: hs).length
      rw [hrep.npoints, length_cons]
    visited := fun p hp => by
      change update T.visit h 0 p ≤ T.mvisit
      rcases mem_cons.mp hp with rfl | hp
      · rw [update_self]
        exact Nat.zero_le T.mvisit.toNat
      · rw [update_of_ne (hne hp)]
        exact hrep.visited p hp
    entriesLe := hrep.entriesLe
    pointsLe := hle }

/-- The search along a chain ends at the cell of `h`. -/
theorem chainCell_eq {b : ℕ} {xs ys : List HeadRef} {c : Option HeadRef} {fuel : ℕ}
    (hchain : Chain T.hnext (c.elim (T.mhash b) T.hnext) (xs ++ h :: ys)) (hh : h ∉ xs)
    (hfuel : xs.length < fuel) : T.chainCell b h fuel c = some (xs.getLast?.or c) := by
  induction xs generalizing c fuel with
  | nil =>
    obtain ⟨fuel, rfl⟩ : ∃ n, fuel = n + 1 := ⟨fuel - 1, by omega⟩
    rw [chainCell, hchain.1]
    simp
  | cons x xs ih =>
    obtain ⟨fuel, rfl⟩ : ∃ n, fuel = n + 1 := ⟨fuel - 1, by omega⟩
    have hx : x ≠ h := fun heq => hh (heq ▸ mem_cons_self)
    have hrest := ih (c := some x) hchain.2 (fun hmem => hh (mem_cons_of_mem x hmem))
      (Nat.lt_of_succ_lt_succ hfuel)
    rw [chainCell, hchain.1]
    dsimp only
    rw [if_neg hx, hrest]
    cases xs with
    | nil => rfl
    | cons y ys => rw [getLast?_cons_cons, getLast?_cons, some_or, some_or]

/-- A point leaves its chain by a write to the cell `c`. -/
def unchain (T : Table) (h : HeadRef) (c : Option HeadRef) : Table :=
  let b := mhashOf (T.key h)
  let l := DList.setNext ⟨T.mhash b, none, T.hnext, T.hnext⟩ c (T.hnext h)
  { T with
    mhash := Function.update T.mhash b l.first
    hnext := Function.update l.next h none
    npoints := T.npoints - 1 }

/-- A point of the table is on its chain. -/
theorem Rep.exists_chain (hrep : T.Rep es hs) (hh : h ∈ hs) :
    ∃ xs ys, (hs.filter fun p => mhashOf (T.key p) = mhashOf (T.key h)) = xs ++ h :: ys ∧
      h ∉ xs ++ ys ∧ T.mheadRemove h = some (T.unchain h xs.getLast?) := by
  have hmem : h ∈ hs.filter fun p => mhashOf (T.key p) = mhashOf (T.key h) :=
    mem_filter.mpr ⟨hh, decide_eq_true rfl⟩
  obtain ⟨xs, ys, hsplit⟩ := append_of_mem hmem
  have hnd := hrep.headsNodup.filter fun p => decide (mhashOf (T.key p) = mhashOf (T.key h))
  rw [hsplit, nodup_middle, nodup_cons] at hnd
  refine ⟨xs, ys, hsplit, hnd.1, ?_⟩
  have hchain := hrep.chains (mhashOf (T.key h))
  rw [hsplit] at hchain
  have hlen : xs.length < fuel := by
    have hle : (xs ++ h :: ys).length ≤ hs.length := by
      rw [← hsplit]
      exact length_filter_le ..
    have hcap := hrep.pointsLe
    rw [length_append, length_cons] at hle
    rw [fuel]
    omega
  have hcell := chainCell_eq (c := none) hchain (fun hx => hnd.1 (mem_append_left ys hx)) hlen
  rw [mheadRemove]
  simp only [hcell, Option.or_none, Option.bind_eq_bind, Option.bind_some]
  cases xs.getLast? with
  | none => rfl
  | some a => simp only [unchain, DList.setNext, update_eq_self]

/-- A point without members is **taken out**. -/
theorem Rep.mheadRemove (hrep : T.Rep es hs) (hh : h ∈ hs) (hempty : T.membersIn es h = []) :
    ∃ T', T.mheadRemove h = some T' ∧ T'.Rep es (hs.erase h) ∧ Edit T T' [] hs ∧
      T'.key = T.key ∧ T'.head = T.head ∧ T'.visit = T.visit ∧ T'.first = T.first := by
  obtain ⟨xs, ys, hsplit, hnotin, hrem⟩ := hrep.exists_chain hh
  set b := mhashOf (T.key h) with hb
  have hnd := hrep.headsNodup
  let l : DList HeadRef := ⟨T.mhash b, none, T.hnext, T.hnext⟩
  have hchain := hrep.chains b
  rw [hsplit] at hchain
  have hndsplit := hnd.filter fun p => decide (mhashOf (T.key p) = b)
  rw [hsplit] at hndsplit
  have hnd' : (xs ++ ys).Nodup := hndsplit.sublist (by simp)
  have hmemxs {p : HeadRef} (hp : p ∈ xs ++ h :: ys) : p ∈ hs ∧ mhashOf (T.key p) = b := by
    rw [← hsplit] at hp
    exact ⟨(mem_filter.mp hp).1, by simpa using (mem_filter.mp hp).2⟩
  -- the cell before `h` now leads to the point after it
  set l' := l.setNext xs.getLast? (T.hnext h)
  have hcut : Chain l'.next l'.first (xs ++ ys) := by
    refine DList.fwd_setNext hchain (nodup_append.mp hndsplit).1 ?_
    obtain ⟨-, -, -, hys⟩ := chain_append.mp hchain
    exact hys.congr fun p hp => DList.setNext_next_of_ne (DList.ne_getLast_of_mem hnd' hp)
  refine ⟨_, hrem, ?_, ?_, rfl, rfl, rfl, rfl⟩
  · have hsub {p : HeadRef} (hp : p ∈ hs.erase h) : p ∈ hs := mem_of_mem_erase hp
    exact {
      table := hrep.table
      chains := fun b' => by
        change Chain (update l'.next h none) (update T.mhash b l'.first b')
          ((hs.erase h).filter fun p => mhashOf (T.key p) = b')
        rw [← erase_filter]
        have hat {p : HeadRef} (hp : p ∈ hs.filter fun p => mhashOf (T.key p) = b') :
            b' = mhashOf (T.key p) := (decide_eq_true_iff.mp (mem_filter.mp hp).2).symm
        by_cases hb' : b' = b
        · subst hb'
          rw [update_self, hsplit, erase_append_right _
            (fun hx => hnotin (mem_append_left ys hx)), erase_cons_head]
          exact DList.chain_update hcut hnotin
        · rw [update_of_ne hb', erase_of_not_mem]
          · refine DList.chain_update ((hrep.chains b').congr fun p hp => ?_) ?_
            · refine DList.setNext_next_of_ne fun heq => hb' ?_
              have hpxs := hmemxs (mem_append_left _ (mem_of_getLast? heq))
              exact (hat hp).trans hpxs.2
            · exact fun hmem => hb' (hat hmem)
          · exact fun hmem => hb' (hat hmem)
      keys := hrep.keys.sublist (erase_sublist.map _)
      members := fun p hp => hrep.members p (hsub hp)
      nmembers := fun p hp => hrep.nmembers p (hsub hp)
      headed := fun m hm => by
        obtain ⟨p, hp, hhead⟩ := hrep.headed m hm
        refine ⟨p, (hnd.mem_erase_iff).mpr ⟨?_, hp⟩, hhead⟩
        rintro rfl
        have hmem : m ∈ T.membersIn es p := mem_membersIn.mpr ⟨hm, hhead⟩
        rw [hempty] at hmem
        cases hmem
      nmounts := hrep.nmounts
      npoints := by
        change T.npoints - 1 = (hs.erase h).length
        rw [hrep.npoints, length_erase_of_mem hh]
      visited := fun p hp => hrep.visited p (hsub hp)
      entriesLe := hrep.entriesLe
      pointsLe := (length_erase_le ..).trans hrep.pointsLe }
  · refine { Edit.refl T [] hs with
      same := ⟨fun _ _ => ⟨rfl, rfl, rfl, rfl, rfl, rfl, rfl, rfl⟩, fun p hp => ?_⟩ }
    refine ⟨?_, rfl, rfl, rfl, rfl, rfl⟩
    change update l'.next h none p = T.hnext p
    rw [update_of_ne (ne_of_mem_of_not_mem hh hp).symm, DList.setNext_next_of_ne]
    exact fun heq => hp (hmemxs (mem_append_left _ (mem_of_getLast? heq))).1

/-! ### Entries -/

/-- Only the entries `ms` change their point, and no pass touches a point. -/
structure Rehead (T T' : Table) (ms : List MountRef) : Prop where
  key : T'.key = T.key
  visit : T'.visit = T.visit
  head : ∀ x, x ∉ ms → T'.head x = T.head x

theorem Rehead.refl (T : Table) (ms : List MountRef) : Rehead T T ms := ⟨rfl, rfl, fun _ _ => rfl⟩

theorem Rehead.trans (h : Rehead T T' ms) (h' : Rehead T' T'' ms) : Rehead T T'' ms :=
  ⟨h'.key.trans h.key, h'.visit.trans h.visit, fun x hx => (h'.head x hx).trans (h.head x hx)⟩

theorem Rehead.mono (h : Rehead T T' ms) (hms : ms ⊆ ms') : Rehead T T' ms' :=
  ⟨h.key, h.visit, fun x hx => h.head x fun hmem => hx (hms hmem)⟩

/-- The table with other links: `m` gets the head `v`, the table the list `lt` and `h` the members
`lm`, as in both edits of entries. -/
def relink (T : Table) (h : HeadRef) (m : MountRef) (v : Option HeadRef) (lt lm : DList MountRef)
    (n count : ℕ) : Table :=
  { ({ T with head := Function.update T.head m v }.setTableList lt).setMemberList h lm with
    nmembers := Function.update T.nmembers h n
    nmounts := count }

section Relink

variable {v : Option HeadRef} {lt lm : DList MountRef} {n count : ℕ} {es' : List MountRef}

theorem relink_rehead : Rehead T (T.relink h m v lt lm n count) [m] :=
  ⟨rfl, rfl, fun _ hx => update_of_ne (ne_of_not_mem_cons hx) _ _⟩

theorem relink_edit (hh : h ∈ hs) (hm : m ∈ ms) (hsub : es ⊆ ms)
    (htable : T.tableList.SameLinks lt ms)
    (hmembers : (T.memberList h).SameLinks lm (m :: T.membersIn es h)) :
    Edit T (T.relink h m v lt lm n count) ms hs := by
  refine { Edit.refl T ms hs with same := ⟨fun x hx => ?_, fun p hp => ?_⟩ }
  · have hxm : x ≠ m := fun heq => hx (heq ▸ hm)
    have hxs : x ∉ m :: T.membersIn es h := fun hmem =>
      (mem_cons.mp hmem).elim hxm fun hin => hx (hsub (mem_membersIn.mp hin).1)
    exact ⟨(htable x hx).1, (htable x hx).2, (hmembers x hxs).1, (hmembers x hxs).2,
      update_of_ne hxm _ _, rfl, rfl, rfl⟩
  · have hph : p ≠ h := fun heq => hp (heq ▸ hh)
    exact ⟨rfl, update_of_ne hph _ _, update_of_ne hph _ _, rfl, update_of_ne hph _ _, rfl⟩

section

variable (hv : ∀ p, v = some p → p = h) (hold : m ∈ es → T.head m = some h)
  (hrest : es'.filter (· ≠ m) = es.filter (· ≠ m))
include hv hold hrest

/-- Another point's members are the same as before. -/
theorem membersIn_relink {p : HeadRef} (hp : p ≠ h) :
    (T.relink h m v lt lm n count).membersIn es' p = T.membersIn es p := by
  have hnew : (T.relink h m v lt lm n count).membersIn es' p =
      (es'.filter (· ≠ m)).filter fun x => T.head x = some p := by
    rw [membersIn, filter_filter]
    refine filter_congr fun x _ => ?_
    by_cases hx : x = m
    · subst hx
      have hne : v ≠ some p := fun heq => hp (hv p heq)
      simp [relink, setMemberList, setTableList, hne]
    · simp [relink, setMemberList, setTableList, hx]
  have hsame : T.membersIn es p = (es.filter (· ≠ m)).filter fun x => T.head x = some p := by
    rw [membersIn, filter_filter]
    refine filter_congr fun x hx => ?_
    by_cases hxm : x = m
    · subst hxm
      have hne : T.head x ≠ some p := fun heq => hp (Option.some.inj (heq.symm.trans (hold hx)))
      simp [hne]
    · simp [hxm]
  rw [hnew, hrest, hsame]

/-- New links represent `es'`, if the changed lists hold it. -/
theorem Rep.relink (hrep : T.Rep es hs) (hh : h ∈ hs)
    (hin : m ∈ es' → v = some h) (hle : es'.length ≤ pgrpMountCap)
    (htable : lt.Holds es')
    (hmembers : lm.Holds (es'.filter fun x => update T.head m v x = some h))
    (hlinks : (T.memberList h).SameLinks lm (m :: T.membersIn es h))
    (hn : n = (es'.filter fun x => update T.head m v x = some h).length)
    (hcount : count = es'.length) : (T.relink h m v lt lm n count).Rep es' hs where
  table := htable
  chains := hrep.chains
  keys := hrep.keys
  members := fun p hp => by
    by_cases hph : p = h
    · subst hph
      change DList.Holds ⟨update T.first p lm.first p,
        update T.last p lm.last p, lm.next, lm.prev⟩ _
      rw [update_self, update_self]
      exact hmembers
    · rw [membersIn_relink hv hold hrest hph]
      refine (hrep.members p hp).congr (S := m :: T.membersIn es h) hlinks (fun x hx hxs => ?_)
        (update_of_ne hph _ _) (update_of_ne hph _ _)
      obtain ⟨hxe, hxp⟩ := mem_membersIn.mp hx
      have hxh : T.head x = some h := by
        rcases mem_cons.mp hxs with rfl | hxs
        · exact hold hxe
        · exact (mem_membersIn.mp hxs).2
      exact hph (Option.some.inj (hxp.symm.trans hxh))
  nmembers := fun p hp => by
    by_cases hph : p = h
    · subst hph
      exact (update_self ..).trans hn
    · rw [membersIn_relink hv hold hrest hph]
      exact (update_of_ne hph _ _).trans (hrep.nmembers p hp)
  headed := fun x hx => by
    by_cases hxm : x = m
    · subst hxm
      exact ⟨h, hh, (update_self ..).trans (hin hx)⟩
    · have hxs : x ∈ es.filter (· ≠ m) := by
        rw [← hrest]
        exact mem_filter.mpr ⟨hx, by simpa using hxm⟩
      obtain ⟨p, hp, hhead⟩ := hrep.headed x (mem_filter.mp hxs).1
      exact ⟨p, hp, (update_of_ne hxm _ _).trans hhead⟩
  nmounts := hcount
  npoints := hrep.npoints
  visited := hrep.visited
  entriesLe := hle
  pointsLe := hrep.pointsLe

end

end Relink

/-- Where an entry goes: with `first` before its point's first member. -/
def placed (T : Table) (es : List MountRef) (h : HeadRef) (m : MountRef) (first : Bool) :
    List MountRef :=
  if first then placeAt (fun x => T.head x = some h) m es else es ++ [m]

theorem placed_perm (T : Table) (es : List MountRef) (h : HeadRef) (m : MountRef) (first : Bool) :
    (T.placed es h m first).Perm (m :: es) := by
  rw [placed]
  split_ifs
  · exact placeAt_perm ..
  · exact perm_append_singleton m es

/-- With no member to stand before, it goes last. -/
theorem placed_eq_append {first : Bool} (hnone : first = true → T.membersIn es h = []) :
    T.placed es h m first = es ++ [m] := by
  rw [placed]
  split_ifs with hfirst
  · exact placeAt_of_filter_nil (hnone hfirst)
  · rfl

theorem filter_update_head (hm : m ∉ es) {v p : Option HeadRef} :
    (es.filter fun x => update T.head m v x = p) = es.filter fun x => T.head x = p :=
  filter_congr fun x hx => by rw [update_of_ne (ne_of_mem_of_not_mem hx hm)]

/-- An entry is **linked** last, or before its point's members. -/
theorem Rep.mountLink (hrep : T.Rep es hs) (hh : h ∈ hs) (hm : m ∉ es)
    (hle : es.length < pgrpMountCap) (first : Bool) :
    (T.mountLink h m first).Rep (T.placed es h m first) hs ∧
      Edit T (T.mountLink h m first) (m :: es) hs ∧ Rehead T (T.mountLink h m first) [m] ∧
      (T.mountLink h m first).head m = some h := by
  have hmem := hrep.members h hh
  have hmh : m ∉ T.membersIn es h := fun hin => hm (mem_membersIn.mp hin).1
  have hsub : T.membersIn es h ⊆ es := fun x hx => (mem_membersIn.mp hx).1
  have hhead : update T.head m (some h) m = some h := update_self ..
  by_cases hbefore : first = true ∧ T.membersIn es h ≠ []
  · -- before the first member `a`, in both lists
    obtain ⟨rfl, hne⟩ := hbefore
    obtain ⟨a, rest, hcons⟩ := exists_cons_of_ne_nil hne
    obtain ⟨ys, zs, hsplit, hys, hplace⟩ := placeAt_of_filter_cons hcons
    have hfirst : T.first h = some a := by
      have := hmem.first_eq
      rwa [hcons] at this
    have hma : m ≠ a := fun heq => hm (heq ▸ hsub (hcons ▸ mem_cons_self))
    have heq : T.mountLink h m true = T.relink h m (some h) (T.tableList.linkBefore a m)
        ((T.memberList h).pushFront a m) (T.nmembers h + 1) (T.nmounts + 1) := by
      rw [Table.mountLink, if_pos rfl, hfirst]
      rfl
    have htable := hrep.table
    have hnew : T.placed es h m true = ys ++ m :: a :: zs := hplace
    have hfilter : ((ys ++ m :: a :: zs).filter fun x =>
        update T.head m (some h) x = some h) = m :: T.membersIn es h := by
      have hms : m ∉ ys ∧ m ∉ a :: zs := by
        rw [hsplit] at hm
        exact ⟨fun hx => hm (mem_append_left _ hx), fun hx => hm (mem_append_right _ hx)⟩
      rw [filter_append, filter_update_head hms.1, hys, filter_cons_of_pos (by simp),
        filter_update_head hms.2, nil_append, membersIn, hsplit, filter_append, hys, nil_append]
    have hlen : (ys ++ m :: a :: zs).length = es.length + 1 := by
      rw [← hnew, (placed_perm ..).length_eq, length_cons]
    have hrest : (ys ++ m :: a :: zs).filter (· ≠ m) = es.filter (· ≠ m) := by
      rw [hsplit, filter_append, filter_append, filter_cons_of_neg (by simp)]
    rw [heq, hnew]
    have hlinks : (T.memberList h).SameLinks ((T.memberList h).pushFront a m)
        (m :: T.membersIn es h) := by
      intro x hx
      refine DList.Holds.sameLinks_pushFront _ a m x fun hxa => hx ?_
      rw [hcons]
      simp only [mem_cons, not_mem_nil, or_false] at hxa ⊢
      exact hxa.imp_right .inl
    rw [hsplit] at htable
    refine ⟨hrep.relink (fun p hp => (Option.some.inj hp).symm) (fun hin => absurd hin hm) hrest hh
      (fun _ => rfl) (hlen.trans_le hle) ?_ ?_ hlinks ?_ ?_, ?_, relink_rehead, hhead⟩
    · exact htable.linkBefore (hsplit ▸ hm)
    · rw [hfilter, hcons]
      rw [hcons] at hmem hmh
      exact hmem.pushFront hmh
    · rw [hfilter, length_cons, hrep.nmembers h hh]
    · rw [hlen, hrep.nmounts]
    · refine relink_edit hh mem_cons_self (subset_cons_self m es) ?_ hlinks
      rw [hsplit, htable.linkBefore_eq hma]
      exact DList.sameLinks_insertBetween _ _ (_ :: _) _
  · -- last in both lists
    have hnone : first = true → T.membersIn es h = [] := fun hf =>
      by_contra fun hne => hbefore ⟨hf, hne⟩
    have heq : T.mountLink h m first = T.relink h m (some h) (T.tableList.pushBack m)
        ((T.memberList h).pushBack m) (T.nmembers h + 1) (T.nmounts + 1) := by
      have hif : (if first = true then T.first h else none) = none := by
        split_ifs with hf
        · have := hmem.first_eq
          rwa [hnone hf] at this
        · rfl
      rw [Table.mountLink, hif]
      rfl
    have hfilter : ((es ++ [m]).filter fun x => update T.head m (some h) x = some h) =
        T.membersIn es h ++ [m] := by
      rw [filter_append, filter_update_head hm, filter_cons_of_pos (by simp), filter_nil, membersIn]
    rw [heq, placed_eq_append hnone]
    have hlinks := hmem.sameLinks_pushBack (m := m)
    refine ⟨hrep.relink (fun p hp => (Option.some.inj hp).symm) (fun hin => absurd hin hm) ?_ hh
      (fun _ => rfl) ?_ ?_ ?_ hlinks ?_ ?_, ?_, relink_rehead, hhead⟩
    · rw [filter_append, filter_cons_of_neg (by simp), filter_nil, append_nil]
    · rw [length_append, length_singleton]
      exact hle
    · exact hrep.table.pushBack hm
    · rw [hfilter]
      exact hmem.pushBack hmh
    · rw [hfilter, length_append, length_singleton, hrep.nmembers h hh]
    · rw [length_append, length_singleton, hrep.nmounts]
    · exact relink_edit hh mem_cons_self (subset_cons_self m es)
        hrep.table.sameLinks_pushBack hlinks

/-- An entry is **unlinked** from both lists. -/
theorem Rep.mountUnlink (hrep : T.Rep es hs) (hm : m ∈ es) :
    ∃ T', T.mountUnlink m = some T' ∧ T'.Rep (es.erase m) hs ∧ Edit T T' es hs ∧
      Rehead T T' [m] := by
  obtain ⟨h, hh, hhead⟩ := hrep.headed m hm
  have hnd := hrep.entriesNodup
  have hmem := hrep.members h hh
  have hin : m ∈ T.membersIn es h := mem_membersIn.mpr ⟨hm, hhead⟩
  obtain ⟨ys, zs, hsplit⟩ := append_of_mem hm
  obtain ⟨us, ws, hmsplit⟩ := append_of_mem hin
  have herase {xs : List MountRef} {us ws : List MountRef} (hxs : xs.Nodup)
      (heq : xs = us ++ m :: ws) : xs.erase m = us ++ ws := by
    rw [heq, nodup_middle, nodup_cons] at hxs
    rw [heq, erase_append_right _ fun hu => hxs.1 (mem_append_left _ hu), erase_cons_head]
  have hnotin : m ∉ es.erase m := fun hx => (hnd.mem_erase_iff.mp hx).1 rfl
  have hfilter : ((es.erase m).filter fun x => update T.head m none x = some h) =
      (T.membersIn es h).erase m := by
    rw [filter_update_head hnotin, ← erase_filter, membersIn]
  have htable := hrep.table
  rw [hsplit] at htable
  rw [hmsplit] at hmem
  have hlinks : (T.memberList h).SameLinks ((T.memberList h).unlink m) (m :: T.membersIn es h) := by
    intro x hx
    refine hmem.sameLinks_unlink x fun hxm => hx (mem_cons_of_mem m ?_)
    rwa [hmsplit]
  refine ⟨T.relink h m none (T.tableList.unlink m) ((T.memberList h).unlink m) (T.nmembers h - 1)
    (T.nmounts - 1), ?_, ?_, ?_, relink_rehead⟩
  · rw [Table.mountUnlink, hhead]
    rfl
  · refine hrep.relink (fun p hp => absurd hp.symm (Option.some_ne_none p)) (fun _ => hhead) ?_ hh (fun hx => absurd hx hnotin)
      ((length_erase_le ..).trans hrep.entriesLe) ?_ ?_ hlinks ?_ ?_
    · rw [← erase_filter, erase_of_not_mem (by simp)]
    · rw [herase hnd hsplit]
      exact htable.unlink
    · rw [hfilter, herase (hrep.membersIn_nodup h) hmsplit]
      exact hmem.unlink
    · rw [hfilter, length_erase_of_mem hin, hrep.nmembers h hh]
    · rw [length_erase_of_mem hm, hrep.nmounts]
  · refine relink_edit hh hm (Subset.refl es) ?_ hlinks
    rw [hsplit]
    exact htable.sameLinks_unlink

/-- Entries are unlinked one after the other. -/
theorem Rep.unlinkAll (hrep : T.Rep es hs) (hms : ms.Nodup) (hsub : ms ⊆ es) :
    ∃ T', T.unlinkAll ms = some T' ∧ T'.Rep (es.filter (· ∉ ms)) hs ∧ Edit T T' es hs ∧
      Rehead T T' ms := by
  induction ms generalizing T es with
  | nil =>
    refine ⟨T, rfl, ?_, .refl .., .refl ..⟩
    rw [filter_eq_self.mpr (by simp)]
    exact hrep
  | cons m ms ih =>
    obtain ⟨hnotin, hnd⟩ := nodup_cons.mp hms
    have hm := hsub mem_cons_self
    obtain ⟨T₁, heq₁, hrep₁, hedit₁, hre₁⟩ := hrep.mountUnlink hm
    have hsub₁ : ms ⊆ es.erase m := fun x hx =>
      (hrep.entriesNodup.mem_erase_iff).mpr
        ⟨ne_of_mem_of_not_mem hx hnotin, hsub (mem_cons_of_mem m hx)⟩
    obtain ⟨T₂, heq₂, hrep₂, hedit₂, hre₂⟩ := ih hrep₁ hnd hsub₁
    refine ⟨T₂, ?_, ?_, hedit₁.trans (hedit₂.mono erase_subset fun _ hp => hp),
      (hre₁.mono (by simp)).trans (hre₂.mono (subset_cons_self m ms))⟩
    · rw [Table.unlinkAll, foldlM_cons, heq₁]
      exact heq₂
    · have hfilter : (es.erase m).filter (· ∉ ms) = es.filter (· ∉ m :: ms) := by
        rw [hrep.entriesNodup.erase_eq_filter, filter_filter]
        refine filter_congr fun x _ => ?_
        simp only [mem_cons, not_or, Bool.decide_and, Bool.and_comm, decide_not,
          Bool.beq_eq_decide_eq, bne]
      rwa [hfilter] at hrep₂

end Table

end Thylacine
