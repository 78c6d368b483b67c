import Thylacine.Territory.TableEdits

/-!
# The Listing of a Table

`entryOf` reads an entry out of memory, and `listing` the whole table. Each edit of the table is
read here as the edit of its listing, so that the operations can be followed on lists.

`owed` and `pathOwed` are the references that a table has not taken for these entries; the edits
that take or drop a reference keep them, with the list of entries that is held.
-/

namespace Thylacine

open DoublyLinked List Listing PointerChain

namespace Table

open Function (update update_of_ne update_self)

/-- The key of the point of an entry. -/
def pointKey (T : Table) (m : MountRef) : MKey := (T.head m).elim ⟨0, 0, 0⟩ T.key

/-- An entry as it stands in memory. -/
def entryOf (T : Table) (m : MountRef) : MountEntry :=
  ⟨T.pointKey m, T.source m, T.mpPath m, T.flags m⟩

/-- The listing of a table. -/
def listing (T : Table) : Listing := T.entries.map T.entryOf

variable {T T' : Table} {es es' ms : List MountRef} {hs : List HeadRef} {m : MountRef}
  {h : HeadRef} {k : MKey}

theorem pointKey_of_head (hm : T.head m = some h) : T.pointKey m = T.key h := by
  rw [pointKey, hm, Option.elim_some]

section

variable (hrep : T.Rep es hs)
include hrep

theorem Rep.listing_eq : T.listing = es.map T.entryOf := by rw [listing, hrep.entries_eq]

/-- The head of an entry is the point with its key. -/
theorem Rep.head_iff (hm : m ∈ es) (hh : h ∈ hs) : T.head m = some h ↔ T.pointKey m = T.key h := by
  refine ⟨pointKey_of_head, fun heq => ?_⟩
  obtain ⟨p, hp, hhead⟩ := hrep.headed m hm
  rw [pointKey_of_head hhead] at heq
  rw [hhead, inj_on_of_nodup_map hrep.keys hp hh heq]

/-- A point's members are its entries in the listing. -/
theorem Rep.map_membersIn (hh : h ∈ hs) :
    (T.membersIn es h).map T.entryOf = seq (es.map T.entryOf) (T.key h) := by
  rw [seq, filter_map]
  congr 1
  refine filter_congr fun m hm => ?_
  rw [Function.comp_apply, decide_eq_decide]
  exact hrep.head_iff hm hh

/-- A point is without members iff its key has no entry. -/
theorem Rep.first_eq_none_iff (hh : h ∈ hs) :
    T.first h = none ↔ seq (es.map T.entryOf) (T.key h) = [] := by
  have hfirst : T.first h = (T.membersIn es h).head? := (hrep.members h hh).first_eq
  rw [← hrep.map_membersIn hh, map_eq_nil_iff, hfirst, head?_eq_none_iff]

theorem Rep.seq_eq_nil (hk : ∀ h ∈ hs, T.key h ≠ k) : seq (es.map T.entryOf) k = [] := by
  refine filter_eq_nil_iff.mpr fun e he => ?_
  obtain ⟨m, hm, rfl⟩ := mem_map.mp he
  obtain ⟨p, hp, hhead⟩ := hrep.headed m hm
  rw [decide_eq_true_iff]
  exact fun heq => hk p hp ((pointKey_of_head hhead).symm.trans heq)

end

/-! ### Entries that an edit does not change -/

theorem entryOf_congr (hkey : T'.pointKey m = T.pointKey m) (hsource : T'.source m = T.source m)
    (hpath : T'.mpPath m = T.mpPath m) (hflags : T'.flags m = T.flags m) :
    T'.entryOf m = T.entryOf m := by
  rw [entryOf, entryOf, hkey, hsource, hpath, hflags]

variable {ps : List HeadRef} {ms' : List MountRef}

theorem Edit.entryOf_eq (hedit : Edit T T' ms ps)
    (hkey : T'.pointKey m = T.pointKey m) : T'.entryOf m = T.entryOf m :=
  entryOf_congr hkey (by rw [hedit.source]) (by rw [hedit.mpPath]) (by rw [hedit.flags])

theorem Rehead.pointKey_eq (hre : Rehead T T' ms) (hm : m ∉ ms) : T'.pointKey m = T.pointKey m := by
  rw [pointKey, pointKey, hre.head m hm, hre.key]

/-- The frame rule for listings. -/
theorem Rep.map_entryOf_congr (hrep : T.Rep es hs)
    (hsame : SameOff T.toNsMem T'.toNsMem ms ps) (hms : ∀ m ∈ es, m ∉ ms)
    (hps : ∀ h ∈ hs, h ∉ ps) : es.map T'.entryOf = es.map T.entryOf := by
  refine map_congr_left fun m hm => ?_
  obtain ⟨-, -, -, -, hhead, hsource, hpath, hflags⟩ := hsame.entry m (hms m hm)
  obtain ⟨h, hh, heq⟩ := hrep.headed m hm
  refine entryOf_congr ?_ hsource hpath hflags
  rw [pointKey_of_head heq, pointKey_of_head (hhead.trans heq)]
  exact (hsame.point h (hps h hh)).2.2.2.1

theorem Rep.map_entryOf_mheadInsert (hrep : T.Rep es hs) (hh : h ∉ hs) :
    es.map (T.mheadInsert h k).entryOf = es.map T.entryOf :=
  hrep.map_entryOf_congr (mheadInsert_edit T h k).same (fun _ _ => not_mem_nil)
    fun _ hp => by simpa using ne_of_mem_of_not_mem hp hh

/-- A linked entry is put into the listing. -/
theorem Rep.map_entryOf_mountLink (hrep : T.Rep es hs) (hh : h ∈ hs) (hm : m ∉ es)
    (hle : es.length < pgrpMountCap) (first : Bool) :
    (T.placed es h m first).map (T.mountLink h m first).entryOf =
      put (es.map T.entryOf) ⟨T.key h, T.source m, T.mpPath m, T.flags m⟩ first := by
  obtain ⟨-, hedit, hre, hhead⟩ := hrep.mountLink hh hm hle first
  have hnew : (T.mountLink h m first).entryOf m = ⟨T.key h, T.source m, T.mpPath m, T.flags m⟩ := by
    rw [entryOf, pointKey_of_head hhead, hre.key, hedit.source, hedit.mpPath, hedit.flags]
  have hold : es.map (T.mountLink h m first).entryOf = es.map T.entryOf :=
    map_congr_left fun x hx => hedit.entryOf_eq
      (hre.pointKey_eq fun hxm => hm (mem_singleton.mp hxm ▸ hx))
  rw [placed, put]
  cases first with
  | true =>
    rw [if_pos rfl, if_pos rfl, map_placeAt, hnew, hold]
    intro x hx
    rw [decide_eq_decide, hrep.head_iff hx hh]
    refine Eq.congr ?_ rfl
    exact hre.pointKey_eq fun hxm => hm (mem_singleton.mp hxm ▸ hx)
  | false =>
    rw [if_neg Bool.false_ne_true, if_neg Bool.false_ne_true, map_append, hold, map_singleton, hnew]

/-- Unlinking leaves the other entries as they are. -/
theorem Edit.map_entryOf (hedit : Edit T T' ms' ps)
    (hre : Rehead T T' ms) (hnot : ∀ m ∈ es, m ∉ ms) : es.map T'.entryOf = es.map T.entryOf :=
  map_congr_left fun m hm => hedit.entryOf_eq (hre.pointKey_eq (hnot m hm))

/-! ### References -/

/-- The references to a Spoor beyond those of `ms`. -/
def owed (T : Table) (ms : List MountRef) (s : SpoorRef) : ℤ :=
  T.spoorRefs s - (ms.map T.source).count s

/-- The references to a Path beyond those of `ms`. -/
def pathOwed (T : Table) (ms : List MountRef) (p : PathRef) : ℤ :=
  T.pathRefs p - (ms.map T.mpPath).count (some p)

/-- A count moves by `d` for what `a` is. -/
theorem update_count {α : Type} [DecidableEq α] (f : α → ℤ) (a x : α) (d : ℤ) :
    update f a (f a + d) x = f x + d * [a].count x := by
  by_cases hx : a = x
  · simp [hx]
  · simp [hx, update_of_ne (Ne.symm hx)]

section

variable (T : Table) (ms : List MountRef)

theorem spoorRefs_spoorRef (t s : SpoorRef) :
    (T.spoorRef t).spoorRefs s = T.spoorRefs s + [t].count s :=
  (update_count ..).trans (by rw [one_mul])

theorem spoorRefs_spoorClunk (t s : SpoorRef) :
    (T.spoorClunk t).spoorRefs s = T.spoorRefs s - [t].count s :=
  (update_count T.spoorRefs t s (-1)).trans (by omega)

theorem pathRefs_pathRef (path : Option PathRef) (p : PathRef) :
    (T.pathRef path).pathRefs p = T.pathRefs p + [path].count (some p) := by
  cases path with
  | none => simp [pathRef]
  | some q => simp [pathRef, update_count, count_singleton]

theorem pathRefs_pathUnref (path : Option PathRef) (p : PathRef) :
    (T.pathUnref path).pathRefs p = T.pathRefs p - [path].count (some p) := by
  cases path with
  | none => simp [pathUnref]
  | some q =>
    have h := count_map_of_injective [q] some (Option.some_injective _) p
    exact (update_count T.pathRefs q p (-1)).trans (by simp only [← h, map]; omega)

theorem owed_spoorRef (t s : SpoorRef) : (T.spoorRef t).owed ms s = T.owed ms s + [t].count s := by
  rw [owed, spoorRefs_spoorRef]
  exact add_sub_right_comm ..

end

/-- The two accounts agree. -/
structure Balanced (T : Table) (ms : List MountRef) (T' : Table) (ms' : List MountRef) : Prop where
  spoors : T'.owed ms' = T.owed ms
  paths : T'.pathOwed ms' = T.pathOwed ms

theorem Balanced.refl (T : Table) (ms : List MountRef) : Balanced T ms T ms := ⟨rfl, rfl⟩

theorem Balanced.trans {T'' : Table} {ms'' : List MountRef} (h : Balanced T ms T' ms')
    (h' : Balanced T' ms' T'' ms'') : Balanced T ms T'' ms'' :=
  ⟨h'.spoors.trans h.spoors, h'.paths.trans h.paths⟩

theorem balanced_perm (hperm : ms.Perm es) : Balanced T ms T es := by
  constructor
  · funext s
    rw [owed, owed, (hperm.map T.source).count_eq]
  · funext p
    rw [pathOwed, pathOwed, (hperm.map T.mpPath).count_eq]

/-- Entries with the same data may be held on both sides. -/
theorem Balanced.append_left {ds : List MountRef} (h : Balanced T ms T' ms')
    (hds : ∀ m ∈ ds, T'.source m = T.source m ∧ T'.mpPath m = T.mpPath m) :
    Balanced T (ds ++ ms) T' (ds ++ ms') := by
  have hsource : ds.map T'.source = ds.map T.source := map_congr_left fun m hm => (hds m hm).1
  have hpath : ds.map T'.mpPath = ds.map T.mpPath := map_congr_left fun m hm => (hds m hm).2
  constructor
  · funext s
    have hs := congrFun h.spoors s
    rw [owed, owed] at hs ⊢
    rw [map_append, map_append, count_append, count_append, hsource]
    omega
  · funext p
    have hp := congrFun h.paths p
    rw [pathOwed, pathOwed] at hp ⊢
    rw [map_append, map_append, count_append, count_append, hpath]
    omega

/-- An edit of links takes and drops no reference. -/
theorem Edit.balanced (hedit : Edit T T' ms' ps) (ms : List MountRef) : Balanced T ms T' ms := by
  constructor
  · funext s
    rw [owed, owed, hedit.spoorRefs, hedit.source]
  · funext p
    rw [pathOwed, pathOwed, hedit.pathRefs, hedit.mpPath]

/-- A new entry takes its references. -/
theorem balanced_setEntry (hm : m ∉ ms) (source : SpoorRef) (path : Option PathRef)
    (flags : UInt32) : Balanced T ms (T.setEntry m source path flags) (m :: ms) := by
  set T' := T.setEntry m source path flags
  have hsource : T'.source = update T.source m source := by cases path <;> rfl
  have hpath : T'.mpPath = update T.mpPath m path := by cases path <;> rfl
  have hrest {γ : Type} (f : MountRef → γ) (v : γ) :
      (m :: ms).map (update f m v) = v :: ms.map f := by
    rw [map_cons, update_self]
    congr 1
    exact map_congr_left fun x hx => update_of_ne (ne_of_mem_of_not_mem hx hm) _ _
  constructor
  · funext s
    have hrefs : T'.spoorRefs = (T.spoorRef source).spoorRefs := by cases path <;> rfl
    rw [owed, owed, hsource, hrest, hrefs, ← singleton_append, count_append, spoorRefs_spoorRef]
    omega
  · funext p
    have hrefs : T'.pathRefs = (T.pathRef path).pathRefs := by cases path <;> rfl
    rw [pathOwed, pathOwed, hpath, hrest, hrefs, ← singleton_append, count_append, pathRefs_pathRef]
    omega

/-! ### Release -/

/-- The release of one unlinked entry. -/
def releaseEntry (T : Table) (m : MountRef) : Table :=
  ((T.pathUnref (T.mpPath m)).spoorClunk (T.source m)).mountFree (some m)

/-- A release changes only references and nodes in use. -/
structure SameTable (T T' : Table) : Prop where
  mem : ∃ refs prefs live hlive, T'.toNsMem = { T.toNsMem with
    spoorRefs := refs, pathRefs := prefs, mountLive := live, headLive := hlive }
  ns : T'.toNsTable = T.toNsTable

theorem SameTable.refl (T : Table) : SameTable T T := ⟨⟨_, _, _, _, rfl⟩, rfl⟩

theorem SameTable.trans {T'' : Table} (h : SameTable T T') (h' : SameTable T' T'') :
    SameTable T T'' := by
  obtain ⟨⟨_, _, _, _, hm⟩, hn⟩ := h
  obtain ⟨⟨_, _, _, _, hm'⟩, hn'⟩ := h'
  exact ⟨⟨_, _, _, _, by rw [hm', hm]⟩, hn'.trans hn⟩

theorem SameTable.sameOff (h : SameTable T T') (ms : List MountRef) (ps : List HeadRef) :
    SameOff T.toNsMem T'.toNsMem ms ps := by
  obtain ⟨⟨_, _, _, _, hm⟩, -⟩ := h
  rw [hm]
  exact ⟨fun _ _ => ⟨rfl, rfl, rfl, rfl, rfl, rfl, rfl, rfl⟩,
    fun _ _ => ⟨rfl, rfl, rfl, rfl, rfl, rfl⟩⟩

theorem SameTable.rep (h : SameTable T T') (hrep : T.Rep es hs) : T'.Rep es hs :=
  hrep.congr (h.sameOff [] []) h.ns (fun _ _ => not_mem_nil) fun _ _ => not_mem_nil

theorem SameTable.entryOf (h : SameTable T T') : T'.entryOf = T.entryOf := by
  obtain ⟨⟨_, _, _, _, hm⟩, -⟩ := h
  obtain ⟨M', N'⟩ := T'
  subst hm
  rfl

variable (T : Table)

section

variable (m : MountRef)

theorem releaseEntry_same : SameTable T (T.releaseEntry m) := by
  rw [releaseEntry]
  cases T.mpPath m <;> exact ⟨⟨_, _, _, _, rfl⟩, rfl⟩

theorem releaseEntry_balanced (ms : List MountRef) :
    Balanced T (m :: ms) (T.releaseEntry m) ms := by
  have hsource : (T.releaseEntry m).source = T.source := by
    rw [releaseEntry]
    cases T.mpPath m <;> rfl
  have hpath : (T.releaseEntry m).mpPath = T.mpPath := by
    rw [releaseEntry]
    cases T.mpPath m <;> rfl
  constructor
  · funext s
    have hrefs : (T.releaseEntry m).spoorRefs = (T.spoorClunk (T.source m)).spoorRefs := by
      rw [releaseEntry]
      cases T.mpPath m <;> rfl
    rw [owed, owed, hsource, hrefs, map_cons, ← singleton_append, count_append,
      spoorRefs_spoorClunk]
    omega
  · funext p
    have hrefs : (T.releaseEntry m).pathRefs = (T.pathUnref (T.mpPath m)).pathRefs := rfl
    rw [pathOwed, pathOwed, hpath, hrefs, map_cons, ← singleton_append, count_append,
      pathRefs_pathUnref]
    omega

theorem releaseEntry_mountLive : (T.releaseEntry m).mountLive = T.mountLive.erase m := by
  rw [releaseEntry]
  cases T.mpPath m <;> rfl

theorem releaseEntry_headLive : (T.releaseEntry m).headLive = T.headLive := by
  rw [releaseEntry]
  cases T.mpPath m <;> rfl

end

theorem foldl_releaseEntry (dead ms : List MountRef) :
    SameTable T (dead.foldl releaseEntry T) ∧ Balanced T (dead ++ ms) (dead.foldl releaseEntry T) ms ∧
      (dead.foldl releaseEntry T).mountLive = T.mountLive \ dead.toFinset ∧
      (dead.foldl releaseEntry T).headLive = T.headLive := by
  induction dead generalizing T with
  | nil => exact ⟨.refl T, .refl T ms, by simp, rfl⟩
  | cons m dead ih =>
    obtain ⟨hsame, hbal, hlive, hheads⟩ := ih (T.releaseEntry m)
    refine ⟨(releaseEntry_same T m).trans hsame, (releaseEntry_balanced T m _).trans hbal, ?_,
      hheads.trans (releaseEntry_headLive T m)⟩
    rw [foldl_cons, hlive, releaseEntry_mountLive, toFinset_cons, Finset.sdiff_insert,
      Finset.erase_sdiff_comm]

/-- The table with other nodes in use. -/
def withNodes (entries : Finset MountRef) (points : Finset HeadRef) : Table :=
  { T with mountLive := entries, headLive := points }

variable {T} in
theorem SameTable.withNodes (h : SameTable T T') (entries : Finset MountRef)
    (points : Finset HeadRef) : SameTable T (T'.withNodes entries points) :=
  h.trans ⟨⟨_, _, entries, points, rfl⟩, rfl⟩

theorem balanced_withNodes (ms : List MountRef) (entries : Finset MountRef)
    (points : Finset HeadRef) : Balanced T ms (T.withNodes entries points) ms := ⟨rfl, rfl⟩

theorem mountFree_eq (p : Option MountRef) :
    T.mountFree p = T.withNodes (T.mountLive \ p.toList.toFinset) T.headLive := by
  cases p <;> simp [mountFree, withNodes, Finset.sdiff_singleton_eq_erase]

theorem mheadFree_eq (p : Option HeadRef) :
    T.mheadFree p = T.withNodes T.mountLive (T.headLive \ p.toList.toFinset) := by
  cases p <;> simp [mheadFree, withNodes, Finset.sdiff_singleton_eq_erase]

theorem foldl_mountFree (dead : List MountRef) : dead.foldl (fun T m => T.mountFree (some m)) T =
      T.withNodes (T.mountLive \ dead.toFinset) T.headLive := by
  induction dead generalizing T with
  | nil => simp [withNodes]
  | cons m dead ih =>
    rw [foldl_cons, ih, mountFree_eq, toFinset_cons]
    exact congrArg (T.withNodes · T.headLive) sdiff_sdiff_left

theorem foldl_mheadFree (dead : List HeadRef) : dead.foldl (fun T h => T.mheadFree (some h)) T =
      T.withNodes T.mountLive (T.headLive \ dead.toFinset) := by
  induction dead generalizing T with
  | nil => simp [withNodes]
  | cons h dead ih =>
    rw [foldl_cons, ih, mheadFree_eq, toFinset_cons]
    exact congrArg (T.withNodes T.mountLive) sdiff_sdiff_left

/-- The release drops one reference for **each** unlinked entry. -/
theorem mountDeadRelease_spec (d : MountDead) (ms : List MountRef) :
    SameTable T (T.mountDeadRelease d) ∧ Balanced T (d.entries ++ ms) (T.mountDeadRelease d) ms ∧
      (T.mountDeadRelease d).mountLive = T.mountLive \ d.entries.toFinset ∧
      (T.mountDeadRelease d).headLive = T.headLive \ d.points.toFinset := by
  obtain ⟨hsame, hbal, hlive, hheads⟩ := foldl_releaseEntry T d.entries ms
  have heq : T.mountDeadRelease d = (d.entries.foldl releaseEntry T).withNodes _ _ :=
    foldl_mheadFree _ d.points
  rw [heq]
  exact ⟨hsame.withNodes .., hbal.trans (balanced_withNodes ..), hlive, by rw [← hheads]; rfl⟩

end Table

end Thylacine
