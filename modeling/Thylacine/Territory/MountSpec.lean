import Thylacine.Territory.Passes

/-!
# What a Mount Does to a Table

`Ok T es hs` is the invariant of a table: it consists of the entries `es` and the points `hs`,
every point has a member, and its listing obeys the rules. `Moves` is what an operation on one
table means to the others: it touches no node that another table has in use.

## Main results

* `Ok.mount`: `mount` edits the listing as `Listing.mount` says, or it refuses and leaves the
  listing and all references as they were.
-/

namespace Thylacine

open DoublyLinked List Listing PointerChain Relation Worklist
open Option (bind_some ext isSome_iff_exists mem_toList)

namespace Table

open Function (update update_of_ne update_self)

variable (spoors : SpoorRef → Spoor)

/-- The invariant of a table. -/
structure Ok (T : Table) (es : List MountRef) (hs : List HeadRef) : Prop where
  rep : T.Rep es hs
  hosts : ∀ h ∈ hs, seq (es.map T.entryOf) (T.key h) ≠ []
  rules : Listing.Rules spoors (es.map T.entryOf)

/-- A table becomes one with entries `es'` and points `hs'`: its nodes are in use, others' are not
touched. -/
structure Moves (T : Table) (es : List MountRef) (hs : List HeadRef) (T' : Table)
    (es' : List MountRef) (hs' : List HeadRef) : Prop where
  entries : ∀ m ∈ es', m ∈ T'.mountLive
  points : ∀ h ∈ hs', h ∈ T'.headLive
  entry : ∀ m ∈ T.mountLive, m ∉ es → m ∈ T'.mountLive ∧ m ∉ es'
  point : ∀ h ∈ T.headLive, h ∉ hs → h ∈ T'.headLive ∧ h ∉ hs'
  same : ∃ ms ps, SameOff T.toNsMem T'.toNsMem ms ps ∧ (∀ m ∈ T.mountLive, m ∉ es → m ∉ ms) ∧
    ∀ h ∈ T.headLive, h ∉ hs → h ∉ ps

variable {spoors} {T T' T₁ : Table} {es es' dead : List MountRef} {hs hs' : List HeadRef}
  {m e c : MountRef} {h p : HeadRef} {source mountpoint : SpoorRef} {flags : UInt32} {k : MKey}

theorem Ok.empty (M : NsMem) : Ok spoors { M with toNsTable := .empty } [] [] :=
  ⟨rep_empty M 0, nofun, .nil⟩

/-! ### Preparing an entry -/

section

variable (T : Table) (m : MountRef) (source : SpoorRef) (path : Option PathRef) (flags : UInt32)

theorem setEntry_sameOff : SameOff T.toNsMem (T.setEntry m source path flags).toNsMem [m] [] := by
  refine ⟨fun x hx => ?_, fun x _ => by cases path <;> exact ⟨rfl, rfl, rfl, rfl, rfl, rfl⟩⟩
  have hne : x ≠ m := ne_of_not_mem_cons hx
  cases path <;> exact ⟨rfl, rfl, rfl, rfl, rfl, update_of_ne hne _ _,
    update_of_ne hne _ _, update_of_ne hne _ _⟩

theorem setEntry_ns : (T.setEntry m source path flags).toNsTable = T.toNsTable := by
  cases path <;> rfl

theorem setEntry_live : (T.setEntry m source path flags).mountLive = T.mountLive ∧
      (T.setEntry m source path flags).headLive = T.headLive := by
  cases path <;> exact ⟨rfl, rfl⟩

theorem setEntry_self : (T.setEntry m source path flags).source m = source ∧
      (T.setEntry m source path flags).mpPath m = path ∧
      (T.setEntry m source path flags).flags m = flags := by
  cases path <;> exact ⟨update_self .., update_self .., update_self ..⟩

theorem setEntry_key : (T.setEntry m source path flags).key = T.key := by cases path <;> rfl

end

/-- An entry is prepared and linked, with its references, and put into the listing. -/
structure Added (T : Table) (es : List MountRef) (hs : List HeadRef) (T' : Table)
    (es' : List MountRef) (new : List MountRef) (L' : Listing) : Prop where
  rep : T'.Rep es' hs
  perm : es'.Perm (new ++ es)
  listing : es'.map T'.entryOf = L'
  balanced : Balanced T es T' es'
  same : SameOff T.toNsMem T'.toNsMem (new ++ es) hs
  mountLive : T'.mountLive = T.mountLive
  headLive : T'.headLive = T.headLive
  key : T'.key = T.key
  root : T'.rootSpoor = T.rootSpoor

section

variable (hrep : T.Rep es hs)
include hrep

theorem Rep.setEntry (hm : m ∉ es) (source : SpoorRef) (path : Option PathRef) (flags : UInt32) :
    (T.setEntry m source path flags).Rep es hs :=
  hrep.congr (setEntry_sameOff ..) (setEntry_ns ..)
    (fun _ hx => by simpa using ne_of_mem_of_not_mem hx hm) fun _ _ => not_mem_nil

theorem Rep.map_entryOf_setEntry (hm : m ∉ es) (source : SpoorRef) (path : Option PathRef)
    (flags : UInt32) :
    es.map (T.setEntry m source path flags).entryOf = es.map T.entryOf :=
  hrep.map_entryOf_congr (setEntry_sameOff ..)
    (fun _ hx => by simpa using ne_of_mem_of_not_mem hx hm) fun _ _ => not_mem_nil

/-- One new entry. -/
theorem Rep.addOne (hh : h ∈ hs) (he : e ∉ es) (hle : es.length < pgrpMountCap) (source : SpoorRef)
    (path : Option PathRef) (flags : UInt32)
    (before : Bool) :
    Added T es hs ((T.setEntry e source path flags).mountLink h e before)
      ((T.setEntry e source path flags).placed es h e before) [e]
      (put (es.map T.entryOf) ⟨T.key h, source, path, flags⟩ before) := by
  have hrep₁ := hrep.setEntry he source path flags
  obtain ⟨hrep₂, hedit, hre, -⟩ := hrep₁.mountLink hh he hle before
  obtain ⟨hsrc, hpath, hflags⟩ := setEntry_self T e source path flags
  obtain ⟨hmlive, hhlive⟩ := setEntry_live T e source path flags
  have hperm := (T.setEntry e source path flags).placed_perm es h e before
  refine ⟨hrep₂, hperm, ?_, ?_, ?_, hedit.mountLive.trans hmlive, hedit.headLive.trans hhlive,
    hre.key.trans (setEntry_key ..), ?_⟩
  · rw [hrep₁.map_entryOf_mountLink hh he hle, hrep.map_entryOf_setEntry he, hsrc, hpath, hflags,
      setEntry_key]
  · exact ((balanced_setEntry he source path flags).trans (balanced_perm hperm.symm)).trans
      (hedit.balanced _)
  · exact ((setEntry_sameOff ..).mono (by simp) (by simp)).trans
      (hedit.same.mono (.refl _) (.refl _))
  · rw [hedit.rootSpoor, setEntry_ns]

/-- Two entries linked one after the other. -/
theorem Rep.linkTwo (hh : h ∈ hs) {a b : MountRef} (ha : a ∉ es) (hb : b ∉ es) (hab : a ≠ b)
    (hle : es.length + 2 ≤ pgrpMountCap) (first second : Bool) :
    ∃ es', ((T.mountLink h a first).mountLink h b second).Rep es' hs ∧ es'.Perm (b :: a :: es) ∧
      es'.map ((T.mountLink h a first).mountLink h b second).entryOf =
      put (put (es.map T.entryOf) ⟨T.key h, T.source a, T.mpPath a, T.flags a⟩
      first) ⟨T.key h, T.source b, T.mpPath b, T.flags b⟩ second ∧
      Edit T ((T.mountLink h a first).mountLink h b second) (b :: a :: es) hs ∧
      ((T.mountLink h a first).mountLink h b second).key = T.key := by
  have hle₁ : es.length < pgrpMountCap := by omega
  obtain ⟨hrep₁, hedit₁, hre₁, -⟩ := hrep.mountLink hh ha hle₁ first
  have hperm₁ := T.placed_perm es h a first
  have hb₁ : b ∉ T.placed es h a first := by
    rw [hperm₁.mem_iff, mem_cons]
    exact fun hmem => hmem.elim (fun heq => hab heq.symm) hb
  have hle₂ : (T.placed es h a first).length < pgrpMountCap := by
    rw [hperm₁.length_eq, length_cons]
    omega
  obtain ⟨hrep₂, hedit₂, hre₂, -⟩ := hrep₁.mountLink hh hb₁ hle₂ second
  have hperm₂ := (T.mountLink h a first).placed_perm (T.placed es h a first) h b second
  refine ⟨_, hrep₂, hperm₂.trans (hperm₁.cons b), ?_, ?_, hre₂.key.trans hre₁.key⟩
  · rw [hrep₁.map_entryOf_mountLink hh hb₁ hle₂, hrep.map_entryOf_mountLink hh ha hle₁, hre₁.key,
      hedit₁.source, hedit₁.mpPath, hedit₁.flags]
  · exact (hedit₁.mono (subset_cons_self b _) (Subset.refl hs)).trans
      (hedit₂.mono (cons_subset_cons b hperm₁.subset) (Subset.refl hs))

/-- A union's first entry, with that of what it covers. -/
theorem Rep.addUnion (hh : h ∈ hs) (he : e ∉ es) (hc : c ∉ es) (hec : e ≠ c)
    (hle : es.length + 2 ≤ pgrpMountCap) (path : Option PathRef)
    (hnone : seq (es.map T.entryOf) (T.key h) = []) (before : Bool) :
    ∃ es', Added T es hs
      (((T.setEntry e source path flags).setEntry c mountpoint path mcovered).placeEntries h e
      (some c) before) es' [e, c]
      (if before then es.map T.entryOf ++ [⟨T.key h, source, path, flags⟩,
      ⟨T.key h, mountpoint, path, mcovered⟩]
      else es.map T.entryOf ++ [⟨T.key h, mountpoint, path, mcovered⟩,
      ⟨T.key h, source, path, flags⟩]) := by
  have hrep₁ := hrep.setEntry he source path flags
  have hrep₂ := hrep₁.setEntry hc mountpoint path mcovered
  have hce : c ∉ e :: es := fun hmem => (mem_cons.mp hmem).elim (fun heq => hec heq.symm) hc
  obtain ⟨T₁, hT₁⟩ : ∃ T₁, T.setEntry e source path flags = T₁ := ⟨_, rfl⟩
  obtain ⟨T₂, hT₂⟩ : ∃ T₂, T₁.setEntry c mountpoint path mcovered = T₂ := ⟨_, rfl⟩
  have hbal : Balanced T es T₂ (c :: e :: es) := by
    rw [← hT₂, ← hT₁]
    exact (balanced_setEntry he source path flags).trans
      (balanced_setEntry hce mountpoint path mcovered)
  have hsame : SameOff T.toNsMem T₂.toNsMem ([e, c] ++ es) hs := by
    rw [← hT₂, ← hT₁]
    exact ((setEntry_sameOff ..).mono (by simp) (by simp)).trans
      ((setEntry_sameOff ..).mono (by simp) (by simp))
  have hmap : es.map T₂.entryOf = es.map T.entryOf := by
    rw [← hT₂, ← hT₁, hrep₁.map_entryOf_setEntry hc, hrep.map_entryOf_setEntry he]
  have hkey : T₂.key = T.key := by rw [← hT₂, ← hT₁, setEntry_key, setEntry_key]
  have hlive : T₂.mountLive = T.mountLive ∧ T₂.headLive = T.headLive := by
    rw [← hT₂, ← hT₁]
    exact ⟨(setEntry_live ..).1.trans (setEntry_live ..).1,
      (setEntry_live ..).2.trans (setEntry_live ..).2⟩
  have hroot : T₂.rootSpoor = T.rootSpoor := by rw [← hT₂, ← hT₁, setEntry_ns, setEntry_ns]
  have hcdata := setEntry_self T₁ c mountpoint path mcovered
  have hedata : T₂.source e = source ∧ T₂.mpPath e = path ∧ T₂.flags e = flags := by
    obtain ⟨-, -, -, -, -, hs', hp', hf'⟩ :=
      (setEntry_sameOff T₁ c mountpoint path mcovered).entry e (by simpa using hec)
    obtain ⟨hs, hp, hf⟩ := setEntry_self T e source path flags
    rw [hT₂] at hs' hp' hf'
    rw [hT₁] at hs hp hf
    exact ⟨hs'.trans hs, hp'.trans hp, hf'.trans hf⟩
  rw [hT₁, hT₂] at hrep₂ ⊢
  rw [hT₂] at hcdata
  have hadd {T' : Table} {es' : List MountRef} {L' : Listing} (hrep' : T'.Rep es' hs)
      (hperm : es'.Perm (c :: e :: es)) (hlist : es'.map T'.entryOf = L')
      (hedit : Edit T₂ T' (c :: e :: es) hs) (hkey' : T'.key = T₂.key) :
      Added T es hs T' es' [e, c] L' :=
    ⟨hrep', hperm.trans (.swap ..), hlist, (hbal.trans (balanced_perm hperm.symm)).trans
      (hedit.balanced es'), hsame.trans (hedit.same.mono (by simp) (Subset.refl hs)),
      hedit.mountLive.trans hlive.1, hedit.headLive.trans hlive.2, hkey'.trans hkey,
      hedit.rootSpoor.trans hroot⟩
  -- in both orders the first link finds no member to stand before, and the second goes last
  cases before with
  | true =>
    obtain ⟨es', hrep', hperm, hlist, hedit, hkey'⟩ := hrep₂.linkTwo hh he hc hec hle true false
    refine ⟨es', hadd hrep' hperm (hlist.trans ?_) hedit hkey'⟩
    rw [hmap, hkey, hedata.1, hedata.2.1, hedata.2.2, hcdata.1, hcdata.2.1, hcdata.2.2,
      put_eq_append (e := ⟨T.key h, source, path, flags⟩) hnone]
    exact append_assoc ..
  | false =>
    obtain ⟨es', hrep', hperm, hlist, hedit, hkey'⟩ :=
      hrep₂.linkTwo hh hc he hec.symm hle false false
    refine ⟨es', hadd hrep' (hperm.trans (.swap ..)) (hlist.trans ?_)
      (hedit.mono ?_ (Subset.refl hs)) hkey'⟩
    · rw [hmap, hkey, hedata.1, hedata.2.1, hedata.2.2, hcdata.1, hcdata.2.1, hcdata.2.2]
      exact append_assoc ..
    · exact (Perm.swap ..).subset

/-- The end of a mount at a point that is hashed. -/
theorem Rep.place (source : SpoorRef) (flags : UInt32) (hh : h ∈ hs)
    (hkey : T.key h = (spoors mountpoint).key) (he : e ∉ es) (hc : c ∉ es) (hec : e ≠ c)
    (union : Bool)
    (hle : es.length + (if union then 2 else 1) ≤ pgrpMountCap)
    (hnone : union = true → seq (es.map T.entryOf) (T.key h) = []) :
    ∃ es', Added T es hs
      ((if union then (T.setEntry e source (spoors mountpoint).path flags).setEntry c mountpoint
      (spoors mountpoint).path mcovered
      else T.setEntry e source (spoors mountpoint).path flags).placeEntries h e
      (if union then some c else none) (hasFlag flags mbefore))
      es' (if union then [e, c] else [e]) (install spoors (es.map T.entryOf) union source mountpoint flags) := by
  rw [install, ← hkey]
  cases union with
  | true => exact hrep.addUnion hh he hc hec hle _ (hnone rfl) _
  | false => exact ⟨_, hrep.addOne hh he hle _ _ _ _⟩

/-- The infallible end of a mount. -/
theorem Rep.mountInstall (source : SpoorRef) (flags : UInt32) (he : e ∉ es) (hc : c ∉ es)
    (hec : e ≠ c) (hp : p ∉ hs) (find : Option HeadRef) (hfind : T.mheadFind (spoors mountpoint).key = find)
    (hpoints : find = none → hs.length < pgrpMountCap)
    (hle : es.length + (if startsUnion find (spoors mountpoint) flags then 2 else 1) ≤
      pgrpMountCap) :
    ∃ T' es', T.mountInstall spoors find source mountpoint flags e c p = (T', find.getD p) ∧
      T'.Rep es' (if find.isNone then p :: hs else hs) ∧
      es'.Perm ((if startsUnion find (spoors mountpoint) flags then [e, c] else [e]) ++ es) ∧
      es'.map T'.entryOf =
      install spoors (es.map T.entryOf) (startsUnion find (spoors mountpoint) flags) source
      mountpoint flags ∧
      Balanced T es T' es' ∧ SameOff T.toNsMem T'.toNsMem (e :: c :: es) (p :: hs) ∧
      T'.mountLive = T.mountLive ∧ T'.headLive = T.headLive ∧ T'.rootSpoor = T.rootSpoor ∧
      T'.key (find.getD p) = (spoors mountpoint).key ∧ ∀ q ∈ hs, T'.key q = T.key q := by
  have hnew (union : Bool) : ((if union then [e, c] else [e]) ++ es) ⊆ e :: c :: es := by
    cases union <;> simp
  cases find with
  | some h =>
    obtain ⟨hh, hkey⟩ := hrep.mheadFind_eq_some.mp hfind
    have hunion : startsUnion (some h) (spoors mountpoint) flags = false := by simp [startsUnion]
    rw [hunion] at hle ⊢
    obtain ⟨es', hadd⟩ := hrep.place source flags hh hkey he hc hec false hle nofun
    refine ⟨_, es', ?_, hadd.rep, hadd.perm, hadd.listing, hadd.balanced,
      hadd.same.mono (hnew false) (subset_cons_self p hs), hadd.mountLive,
      hadd.headLive, hadd.root, ?_, fun q _ => by rw [hadd.key]⟩
    · rw [Table.mountInstall, hunion]
      rfl
    · rw [hadd.key]
      exact hkey
  | none =>
    have hnokey := hrep.mheadFind_eq_none.mp hfind
    obtain ⟨union, hunion⟩ : ∃ union, startsUnion none (spoors mountpoint) flags = union := ⟨_, rfl⟩
    rw [hunion] at hle ⊢
    have hrep₁ := hrep.mheadInsert hp hnokey (hpoints rfl)
    have hkey : (T.mheadInsert p (spoors mountpoint).key).key p = (spoors mountpoint).key :=
      update_self ..
    have hmap : es.map (T.mheadInsert p (spoors mountpoint).key).entryOf = es.map T.entryOf :=
      hrep.map_entryOf_mheadInsert hp
    have hedit := mheadInsert_edit T p (spoors mountpoint).key
    obtain ⟨es', hadd⟩ := hrep₁.place source flags mem_cons_self hkey
      he hc hec union hle fun _ => by
        rw [hkey, hmap]
        exact hrep.seq_eq_nil hnokey
    refine ⟨_, es', ?_, hadd.rep, hadd.perm, ?_, (hedit.balanced es).trans hadd.balanced,
      (hedit.same.mono (by simp) (by simp)).trans (hadd.same.mono (hnew union) (.refl _)),
      hadd.mountLive, hadd.headLive, hadd.root, ?_, fun q hq => ?_⟩
    · rw [Table.mountInstall, hunion]
      cases union <;> rfl
    · rw [hadd.listing, hmap]
    · rw [hadd.key]
      exact hkey
    · rw [hadd.key]
      exact update_of_ne (ne_of_mem_of_not_mem hq hp) _ _

end

/-! ### What a mount displaces -/

section

variable (hok : Ok spoors T es hs)
include hok

/-- `mount` looks for the entry with this key and source. -/
theorem Ok.findPair_eq_some : T.findPair (T.mheadFind k) source = some m ↔
      m ∈ es ∧ (T.entryOf m).isPair k source = true := by
  rw [isPair_iff]
  constructor
  · intro hfind
    obtain ⟨h, hh, hm⟩ := Option.bind_eq_some_iff.mp hfind
    obtain ⟨hhs, hkey⟩ := hok.rep.mheadFind_eq_some.mp hh
    have hmem := mem_of_find?_eq_some hm
    rw [hok.rep.members_eq hhs, mem_membersIn] at hmem
    have hsource := find?_some hm
    exact ⟨hmem.1, (pointKey_of_head hmem.2).trans hkey, decide_eq_true_iff.mp hsource⟩
  · rintro ⟨hm, hkey, hsource⟩
    obtain ⟨h, hh, hhead⟩ := hok.rep.headed m hm
    have hfind : T.mheadFind k = some h :=
      hok.rep.mheadFind_eq_some.mpr ⟨hh, (pointKey_of_head hhead).symm.trans hkey⟩
    have hmem : m ∈ T.members h := by
      rw [hok.rep.members_eq hh]
      exact mem_membersIn.mpr ⟨hm, hhead⟩
    rw [findPair, hfind, bind_some]
    cases hx : (T.members h).find? fun x => decide (T.source x = source) with
    | none => exact absurd (decide_eq_true hsource) (find?_eq_none.mp hx m hmem)
    | some x =>
      have hxm := mem_of_find?_eq_some hx
      rw [hok.rep.members_eq hh, mem_membersIn] at hxm
      have hxs : T.source x = source := by simpa using find?_some hx
      -- the entries of a table are told apart by point and source
      have hnd := hok.rules.pairs
      rw [List.map_map] at hnd
      rw [inj_on_of_nodup_map hnd hxm.1 hm (Prod.ext ((pointKey_of_head hxm.2).trans
        (pointKey_of_head hhead).symm) (hxs.trans hsource.symm))]

theorem Ok.findPair_isSome (source : SpoorRef) (k : MKey) :
    (T.findPair (T.mheadFind k) source).isSome = (es.map T.entryOf).any (·.isPair k source) := by
  rw [Bool.eq_iff_iff, isSome_iff_exists, any_eq_true]
  constructor
  · rintro ⟨m, hm⟩
    obtain ⟨hmem, hpair⟩ := hok.findPair_eq_some.mp hm
    exact ⟨_, mem_map_of_mem hmem, hpair⟩
  · rintro ⟨x, hx, hpair⟩
    obtain ⟨m, hmem, rfl⟩ := mem_map.mp hx
    exact ⟨m, hok.findPair_eq_some.mpr ⟨hmem, hpair⟩⟩

/-- The displaced entries are those the listing loses. -/
theorem Ok.mountDisplaced (k : MKey) (source : SpoorRef) (flags : UInt32) :
    (T.mountDisplaced (T.mheadFind k) source flags).Nodup ∧
      T.mountDisplaced (T.mheadFind k) source flags ⊆ es ∧
      (T.mheadFind k = none → T.mountDisplaced (T.mheadFind k) source flags = []) ∧
      (es.filter (· ∉ T.mountDisplaced (T.mheadFind k) source flags)).map T.entryOf =
      kept (es.map T.entryOf) k source flags := by
  have hfilter (ms : List MountRef) (q : MountEntry → Bool)
      (hq : ∀ x ∈ es, x ∈ ms ↔ q (T.entryOf x) = false) :
      (es.filter (· ∉ ms)).map T.entryOf = (es.map T.entryOf).filter q := by
    rw [filter_map]
    congr 1
    refine filter_congr fun x hx => ?_
    rw [Function.comp_apply, Bool.eq_iff_iff, decide_eq_true_iff, hq x hx, Bool.not_eq_false]
  rw [Table.mountDisplaced, kept]
  cases hasFlag flags mrepl with
  | true =>
    rw [if_pos rfl]
    cases hfind : T.mheadFind k with
    | none =>
      refine ⟨nodup_nil, nil_subset es, fun _ => rfl, hfilter _ _ fun x hx => ?_⟩
      have hnil := hok.rep.seq_eq_nil (hok.rep.mheadFind_eq_none.mp hfind)
      have hne : T.pointKey x ≠ k := fun heq => absurd
        (hnil ▸ mem_seq.mpr ⟨mem_map_of_mem hx, heq⟩) not_mem_nil
      exact iff_of_false not_mem_nil fun h => decide_eq_false_iff_not.mp h hne
    | some h =>
      obtain ⟨hh, hkey⟩ := hok.rep.mheadFind_eq_some.mp hfind
      rw [Option.map_some, Option.getD_some, hok.rep.members_eq hh]
      refine ⟨hok.rep.membersIn_nodup h, fun x hx => (mem_membersIn.mp hx).1,
        fun hnone => absurd hnone (Option.some_ne_none h), hfilter _ _ fun x hx => ?_⟩
      rw [mem_membersIn, and_iff_right hx, hok.rep.head_iff hx hh, hkey,
        decide_eq_false_iff_not, not_not]
      rfl
  | false =>
    rw [if_neg Bool.false_ne_true]
    refine ⟨?_, fun x hx => (hok.findPair_eq_some.mp (mem_toList.mp hx)).1,
      fun hnone => by rw [hnone]; rfl, hfilter _ _ fun x hx => ?_⟩
    · cases T.findPair (T.mheadFind k) source with
      | none => exact nodup_nil
      | some m => exact nodup_singleton m
    · rw [mem_toList, hok.findPair_eq_some, and_iff_right hx, Bool.not_eq_false']

/-- The flags of a pair converge in place. -/
theorem Ok.map_entryOf_setFlags (hpair : T.findPair (T.mheadFind k) source = some m)
    (flags : UInt32) :
    es.map (entryOf { T with flags := update T.flags m flags }) =
      (es.map T.entryOf).map fun x => if x.isPair k source then { x with flags := flags } else x := by
  obtain ⟨hm, hmp⟩ := hok.findPair_eq_some.mp hpair
  rw [List.map_map]
  refine map_congr_left fun x hx => ?_
  rw [Function.comp_apply]
  by_cases hxm : x = m
  · rw [hxm, if_pos hmp]
    change (⟨_, _, _, update T.flags m flags m⟩ : MountEntry) = _
    rw [update_self]
    rfl
  · have hnot : ¬ (T.entryOf x).isPair k source = true := fun hxp =>
      hxm (Option.some.inj ((hok.findPair_eq_some.mpr ⟨hx, hxp⟩).symm.trans hpair))
    rw [if_neg hnot]
    change (⟨_, _, _, update T.flags m flags x⟩ : MountEntry) = _
    rw [update_of_ne hxm]
    rfl

end

/-! ### The part under the lock -/

variable (spoors) in
/-- What `mount` leaves when it drops the lock: entries `es'` and points `hs'`, what it unlinked,
and the nodes not used. -/
structure Result (T : Table) (es : List MountRef) (hs : List HeadRef) (e c : MountRef) (p : HeadRef)
    (out : MountOut) (es' : List MountRef) (hs' : List HeadRef) : Prop where
  ok : Ok spoors out.table es' hs'
  same : SameOff T.toNsMem out.table.toNsMem (e :: c :: es) (p :: hs)
  balanced : Balanced T es out.table (out.dead.entries ++ es')
  mountLive : out.table.mountLive = T.mountLive
  headLive : out.table.headLive = T.headLive
  root : out.table.rootSpoor = T.rootSpoor
  dead : ∀ m ∈ out.dead.entries, m ∈ es ∧ m ∉ es'
  points : out.dead.points = []
  entries : ∀ m ∈ es', m ∈ es ∨ m = e ∧ out.entry = none ∨ m = c ∧ out.covered = none
  heads : ∀ q ∈ hs', q ∈ hs ∨ q = p ∧ out.point = none
  spareEntry : ∀ m, out.entry = some m → m = e
  spareCovered : ∀ m, out.covered = some m → m = c
  sparePoint : ∀ q, out.point = some q → q = p

theorem Visited.ok {T' : Table} (hv : Visited T T' hs) (hok : Ok spoors T es hs)
    (hrep : T'.Rep es hs) : Ok spoors T' es hs := by
  have hkey : T'.key = T.key := hv.congr (·.key) fun _ _ _ => rfl
  exact ⟨hrep, by rw [hv.entryOf_eq, hkey]; exact hok.hosts, by rw [hv.entryOf_eq]; exact hok.rules⟩

/-- A mount that changes nothing but marks, or flags. -/
theorem Visited.result (hv : Visited T T₁ hs) (f : MountRef → UInt32)
    (hf : ∀ m, m ∉ es → f m = T.flags m) (hok : Ok spoors { T₁ with flags := f } es hs) (rc : ℤ) :
    Result spoors T es hs e c p
      ⟨{ T₁ with flags := f }, rc, ⟨[], []⟩, some e, some c, some p⟩ es hs := by
  have hsame : SameOff T.toNsMem { T₁.toNsMem with flags := f } (e :: c :: es) (p :: hs) := by
    have hoff := hv.sameOff.mono (nil_subset es) (subset_cons_self p hs)
    refine ⟨fun m hm => ?_, hoff.point⟩
    have hmes : m ∉ es := fun hmem => hm (mem_cons_of_mem e (mem_cons_of_mem c hmem))
    obtain ⟨a1, a2, a3, a4, a5, a6, a7, -⟩ := hoff.entry m hmes
    exact ⟨a1, a2, a3, a4, a5, a6, a7, hf m hmes⟩
  obtain ⟨v, w, n, rfl⟩ := hv.exists_eq
  exact ⟨hok, hsame, ⟨rfl, rfl⟩, rfl, rfl, rfl, nofun, rfl, fun _ => .inl, fun _ => .inl,
    fun _ h => (Option.some.inj h).symm, fun _ h => (Option.some.inj h).symm,
    fun _ h => (Option.some.inj h).symm⟩

/-- A table has no more points than entries. -/
theorem Ok.points_le (hok : Ok spoors T es hs) : hs.length ≤ es.length := by
  have hsub : hs.map some ⊆ es.map T.head := by
    intro x hx
    obtain ⟨h, hh, rfl⟩ := mem_map.mp hx
    obtain ⟨y, hy⟩ := exists_mem_of_ne_nil _ (hok.hosts h hh)
    rw [← hok.rep.map_membersIn hh] at hy
    obtain ⟨m, hm, -⟩ := mem_map.mp hy
    rw [← (mem_membersIn.mp hm).2]
    exact mem_map_of_mem (mem_membersIn.mp hm).1
  have hnd : (hs.map some).Nodup := hok.rep.headsNodup.map (Option.some_injective _)
  have hle := (hnd.subperm hsub).length_le
  rwa [length_map, length_map] at hle

theorem Ok.find_isNone (hok : Ok spoors T es hs) :
    (T.mheadFind k).isNone = (seq (es.map T.entryOf) k).isEmpty := by
  cases hfind : T.mheadFind k with
  | none =>
    rw [hok.rep.seq_eq_nil (hok.rep.mheadFind_eq_none.mp hfind)]
    rfl
  | some h =>
    obtain ⟨hh, rfl⟩ := hok.rep.mheadFind_eq_some.mp hfind
    exact (isEmpty_eq_false_iff.mpr (hok.hosts h hh)).symm

/-- The displaced entries are unlinked. -/
theorem Ok.unlinkDisplaced (hok : Ok spoors T es hs) (k : MKey) (source : SpoorRef) (flags : UInt32)
    (hdead : T.mountDisplaced (T.mheadFind k) source flags = dead) :
    ∃ T', T.unlinkAll dead = some T' ∧ T'.Rep (es.filter (· ∉ dead)) hs ∧ Edit T T' es hs ∧
      T'.key = T.key ∧ T'.mheadFind k = T.mheadFind k ∧
      (es.filter (· ∉ dead)).map T'.entryOf = kept (es.map T.entryOf) k source flags := by
  obtain ⟨hnd, hsub, -, hkept⟩ := hok.mountDisplaced k source flags
  rw [hdead] at hnd hsub hkept
  obtain ⟨T', hunlink, hrep', hedit, hre⟩ := hok.rep.unlinkAll hnd hsub
  refine ⟨T', hunlink, hrep', hedit, hre.key, ?_, ?_⟩
  · refine ext fun h => ?_
    rw [hrep'.mheadFind_eq_some, hok.rep.mheadFind_eq_some, hre.key]
  · rw [← hkept]
    exact hedit.map_entryOf hre fun m hm => by simpa using (mem_filter.mp hm).2

/-- The entries there were, the displaced ones first. -/
theorem perm_dead_append (hes : es.Nodup) (hnd : dead.Nodup)
    (hsub : dead ⊆ es) : es.Perm (dead ++ es.filter (· ∉ dead)) := by
  have hin : (es.filter (· ∈ dead)).Perm dead := by
    refine (perm_ext_iff_of_nodup (hes.filter _) hnd).mpr fun x => ?_
    rw [mem_filter, decide_eq_true_iff]
    exact ⟨And.right, fun hx => ⟨hsub hx, hx⟩⟩
  have hsplit := filter_append_perm (· ∈ dead) es
  refine hsplit.symm.trans (hin.append ?_)
  simp

/-- The end of a mount with room, after unlinking. -/
theorem Ok.install (hok : Ok spoors T es hs) (he : e ∉ es) (hc : c ∉ es) (hec : e ≠ c) (hp : p ∉ hs) {T₂ : Table} {find : Option HeadRef} {union : Bool}
    (hv : Visited T T₁ hs) (hfind : T₁.mheadFind (spoors mountpoint).key = find)
    (hdead : T₁.mountDisplaced find source flags = dead)
    (hunion : startsUnion find (spoors mountpoint) flags = union)
    (hunlink : T₁.unlinkAll dead = some T₂) (hok₁ : Ok spoors T₁ es hs)
    (hinstall : Listing.mount spoors (es.map T.entryOf) source mountpoint flags =
      Listing.install spoors (kept (es.map T.entryOf) (spoors mountpoint).key source flags)
      union source mountpoint flags)
    (hrules : Rules spoors (Listing.mount spoors (es.map T.entryOf) source mountpoint flags))
    (hroom : T₂.nmounts + (if union then 2 else 1) ≤ pgrpMountCap) :
    ∃ T' es' hs', T₂.mountInstall spoors find source mountpoint flags e c p = (T', find.getD p) ∧
      (T'.first (find.getD p)).isNone = false ∧
      Result spoors T es hs e c p
      ⟨T', 0, ⟨dead, []⟩, none, if union then none else some c,
      if find.isNone then none else some p⟩ es' hs' ∧
      es'.map T'.entryOf = Listing.mount spoors (es.map T.entryOf) source mountpoint flags := by
  obtain ⟨hnd, hsub, hnone, -⟩ := hok₁.mountDisplaced (spoors mountpoint).key source flags
  obtain ⟨T₂', hunlink', hrep₂, hedit₂, hkey₂, hfind₂, hkept₂⟩ :=
    hok₁.unlinkDisplaced (spoors mountpoint).key source flags
      (show T₁.mountDisplaced (T₁.mheadFind (spoors mountpoint).key) source flags = dead by
        rw [hfind, hdead])
  cases hunlink.symm.trans hunlink'
  rw [hfind, hdead] at hnd hsub hnone
  have hsub₂ : es.filter (· ∉ dead) ⊆ es := filter_sublist.subset
  have hlen : (es.filter (· ∉ dead)).length + (if union then 2 else 1) ≤ pgrpMountCap := by
    rw [← hrep₂.nmounts]
    exact hroom
  have hpoints : find = none → hs.length < pgrpMountCap := by
    intro hf
    have hle := hok.points_le
    rw [hnone hf, filter_eq_self.mpr (by simp)] at hlen
    split_ifs at hlen <;> omega
  obtain ⟨T', es', heq, hrep', hperm, hlist, hbal, hsame, hml, hhl, hroot, hkeyp, hkeys⟩ :=
    hrep₂.mountInstall source flags (fun h => he (hsub₂ h))
      (fun h => hc (hsub₂ h)) hec hp find (hfind₂.trans hfind) hpoints (by rw [hunion]; exact hlen)
  rw [hunion] at hperm hlist
  rw [hkept₂, hv.entryOf_eq, ← hinstall] at hlist
  have hkey₁ : T₁.key = T.key := hv.congr (·.key) fun _ _ _ => rfl
  have hnew : ∀ m ∈ es', m ∈ es.filter (· ∉ dead) ∨ m = e ∨ m = c ∧ union = true := by
    intro m hm
    rcases mem_append.mp (hperm.subset hm) with hm | hm
    · right
      cases union <;> simpa using hm
    · exact .inl hm
  have hmounted : seq (es'.map T'.entryOf) (spoors mountpoint).key ≠ [] := by
    obtain ⟨x, hx, hpair⟩ := exists_pair_mount spoors (es.map T.entryOf) source mountpoint flags
    rw [hlist]
    exact ne_nil_of_mem (mem_seq.mpr ⟨hx, (isPair_iff.mp hpair).1⟩)
  have hhd : find.getD p ∈ (if find.isNone then p :: hs else hs) := by
    cases hf : find with
    | none => exact mem_cons_self
    | some => exact (hok₁.rep.mheadFind_eq_some.mp (hfind.trans hf)).1
  have hcases : ∀ q ∈ (if find.isNone then p :: hs else hs), q ∈ hs ∨ q = p ∧ find.isNone = true := by
    intro q hq
    split_ifs at hq with hf
    · exact (mem_cons.mp hq).elim (fun h => .inr ⟨h, hf⟩) .inl
    · exact .inl hq
  refine ⟨T', es', _, heq, ?_, ⟨⟨hrep', fun q hq => ?_, hlist ▸ hrules⟩, ?_, ?_,
    hml.trans (hedit₂.mountLive.trans (hv.congr (·.mountLive) fun _ _ _ => rfl)),
    hhl.trans (hedit₂.headLive.trans (hv.congr (·.headLive) fun _ _ _ => rfl)),
    hroot.trans (hedit₂.rootSpoor.trans (hv.congr (·.rootSpoor) fun _ _ _ => rfl)), fun m hm => ⟨hsub hm, fun hmem => ?_⟩, rfl,
    fun m hm => ?_, fun q hq => ?_, nofun, fun m hm => ?_, fun q hq => ?_⟩, hlist⟩
  · -- the point has a member
    rw [← hkeyp, ne_eq, ← hrep'.first_eq_none_iff hhd, ← Option.isNone_iff_eq_none] at hmounted
    exact Bool.eq_false_iff.mpr hmounted
  · rcases hcases q hq with hq | ⟨rfl, hf⟩
    · rw [hkeys q hq, hkey₂, hkey₁, hlist]
      exact seq_mount_ne_nil (hok.hosts q hq)
    · rw [Option.isNone_iff_eq_none.mp hf] at hkeyp
      rwa [show T'.key q = (spoors mountpoint).key from hkeyp]
  · exact (hv.sameOff.mono (nil_subset _) (subset_cons_self p hs)).trans
      ((hedit₂.same.mono (by simp) (subset_cons_self p hs)).trans
        (hsame.mono (cons_subset_cons e (cons_subset_cons c hsub₂)) (.refl _)))
  · have hperm₁ := perm_dead_append hok.rep.entriesNodup hnd hsub
    refine (((hv.balanced es).trans (balanced_perm hperm₁)).trans (hedit₂.balanced _)).trans
      (hbal.append_left fun m hm => ?_)
    have hnot : m ∉ e :: c :: es.filter (· ∉ dead) := by
      simp only [mem_cons, mem_filter, decide_eq_true_eq, not_or, not_and, not_not]
      exact ⟨fun h => he (h ▸ hsub hm), fun h => hc (h ▸ hsub hm), fun _ => hm⟩
    obtain ⟨-, -, -, -, -, hs', hp', -⟩ := hsame.entry m hnot
    exact ⟨hs', hp'⟩
  · rcases hnew m hmem with hold | rfl | ⟨rfl, -⟩
    · exact absurd hm (by simpa using (mem_filter.mp hold).2)
    · exact he (hsub hm)
    · exact hc (hsub hm)
  · exact (hnew m hm).imp (hsub₂ ·) (.imp (⟨·, rfl⟩) fun ⟨hmc, hu⟩ => ⟨hmc, if_pos hu⟩)
  · exact (hcases q hq).imp_right fun ⟨hqp, hf⟩ => ⟨hqp, if_pos hf⟩
  · change (if union then none else some c) = some m at hm
    split_ifs at hm
    exact (Option.some.inj hm).symm
  · change (if find.isNone then none else some p) = some q at hq
    split_ifs at hq
    exact (Option.some.inj hq).symm

/-- **`mount` under the lock** takes a step of the listing. -/
theorem Ok.mountLocked (hok : Ok spoors T es hs) (source mountpoint : SpoorRef) (he : e ∉ es) (hc : c ∉ es) (hec : e ≠ c)
    (hp : p ∉ hs) (hflags : hasFlag flags mcovered = false) :
    ∃ out es' hs', T.mountLocked spoors source mountpoint flags e c p = some out ∧
      Result spoors T es hs e c p out es' hs' ∧
      MountStep spoors (es.map T.entryOf) source mountpoint flags out.rc
      (es'.map out.table.entryOf) := by
  obtain ⟨found, T₁, hcycle, hv, hrep₁, hfound⟩ := wouldCreateMountCycle_spec
    (spoors source).key (spoors mountpoint).key hok.rep
    fun x hx hcov => (hok.rules.covered x hx hcov).2
  have hok₁ := hv.ok hok hrep₁
  have hentry := hv.entryOf_eq
  have hTflags : T₁.flags = T.flags := hv.congr (·.flags) fun _ _ _ => rfl
  rw [Table.mountLocked, hcycle]
  simp only [Option.bind_eq_bind, bind_some]
  cases found with
  | true =>
    refine ⟨_, es, hs, rfl, hv.result T₁.flags (fun m _ => by rw [hTflags]) hok₁ _, ?_⟩
    rw [hentry]
    exact .cycle (hfound.mp rfl)
  | false =>
    have hpath := fun h => Bool.false_ne_true (hfound.mpr h)
    have hrules := hok.rules.mount hflags hpath
    rw [if_neg nofun]
    obtain ⟨find, hfind⟩ : ∃ find, T₁.mheadFind (spoors mountpoint).key = find := ⟨_, rfl⟩
    have hsome := hok₁.findPair_isSome source (spoors mountpoint).key
    rw [hfind, hentry] at hsome
    rw [hfind]
    split
    · -- the pair is there, and no place is asked for
      rename_i m hpair hord
      have hrepl : hasFlag flags mrepl = false := by
        by_contra hne
        rw [if_pos (eq_true_of_ne_false hne)] at hpair
        cases hpair
      rw [if_neg (by rw [hrepl]; nofun)] at hpair
      rw [hpair, Option.isSome_some] at hsome
      have hmount : Listing.mount spoors (es.map T.entryOf) source mountpoint flags =
          es.map (entryOf { T₁ with flags := update T₁.flags m flags }) := by
        rw [hok₁.map_entryOf_setFlags (hfind ▸ hpair), hentry, Listing.mount,
          if_neg (by rw [hrepl]; nofun), if_pos hsome.symm, if_neg (by rw [hord]; nofun)]
      have hm := (hok₁.findPair_eq_some.mp (hfind ▸ hpair)).1
      have hrep' := hok₁.rep
      have hok' : Ok spoors { T₁ with flags := update T₁.flags m flags } es hs := by
        refine ⟨⟨hrep'.table, hrep'.chains, hrep'.keys, hrep'.members, hrep'.nmembers,
          hrep'.headed, hrep'.nmounts, hrep'.npoints, hrep'.visited, hrep'.entriesLe,
          hrep'.pointsLe⟩, fun h hh => ?_, hmount ▸ hrules⟩
        rw [← hmount, ← hentry]
        exact seq_mount_ne_nil (hok₁.hosts h hh)
      refine ⟨_, es, hs, rfl, hv.result (update T₁.flags m flags) (fun x hx => ?_) hok' 0, ?_⟩
      · rw [update_of_ne (ne_of_mem_of_not_mem hm hx).symm, hTflags]
      · rw [← hmount]
        refine .mounted hpath ?_
        rw [hmount, length_map]
        exact hok.rep.entriesLe
    · rename_i hother
      have hstay : hasFlag flags mrepl = false →
          (es.map T.entryOf).any (·.isPair (spoors mountpoint).key source) = true →
          hasFlag flags (mbefore ||| mafter) = true := by
        intro hrepl hany
        by_contra hord
        obtain ⟨m, hm⟩ := isSome_iff_exists.mp (hsome.trans hany)
        refine hother m ?_ (Bool.not_eq_true _ ▸ hord)
        rw [if_neg (by rw [hrepl]; nofun), hm]
      have hunionEq : startsUnion find (spoors mountpoint) flags =
          (!hasFlag flags mrepl && hasFlag flags (mbefore ||| mafter) &&
            (spoors mountpoint).isDir &&
            (seq (es.map T.entryOf) (spoors mountpoint).key).isEmpty) := by
        rw [startsUnion, ← hentry, ← hok₁.find_isNone, hfind]
      have hinstall := mount_eq_install hstay
      rw [← hunionEq] at hinstall
      obtain ⟨union, hunion⟩ : ∃ union, startsUnion find (spoors mountpoint) flags = union :=
        ⟨_, rfl⟩
      obtain ⟨dead, hdead⟩ : ∃ dead, T₁.mountDisplaced find source flags = dead := ⟨_, rfl⟩
      obtain ⟨T₂, hunlink, hrep₂, -, -, -, hkept₂⟩ :=
        hok₁.unlinkDisplaced (spoors mountpoint).key source flags (hfind.symm ▸ hdead)
      rw [hunion] at hinstall ⊢
      have hlength : (Listing.mount spoors (es.map T.entryOf) source mountpoint flags).length =
          T₂.nmounts + if union then 2 else 1 := by
        rw [hinstall, length_install, hrep₂.nmounts, ← length_map (f := T₂.entryOf), hkept₂, hentry]
      rw [hdead, hunlink, bind_some]
      by_cases hroom : T₂.nmounts + (if union then 2 else 1) > pgrpMountCap
      · -- a mount that displaces something finds its room
        obtain ⟨-, hsub, hnone, -⟩ := hok₁.mountDisplaced (spoors mountpoint).key source flags
        rw [hfind, hdead] at hsub hnone
        have hempty : dead = [] := by
          by_contra hne
          obtain ⟨x, hx⟩ := exists_mem_of_ne_nil _ hne
          have hlt : (es.filter (· ∉ dead)).length < es.length :=
            length_filter_lt_length_iff_exists.mpr ⟨x, hsub hx, by simpa using hx⟩
          have hle := hok.rep.entriesLe
          have hfalse : union = false := by
            cases hf : find with
            | none => exact absurd (hnone hf) hne
            | some => rw [← hunion, hf]; simp [startsUnion]
          rw [hfalse, hrep₂.nmounts, if_neg nofun] at hroom
          omega
        subst hempty
        obtain rfl : T₁ = T₂ := Option.some.inj hunlink
        have hhosted : ¬ ((find.bind T₁.first).isNone = true ∧ find.isSome = true) := by
          rintro ⟨hnofirst, hsomeFind⟩
          obtain ⟨h, rfl⟩ := isSome_iff_exists.mp hsomeFind
          have hh := (hok₁.rep.mheadFind_eq_some.mp hfind).1
          exact hok₁.hosts h hh
            ((hok₁.rep.first_eq_none_iff hh).mp (Option.isNone_iff_eq_none.mp hnofirst))
        rw [if_pos hroom, if_neg hhosted]
        refine ⟨_, es, hs, rfl, hv.result T₁.flags (fun m _ => by rw [hTflags]) hok₁ _, ?_⟩
        rw [hentry]
        exact .full hpath (hlength ▸ hroom)
      · rw [if_neg hroom]
        obtain ⟨T', es', hs', heq, hfirst, hresult, hlist⟩ := hok.install he hc hec hp hv hfind hdead
          hunion hunlink hok₁ hinstall hrules (Nat.le_of_not_gt hroom)
        rw [heq]
        rw [hfirst]
        refine ⟨_, es', hs', rfl, hresult, ?_⟩
        rw [hlist]
        exact .mounted hpath (hlength.trans_le (Nat.le_of_not_gt hroom))

/-! ### The whole call -/

theorem SameTable.ok (hsame : SameTable T T') (hok : Ok spoors T es hs) : Ok spoors T' es hs := by
  have hkey : T'.key = T.key := by
    obtain ⟨⟨_, _, _, _, hm⟩, -⟩ := hsame
    rw [hm]
  refine ⟨hsame.rep hok.rep, ?_, ?_⟩
  · rw [hsame.entryOf, hkey]
    exact hok.hosts
  · rw [hsame.entryOf]
    exact hok.rules

section

variable (T : Table) (entries : Finset MountRef) (points : Finset HeadRef)

/-- An allocated entry was not in use. -/
theorem mountNodeAlloc_spec (pick : Option MountRef) :
    ∃ r, (T.withNodes entries points).mountNodeAlloc pick =
      (T.withNodes (entries ∪ r.toList.toFinset) points, r) ∧ ∀ m, r = some m → m ∉ entries := by
  cases pick with
  | none => exact ⟨none, by simp [mountNodeAlloc], nofun⟩
  | some m =>
    rw [mountNodeAlloc]
    split_ifs with hm
    · exact ⟨none, by simp [withNodes], nofun⟩
    · exact ⟨some m, by simp [withNodes], fun x hx => Option.some.inj hx ▸ hm⟩

/-- An allocated point was not in use. -/
theorem mheadNodeAlloc_spec (pick : Option HeadRef) :
    ∃ r, (T.withNodes entries points).mheadNodeAlloc pick =
      (T.withNodes entries (points ∪ r.toList.toFinset), r) ∧ ∀ h, r = some h → h ∉ points := by
  cases pick with
  | none => exact ⟨none, by simp [mheadNodeAlloc], nofun⟩
  | some h =>
    rw [mheadNodeAlloc]
    split_ifs with hh
    · exact ⟨none, by simp [withNodes], nofun⟩
    · exact ⟨some h, by simp [withNodes], fun x hx => Option.some.inj hx ▸ hh⟩

end

/-- Spare nodes are given back. -/
theorem freeNodes_eq (T : Table) (a b : Option MountRef) (q : Option HeadRef) :
    ((T.mountFree a).mountFree b).mheadFree q =
      T.withNodes ((T.mountLive \ a.toList.toFinset) \ b.toList.toFinset)
      (T.headLive \ q.toList.toFinset) := by
  rw [mountFree_eq, mountFree_eq, mheadFree_eq]
  rfl

theorem SameTable.root (hsame : SameTable T T') : T'.rootSpoor = T.rootSpoor := by rw [hsame.ns]

/-- A table keeps its nodes, and others keep theirs. -/
theorem Moves.keep (hsame : SameTable T T') (hentries : ∀ m ∈ es, m ∈ T.mountLive)
    (hpoints : ∀ h ∈ hs, h ∈ T.headLive) (hml : T.mountLive ⊆ T'.mountLive)
    (hhl : T.headLive ⊆ T'.headLive) : Moves T es hs T' es hs where
  entries := fun m hm => hml (hentries m hm)
  points := fun h hh => hhl (hpoints h hh)
  entry := fun _ hm hnot => ⟨hml hm, hnot⟩
  point := fun _ hh hnot => ⟨hhl hh, hnot⟩
  same := ⟨[], [], hsame.sameOff [] [], fun _ _ _ => not_mem_nil, fun _ _ _ => not_mem_nil⟩

theorem Moves.refl (hentries : ∀ m ∈ es, m ∈ T.mountLive) (hpoints : ∀ h ∈ hs, h ∈ T.headLive) :
    Moves T es hs T es hs :=
  .keep (.refl T) hentries hpoints (fun _ h => h) fun _ h => h

/-- Nodes not used are freed, and what was unlinked released. -/
theorem Result.finish {T₀ : Table} {out : MountOut}
    (hres : Result spoors T es hs e c p out es' hs') (hentries : ∀ m ∈ es, m ∈ T₀.mountLive)
    (hpoints : ∀ h ∈ hs, h ∈ T₀.headLive) (hsame : SameTable T₀ T) (he : e ∉ T₀.mountLive)
    (hc : c ∉ T₀.mountLive) (hec : e ≠ c) (hp : p ∉ T₀.headLive)
    (hml : ∀ m, m ∈ T.mountLive ↔ m ∈ T₀.mountLive ∨ m = e ∨ m = c)
    (hhl : ∀ h, h ∈ T.headLive ↔ h ∈ T₀.headLive ∨ h = p) {T' : Table}
    (hT' : (((out.table.mountDeadRelease out.dead).mountFree out.entry).mountFree
      out.covered).mheadFree out.point = T') :
    Ok spoors T' es' hs' ∧ Moves T₀ es hs T' es' hs' ∧ Balanced T es T' es' ∧
      T'.rootSpoor = T.rootSpoor ∧ T'.entryOf = out.table.entryOf := by
  obtain ⟨hs₄, hb₄, hm₄, hh₄⟩ := mountDeadRelease_spec out.table out.dead es'
  rw [freeNodes_eq] at hT'
  have hall : SameTable out.table T' := hT' ▸ hs₄.withNodes ..
  have hlive (m : MountRef) : m ∈ T'.mountLive ↔ (m ∈ T₀.mountLive ∨ m = e ∨ m = c) ∧
      m ∉ out.dead.entries ∧ out.entry ≠ some m ∧ out.covered ≠ some m := by
    rw [← hT', withNodes, hm₄, hres.mountLive]
    simp only [Finset.mem_sdiff, mem_toFinset, mem_toList, hml, and_assoc]
  have hheads (h : HeadRef) : h ∈ T'.headLive ↔ (h ∈ T₀.headLive ∨ h = p) ∧ out.point ≠ some h := by
    rw [← hT', withNodes, hh₄, hres.headLive, hres.points]
    simp only [toFinset_nil, Finset.sdiff_empty, Finset.mem_sdiff, mem_toFinset, mem_toList, hhl]
  refine ⟨hall.ok hres.ok, ?_, hres.balanced.trans (hb₄.trans (hT' ▸ ⟨rfl, rfl⟩)), hall.root.trans hres.root,
    hall.entryOf⟩
  constructor
  · intro m hm
    rw [hlive]
    have hdead : m ∉ out.dead.entries := fun hd => (hres.dead m hd).2 hm
    rcases hres.entries m hm with hold | ⟨rfl, hnone⟩ | ⟨rfl, hnone⟩
    · have hmlive := hentries m hold
      exact ⟨.inl hmlive, hdead, fun h => he (hres.spareEntry m h ▸ hmlive),
        fun h => hc (hres.spareCovered m h ▸ hmlive)⟩
    · exact ⟨.inr (.inl rfl), hdead, hnone ▸ (Option.some_ne_none m).symm,
        fun h => hec (hres.spareCovered m h)⟩
    · exact ⟨.inr (.inr rfl), hdead, fun h => hec (hres.spareEntry m h).symm,
        hnone ▸ (Option.some_ne_none m).symm⟩
  · intro h hh
    rw [hheads]
    rcases hres.heads h hh with hold | ⟨rfl, hnone⟩
    · exact ⟨.inl (hpoints h hold), fun hq => hp (hres.sparePoint h hq ▸ hpoints h hold)⟩
    · exact ⟨.inr rfl, hnone ▸ (Option.some_ne_none h).symm⟩
  · intro m hm hnot
    rw [hlive]
    refine ⟨⟨.inl hm, fun hd => hnot (hres.dead m hd).1, fun h => he (hres.spareEntry m h ▸ hm),
      fun h => hc (hres.spareCovered m h ▸ hm)⟩, fun hmem => ?_⟩
    rcases hres.entries m hmem with hold | ⟨rfl, -⟩ | ⟨rfl, -⟩
    · exact hnot hold
    · exact he hm
    · exact hc hm
  · intro h hh hnot
    rw [hheads]
    refine ⟨⟨.inl hh, fun hq => hp (hres.sparePoint h hq ▸ hh)⟩, fun hmem => ?_⟩
    rcases hres.heads h hmem with hold | ⟨rfl, -⟩
    · exact hnot hold
    · exact hp hh
  · refine ⟨e :: c :: es, p :: hs, ((hsame.sameOff _ _).trans hres.same).trans
      (hall.sameOff _ _), fun m hm hnot => ?_, fun h hh hnot => ?_⟩
    · simp only [mem_cons, not_or]
      exact ⟨fun heq => he (heq ▸ hm), fun heq => hc (heq ▸ hm), hnot⟩
    · simp only [mem_cons, not_or]
      exact ⟨fun heq => hp (heq ▸ hh), hnot⟩

/-- **`mount`** takes a step of the listing, or refuses for want of arguments or memory. -/
theorem Ok.mount (hok : Ok spoors T es hs) (hentries : ∀ m ∈ es, m ∈ T.mountLive)
    (hpoints : ∀ h ∈ hs, h ∈ T.headLive) (hflags : hasFlag flags mcovered = false)
    (mem : MountAlloc) (source mountpoint : Option SpoorRef) :
    ∃ T' rc es' hs', T.mount spoors mem source mountpoint flags = some (T', rc) ∧
      Ok spoors T' es' hs' ∧ Moves T es hs T' es' hs' ∧ Balanced T es T' es' ∧
      T'.rootSpoor = T.rootSpoor ∧
      MountCall spoors (es.map T.entryOf) source mountpoint flags rc
      (es'.map T'.entryOf) := by
  cases source with
  | none => exact ⟨T, -1, es, hs, rfl, hok, .refl hentries hpoints, .refl T es, rfl, .null (.inl rfl)⟩
  | some source =>
  cases mountpoint with
  | none => exact ⟨T, -1, es, hs, rfl, hok, .refl hentries hpoints, .refl T es, rfl, .null (.inr rfl)⟩
  | some mountpoint =>
  rw [Table.mount]
  -- the three allocations
  obtain ⟨entry, (hA₁ : T.mountNodeAlloc mem.entry = _), hnew₁⟩ :=
    mountNodeAlloc_spec T T.mountLive T.headLive mem.entry
  obtain ⟨covered, hA₂, hnew₂⟩ := mountNodeAlloc_spec T _ T.headLive mem.covered
  obtain ⟨point, hA₃, hpt⟩ := mheadNodeAlloc_spec T _ T.headLive mem.point
  rw [hA₁]
  dsimp only
  rw [hA₂]
  rw [hA₃]
  dsimp only
  obtain ⟨T₃, hT₃⟩ : ∃ T₃, T.withNodes
    ((T.mountLive ∪ entry.toList.toFinset) ∪ covered.toList.toFinset)
      (T.headLive ∪ point.toList.toFinset) = T₃ := ⟨_, rfl⟩
  rw [hT₃]
  have hsame : SameTable T T₃ := hT₃ ▸ (SameTable.refl T).withNodes ..
  have hbal : Balanced T es T₃ es := hT₃ ▸ balanced_withNodes ..
  have hml : ∀ m, m ∈ T₃.mountLive ↔ m ∈ T.mountLive ∨ entry = some m ∨ covered = some m := by
    intro m
    rw [← hT₃]
    simp [withNodes]
  have hhl : ∀ h, h ∈ T₃.headLive ↔ h ∈ T.headLive ∨ point = some h := by
    intro h
    rw [← hT₃]
    simp [withNodes]
  have hcov : ∀ m, covered = some m → m ∉ T.mountLive ∧ entry ≠ some m := by
    intro m hm
    have hnot := hnew₂ m hm
    rw [Finset.mem_union] at hnot
    exact ⟨fun h => hnot (.inl h), fun h => hnot (.inr (by simp [h]))⟩
  have hok₃ := hsame.ok hok
  split
  · rename_i e c h
    have he : e ∉ T.mountLive := hnew₁ e rfl
    have hc : c ∉ T.mountLive := (hcov c rfl).1
    have hec : e ≠ c := fun heq => (hcov c rfl).2 (congrArg some heq)
    have hp : h ∉ T.headLive := hpt h rfl
    obtain ⟨out, es', hs', hlocked, hres, hstep⟩ := hok₃.mountLocked source mountpoint
      (fun h => he (hentries e h)) (fun h => hc (hentries c h)) hec
      (fun hin => hp (hpoints h hin)) hflags
    rw [hlocked]
    obtain ⟨hok', hmoves, hbal', hroot', hentry⟩ := hres.finish hentries hpoints hsame he hc hec hp
      (fun m => by simpa [eq_comm] using hml m) (fun q => by simpa [eq_comm] using hhl q) rfl
    refine ⟨_, _, es', hs', rfl, hok', hmoves, hbal.trans hbal', hroot'.trans hsame.root,
      .locked rfl rfl ?_⟩
    rw [hentry, ← hsame.entryOf]
    exact hstep
  · rw [freeNodes_eq]
    have hall := hsame.withNodes ((T₃.mountLive \ entry.toList.toFinset) \ covered.toList.toFinset)
      (T₃.headLive \ point.toList.toFinset)
    refine ⟨_, _, es, hs, rfl, hall.ok hok, .keep hall hentries hpoints (fun m hm => ?_)
      (fun h hh => ?_), hbal.trans ⟨rfl, rfl⟩, hall.root, ?_⟩
    · rw [withNodes, Finset.mem_sdiff, Finset.mem_sdiff, hml]
      refine ⟨⟨.inl hm, fun he => hnew₁ m ?_ hm⟩, fun hc => (hcov m ?_).1 hm⟩
      · simpa using he
      · simpa using hc
    · rw [withNodes, Finset.mem_sdiff, hhl]
      refine ⟨.inl hh, fun hp => hpt h ?_ hh⟩
      simpa using hp
    · rw [hall.entryOf]
      exact .nomem

end Table

end Thylacine
